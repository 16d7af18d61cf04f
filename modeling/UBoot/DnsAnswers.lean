import UBoot.Dns

/-!
Responses to a query: the question, any number of CNAME records and an A record, whose owners may be written in
every form. The handler finds the address exactly when no owner hides the type of its record (`dns_answer_iff`).
-/
namespace UBoot.DnsAnswers
open List CStrings CNumbers Dns

variable {pkt : Nat → UInt8} {p : Nat} {labels : List Label}

/-! ### Responses -/

structure Label where
  bytes : List UInt8
  nonempty : bytes ≠ []
  short : bytes.length ≤ 63

def Label.encode (l : Label) : List UInt8 := UInt8.ofNat l.bytes.length :: l.bytes

/-- A name ends with an empty label, or with a pointer to another name. -/
inductive Ending
  | root
  | pointer (hi lo : UInt8) (mark : 0xc0 ≤ hi)

def Ending.encode : Ending → List UInt8
  | .root => [0]
  | .pointer hi lo _ => [hi,lo]

structure Name where
  labels : List Label
  ending : Ending

def Name.encode (n : Name) : List UInt8 := n.labels.flatMap Label.encode ++ n.ending.encode

def be16 (n : Nat) : List UInt8 := [UInt8.ofNat (n / 256),UInt8.ofNat n]

/-- The owner, the time to live and the data of a record, whose length fits into its field. -/
structure Record where
  owner : Name
  ttl : UInt8 × UInt8 × UInt8 × UInt8
  data : List UInt8
  fits : data.length < 2 ^ 16

def Record.encode (type : Nat) (r : Record) : List UInt8 :=
  r.owner.encode ++ (be16 type ++ [0,1,r.ttl.1,r.ttl.2.1,r.ttl.2.2.1,r.ttl.2.2.2] ++ be16 r.data.length ++ r.data)

/-- A host name as labels without dots, so that the query is well formed. -/
structure Host where
  labels : List Label
  nonempty : labels ≠ []
  plain : ∀ l ∈ labels, dot ∉ l.bytes ∧ 0 ∉ l.bytes

def Host.text (h : Host) : List UInt8 := [dot].intercalate (h.labels.map Label.bytes)

/-- A response; `more` is what follows the A record, which may be other answers. -/
structure Response (host : Host) where
  tid : UInt8 × UInt8
  flags : UInt8 × UInt8
  nanswers : Nat
  nauth : Nat
  nother : Nat
  cnames : List Record
  owner : Name
  ttl : UInt8 × UInt8 × UInt8 × UInt8
  address : UInt8 × UInt8 × UInt8 × UInt8
  more : List UInt8
  counted : cnames.length < nanswers ∧ nanswers < 2 ^ 16

variable {host : Host}

def Response.final (r : Response host) : Record := ⟨r.owner,r.ttl,[r.address.1,r.address.2.1,r.address.2.2.1,r.address.2.2.2],by simp⟩

def Response.owners (r : Response host) : List Name := r.cnames.map Record.owner ++ [r.owner]

def Response.header (r : Response host) : List UInt8 :=
  [r.tid.1,r.tid.2,r.flags.1,r.flags.2] ++ be16 1 ++ be16 r.nanswers ++ be16 r.nauth ++ be16 r.nother

def Response.records (r : Response host) : List UInt8 :=
  r.cnames.flatMap (Record.encode DNS_CNAME_RECORD) ++ (r.final.encode DNS_A_RECORD ++ r.more)

def Response.encode (r : Response host) : List UInt8 := r.header ++ (question (toCString host.text) ++ r.records)

/-- `a.b.c.d`. -/
def dotted (address : UInt8 × UInt8 × UInt8 × UInt8) : List UInt8 :=
  byteText address.1.toNat ++ dot :: byteText address.2.1.toNat ++ dot :: byteText address.2.2.1.toNat ++ dot ::
    byteText address.2.2.2.toNat

/-! ### Reading memory -/

def Reads (pkt : Nat → UInt8) : Nat → List UInt8 → Prop
  | _, [] => True
  | p, c :: text => pkt p = c ∧ Reads pkt (p + 1) text

theorem reads_append {b : List UInt8} : ∀ {a : List UInt8} {p : Nat},
    Reads pkt p (a ++ b) ↔ Reads pkt p a ∧ Reads pkt (p+a.length) b := by
  intro a
  induction a with
  | nil => simp [Reads]
  | cons c a ih =>
    intro p
    have place : p + 1 + a.length = p + (a.length+1) := by omega
    rw [cons_append,Reads,Reads,ih,length_cons,place,and_assoc]

def memoryOf (text : List UInt8) (i : Nat) : UInt8 := text.getD i 0

theorem reads_memoryOf (text : List UInt8) : Reads (memoryOf text) 0 text := by
  have later : ∀ pre behind : List UInt8, Reads (memoryOf (pre ++ behind)) pre.length behind := by
    intro pre behind
    induction behind generalizing pre with
    | nil => trivial
    | cons c behind ih =>
      refine ⟨by simp [memoryOf],?_⟩
      have next := ih (pre ++ [c])
      rw [append_assoc,length_append] at next
      exact next
  exact later [] text

theorem skipName_zero {pkt : Nat → UInt8} {e k : Nat} : ∀ {text : List UInt8} {fuel p : Nat}, 0 ∉ text → Reads pkt p (text ++ [0]) →
    p + text.length + k ≤ e → text.length ≤ fuel → skipName pkt e k fuel p = p + text.length := by
  intro text
  induction text with
  | nil =>
    intro fuel p _ reads _ _
    cases fuel with
    | zero => rfl
    | succ fuel => rw [skipName,if_neg fun goes => goes.1 reads.1]; rfl
  | cons c text ih =>
    intro fuel p free reads room enough
    obtain ⟨first,rest⟩ := reads
    obtain ⟨nonzero,free⟩ := not_or.mp (mem_cons.not.mp free)
    rw [length_cons] at room enough ⊢
    obtain ⟨fuel,rfl⟩ : ∃ n, fuel = n + 1 := Nat.exists_eq_succ_of_ne_zero (by omega)
    rw [skipName,if_pos ⟨by rw [first]; exact Ne.symm nonzero,by omega⟩,ih free rest (by omega) (by omega)]
    omega

/-! ### Names -/

theorem Label.length_byte (l : Label) : UInt8.ofNat l.bytes.length ≠ 0 ∧ UInt8.ofNat l.bytes.length ≠ 0xc0 := by
  have positive := length_pos_iff.mpr l.nonempty
  have short := l.short
  have value : (UInt8.ofNat l.bytes.length).toNat = l.bytes.length % 2 ^ 8 := UInt8.toNat_ofNat'
  refine ⟨fun same => ?_,fun same => ?_⟩ <;> rw [same] at value
  · have : (0 : UInt8).toNat = 0 := rfl
    omega
  · have : (0xc0 : UInt8).toNat = 192 := rfl
    omega

theorem labels_free (free : ∀ l ∈ labels, 0 ∉ l.bytes) : 0 ∉ labels.flatMap Label.encode := by
  intro zero
  obtain ⟨l,member,inside⟩ := mem_flatMap.mp zero
  rcases mem_cons.mp inside with first | later
  · exact l.length_byte.1 first.symm
  · exact free l member later

/-- The type of a record is found behind a name that ends with a zero byte, or is a pointer with the first byte 0xc0. -/
def Name.Clear (n : Name) : Prop :=
  match n.ending with
  | .root => True
  | .pointer hi lo _ => lo = 0 ∨ n.labels = [] ∧ hi = 0xc0

def Name.Free (n : Name) : Prop := ∀ l ∈ n.labels, 0 ∉ l.bytes

theorem first_byte {behind : List UInt8} {c : UInt8}
    (reads : Reads pkt p (labels.flatMap Label.encode ++ c :: behind)) (other : labels = [] → c ≠ 0xc0) : pkt p ≠ 0xc0 := by
  cases labels with
  | nil => rw [reads.1]; exact other rfl
  | cons l labels => rw [reads.1]; exact l.length_byte.2

theorem hi_ne_zero {hi : UInt8} (mark : 0xc0 ≤ hi) : hi ≠ 0 := by
  rintro rfl
  exact absurd mark (by decide)

/-- Where the handler looks for the type: at its place, or one byte behind it. The first byte of a type is zero. -/
theorem beforeType_eq {n : Name} (free : n.Free) {e : Nat} {behind : List UInt8}
    (reads : Reads pkt p (n.encode ++ 0 :: behind)) (start : 0 < p) (room : p + n.encode.length + 12 ≤ e) :
    (n.Clear → beforeType pkt e p + 2 = p + n.encode.length) ∧ (¬ n.Clear → beforeType pkt e p + 1 = p + n.encode.length) := by
  obtain ⟨labels,ending⟩ := n
  have noZero : 0 ∉ labels.flatMap Label.encode := labels_free free
  cases ending with
  | root =>
    refine ⟨fun _ => ?_,fun unclear => absurd trivial unclear⟩
    simp only [Name.encode,Ending.encode,length_append,length_singleton,append_assoc] at reads room ⊢
    have stops := @skipName_zero pkt e 12 _ e p noZero (by
      rw [singleton_append,append_cons] at reads
      exact (reads_append.mp reads).1) (by omega) (by omega)
    rw [beforeType,if_pos (first_byte reads fun _ => by decide)]
    omega
  | pointer hi lo mark =>
    simp only [Name.encode,Ending.encode,length_append,length_cons,length_nil,append_assoc,cons_append,
      nil_append] at reads room ⊢
    by_cases short : labels = [] ∧ hi = 0xc0
    · obtain ⟨rfl,rfl⟩ := short
      refine ⟨fun _ => ?_,fun unclear => absurd (.inr ⟨rfl,rfl⟩) unclear⟩
      rw [beforeType,if_neg fun other => other reads.1]
      rfl
    have other := first_byte reads fun none_ same => short ⟨none_,same⟩
    have hiFree : 0 ∉ labels.flatMap Label.encode ++ [hi] := by
      simpa [noZero] using Ne.symm (hi_ne_zero mark)
    rw [beforeType,if_pos other]
    by_cases zero : lo = 0
    · refine ⟨fun _ => ?_,fun unclear => absurd (.inl zero) unclear⟩
      have stops := @skipName_zero pkt e 12 _ e p hiFree (by
        rw [zero,append_cons,append_cons] at reads
        exact (reads_append.mp reads).1) (by simp only [length_append,length_singleton]; omega)
          (by simp only [length_append,length_singleton]; omega)
      rw [stops,length_append,length_singleton]
      omega
    refine ⟨fun clear => absurd clear (not_or.mpr ⟨zero,short⟩),fun _ => ?_⟩
    have loFree : 0 ∉ labels.flatMap Label.encode ++ [hi] ++ [lo] := by
      simpa [noZero,Ne.symm zero] using Ne.symm (hi_ne_zero mark)
    have stops := @skipName_zero pkt e 12 _ e p loFree (by
      rw [append_cons,append_cons,append_cons] at reads
      exact (reads_append.mp reads).1) (by simp only [length_append,length_singleton]; omega)
        (by simp only [length_append,length_singleton]; omega)
    rw [stops]
    simp only [length_append,length_singleton]
    omega

/-! ### Records -/

theorem get_unaligned_be16_eq {n : Nat} (reads : Reads pkt p (be16 n)) (fits : n < 2 ^ 16) :
    get_unaligned_be16 pkt p = n := by
  obtain ⟨hi,lo,_⟩ := reads
  rw [get_unaligned_be16,hi,lo,UInt8.toNat_ofNat',UInt8.toNat_ofNat']
  omega

theorem Record.encode_length (type : Nat) (r : Record) : (r.encode type).length = r.owner.encode.length + 10 + r.data.length := by
  simp only [Record.encode,be16,length_append,length_cons,length_nil]
  omega

theorem Name.encode_length_pos (n : Name) : 0 < n.encode.length := by
  rw [Name.encode,length_append]
  cases n.ending <;> simp only [Ending.encode,length_cons] <;> omega

/-- What the handler reads of a record: its type and data behind a clear owner, and otherwise a type that there is not. -/
theorem record_read {pkt : Nat → UInt8} {type : Nat} (small : type < 256) {r : Record} (free : r.owner.Free) {p e : Nat} {rest : List UInt8}
    (reads : Reads pkt p (r.encode type ++ rest)) (start : 0 < p) (room : p + r.owner.encode.length + 12 ≤ e) :
    (r.owner.Clear → beforeType pkt e p + 2 = p + r.owner.encode.length ∧ get_unaligned_be16 pkt (beforeType pkt e p + 2) = type ∧
      get_unaligned_be16 pkt (beforeType pkt e p + 10) = r.data.length ∧ Reads pkt (beforeType pkt e p + 12) r.data) ∧
    (¬ r.owner.Clear → get_unaligned_be16 pkt (beforeType pkt e p + 2) = type * 256) := by
  have fields := (reads_append.mp (reads_append.mp reads).1).2
  have hi : UInt8.ofNat (type / 256) = 0 := by rw [Nat.div_eq_of_lt small]; rfl
  have ownerReads : Reads pkt p (r.owner.encode ++ [0]) :=
    reads_append.mpr ⟨(reads_append.mp (reads_append.mp reads).1).1,fields.1.trans hi,trivial⟩
  obtain ⟨clear,unclear⟩ := beforeType_eq free ownerReads start room
  refine ⟨fun isClear => ?_,fun notClear => ?_⟩
  · have place := clear isClear
    obtain ⟨before,data⟩ := reads_append.mp fields
    obtain ⟨before,length⟩ := reads_append.mp before
    obtain ⟨typeReads,_⟩ := reads_append.mp before
    have ten : beforeType pkt e p + 10 = p + r.owner.encode.length + 8 := by omega
    have twelve : beforeType pkt e p + 12 = p + r.owner.encode.length + 10 := by omega
    refine ⟨place,?_,?_,?_⟩
    · rw [place]
      exact get_unaligned_be16_eq typeReads (by omega)
    · rw [ten]
      exact get_unaligned_be16_eq length r.fits
    · rw [twelve]
      exact data
  have place : beforeType pkt e p + 2 = p + r.owner.encode.length + 1 := by
    have := unclear notClear
    omega
  obtain ⟨_,lo,cls,_⟩ := fields
  have high : pkt (p + r.owner.encode.length + 1) = UInt8.ofNat type := lo
  have low : pkt (p + r.owner.encode.length + 1 + 1) = 0 := cls
  rw [place,get_unaligned_be16,high,low,UInt8.toNat_ofNat',Nat.mod_eq_of_lt small,UInt8.toNat_zero,Nat.add_zero]

theorem answers_cname {pkt : Nat → UInt8} {r : Record} (free : r.owner.Free) {p e fuel : Nat} {rest : List UInt8}
    (reads : Reads pkt p (r.encode DNS_CNAME_RECORD ++ rest)) (start : 0 < p) (room : p + (r.encode DNS_CNAME_RECORD).length + 2 ≤ e) :
    (r.owner.Clear → answers pkt e (fuel+1) p = answers pkt e fuel (p + (r.encode DNS_CNAME_RECORD).length)) ∧
      (¬ r.owner.Clear → (answers pkt e (fuel+1) p).2 = false) := by
  rw [Record.encode_length] at room ⊢
  have positive := r.owner.encode_length_pos
  have inside : p + 12 < e := by omega
  obtain ⟨clear,unclear⟩ := @record_read pkt _ (by decide) r free p e rest reads start (by omega)
  rw [answers,if_pos inside]
  refine ⟨fun isClear => ?_,fun notClear => ?_⟩
  · obtain ⟨place,type,length,_⟩ := clear isClear
    have next : beforeType pkt e p + 12 + r.data.length = p + (r.owner.encode.length + 10 + r.data.length) := by omega
    simp only [type,length,next,if_true]
  · simp only [unclear notClear,DNS_CNAME_RECORD,DNS_A_RECORD]
    rfl

theorem answers_a {pkt : Nat → UInt8} {r : Record} (free : r.owner.Free) {p e fuel : Nat} {rest : List UInt8}
    (reads : Reads pkt p (r.encode DNS_A_RECORD ++ rest)) (start : 0 < p) (room : p + r.owner.encode.length + 12 ≤ e) :
    (r.owner.Clear → answers pkt e (fuel+1) p = (beforeType pkt e p,true)) ∧
      (¬ r.owner.Clear → (answers pkt e (fuel+1) p).2 = false) := by
  have positive := r.owner.encode_length_pos
  have inside : p + 12 < e := by omega
  obtain ⟨clear,unclear⟩ := @record_read pkt _ (by decide) r free p e rest reads start room
  rw [answers,if_pos inside]
  refine ⟨fun isClear => ?_,fun notClear => ?_⟩
  · simp only [(clear isClear).2.1]
    rfl
  · simp only [unclear notClear,DNS_CNAME_RECORD,DNS_A_RECORD]
    rfl

theorem answers_records {pkt : Nat → UInt8} {final : Record} (four : final.data.length = 4) {more : List UInt8} {e : Nat} :
    ∀ {cnames : List Record} {p fuel : Nat}, (∀ r ∈ cnames ++ [final], r.owner.Free) →
    Reads pkt p (cnames.flatMap (Record.encode DNS_CNAME_RECORD) ++ (final.encode DNS_A_RECORD ++ more)) → 0 < p →
    p + (cnames.flatMap (Record.encode DNS_CNAME_RECORD)).length + (final.encode DNS_A_RECORD).length ≤ e → cnames.length < fuel →
    ((∀ r ∈ cnames ++ [final], r.owner.Clear) → ∃ q, answers pkt e fuel p = (q,true) ∧ q + 16 ≤ e ∧
      get_unaligned_be16 pkt (q+10) = final.data.length ∧ Reads pkt (q+12) final.data) ∧
    ((¬ ∀ r ∈ cnames ++ [final], r.owner.Clear) → (answers pkt e fuel p).2 = false) := by
  intro cnames
  induction cnames with
  | nil =>
    intro p fuel free reads start room enough
    obtain ⟨fuel,rfl⟩ : ∃ n, fuel = n + 1 := Nat.exists_eq_succ_of_ne_zero (by omega)
    simp only [nil_append,flatMap_nil,forall_mem_singleton,length_nil,Nat.add_zero,Record.encode_length] at *
    obtain ⟨clear,unclear⟩ := @answers_a pkt final free p e fuel more reads start (by omega)
    obtain ⟨readClear,_⟩ := @record_read pkt _ (by decide) final free p e more reads start (by omega)
    refine ⟨fun isClear => ?_,unclear⟩
    obtain ⟨place,_,length,data⟩ := readClear isClear
    exact ⟨_,clear isClear,by omega,length,data⟩
  | cons r cnames ih =>
    intro p fuel free reads start room enough
    obtain ⟨fuel,rfl⟩ : ∃ n, fuel = n + 1 := Nat.exists_eq_succ_of_ne_zero (by omega)
    rw [flatMap_cons,append_assoc] at reads
    rw [flatMap_cons,length_append] at room
    rw [cons_append,forall_mem_cons] at free ⊢
    rw [final.encode_length] at room
    obtain ⟨clear,unclear⟩ := @answers_cname pkt r free.1 p e fuel _ reads start (by omega)
    obtain ⟨later,never⟩ := @ih (p + (r.encode DNS_CNAME_RECORD).length) fuel free.2 (reads_append.mp reads).2 (by omega)
      (by rw [final.encode_length]; omega) (by rw [length_cons] at enough; omega)
    by_cases isClear : r.owner.Clear
    · rw [clear isClear]
      exact ⟨fun all => later all.2,fun some_ => never fun all => some_ ⟨isClear,all⟩⟩
    · exact ⟨fun all => absurd all.1 isClear,fun _ => unclear isClear⟩

theorem length_le_records (type : Nat) (records : List Record) : records.length ≤ (records.flatMap (Record.encode type)).length := by
  induction records with
  | nil => exact Nat.zero_le _
  | cons r records ih =>
    rw [flatMap_cons,length_append,length_cons,r.encode_length]
    omega

/-! ### The question -/

theorem chunk_of_label {l : Label} (plain : dot ∉ l.bytes) (rest : List UInt8) :
    (l.bytes ++ rest).takeWhile (· ≠ dot) = l.bytes ++ rest.takeWhile (· ≠ dot) ∧
      (l.bytes ++ rest).dropWhile (· ≠ dot) = rest.dropWhile (· ≠ dot) := by
  have all : ∀ c ∈ l.bytes, decide (c ≠ dot) = true := fun c member =>
    decide_eq_true fun same => plain (same ▸ member)
  exact ⟨takeWhile_append_of_pos all,dropWhile_append_of_pos all⟩

theorem encodeName_host : ∀ {labels : List Label} {fuel : Nat}, labels ≠ [] → (∀ l ∈ labels, dot ∉ l.bytes) → labels.length ≤ fuel →
    encodeName fuel ([dot].intercalate (labels.map Label.bytes)) = labels.flatMap Label.encode := by
  intro labels
  induction labels with
  | nil => intro _ nonempty; exact absurd rfl nonempty
  | cons l labels ih =>
    intro fuel _ plain enough
    rw [length_cons] at enough
    obtain ⟨fuel,rfl⟩ : ∃ n, fuel = n + 1 := Nat.exists_eq_succ_of_ne_zero (by omega)
    have here := chunk_of_label (plain l mem_cons_self)
    cases labels with
    | nil =>
      obtain ⟨takes,drops⟩ := here []
      rw [append_nil] at takes drops
      rw [map_singleton,intercalate_singleton,encodeName,takes,drops]
      simp [Label.encode]
    | cons m labels =>
      have rest := @ih fuel (cons_ne_nil _ _) (fun l member => plain l (mem_cons_of_mem _ member)) (by omega)
      obtain ⟨takes,drops⟩ := here (dot :: [dot].intercalate ((m :: labels).map Label.bytes))
      rw [map_cons,map_cons,intercalate_cons_cons,← map_cons,append_assoc,singleton_append,encodeName,takes,
        drops,takeWhile_cons_of_neg (by simp),dropWhile_cons_of_neg (by simp),append_nil]
      simp only [rest,flatMap_cons,Label.encode,cons_append]

theorem host_text (free : ∀ l ∈ labels, 0 ∉ l.bytes) :
    0 ∉ [dot].intercalate (labels.map Label.bytes) ∧ labels.length ≤ ([dot].intercalate (labels.map Label.bytes)).length + 1 := by
  induction labels with
  | nil => exact ⟨not_mem_nil,Nat.zero_le _⟩
  | cons l labels ih =>
    obtain ⟨noZero,long⟩ := ih fun l member => free l (mem_cons_of_mem _ member)
    have first := free l mem_cons_self
    cases labels with
    | nil => exact ⟨by simpa using first,by simp⟩
    | cons m labels =>
      rw [map_cons,map_cons,intercalate_cons_cons,← map_cons,append_assoc]
      refine ⟨fun member => ?_,?_⟩
      · rcases mem_append.mp member with inLabel | later
        · exact first inLabel
        · exact (mem_cons.mp later).elim (fun same => absurd same (by decide)) noZero
      · simp only [length_cons,length_append] at long ⊢
        omega

theorem question_host (host : Host) : question (toCString host.text) = host.labels.flatMap Label.encode ++ [0,0,1,0,1] := by
  obtain ⟨noZero,long⟩ := host_text fun l member => (host.plain l member).2
  rw [question,CString.length,Host.text,toCString_bytes noZero,
    encodeName_host host.nonempty (fun l member => (host.plain l member).1) long]
  rfl

/-! ### The answer -/

theorem ip_to_string_copied {a b c d : UInt8} (reads : Reads pkt p [a,b,c,d]) :
    ip_to_string (copyAddress pkt p) = dotted (a,b,c,d) := by
  obtain ⟨first,second,third,fourth,_⟩ := reads
  have bounds : a.toNat < 256 ∧ b.toNat < 256 ∧ c.toNat < 256 ∧ d.toNat < 256 :=
    ⟨a.toNat_lt,b.toNat_lt,c.toNat_lt,d.toNat_lt⟩
  have swapped : ntohl (copyAddress pkt p) = a.toNat * 2 ^ 24 + b.toNat * 2 ^ 16 + c.toNat * 2 ^ 8 + d.toNat := by
    rw [ntohl,copyAddress,first,second,third,fourth]
    omega
  have parts : (a.toNat * 2 ^ 24 + b.toNat * 2 ^ 16 + c.toNat * 2 ^ 8 + d.toNat) / 2 ^ 24 % 256 = a.toNat ∧
      (a.toNat * 2 ^ 24 + b.toNat * 2 ^ 16 + c.toNat * 2 ^ 8 + d.toNat) / 2 ^ 16 % 256 = b.toNat ∧
      (a.toNat * 2 ^ 24 + b.toNat * 2 ^ 16 + c.toNat * 2 ^ 8 + d.toNat) / 2 ^ 8 % 256 = c.toNat ∧
      (a.toNat * 2 ^ 24 + b.toNat * 2 ^ 16 + c.toNat * 2 ^ 8 + d.toNat) % 256 = d.toNat := by
    omega
  simp only [ip_to_string,swapped,parts.1,parts.2.1,parts.2.2.1,parts.2.2.2,dotted]

/-- The variable is set to the address of the A record exactly when all owners in front of it are clear. -/
theorem dns_answer_iff {host : Host} (r : Response host) (free : ∀ n ∈ r.owners, n.Free) {pkt : Nat → UInt8} (reads : Reads pkt 0 r.encode)
    (port : Nat) (var : CString) :
    DnsHandler port (some var) pkt port r.encode.length = .done (some (var,dotted r.address)) ↔ ∀ n ∈ r.owners, n.Clear := by
  have headerLength : r.header.length = 12 := rfl
  have named : ∀ P : Name → Prop, (∀ n ∈ r.owners, P n) ↔ ∀ record ∈ r.cnames ++ [r.final], P record.owner := by
    intro P
    simp only [Response.owners,forall_mem_append,forall_mem_map,forall_mem_singleton]
    rfl
  rw [named] at free ⊢
  obtain ⟨header,rest⟩ := reads_append.mp reads
  obtain ⟨asked,records⟩ := reads_append.mp rest
  rw [headerLength] at asked records
  have noZero : 0 ∉ host.labels.flatMap Label.encode := labels_free fun l member => (host.plain l member).2
  have total : r.encode.length = 12 + ((host.labels.flatMap Label.encode).length + 5) + r.records.length := by
    simp only [Response.encode,length_append,headerLength,question_host,length_cons,length_nil]
    omega
  have recordsLength : r.records.length = (r.cnames.flatMap (Record.encode DNS_CNAME_RECORD)).length +
      ((r.final.encode DNS_A_RECORD).length + r.more.length) := by
    simp only [Response.records,length_append]
  rw [question_host] at asked records
  generalize host.labels.flatMap Label.encode = name at *
  generalize r.encode.length = len at *
  have one : get_unaligned_be16 pkt 4 = 1 := get_unaligned_be16_eq ⟨header.2.2.2.2.1,header.2.2.2.2.2.1,trivial⟩ (by decide)
  have answered : get_unaligned_be16 pkt 6 = r.nanswers :=
    get_unaligned_be16_eq ⟨header.2.2.2.2.2.2.1,header.2.2.2.2.2.2.2.1,trivial⟩ r.counted.2
  have some_ : r.nanswers ≠ 0 := Nat.ne_of_gt (Nat.lt_of_le_of_lt (Nat.zero_le _) r.counted.1)
  obtain ⟨_,tail⟩ := reads_append.mp asked
  have skipped : skipName pkt len 0 len 12 = 12 + name.length :=
    skipName_zero noZero (reads_append.mpr ⟨(reads_append.mp asked).1,tail.1,trivial⟩) (by omega) (by omega)
  have isA : get_unaligned_be16 pkt (12 + name.length + 1) = DNS_A_RECORD := get_unaligned_be16_eq ⟨tail.2.1,tail.2.2.1,trivial⟩ (by decide)
  have enough : r.cnames.length < len := by
    have := length_le_records DNS_CNAME_RECORD r.cnames
    omega
  have place : 12 + (name ++ [0,0,1,0,1]).length = 12 + name.length + 5 := by
    rw [length_append]
    rfl
  rw [place] at records
  obtain ⟨clear,unclear⟩ := @answers_records pkt r.final rfl r.more len r.cnames (12 + name.length + 5) len free records (by omega)
    (by omega) enough
  simp only [DnsHandler,ne_eq,not_true_eq_false,if_false,one,answered,some_,skipped,isA,or_false]
  rw [if_neg (by omega)]
  constructor
  · intro sets
    by_contra notClear
    rw [if_neg fun found => by rw [unclear notClear] at found; exact Bool.noConfusion found.1] at sets
    cases sets
  intro isClear
  obtain ⟨q,found,inside,length,data⟩ := clear isClear
  rw [found]
  have four : r.final.data.length = 4 := rfl
  simp only [length,four,ip_to_string_copied data]
  rw [if_pos ⟨trivial,by omega⟩,if_pos inside]
  rfl

/-! ### Owners -/

def letters (n : Nat) (c : UInt8) (some_ : n ≠ 0) (short : n ≤ 63) : Label :=
  ⟨List.replicate n c,by simpa using some_,by simpa using short⟩

def letter (c : UInt8) : Label := letters 1 c (by decide) (by decide)

/-- The host `a.b`. -/
def hostAB : Host := ⟨[letter 97,letter 98],cons_ne_nil _ _,by decide⟩

def asked : Name := ⟨[],.pointer 0xc0 12 (by decide)⟩

/-- The name `c.b`, in short form and in full. -/
def nameCB : Name := ⟨[letter 99],.pointer 0xc0 14 (by decide)⟩
def fullCB : Name := ⟨[letter 99,letter 98],.root⟩

def cname (owner target : Name) (fits : target.encode.length < 2 ^ 16) : Record := ⟨owner,(0,0,14,16),target.encode,fits⟩

/-- A response for `a.b` with the address 10.0.0.1. -/
def responseWith (cnames : List Record) (owner : Name) (few : cnames.length < 65535) : Response hostAB :=
  ⟨(1,0),(0x81,0x80),cnames.length + 1,0,0,cnames,owner,(0,0,14,16),(10,0,0,1),[],Nat.lt_succ_self _,Nat.succ_lt_succ few⟩

/-- What the handler does with a response on the port it waits at. -/
def handled (r : Response hostAB) : Handled :=
  DnsHandler 1024 (some (.ofString "ip")) (memoryOf r.encode) 1024 r.encode.length

theorem full_owner_answered :
    handled (responseWith [cname asked nameCB (by decide)] fullCB (by decide)) =
      .done (some (.ofString "ip",[49,48,46,48,46,48,46,49])) := by
  refine (dns_answer_iff _ ?_ (reads_memoryOf _) 1024 (.ofString "ip")).mpr ?_
  · simp [Response.owners,responseWith,cname,Name.Free,asked,fullCB,letter,letters]
  · simp [Response.owners,responseWith,cname,Name.Clear,asked,fullCB]

/-- A name of 255 bytes, so that what is behind it can only be reached with another first byte. -/
def longName : Name :=
  ⟨[letters 63 97 (by decide) (by decide),letters 63 98 (by decide) (by decide),letters 63 99 (by decide) (by decide),
    letters 61 100 (by decide) (by decide)],.root⟩

/-- The target of the second record stands at offset 300. -/
def farCnames : List Record :=
  [cname asked longName (by decide +kernel),cname ⟨[],.pointer 0xc0 33 (by decide)⟩ ⟨[letter 121],.pointer 0xc0 14 (by decide)⟩ (by decide)]

/-- No address is found when the owner of the A record is a label and a pointer, a pointer behind the first 256 bytes,
    or has a zero byte in a label. -/
theorem owners_not_skipped :
    handled (responseWith [cname asked nameCB (by decide)] nameCB (by decide)) = .done none ∧
      handled (responseWith farCnames ⟨[],.pointer 0xc1 44 (by decide)⟩ (by decide)) = .done none ∧
        handled (responseWith [cname asked ⟨[letter 0],.root⟩ (by decide)] ⟨[letter 0],.root⟩ (by decide)) = .done none := by
  decide +kernel

end UBoot.DnsAnswers
