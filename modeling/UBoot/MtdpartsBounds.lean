import UBoot.Mtdparts

/-!
When the texts of `mtdparts` fit into their buffers: the generated name of a partition, the definition put
together by `mtdparts add`, and the generated variable. Each of the three accounts has a gap
(`strings_fit_iff`).
-/
namespace UBoot.MtdpartsBounds
open List CNumbers Mtdparts

/-! ### Names -/

theorem autoName_fits (size offset : BitVec 64) :
    (autoName size offset).written ≤ (autoName size offset).name_len ↔ size.toNat < 2 ^ 32 ∧ offset.toNat < 2 ^ 32 := by
  have first := hexText_length size
  have second := hexText_length offset
  simp only [autoName,length_append,length_cons,length_nil]
  omega

/-- The name is the given one, or it is generated from the size and the offset. -/
theorem nameParse_cases {size offset : BitVec 64} {p rest : List UInt8} {name : Name}
    (parsed : nameParse size offset p = some (name,rest)) : (∃ text, name = userName text) ∨ name = autoName size offset := by
  rw [nameParse.eq_def] at parsed
  split at parsed
  · split_ifs at parsed
    cases parsed
    exact .inl ⟨_,rfl⟩
  · cases parsed
    exact .inr rfl

theorem part_name_fits {partdef rest : List UInt8} {part : Part} {name : Name} (parsed : part_parse partdef = some (part,name,rest)) :
    name.written ≤ name.name_len ↔ part.auto_name = false ∨ part.size.toNat < 2 ^ 32 ∧ part.offset.toNat < 2 ^ 32 := by
  obtain ⟨⟨size,offset,p⟩,-,parsed⟩ := Option.bind_eq_some_iff.mp parsed
  obtain ⟨⟨name',p'⟩,named,parsed⟩ := Option.bind_eq_some_iff.mp parsed
  obtain ⟨ret,-,parsed⟩ := Option.bind_eq_some_iff.mp parsed
  cases parsed
  rcases nameParse_cases named with ⟨text,rfl⟩ | rfl
  · simp [userName]
  · rw [autoName_fits]
    simp [autoName]

/-! ### The definition of a new partition -/

theorem add_text_fits (id : Mtdids) (argv : AddArgs) :
    (∀ text, addText id argv = some text → text.length + 1 ≤ PART_ADD_DESC_MAXLEN) ↔
      id.mtd_id.length + argv.size.length + argv.name.length + (argv.option.getD []).length + 4 ≤ PART_ADD_DESC_MAXLEN ∨
      PART_ADD_DESC_MAXLEN ≤ (id.mtd_id.length + argv.size.length + argv.name.length + 3 +
        if argv.option.map List.length = some 2 then 2 else 0) % 256 := by
  have counted : (descLen id argv).toNat = (id.mtd_id.length + argv.size.length + argv.name.length + 3 +
      if argv.option.map List.length = some 2 then 2 else 0) % 256 := by
    have two : (2 : BitVec 8).toNat = 2 := rfl
    rw [descLen]
    split_ifs
    · simp only [BitVec.toNat_add,BitVec.toNat_ofNat,two]
      omega
    · simp only [BitVec.toNat_add,BitVec.toNat_ofNat]
      omega
  rw [addText,← counted]
  by_cases long : PART_ADD_DESC_MAXLEN ≤ (descLen id argv).toNat
  · simp [long]
  rw [if_neg long]
  simp only [Option.some.injEq,forall_eq',length_append,length_cons,long,or_false]
  omega

/-! ### The variable -/

def optional (c : Bool) (piece : List UInt8) : List (List UInt8) := if c then [piece] else []

/-- The pieces of the text, in the order in which they are written. -/
def partPieces (prev : Option Part) (part : Part) (more : Bool) : List (List UInt8) :=
  [memsize_format part.size] ++ optional (hasOffset prev part) (64 :: memsize_format part.offset) ++
    optional (!part.auto_name) (40 :: part.name ++ [41]) ++ optional part.ro [114,111] ++ optional more [44]

def partsPieces (num_parts : Nat) : Option Part → Nat → List Part → List (List UInt8)
  | _, _, [] => []
  | prev, part_cnt, part :: parts =>
    partPieces prev part (part_cnt + 1 < num_parts) ++ partsPieces num_parts (some part) (part_cnt + 1) parts

def pieces : List Device → List (List UInt8)
  | [] => []
  | dev :: devices => [dev.id.mtd_id ++ [58]] ++ partsPieces (dev.parts.length % 2 ^ 16) none 0 dev.parts ++
    optional (devices ≠ []) [59] ++ pieces devices

theorem putIf_eq (c : Bool) (s : List UInt8 × Nat) (piece : List UInt8) : putIf c s piece = (optional c piece).foldlM put s := by
  cases c with
  | false => rfl
  | true => simp [putIf,optional]

theorem putPart_eq (prev : Option Part) (part : Part) (more : Bool) (s : List UInt8 × Nat) :
    putPart prev part more s = (partPieces prev part more).foldlM put s := by
  simp only [putPart,partPieces,putIf_eq,foldlM_append,foldlM_cons,foldlM_nil,bind_pure,bind_assoc]

theorem putParts_eq (num_parts : Nat) (prev : Option Part) (part_cnt : Nat) (parts : List Part) (s : List UInt8 × Nat) :
    putParts num_parts prev part_cnt parts s = (partsPieces num_parts prev part_cnt parts).foldlM put s := by
  induction parts generalizing prev part_cnt s with
  | nil => rfl
  | cons part parts ih =>
    rw [putParts,partsPieces,foldlM_append,putPart_eq]
    exact bind_congr fun s => ih ..

theorem putDevices_eq (devices : List Device) (s : List UInt8 × Nat) : putDevices devices s = (pieces devices).foldlM put s := by
  induction devices generalizing s with
  | nil => rfl
  | cons dev devices ih =>
    simp only [putDevices,pieces,putIf_eq,putParts_eq,ih,foldlM_append,foldlM_cons,foldlM_nil,bind_pure,bind_assoc]

/-- The text of the first `k` pieces. -/
def upTo (ps : List (List UInt8)) (k : Nat) : List UInt8 := (ps.take k).flatten

theorem upTo_succ (piece : List UInt8) (ps : List (List UInt8)) (k : Nat) : upTo (piece :: ps) (k+1) = piece ++ upTo ps k := by
  rw [upTo,take_succ_cons,flatten_cons,upTo]

theorem upTo_mono {ps : List (List UInt8)} {j k : Nat} (le : j ≤ k) : (upTo ps j).length ≤ (upTo ps k).length := by
  obtain ⟨l,rfl⟩ := Nat.exists_eq_add_of_le le
  rw [upTo,upTo,take_add,flatten_append,length_append]
  exact Nat.le_add_right ..

theorem foldlM_put (ps : List (List UInt8)) (out : List UInt8) (maxlen : Nat) :
    ((upTo ps ps.length).length ≤ maxlen ∧
      ps.foldlM put (out,maxlen) = .ok (out ++ upTo ps ps.length,maxlen - (upTo ps ps.length).length)) ∨
    ∃ k < ps.length, (upTo ps k).length ≤ maxlen ∧ maxlen < (upTo ps (k+1)).length ∧
      ps.foldlM put (out,maxlen) = .error (out ++ upTo ps k) := by
  induction ps generalizing out maxlen with
  | nil => exact .inl ⟨Nat.zero_le _,by simp [upTo]; rfl⟩
  | cons piece ps ih =>
    by_cases long : maxlen < piece.length
    · refine .inr ⟨0,Nat.succ_pos _,Nat.zero_le _,?_,?_⟩
      · rw [upTo_succ,length_append]
        omega
      rw [foldlM_cons,put,if_pos long]
      simp [upTo]
      rfl
    have step : (piece :: ps).foldlM put (out,maxlen) = ps.foldlM put (out ++ piece,maxlen-piece.length) := by
      rw [foldlM_cons,put,if_neg long]
      rfl
    rw [step,length_cons,upTo_succ,length_append]
    rcases ih (out ++ piece) (maxlen-piece.length) with ⟨fits,equal⟩ | ⟨k,inside,fits,stops,equal⟩
    · refine .inl ⟨by omega,?_⟩
      rw [equal,append_assoc,Nat.sub_sub]
    refine .inr ⟨k+1,by omega,?_,?_,?_⟩
    · rw [upTo_succ,length_append]
      omega
    · rw [upTo_succ,length_append]
      omega
    · rw [equal,upTo_succ,append_assoc]

/-- The length of the first `k` pieces of the text for the devices. -/
def pieceSum (devices : List Device) (k : Nat) : Nat := (upTo (pieces devices) k).length

/-- The text that is accepted has to leave room for the word in front of it. -/
def GeneratedFits (devices : List Device) (buflen : Nat) : Prop :=
  if devices = [] then 1 ≤ buflen
  else 10 ≤ buflen ∧ (∀ k, pieceSum devices k < buflen → pieceSum devices k + 9 ≤ buflen) ∧
    (pieceSum devices (pieces devices).length < buflen → pieceSum devices (pieces devices).length + 10 ≤ buflen)

theorem generated_fits (devices : List Device) {buflen : Nat} (word : buflen < 2 ^ 32) :
    generatedBytes devices buflen ≤ buflen ↔ GeneratedFits devices buflen := by
  by_cases none : devices = []
  · subst none
    rfl
  rw [GeneratedFits,if_neg none,generatedBytes,generate_mtdparts,if_neg none,putDevices_eq]
  have nine : mtdpartsPrefix.length = 9 := rfl
  rcases foldlM_put (pieces devices) mtdpartsPrefix ((buflen + 2 ^ 32 - 1) % 2 ^ 32) with
    ⟨fits,equal⟩ | ⟨k,inside,fits,stops,equal⟩
  · rw [equal]
    simp only [bind,Except.bind,pure,Except.pure,length_append,nine]
    rw [← pieceSum] at fits ⊢
    constructor
    · intro room
      refine ⟨by omega,fun j below => ?_,fun below => by omega⟩
      have : pieceSum devices j ≤ pieceSum devices (pieces devices).length := by
        rcases Nat.le_total j (pieces devices).length with le | ge
        · exact upTo_mono le
        · rw [pieceSum,pieceSum,upTo,upTo,take_of_length_le ge,take_length]
      omega
    · omega
  rw [equal]
  simp only [bind,Except.bind,length_append,nine]
  rw [← pieceSum] at fits stops ⊢
  constructor
  · intro room
    refine ⟨by omega,fun j below => ?_,fun below => ?_⟩
    · have le : j ≤ k := by
        by_contra later
        have := @upTo_mono (pieces devices) (k+1) j (by omega)
        rw [← pieceSum,← pieceSum] at this
        omega
      have : pieceSum devices j ≤ pieceSum devices k := upTo_mono le
      omega
    · have : pieceSum devices (k+1) ≤ pieceSum devices (pieces devices).length := upTo_mono (by omega)
      omega
  rintro ⟨ten,each,-⟩
  have := each k (by omega)
  omega

/-- The three buffers. -/
theorem strings_fit_iff (partdef : List UInt8) (id : Mtdids) (argv : AddArgs) (devices : List Device) (buflen : Nat) :
    (∀ part name rest, part_parse partdef = some (part,name,rest) →
      (name.written ≤ name.name_len ↔ part.auto_name = false ∨ part.size.toNat < 2 ^ 32 ∧ part.offset.toNat < 2 ^ 32)) ∧
    ((∀ text, addText id argv = some text → text.length + 1 ≤ PART_ADD_DESC_MAXLEN) ↔
      id.mtd_id.length + argv.size.length + argv.name.length + (argv.option.getD []).length + 4 ≤ PART_ADD_DESC_MAXLEN ∨
      PART_ADD_DESC_MAXLEN ≤ (id.mtd_id.length + argv.size.length + argv.name.length + 3 +
        if argv.option.map List.length = some 2 then 2 else 0) % 256) ∧
    (buflen < 2 ^ 32 → (generatedBytes devices buflen ≤ buflen ↔ GeneratedFits devices buflen)) :=
  ⟨fun _ _ _ => part_name_fits,add_text_fits id argv,generated_fits devices⟩

/-- `nand0=a`: a flash of 128 MiB with blocks of 4 KiB. -/
def nandA : Mtdids := ⟨MTD_DEV_TYPE_NAND,0,0x8000000,[97],4096,[]⟩

/-- `4k@8k`, `mtdparts add nand0 4k b`, and the variable for no devices. -/
theorem short_strings_fit :
    (∃ part name rest, part_parse [52,107,64,56,107] = some (part,name,rest) ∧ name.written ≤ name.name_len) ∧
    (∀ text, addText nandA ⟨[],[52,107],[98],none⟩ = some text → text.length + 1 ≤ PART_ADD_DESC_MAXLEN) ∧
    generatedBytes [] 512 ≤ 512 := by
  have parsed : part_parse [52,107,64,56,107] =
      some (⟨(autoName 4096 8192).name,true,4096,8192,false⟩,autoName 4096 8192,[]) := rfl
  have fits : GeneratedFits [] 512 := by
    rw [GeneratedFits,if_pos rfl]
    decide
  obtain ⟨name,add,generated⟩ := strings_fit_iff [52,107,64,56,107] nandA ⟨[],[52,107],[98],none⟩ [] 512
  exact ⟨⟨_,_,_,parsed,(name _ _ _ parsed).mpr (.inr (by decide))⟩,add.mpr (.inl (by decide)),(generated (by decide)).mpr fits⟩

/-- The variable `mtdparts=a:4k(bb...b)` with a name of 480 characters, read, and then
    `mtdparts add nand0 1m@2m ccccccccc`. -/
def longNames : List Device :=
  perform [nandA] (perform [nandA] [] (.init (mtdpartsPrefix ++ [97,58,52,107,40] ++ List.replicate 480 98 ++ [41])))
    (.add ⟨[110,97,110,100,48],[49,109,64,50,109],List.replicate 9 99,none⟩)

/-- `4k`; `mtdparts add nand0 1m b` with a last argument of 100 characters; and a device list that is reached with a
    variable inside of its limit. -/
theorem strings_overflow :
    (part_parse [52,107]).map (fun parsed => (parsed.2.1.name_len,parsed.2.1.written)) = some (22,30) ∧
    (addText nandA ⟨[110,97,110,100,48],[49,109],[98],some (List.replicate 100 120)⟩).map (fun text => text.length + 1) = some 108 ∧
    generatedBytes longNames MTDPARTS_MAXLEN = 513 := by
  decide +kernel

end UBoot.MtdpartsBounds
