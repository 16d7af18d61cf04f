import UBoot.EnvImport

/-!
Exporting a table and importing the text again. An exported entry is a field that
reads as the entry (`entryField_reads`); the text is complete exactly when it fits
the buffer that pass 1 measured (`hexport_eq`).
-/
namespace UBoot.EnvRoundTrip
open List CStrings Hashtable Qsort Hexport Himport EnvText EnvImport HashtableMap Runs

variable {t : HsearchData} {sep : UInt8}

/-! ### The exported fields -/

theorem parseValue_escape (ok : sep ≠ backslash) (rest : List UInt8) : ∀ {value : List UInt8}, 0 ∉ value →
    parseValue sep (escape sep value ++ sep :: rest) = some (value,rest) := by
  have goes : ¬ (backslash = 0 ∨ backslash = sep) := not_or.mpr ⟨by decide,ok.symm⟩
  intro value
  induction value with
  | nil => intro _; exact parseValue_stop (.inr rfl) rest
  | cons c value ih =>
    intro nulFree
    obtain ⟨char,free⟩ : c ≠ 0 ∧ 0 ∉ value := by simpa [eq_comm] using nulFree
    have tail := ih free
    rw [escape,flatMap_cons,append_assoc]
    change parseValue sep (escapeByte sep c ++ (escape sep value ++ sep :: rest)) = _
    rw [escapeByte]
    split
    next => rw [cons_append,singleton_append,parseValue_escaped goes char,tail]; rfl
    next plain =>
      obtain ⟨notSep,notSlash⟩ := not_or.mp plain
      rw [singleton_append,parseValue_plain (not_or.mpr ⟨char,notSep⟩) notSlash,tail]; rfl

theorem escape_head (ok : sep ≠ backslash) {value : List UInt8} (some : value ≠ []) (nulFree : 0 ∉ value) :
    ∃ d tail, escape sep value = d :: tail ∧ d ≠ 0 ∧ d ≠ sep := by
  cases value with
  | nil => exact absurd rfl some
  | cons c value =>
    have char : c ≠ 0 := by rintro rfl; simp at nulFree
    rw [escape,flatMap_cons,escapeByte]
    split
    next => exact ⟨backslash,_,rfl,by decide,ok.symm⟩
    next plain => exact ⟨c,_,rfl,char,(not_or.mp plain).1⟩

def entryField (sep : UInt8) (ep : ENTRY) : Field := ⟨ep.key,escape sep ep.data.bytes,ep.data⟩

theorem entryField_reads (ok : sep ≠ backslash) {ep : ENTRY} (importable : Importable sep ep.key)
    (valued : ep.data.bytes ≠ []) : (entryField sep ep).Reads sep :=
  ⟨importable,escape_head ok valued ep.data.nulFree,fun rest => parseValue_escape ok rest ep.data.nulFree⟩

theorem envText_eq (sep : UInt8) (list : List ENTRY) : envText sep list = fieldsText sep (list.map (entryField sep)) := by
  rw [fieldsText,flatMap_map]
  rfl

/-! ### The exported list -/

theorem selected_all (ep : ENTRY) : selected 0 [] ep = true := rfl

theorem mem_exported {flag : Nat} {argv : List CString} {ep : ENTRY} :
    ep ∈ exportList t flag argv ↔ ∃ i, Live t i ∧ selected flag argv ep = true ∧ (t.table i).entry = ep := by
  simp only [exportList,mem_map,mem_filter,mem_range'_1,Bool.and_eq_true,decide_eq_true_eq,Live]
  constructor
  · rintro ⟨i,⟨⟨low,high⟩,used,chosen⟩,rfl⟩; exact ⟨i,⟨low,by omega,used⟩,chosen,rfl⟩
  · rintro ⟨i,⟨low,high,used⟩,chosen,rfl⟩; exact ⟨i,⟨⟨low,by omega⟩,used,chosen⟩,rfl⟩

theorem exported_keys_nodup (inv : Inv t) (flag : Nat) (argv : List CString) :
    ((exportList t flag argv).map ENTRY.key).Nodup := by
  rw [exportList,map_map]
  refine List.Nodup.map_on ?_ (List.Nodup.filter _ (nodup_range' ..))
  intro i iMember j jMember same
  simp only [Bool.and_eq_true,mem_filter,mem_range'_1,decide_eq_true_eq] at iMember jMember
  exact inv.distinct i j ⟨iMember.1.1,by omega,iMember.2.1⟩ ⟨jMember.1.1,by omega,jMember.2.1⟩ same

theorem mem_exportList {ep : ENTRY} : ep ∈ exportList t 0 [] ↔ ∃ i, Live t i ∧ (t.table i).entry = ep := by
  simp [mem_exported,selected_all]

theorem exportList_holds (k v : CString) :
    (∃ ep ∈ exportList t 0 [], ep.key = k ∧ ep.data = v) ↔ Holds t k v := by
  constructor
  · rintro ⟨ep,member,keyed,is⟩
    obtain ⟨i,live,rfl⟩ := mem_exportList.mp member
    exact ⟨i,live,keyed,is⟩
  · rintro ⟨i,live,keyed,is⟩
    exact ⟨_,mem_exportList.mpr ⟨i,live,rfl⟩,keyed,is⟩

theorem exportList_length (inv : Inv t) : (exportList t 0 []).length = t.filled := by
  have nodup : ((List.range' 1 t.size).filter fun i => decide (0 < (t.table i).used) && selected 0 [] (t.table i).entry).Nodup :=
    List.Nodup.filter _ (nodup_range' ..)
  rw [exportList,length_map,← toFinset_card_of_nodup nodup,inv.filledIs]
  congr 1
  ext i
  simp only [selected_all,Bool.and_true,mem_toFinset,mem_filter,mem_range'_1,decide_eq_true_eq,
    Finset.mem_filter,Finset.mem_Icc,Live]
  constructor
  · rintro ⟨⟨low,high⟩,used⟩; exact ⟨⟨low,by omega⟩,low,by omega,used⟩
  · rintro ⟨⟨low,high⟩,_,_,used⟩; exact ⟨⟨low,by omega⟩,used⟩

/-! ### Room for the text -/

def backslashes (list : List ENTRY) : Nat := (list.map fun ep => ep.data.bytes.count backslash).sum

theorem escape_length (sep : UInt8) (data : List UInt8) : (escape sep data).length = escapedLength sep data := by
  induction data with
  | nil => rfl
  | cons c data ih =>
    rw [escape,flatMap_cons,length_append,escapedLength,escapeByte]
    change _ + (escape sep data).length = _
    rw [ih]
    split <;> rfl

theorem escapedLength_nul {data : List UInt8} (nulFree : 0 ∉ data) :
    escapedLength 0 data = data.length + data.count backslash := by
  induction data with
  | nil => rfl
  | cons c data ih =>
    obtain ⟨char,free⟩ : c ≠ 0 ∧ 0 ∉ data := by simpa [eq_comm] using nulFree
    rw [escapedLength,ih free]
    by_cases slash : c = backslash
    · simp [slash]; omega
    · simp [slash,char]; omega

/-- Bytes written for an entry: two less than were counted and, when the separator
    is NUL, one more for each backslash. -/
theorem entryText_length (sep : UInt8) (ep : ENTRY) :
    (entryText sep ep).length + 2 = entryLength sep ep + if sep = 0 then ep.data.bytes.count backslash else 0 := by
  simp only [entryText,length_append,length_cons,length_nil,escape_length,entryLength,CString.length]
  split
  next nul => subst nul; rw [escapedLength_nul ep.data.nulFree]; omega
  next => omega

theorem envText_length (sep : UInt8) (list : List ENTRY) :
    (envText sep list).length + 2 * list.length = totlen sep list + if sep = 0 then backslashes list else 0 := by
  induction list with
  | nil => simp [envText,totlen,backslashes]
  | cons ep list ih =>
    have one := entryText_length sep ep
    have split : (envText sep (ep :: list)).length = (entryText sep ep).length + (envText sep list).length := by
      simp [envText]
    have total : totlen sep (ep :: list) = entryLength sep ep + totlen sep list := by simp [totlen]
    have slashes : backslashes (ep :: list) = ep.data.bytes.count backslash + backslashes list := by simp [backslashes]
    split at one <;> simp_all <;> omega

theorem sorted_perm (list : List ENTRY) : ((qsort cmpkey list.toArray).toList).Perm list := by
  simpa using (qsort_perm cmpkey list.toArray).toList

theorem envText_perm_length (sep : UInt8) {list other : List ENTRY} (perm : list.Perm other) :
    (envText sep list).length = (envText sep other).length := by
  simp only [envText,length_flatMap]
  exact (perm.map _).sum_eq

/-! ### The round trip -/

/-- The size `hexport_r` returns. -/
def exportSize (t : HsearchData) (sep : UInt8) (size : Nat) : Nat :=
  if size = 0 then totlen sep (exportList t 0 []) + 1 else size

/-- A buffer of the caller is as large as the size that goes with it. -/
def Buffer (resp : Option (List UInt8)) (size : Nat) : Prop := ∀ buf, resp = some buf → size ≠ 0 ∧ buf.length = size

/-- Unless it is refused for its size, the export succeeds exactly when the text fits. -/
theorem hexport_eq {resp : Option (List UInt8)} {size : Nat} (buffer : Buffer resp size)
    (room : size = 0 ∨ totlen sep (exportList t 0 []) + 1 ≤ size) :
    ∃ list, list.Perm (exportList t 0 []) ∧ hexport_r t sep 0 resp size [] =
      if (envText sep list).length + 1 ≤ exportSize t sep size then
        .done (envText sep list ++ 0 :: List.replicate (exportSize t sep size - ((envText sep list).length + 1)) 0)
          (exportSize t sep size)
      else .overrun := by
  refine ⟨_,sorted_perm _,?_⟩
  have accepted : ¬ (size ≠ 0 ∧ size < totlen sep (exportList t 0 []) + 1) := by omega
  have cleared : clearBuffer resp (exportSize t sep size) = some (List.replicate (exportSize t sep size) 0) := by
    cases resp with
    | none => rfl
    | some buf =>
      obtain ⟨given,length⟩ := buffer buf rfl
      simp [clearBuffer,exportSize,given,length]
  have sizeIs : (if size = 0 then totlen sep (exportList t 0 []) + 1 else size) = exportSize t sep size := rfl
  simp only [hexport_r,accepted,if_false,sizeIs,cleared,Option.bind_some,exportText_eq,length_replicate,
    drop_replicate]
  generalize (qsort cmpkey (exportList t 0 []).toArray).toList = list
  by_cases fits : (envText sep list).length + 1 ≤ exportSize t sep size
  · simp only [fits,if_true]
  · simp only [fits,if_false]

/-- Importing the exported bytes into a new table gives the contents of the old one. -/
def RoundTrips (hooks : Hooks) (old : Option HsearchData) (t : HsearchData) (sep : UInt8) (resp : Option (List UInt8))
    (size : Nat) : Prop :=
  ∃ env n u, hexport_r t sep 0 resp size [] = .done env n ∧ himport_r hooks old (env.take n) sep 0 [] = some (some u,1) ∧
    ∀ key, found u key = found t key

theorem himport_envText {hooks : Hooks} (accepts : AcceptsCreates hooks) (inv : Inv t)
    (notEqual : sep ≠ equalSign) (notSlash : sep ≠ backslash)
    (named : ∀ i, Live t i → Importable sep (t.table i).entry.key ∧ (t.table i).entry.data.bytes ≠ [])
    {list : List ENTRY} (perm : list.Perm (exportList t 0 [])) {size pad : Nat}
    (length : (envText sep list ++ 0 :: List.replicate pad 0).length = size)
    (capacity : ∀ made, hcreate_r (nent size) = some made → t.filled ≤ made.size) (old : Option HsearchData) :
    ∃ u, himport_r hooks old (envText sep list ++ 0 :: List.replicate pad 0) sep 0 [] = some (some u,1) ∧
      ∀ key, found u key = found t key := by
  obtain ⟨made,created⟩ := @HashtableSize.hcreate_total (nent size) (by simp [nent,CONFIG_ENV_MAX_ENTRIES])
  have reads : ∀ field ∈ list.map (entryField sep), field.Reads sep := by
    intro field member
    obtain ⟨ep,inList,rfl⟩ := mem_map.mp member
    obtain ⟨i,live,rfl⟩ := mem_exportList.mp (perm.mem_iff.mp inList)
    exact entryField_reads notSlash (named i live).1 (named i live).2
  have distinct : ((list.map (entryField sep)).map Field.key).Nodup := by
    rw [map_map]
    exact (perm.map ENTRY.key).nodup_iff.mpr (exported_keys_nodup inv 0 [])
  have ends : list.map (entryField sep) = [] →
      List.replicate pad (0 : UInt8) = [] ∨ (List.replicate pad (0 : UInt8)).head? = some 0 := by
    intro _
    cases pad with
    | zero => exact .inl rfl
    | succ pad => exact .inr rfl
  rw [envText_eq] at length ⊢
  obtain ⟨u,imported,inv',contents⟩ := himport_fields accepts notEqual ends reads distinct (by rw [length]; exact created) old
  refine ⟨u,imported,fun key => found_eq inv inv' (fun data => ?_)⟩
  have all : (list.map (entryField sep)).length ≤ made.size := by
    rw [length_map,perm.length_eq,exportList_length inv]
    exact capacity made created
  rw [contents,take_of_length_le all,← exportList_holds]
  simp only [mem_map,exists_exists_and_eq_and,perm.mem_iff]
  rfl

/-- `himport_r` undoes `hexport_r` exactly when the separator is not NUL or the
    backslashes in the values, for which pass 1 then leaves no room, fit into the
    two spare bytes of each entry and what the buffer has left. -/
theorem import_undoes_export {hooks : Hooks} (accepts : AcceptsCreates hooks) {t : HsearchData} (inv : Inv t) {sep : UInt8}
    (sepOk : sep = 0 ∨ sep = newline)
    (named : ∀ i, Live t i → Importable sep (t.table i).entry.key ∧ (t.table i).entry.data.bytes ≠ [])
    {resp : Option (List UInt8)} {size : Nat} (buffer : Buffer resp size)
    (room : size = 0 ∨ totlen sep (exportList t 0 []) + 1 ≤ size)
    (capacity : ∀ made, hcreate_r (nent (exportSize t sep size)) = some made → t.filled ≤ made.size)
    (old : Option HsearchData) :
    RoundTrips hooks old t sep resp size ↔
      sep ≠ 0 ∨ totlen sep (exportList t 0 []) + 1 + backslashes (exportList t 0 []) ≤ exportSize t sep size + 2 * t.filled := by
  have notEqual : sep ≠ equalSign := by rcases sepOk with rfl | rfl <;> decide
  have notSlash : sep ≠ backslash := by rcases sepOk with rfl | rfl <;> decide
  obtain ⟨list,perm,exported⟩ := hexport_eq buffer room
  have textLength := envText_length sep (exportList t 0 [])
  rw [← envText_perm_length sep perm,exportList_length inv] at textLength
  have enough : totlen sep (exportList t 0 []) + 1 ≤ exportSize t sep size := by
    unfold exportSize; split <;> omega
  have fitsIff : (envText sep list).length + 1 ≤ exportSize t sep size ↔
      sep ≠ 0 ∨ totlen sep (exportList t 0 []) + 1 + backslashes (exportList t 0 []) ≤ exportSize t sep size + 2 * t.filled := by
    by_cases nul : sep = 0
    · rw [if_pos nul] at textLength
      simp only [nul,ne_eq,not_true_eq_false,false_or] at textLength ⊢
      omega
    rw [if_neg nul] at textLength
    simp only [nul,ne_eq,not_false_eq_true,true_or,iff_true]
    omega
  rw [← fitsIff]
  constructor
  · rintro ⟨env,n,u,done,_⟩
    by_contra overruns
    rw [exported,if_neg overruns] at done
    cases done
  intro fits
  rw [if_pos fits] at exported
  have length : (envText sep list ++
      0 :: List.replicate (exportSize t sep size - ((envText sep list).length + 1)) 0).length = exportSize t sep size := by
    simp; omega
  obtain ⟨u,imported,same⟩ := himport_envText accepts inv notEqual notSlash named perm length capacity old
  refine ⟨_,_,u,exported,?_,same⟩
  rw [take_of_length_le (by omega)]
  exact imported

/-- Names and values of the table as the importer needs them. -/
def wellNamed (sep : UInt8) (t : HsearchData) : Bool :=
  decide (∀ i < t.size + 1, Live t i → Importable sep (t.table i).entry.key ∧ (t.table i).entry.data.bytes ≠ [])

theorem wellNamed_iff : wellNamed sep t = true ↔
    ∀ i, Live t i → Importable sep (t.table i).entry.key ∧ (t.table i).entry.data.bytes ≠ [] := by
  rw [wellNamed,decide_eq_true_iff]
  exact ⟨fun all i live => all i (by have := live.2.1; omega) live,fun all i _ live => all i live⟩

def lines : CString := ⟨[98,newline,backslash,equalSign],by decide⟩

def slashes : CString := ⟨[backslash,backslash,backslash],by decide⟩

theorem lines_round_trip :
    ∃ t u events, hcreate_r 5 = some t ∧ Run (Guarded (fun t event => Safe t event.1) Does) t events u ∧
      found u varA = some lines ∧ RoundTrips Hooks.none none u newline none 0 := by
  have computed : ((hcreate_r 5).bind (fun t => (performAll t [.enter Hooks.none varA lines 0]).map (fun r => (t,r)))).map
      (fun r => (allSafe r.1 [.enter Hooks.none varA lines 0],found r.2.1 varA,wellNamed newline r.2.1,r.2.1.filled)) =
        some (true,some lines,true,1) := by decide +kernel
  obtain ⟨⟨t,u,events⟩,done,values⟩ := Option.map_eq_some_iff.mp computed
  obtain ⟨t',made,performed⟩ := Option.bind_eq_some_iff.mp done
  obtain ⟨r,ran,same⟩ := Option.map_eq_some_iff.mp performed
  cases same
  simp only [Prod.mk.injEq] at values
  obtain ⟨safe,value,named,filled⟩ := values
  have run := allSafe_run ran safe
  refine ⟨_,_,_,made,run,value,?_⟩
  have capacity : ∀ made, hcreate_r (nent (exportSize u newline 0)) = some made → u.filled ≤ made.size := by
    intro made created
    obtain ⟨_,large,_⟩ := HashtableSize.hcreate_spec created
    omega
  exact (import_undoes_export none_acceptsCreates (agrees_run made run).1 (.inr rfl) (wellNamed_iff.mp named)
    (fun buf given => by cases given) (.inl rfl) capacity none).mpr (.inl (by decide))

/-- Three backslashes in the only value: the export with separator NUL writes behind
    the buffer it has allocated. -/
theorem slashes_overrun_buffer :
    ∃ t u events, hcreate_r 5 = some t ∧ Run Does t events u ∧ found u varA = some slashes ∧ wellNamed 0 u = true ∧
      u.filled = 1 ∧ hexport_r u 0 0 none 0 [] = .overrun ∧ ¬ RoundTrips Hooks.none none u 0 none 0 := by
  have computed : ((hcreate_r 5).bind (performAll · [.enter Hooks.none varA slashes 0])).map
      (fun r => (found r.1 varA,wellNamed 0 r.1,r.1.filled,hexport_r r.1 0 0 none 0 [])) =
        some (some slashes,true,1,.overrun) := by decide +kernel
  obtain ⟨⟨u,events⟩,done,values⟩ := Option.map_eq_some_iff.mp computed
  obtain ⟨t,made,performed⟩ := Option.bind_eq_some_iff.mp done
  simp only [Prod.mk.injEq] at values
  obtain ⟨value,named,one,overruns⟩ := values
  refine ⟨t,u,events,made,performAll_run performed,value,named,one,overruns,?_⟩
  rintro ⟨env,n,v,exported,_⟩
  rw [overruns] at exported
  cases exported

end UBoot.EnvRoundTrip
