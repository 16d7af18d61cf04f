import UBoot.EnvText
import UBoot.HashtableMap

/-!
Importing a text of fields into a new table. A new table has no deleted entries, so
each field of a new name goes in until the table is full (`enterAll`), and an
imported text leaves its first fields in the table, as many as it has slots
(`himport_fields`).
-/
namespace UBoot.EnvImport
open List CStrings Hashtable Hexport Himport EnvText HashtableMap

variable {t : HsearchData} {hooks : Hooks}

/-- Neither the permission check nor a callback stops a variable from being created. -/
structure AcceptsCreates (hooks : Hooks) : Prop where
  change : ∀ entry value flag, hooks.changeDenied entry value .create flag = false
  callback : ∀ entry name value flag t, (hooks.callBack entry name value .create flag t).1 = false

theorem none_acceptsCreates : AcceptsCreates Hooks.none := by
  refine ⟨fun _ _ _ => rfl,fun entry name value flag t => ?_⟩
  rw [Hooks.callBack]
  split <;> rfl

def NoneDeleted (t : HsearchData) : Prop := ∀ i, (t.table i).used ≠ -1

theorem createEntry_accepted (accepts : AcceptsCreates hooks) (key data : CString) (t : HsearchData)
    (flag i : Nat) : ∃ u, Placed t u i key data ∧
      createEntry hooks key data t flag (hval t.size key) i = ⟨u,1,some i,none⟩ := by
  have placed := (place_placed t i key data).same (initEntry_same hooks _ i)
  simp only [createEntry,accepts.change,accepts.callback,Bool.false_eq_true,if_false]
  exact ⟨_,placed.same (callBack_same ..),rfl⟩

theorem full_of_noneUnused (inv : Inv t) (kept : NoneDeleted t) (taken : NoneUnused t) : t.filled = t.size := by
  have live : ∀ i ∈ Finset.Icc 1 t.size, Live t i := by
    intro i range
    obtain ⟨low,high⟩ := Finset.mem_Icc.mp range
    have := inv.usedOk i
    have := kept i
    have := taken i low high
    exact ⟨low,high,by omega⟩
  rw [inv.filledIs,Finset.filter_true_of_mem live]
  simp

theorem enter_accepted (inv : Inv t) (kept : NoneDeleted t) (accepts : AcceptsCreates hooks)
    {key : CString} (absent : Absent t key) (room : t.filled < t.size) (data : CString) (flag : Nat) :
    ∃ result, hsearch_r hooks key (.ENTER data) t flag = some result ∧ result.ret = 1 ∧ Inv result.htab ∧
      NoneDeleted result.htab ∧ result.htab.size = t.size ∧ result.htab.filled = t.filled + 1 ∧
      ∀ k v, Holds result.htab k v ↔ if k = key then v = data else Holds t k v := by
  obtain ⟨idx,first_deleted,search,place⟩ := search_absent inv absent
  have fits : Fits t key (if first_deleted ≠ 0 then first_deleted else idx) := by
    rcases place with full | ⟨fits,_⟩ | ⟨_,taken,_⟩
    · omega
    · exact fits
    · have := full_of_noneUnused inv kept taken; omega
  have entered : hsearch_r hooks key (.ENTER data) t flag = some (createEntry hooks key data t flag
      (hval t.size key) (if first_deleted ≠ 0 then first_deleted else idx)) := by
    simp only [search,searchEnded,if_neg (show t.filled ≠ t.size by omega)]
  generalize (if first_deleted ≠ 0 then first_deleted else idx) = slot at fits entered
  obtain ⟨u,placed,created⟩ := createEntry_accepted accepts key data t flag slot
  rw [created] at entered
  refine ⟨_,entered,rfl,inv.placed absent fits placed,?_,placed.size,placed.filled,placed.holds_iff absent fits⟩
  intro i
  by_cases here : i = slot
  · subst here; simp only [placed.usedHere]; omega
  · simp only [placed.used i here]; exact kept i

theorem enter_full (inv : Inv t) (hooks : Hooks) {key : CString} (absent : Absent t key)
    (full : t.filled = t.size) (data : CString) (flag : Nat) :
    hsearch_r hooks key (.ENTER data) t flag = some ⟨t,0,none,some .ENOMEM⟩ := by
  obtain ⟨idx,first_deleted,search,_⟩ := search_absent inv absent
  rw [search]
  simp only [searchEnded,full,if_true]

theorem drop_none (name : CString) : drop_var_from_set name [] = (true,[]) := rfl

theorem enterAll (accepts : AcceptsCreates hooks) (flag : Nat) : ∀ (fields : List Field) (t : HsearchData),
    Inv t → NoneDeleted t → (∀ field ∈ fields, field.key.bytes ≠ [] ∧ Absent t field.key) →
    (fields.map Field.key).Nodup →
    ∃ u, applyItems hooks flag ⟨t,[]⟩ (fields.map fun field => .enter field.key field.value) = some (⟨u,[]⟩,true) ∧ Inv u ∧
      ∀ k v, Holds u k v ↔ Holds t k v ∨ ∃ field ∈ fields.take (t.size-t.filled), field.key = k ∧ field.value = v := by
  intro fields
  induction fields with
  | nil => intro t inv _ _ _; exact ⟨t,rfl,inv,by simp⟩
  | cons field fields ih =>
    intro t inv kept fresh distinct
    obtain ⟨named,absent⟩ := fresh field (by simp)
    obtain ⟨notLater,laterDistinct⟩ :=
      nodup_cons.mp (by simpa using distinct : (field.key :: fields.map Field.key).Nodup)
    have other : ∀ later ∈ fields, later.key ≠ field.key := by
      intro later member same
      exact notLater (mem_map.mpr ⟨later,member,same⟩)
    have bounded : t.filled ≤ t.size := by
      rw [inv.filledIs]
      exact (Finset.card_filter_le _ _).trans (by simp)
    by_cases full : t.filled = t.size
    · -- neither this field nor a later one fits
      have entered := enter_full inv hooks absent full field.value flag
      obtain ⟨u,applied,inv',contents⟩ := ih t inv kept (fun later member => fresh later (by simp [member])) laterDistinct
      refine ⟨u,?_,inv',fun k v => ?_⟩
      · simp only [map_cons,applyItems,applyItem,named,if_false,drop_none,if_true,entered,Option.map_some]
        exact applied
      · rw [contents,full,Nat.sub_self,take_zero,take_zero]
    obtain ⟨result,entered,_,inv',kept',size,filled,holds⟩ :=
      enter_accepted inv kept accepts absent (by omega) field.value flag
    have absentLater : ∀ later ∈ fields, later.key.bytes ≠ [] ∧ Absent result.htab later.key := by
      intro later member
      obtain ⟨name,absentBefore⟩ := fresh later (by simp [member])
      refine ⟨name,fun i live keyed => ?_⟩
      have held := (holds later.key _).mp ⟨i,live,keyed,rfl⟩
      rw [if_neg (other later member)] at held
      obtain ⟨j,liveBefore,keyedBefore,_⟩ := held
      exact absentBefore j liveBefore keyedBefore
    obtain ⟨u,applied,inv'',contents⟩ := ih result.htab inv' kept' absentLater laterDistinct
    have room : t.size - t.filled = result.htab.size - result.htab.filled + 1 := by omega
    refine ⟨u,?_,inv'',fun k v => ?_⟩
    · simp only [map_cons,applyItems,applyItem,named,if_false,drop_none,if_true,entered,Option.map_some]
      exact applied
    rw [contents,holds,room]
    constructor
    · rintro (held | ⟨later,member,keyed,is⟩)
      · split at held
        next same => exact .inr ⟨field,by simp,same.symm,held.symm⟩
        next => exact .inl held
      · exact .inr ⟨later,by simp [member],keyed,is⟩
    rintro (held | ⟨later,member,keyed,is⟩)
    · have different : k ≠ field.key := by
        rintro rfl
        obtain ⟨i,live,keyed,_⟩ := held
        exact absent i live keyed
      exact .inl (by rwa [if_neg different])
    rcases mem_cons.mp member with rfl | member
    · exact .inl (by rw [if_pos keyed.symm]; exact is.symm)
    · exact .inr ⟨later,member,keyed,is⟩

theorem applyItems_delete_empty (inv : Inv t) (empty : ∀ k v, ¬ Holds t k v) (hooks : Hooks) (flag : Nat)
    (name : CString) : applyItems hooks flag ⟨t,[]⟩ [.delete name] = some (⟨t,[]⟩,true) := by
  have absent : hdelete_r hooks name t flag = some (t,0,some .ESRCH) := by
    rcases find_spec inv hooks name 0 with ⟨i,live,keyed,_⟩ | ⟨_,search⟩
    · exact absurd ⟨i,live,keyed,rfl⟩ (empty name _)
    · simp [hdelete_r,search]
  simp [applyItems,applyItem,drop_none,absent]

theorem himport_fields {hooks : Hooks} (accepts : AcceptsCreates hooks) {sep : UInt8} (notEqual : sep ≠ equalSign)
    {fields : List Field} {pad : List UInt8} (ends : fields = [] → pad = [] ∨ pad.head? = some 0)
    (reads : ∀ field ∈ fields, field.Reads sep) (distinct : (fields.map Field.key).Nodup) {made : HsearchData}
    (created : hcreate_r (nent (fieldsText sep fields ++ 0 :: pad).length) = some made) (old : Option HsearchData) :
    ∃ u, himport_r hooks old (fieldsText sep fields ++ 0 :: pad) sep 0 [] = some (some u,1) ∧ Inv u ∧
      ∀ k v, Holds u k v ↔ ∃ field ∈ fields.take made.size, field.key = k ∧ field.value = v := by
  have newInv := hcreate_inv created
  obtain ⟨_,_,_,filled,slots⟩ := HashtableSize.hcreate_spec created
  have short : fields.length < (fieldsText sep fields ++ 0 :: pad).length + 1 := by
    have := length_le_fieldsText sep fields
    simp only [length_append]; omega
  have emptyNew : ∀ k v, ¬ Holds made k v := by simp [Holds,Live,slots]
  have parsed := parseAll_fields notEqual ends short reads
  have applied : ∃ u, applyItems hooks 0 ⟨made,[]⟩ (fieldItems fields) = some (⟨u,[]⟩,true) ∧ Inv u ∧
      ∀ k v, Holds u k v ↔ ∃ field ∈ fields.take made.size, field.key = k ∧ field.value = v := by
    by_cases empty : fields = []
    · subst empty
      refine ⟨made,applyItems_delete_empty newInv emptyNew hooks 0 _,newInv,?_⟩
      intro k v
      simp [emptyNew k v]
    have kept : NoneDeleted made := by intro i; rw [slots]; simp
    obtain ⟨u,ran,inv,contents⟩ := enterAll accepts 0 fields made newInv kept
      (fun field member => ⟨(reads field member).importable.named,fun i live => absurd ⟨i,live,rfl,rfl⟩ (emptyNew _ _)⟩)
      distinct
    refine ⟨u,by rw [fieldItems,if_neg empty]; exact ran,inv,fun k v => ?_⟩
    rw [contents,filled]
    simp [emptyNew k v]
  obtain ⟨u,ran,inv,contents⟩ := applied
  refine ⟨u,?_,inv,contents⟩
  have table : importTable old (fieldsText sep fields ++ 0 :: pad).length 0 = some made := created
  simp only [himport_r,table,map_nil,importLoop_eq,drop_zero,parsed,Option.bind_some,ran,deleteLeft]
  rfl

end UBoot.EnvImport
