import UBoot.EnvReaders

/-!
`fw_env_write` as an update of the map from names to values that a block stands for
(`fw_env_write_updates`). What is left of the block is a block again, and a call that
returns -1 has found no room for the new definition.
-/
namespace UBoot.FwEnvUpdate
open CStrings FwEnv FwEnvBlock
open HashtableMap (varA varB varC varD)

variable {name value : CString} {vars : List Var} {data : List UInt8}

/-! ### The map of a block -/

theorem lookup_without {other : CString} (different : other ≠ name) (vars : List Var) :
    lookup other (without name vars) = lookup other vars := by
  induction vars with
  | nil => rfl
  | cons v vars ih =>
    by_cases here : v.1 = name
    · have skipped : v.1 ≠ other := fun same => different (same.symm.trans here)
      rw [without,List.eraseP_cons_of_pos (by simpa using here),lookup,lookup,List.find?_cons_of_neg (by simpa using skipped)]
    rw [without,List.eraseP_cons_of_neg (by simpa using here)]
    by_cases wanted : v.1 = other
    · rw [lookup,lookup,List.find?_cons_of_pos (by simpa using wanted),List.find?_cons_of_pos (by simpa using wanted)]
    · rw [lookup,lookup,List.find?_cons_of_neg (by simpa using wanted),List.find?_cons_of_neg (by simpa using wanted)]
      exact ih

theorem lookup_append_other {other : CString} (different : other ≠ name) (vars : List Var) :
    lookup other (vars ++ [(name,value)]) = lookup other vars := by
  rw [lookup,lookup,List.find?_append,List.find?_cons_of_neg (by simpa using different.symm)]
  simp

theorem lookup_removed (distinct : (vars.map Prod.fst).Nodup) :
    lookup name (without name vars) = none := lookup_none (without_other distinct)

theorem lookup_appended (distinct : (vars.map Prod.fst).Nodup) :
    lookup name (without name vars ++ [(name,value)]) = some value := lookup_some (without_other distinct)

theorem without_distinct (name : CString) (distinct : (vars.map Prod.fst).Nodup) :
    ((without name vars).map Prod.fst).Nodup := (List.eraseP_sublist.map Prod.fst).nodup distinct

theorem appended_distinct (name value : CString) (distinct : (vars.map Prod.fst).Nodup) :
    ((without name vars ++ [(name,value)]).map Prod.fst).Nodup := by
  rw [List.map_append,List.nodup_append]
  refine ⟨without_distinct name distinct,by simp,?_⟩
  intro key member last isLast
  obtain ⟨v,inVars,rfl⟩ := List.mem_map.mp member
  obtain rfl : last = name := by simpa using isLast
  exact without_other distinct v inVars

/-! ### The update -/

/-- The environment block of a map, as `fw_env_write` takes it: every variable is
    defined once. -/
def Represents (data : List UInt8) (vars : List Var) : Prop := Block vars data ∧ (vars.map Prod.fst).Nodup

structure Unrestricted (access : Access) (name : CString) : Prop where
  delete : access.preventDelete name = false
  overwr : access.preventOverwr name = false
  nondefOverwr : access.preventNondefOverwr name = false
  create : access.preventCreate name = false

theorem Unrestricted.allows {access : Access} (unrestricted : Unrestricted access name)
    (oldval : Option CString) (value : CString) : access.denies name oldval value = false := by
  unfold Access.denies
  split
  · exact unrestricted.delete
  · simp [unrestricted.overwr,unrestricted.nondefOverwr]
  · exact unrestricted.create
  · rfl

/-- The value a reader finds once a variable is set, or removed by an empty value. -/
def newValue (value : CString) : Option CString := if value.bytes = [] then none else some value

def KeepsOthers (name : CString) (data data' : List UInt8) : Prop :=
  ∀ other, equalSign ∉ other.bytes → other ≠ name → fw_getenv data' other = fw_getenv data other

theorem keepsOthers_without {data' : List UInt8} (block : Block vars data)
    (left : Block (without name vars) data') : KeepsOthers name data data' := by
  intro other noEqual different
  rw [fw_getenv_eq block noEqual,fw_getenv_eq left noEqual,lookup_without different]

theorem keepsOthers_appended {data' : List UInt8} (block : Block vars data)
    (added : Block (without name vars ++ [(name,value)]) data') : KeepsOthers name data data' := by
  intro other noEqual different
  rw [fw_getenv_eq block noEqual,fw_getenv_eq added noEqual,lookup_append_other different,lookup_without different]

theorem room_of_block
    (block : Block (vars ++ [(name,value)]) data) : Room vars data.length name value := by
  obtain ⟨pad,text,_⟩ := block.text
  rw [Room,text,blockText_append,blockText_cons,varText]
  simp only [CString.length,blockText_nil,List.length_append,List.length_cons,List.length_nil]
  omega

/-- For a name without restrictions, `fw_env_write` returns 0 and leaves a block of the
    same size in which the name has the new value and every other one the old, or it
    returns -1 since no block of that size could hold the result; then, too, every other
    name has its old value. -/
theorem fw_env_write_updates {vars : List Var} {data : List UInt8} (given : Represents data vars) {access : Access}
    {name : CString} (unrestricted : Unrestricted access name) (noEqual : equalSign ∉ name.bytes) (value : CString) :
    ∃ data' written, fw_env_write access data name value = some (data',written) ∧ data'.length = data.length ∧
      KeepsOthers name data data' ∧
      ((written = .done ∧ (∃ vars', Represents data' vars') ∧ fw_getenv data' name = some (newValue value)) ∨
        (written = .overflow ∧
          ∀ full, full.length = data.length → ¬ Represents full (without name vars ++ [(name,value)]))) := by
  obtain ⟨block,distinct⟩ := given
  rcases fw_env_write_spec block access noEqual value with
    ⟨denied,_⟩ | ⟨_,data',length,⟨empty,result,left⟩ | ⟨_,full,result,left⟩ | ⟨valued,_,result,added⟩⟩
  · rw [unrestricted.allows] at denied
    cases denied
  · refine ⟨data',.done,result,length,keepsOthers_without block left,.inl ⟨rfl,⟨_,left,without_distinct name distinct⟩,?_⟩⟩
    rw [fw_getenv_eq left noEqual,lookup_removed distinct,newValue,if_pos empty]
  · refine ⟨data',.overflow,result,length,keepsOthers_without block left,.inr ⟨rfl,fun other size represented => full ?_⟩⟩
    rw [← size]
    exact room_of_block represented.1
  refine ⟨data',.done,result,length,keepsOthers_appended block added,
    .inl ⟨rfl,⟨_,added,appended_distinct name value distinct⟩,?_⟩⟩
  rw [fw_getenv_eq added noEqual,lookup_appended distinct,newValue,if_neg valued]

theorem free_unrestricted (name : CString) : Unrestricted EnvReaders.Access.free name := ⟨rfl,rfl,rfl,rfl⟩

theorem small_block_updated :
    Represents EnvReaders.smallBlock [(varB,varC)] ∧
      ∃ data' written, fw_env_write EnvReaders.Access.free EnvReaders.smallBlock varB varD = some (data',written) ∧
        data'.length = 16 ∧ KeepsOthers varB EnvReaders.smallBlock data' ∧
        ((written = .done ∧ (∃ vars', Represents data' vars') ∧ fw_getenv data' varB = some (newValue varD)) ∨
          (written = .overflow ∧
            ∀ full, full.length = 16 → ¬ Represents full (without varB [(varB,varC)] ++ [(varB,varD)]))) :=
  ⟨⟨EnvReaders.smallBlock_block,by decide⟩,
    fw_env_write_updates ⟨EnvReaders.smallBlock_block,by decide⟩ (free_unrestricted varB) (by decide) varD⟩

/-- An empty environment that ends with a single NUL, with something else behind it. -/
def onceTerminated : List UInt8 := [0,1,0,0,0,0,0,0,0,0,0,0,0,0,0,0]

/-- The new definition goes behind that, where no reader comes. -/
theorem definition_behind_the_end :
    (∃ pad, onceTerminated = blockText [] ++ 0 :: pad) ∧
      ∃ data', fw_env_write EnvReaders.Access.free onceTerminated varA varD = some (data',.done) ∧
        fw_getenv data' varA = some none :=
  ⟨⟨[1,0,0,0,0,0,0,0,0,0,0,0,0,0,0],rfl⟩,[0,1,0,97,equalSign,100,0,0,0,0,0,0,0,0,0,0],by decide +kernel,by decide +kernel⟩

end UBoot.FwEnvUpdate
