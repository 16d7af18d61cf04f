import UBoot.EnvAttrAgree
import UBoot.EnvFlagsRuns

/-!
A variable that is created when `.flags` is set, and `.flags` set when the variable exists. The one looks the
flags up, the other walks over the lists; for lists of the documented form they give the same flags exactly when
no spaces at the beginning of a list hide the entry of the variable (`order_of_definition_iff`).
-/
namespace UBoot.EnvFlagsOrder
open List Option CStrings Hashtable HashtableMap EnvAttr EnvAttrAgree EnvFlags EnvFlagsTable
open EnvFlagsRuns

def ENV_FLAGS_ATTR_MAX_LEN : Nat := 2

/-- The attributes that `env_flags_init` finds fit into its array `flags`. -/
def InitFits (board : Board) (htab : HsearchData) (var_entry : ENTRY) : Prop :=
  ∀ flags, env_flags_lookup board (getenv htab ENV_FLAGS_VAR) var_entry.key = some flags →
    flags.length ≤ ENV_FLAGS_ATTR_MAX_LEN

def flagsOf (value : Option (List UInt8)) : Nat := attrFlags (value.map toCString)

variable {board : Board} {flags name : CString} {e s : Entry} {rest more : List Entry}

theorem attrFlags_parts (e : Entry) : attrFlags e.parts.2 = flagsOf (some e.value) := by
  rw [Entry.parts,Entry.value]
  cases e.attributes with
  | none => rfl
  | some attributes => rfl

theorem listText_nulFree {list : CString} (form : list.bytes = listText e rest) : ∀ entry ∈ e :: rest, 0 ∉ entry.text := by
  have free : 0 ∉ listText e rest := form ▸ list.nulFree
  clear form
  induction rest generalizing e with
  | nil =>
    intro entry member
    rw [mem_singleton.mp member]
    exact free
  | cons next rest ih =>
    rw [listText,mem_append,mem_cons] at free
    simp only [not_or] at free
    intro entry member
    rcases mem_cons.mp member with rfl | later
    · exact free.1
    · exact ih free.2.2 entry later

theorem lastFlags_parts (name : CString) : ∀ (list : List Entry) (flags : Nat), (∀ entry ∈ list, 0 ∉ entry.text) →
    name.bytes ≠ [] → lastFlags name flags ((list.map Entry.parts).filter fun entry => entry.1.bytes ≠ []) =
      match lastValue name.bytes list with
      | some value => flagsOf (some value)
      | none => flags := by
  intro list
  induction list with
  | nil => intro flags _ _; rfl
  | cons e list ih =>
    intro flags free nonempty
    have others := fun entry member => free entry (mem_cons_of_mem e member)
    have nulFree : 0 ∉ e.name.bytes := fun member =>
      free e mem_cons_self (by simp [Entry.text,member])
    have bytes : e.parts.1.bytes = e.name.bytes := toCString_bytes nulFree
    have same : name = e.parts.1 ↔ e.name.bytes = name.bytes := by
      rw [← bytes]
      exact ⟨fun equal => by rw [equal],fun equal => CString.ext equal.symm⟩
    rw [lastValue,map_cons]
    by_cases equal : e.name.bytes = name.bytes
    · rw [filter_cons_of_pos (by rw [bytes,equal]; simpa using nonempty),lastFlags,foldl_cons,if_pos (same.mpr equal),
        if_pos equal]
      change lastFlags name (attrFlags e.parts.2) _ = _
      rw [ih _ others nonempty,attrFlags_parts]
      cases lastValue name.bytes list <;> rfl
    rw [if_neg equal,or_none]
    by_cases named : e.parts.1.bytes = []
    · rw [filter_cons_of_neg (by simpa using named)]
      exact ih flags others nonempty
    · rw [filter_cons_of_pos (by simpa using named),lastFlags,foldl_cons,if_neg (mt same.mp equal)]
      exact ih flags others nonempty

theorem walkedFlags_eq (form : flags.bytes = listText e rest) (static : board.ENV_FLAGS_LIST_STATIC.bytes = listText s more)
    (nonempty : name.bytes ≠ []) :
    walkedFlags board (some flags) name = flagsOf ((lastValue name.bytes (e :: rest)).or (lastValue name.bytes (s :: more))) := by
  rw [walkedFlags,listed,map_some,getD_some,entries_listText form,entries_listText static,
    lastFlags_parts name _ _ (listText_nulFree form) nonempty,lastFlags_parts name _ _ (listText_nulFree static) nonempty]
  cases lastValue name.bytes (e :: rest) with
  | some value => rfl
  | none => cases lastValue name.bytes (s :: more) <;> rfl

theorem env_flags_lookup_eq (form : flags.bytes = listText e rest)
    (static : board.ENV_FLAGS_LIST_STATIC.bytes = listText s more) (word : ∀ c ∈ name.bytes, plain c = true)
    (nonempty : name.bytes ≠ []) :
    env_flags_lookup board (some flags) name =
      ((seenValue name.bytes e rest).or (seenValue name.bytes s more)).map toCString := by
  rw [env_flags_lookup,lookupLists,bind_some,lookup_listText form word nonempty,lookup_listText static word nonempty]
  cases seenValue name.bytes e rest with
  | some value => rfl
  | none => cases seenValue name.bytes s more <;> rfl

theorem hidden_value {name : List UInt8} (hidden : Hidden name e rest) :
    lastValue name (e :: rest) = some e.value ∧ seenValue name e rest = none := by
  rw [seenValue,if_pos hidden,lastValue,hidden.2.2,if_pos hidden.2.1]
  exact ⟨rfl,rfl⟩

def tableWith (key data : CString) : Option HsearchData :=
  ((hcreate_r 5).bind (performAll · [.enter Hooks.none key data 0])).map Prod.fst

theorem tableWith_inv {t : HsearchData} {key data : CString} (made : tableWith key data = some t)
    (safe : ((hcreate_r 5).map fun new => allSafe new [.enter Hooks.none key data 0]) = some true) : Inv t := by
  obtain ⟨⟨u,events⟩,done,rfl⟩ := map_eq_some_iff.mp made
  obtain ⟨new,created,performed⟩ := bind_eq_some_iff.mp done
  obtain ⟨other,again,all⟩ := map_eq_some_iff.mp safe
  rw [created] at again
  cases again
  exact (agrees_run created (allSafe_run performed all)).1

/-- The flags of a variable that exists when `.flags` is set. -/
def variableFirst (list name : CString) : Option Nat :=
  (tableWith name varD).bind fun t => (findSlot t name).map fun i => ((on_flags x2600 (some list) t).table i).entry.flags

/-- The flags of a variable that is created when `.flags` is set. -/
def flagsFirst (list name : CString) : Option Nat :=
  (tableWith ENV_FLAGS_VAR list).map fun u => env_flags_init x2600 u ⟨name,varD,none,0⟩

/-- `a:sr`. -/
def readOnly : Entry := ⟨0,⟨[97],by decide +kernel⟩,0,some (0,⟨[115,114],by decide +kernel⟩,0)⟩

/-- `ethaddr:ma`. -/
def ethaddr : Entry := ⟨0,⟨[101,116,104,97,100,100,114],by decide +kernel⟩,0,some (0,⟨[109,97],by decide +kernel⟩,0)⟩

def noEntry : Entry := ⟨0,⟨[],by decide +kernel⟩,0,none⟩

end UBoot.EnvFlagsOrder
