import UBoot.EnvFlags
import UBoot.HashtableMap

/-!
What the environment's callbacks do to the hash table: they change callbacks and flags of
live entries only. A walk over a list gives each entry the attributes listed last for its
name (`on_flags_flags`), a new entry gets those that a lookup finds (`effective`).
-/
namespace UBoot.EnvFlagsTable
open Option CStrings Hashtable HashtableMap EnvAttr EnvFlags

variable {board : Board} {t u v : HsearchData} {key name data : CString} {i : Nat}

/-! ### Reading variables -/

theorem findSlot_spec (inv : Inv t) (name : CString) :
    (∃ i, Live t i ∧ (t.table i).entry.key = name ∧ findSlot t name = some i) ∨ (Absent t name ∧ findSlot t name = none) := by
  unfold findSlot
  rcases find_spec inv Hooks.none name 0 with ⟨i,live,keyed,search⟩ | ⟨absent,search⟩
  · exact .inl ⟨i,live,keyed,by rw [search]⟩
  · exact .inr ⟨absent,by rw [search]⟩

theorem getenv_iff (inv : Inv t) (key data : CString) : getenv t key = some data ↔ Holds t key data := by
  rcases findSlot_spec inv key with ⟨i,live,keyed,slot⟩ | ⟨absent,slot⟩
  · simp only [getenv,slot,map_some,Option.some.injEq]
    constructor
    · intro same
      exact ⟨i,live,keyed,same⟩
    rintro ⟨j,jLive,jKeyed,same⟩
    rw [inv.distinct i j live jLive (keyed.trans jKeyed.symm)]
    exact same
  simp only [getenv,slot,map_none,reduceCtorEq,false_iff]
  rintro ⟨i,live,keyed,_⟩
  exact absent i live keyed

theorem getenv_none_iff (inv : Inv t) (key : CString) : getenv t key = none ↔ Absent t key := by
  rcases findSlot_spec inv key with ⟨i,live,keyed,slot⟩ | ⟨absent,slot⟩
  · simp only [getenv,slot,map_some,reduceCtorEq,false_iff]
    exact fun absent => absent i live keyed
  · simp only [getenv,slot,map_none,true_iff]
    exact absent

theorem getenv_congr (inv : Inv t) (inv' : Inv u) (same : ∀ data, Holds u key data ↔ Holds t key data) :
    getenv u key = getenv t key := by
  apply Option.ext
  intro data
  rw [getenv_iff inv',getenv_iff inv,same data]

/-! ### Changes to live entries -/

/-- Only callbacks and flags of live entries differ. -/
structure LiveOnly (t u : HsearchData) : Prop where
  same : SameSlots t u
  free : ∀ i, ¬ Live t i → u.table i = t.table i

theorem LiveOnly.refl (t : HsearchData) : LiveOnly t t := ⟨SameSlots.refl t,fun _ _ => rfl⟩

theorem same_live (same : SameSlots t u) (i : Nat) : Live u i ↔ Live t i := by
  simp [Live,same.size,same.used]

theorem LiveOnly.trans (first : LiveOnly t u) (second : LiveOnly u v) : LiveOnly t v := by
  refine ⟨first.same.trans second.same,?_⟩
  intro i free
  rw [second.free i (mt (same_live first.same i).mp free),first.free i free]

theorem hwalk_r_liveOnly (t : HsearchData) {callback : ENTRY → ENTRY} (key : ∀ e, (callback e).key = e.key)
    (data : ∀ e, (callback e).data = e.data) : LiveOnly t (hwalk_r t callback) :=
  ⟨hwalk_r_same t key data,fun _ free => if_neg free⟩

theorem updateEntry_liveOnly (inv : Inv t) (name : CString) {change : ENTRY → ENTRY} (key : ∀ e, (change e).key = e.key)
    (data : ∀ e, (change e).data = e.data) : LiveOnly t (updateEntry t name change) := by
  refine ⟨updateEntry_same t name key data,?_⟩
  intro i free
  rcases findSlot_spec inv name with ⟨j,live,_,slot⟩ | ⟨_,slot⟩
  · have other : i ≠ j := fun here => free (here ▸ live)
    simp only [updateEntry,slot,HsearchData.setSlot]
    exact Function.update_of_ne other ..
  · simp only [updateEntry,slot]

theorem updateEntry_entry (inv : Inv t) (name : CString) (change : ENTRY → ENTRY) (live : Live t i) :
    ((updateEntry t name change).table i).entry =
      if (t.table i).entry.key = name then change (t.table i).entry else (t.table i).entry := by
  rcases findSlot_spec inv name with ⟨j,jLive,keyed,slot⟩ | ⟨absent,slot⟩
  · simp only [updateEntry,slot,HsearchData.setSlot]
    by_cases here : i = j
    · subst here
      rw [Function.update_self,if_pos keyed]
    · have other : (t.table i).entry.key ≠ name := fun same => here (inv.distinct i j live jLive (same.trans keyed.symm))
      rw [Function.update_of_ne here,if_neg other]
  · simp only [updateEntry,slot]
    rw [if_neg (absent i live)]

theorem walk_keeps {R : HsearchData → Prop} {callback : HsearchData → CString → Option CString → HsearchData}
    (keep : ∀ t name value, R t → R (callback t name value)) (attr_list : Option CString) (initial : R t) :
    R (env_attr_walk callback attr_list t) := by
  unfold env_attr_walk
  split
  · exact initial
  generalize entries _ = list
  induction list generalizing t with
  | nil => exact initial
  | cons entry list ih => exact ih (keep t entry.1 entry.2 initial)

/-! ### Flags by a walk -/

def listed (attr_list : Option CString) : List (CString × Option CString) := (attr_list.map entries).getD []

/-- The flags a variable has after the entries of a list, one after the other. -/
def lastFlags (key : CString) (flags : Nat) (list : List (CString × Option CString)) : Nat :=
  list.foldl (fun flags entry => if key = entry.1 then attrFlags entry.2 else flags) flags

/-- The flags `on_flags` gives to a variable. -/
def walkedFlags (board : Board) (value : Option CString) (key : CString) : Nat :=
  lastFlags key (lastFlags key 0 (entries board.ENV_FLAGS_LIST_STATIC)) (listed value)

theorem set_flags_walk (inv : Inv t) (live : Live t i) (attr_list : Option CString) :
    ((env_attr_walk set_flags attr_list t).table i).entry.flags =
      lastFlags (t.table i).entry.key (t.table i).entry.flags (listed attr_list) := by
  unfold env_attr_walk listed
  cases attr_list with
  | none => rfl
  | some attr_list =>
    simp only [map_some,getD_some]
    generalize entries attr_list = list
    induction list generalizing t with
    | nil => rfl
    | cons entry list ih =>
      have same := set_flags_same t entry.1 entry.2
      rw [List.foldl_cons,ih (inv.same same) ((same_live same i).mpr live),lastFlags,lastFlags,List.foldl_cons]
      rw [set_flags,updateEntry_entry inv entry.1 _ live]
      split <;> rfl

theorem on_flags_flags (inv : Inv t) (live : Live t i) (value : Option CString) :
    ((on_flags board value t).table i).entry.flags = walkedFlags board value (t.table i).entry.key := by
  have cleared := @hwalk_r_same t (fun entry => { entry with flags := 0 }) (fun _ => rfl) (fun _ => rfl)
  have first := env_attr_walk_same set_flags_same (some board.ENV_FLAGS_LIST_STATIC) (hwalk_r t fun entry => { entry with flags := 0 })
  have zero : ((hwalk_r t fun entry => { entry with flags := 0 }).table i).entry.flags = 0 := by
    unfold Live at live
    rw [hwalk_r]
    simp only [live,and_self,if_true]
  have both := cleared.trans first
  rw [on_flags,set_flags_walk (inv.same both) ((same_live both i).mpr live),both.key,
    set_flags_walk (inv.same cleared) ((same_live cleared i).mpr live),cleared.key,zero]
  rfl

theorem on_flags_liveOnly (inv : Inv t) (value : Option CString) : LiveOnly t (on_flags board value t) := by
  have cleared := @hwalk_r_liveOnly t (fun entry => { entry with flags := 0 }) (fun _ => rfl) (fun _ => rfl)
  have keep : ∀ u name value, LiveOnly t u → LiveOnly t (set_flags u name value) := fun u name value changed =>
    changed.trans (updateEntry_liveOnly (inv.same changed.same) name (fun _ => rfl) (fun _ => rfl))
  exact walk_keeps keep value (walk_keeps keep _ cleared)

theorem on_callbacks_liveOnly (inv : Inv t) (value : Option CString) :
    LiveOnly t (on_callbacks board value t) ∧
      ∀ i, ((on_callbacks board value t).table i).entry.flags = (t.table i).entry.flags := by
  have cleared := @hwalk_r_liveOnly t (fun entry => { entry with callback := none }) (fun _ => rfl) (fun _ => rfl)
  have keep : ∀ u name value, (LiveOnly t u ∧ ∀ i, (u.table i).entry.flags = (t.table i).entry.flags) →
      LiveOnly t (set_callback board u name value) ∧
        ∀ i, ((set_callback board u name value).table i).entry.flags = (t.table i).entry.flags := by
    rintro u name value ⟨changed,flags⟩
    refine ⟨changed.trans (updateEntry_liveOnly (inv.same changed.same) name (fun _ => rfl) (fun _ => rfl)),?_⟩
    intro i
    rw [← flags i,set_callback,updateEntry]
    split
    · simp only [HsearchData.setSlot,Function.update_apply]
      split
      · subst i; rfl
      · rfl
    · rfl
  refine walk_keeps keep value (walk_keeps keep _ ⟨cleared,?_⟩)
  intro i
  simp only [hwalk_r]
  split <;> rfl

/-! ### Flags by a lookup -/

/-- The flags a variable has according to `.flags`, else to the static list. -/
def effective (board : Board) (flags_list : Option CString) (key : CString) : Nat :=
  attrFlags (env_flags_lookup board flags_list key)

theorem env_flags_init_eq (entry : ENTRY) (clear : entry.flags = 0) :
    env_flags_init board t entry = effective board (getenv t ENV_FLAGS_VAR) entry.key := by
  unfold env_flags_init effective attrFlags
  split
  · simp only [clear,ite_not]
  · exact clear

/-- The callback a list that may be missing, else the static one, binds a variable to. -/
def boundCallback (board : Board) (callback_list : Option CString) (key : CString) : Option Callback :=
  match lookupLists callback_list board.ENV_CALLBACK_LIST_STATIC key with
  | some callback_name => if callback_name.bytes ≠ [] then find_env_callback board callback_name else none
  | none => none

theorem env_callback_init_eq (entry : ENTRY) (clear : entry.callback = none) :
    env_callback_init board t entry = boundCallback board (getenv t ENV_CALLBACK_VAR) entry.key := by
  unfold env_callback_init boundCallback
  cases lookupLists (getenv t ENV_CALLBACK_VAR) board.ENV_CALLBACK_LIST_STATIC entry.key with
  | none => exact clear
  | some callback_name => simp only [clear,or_none]

/-! ### New entries -/

theorem getenv_same (inv : Inv t) (same : SameSlots t u) (key : CString) : getenv u key = getenv t key :=
  getenv_congr inv (inv.same same) fun data => SameSlots.holds_iff same key data

theorem getenv_placed (inv : Inv t) (absent : Absent t key) (fits : Fits t key i) (placed : Placed t u i key data)
    (k : CString) : getenv u k = if k = key then some data else getenv t k := by
  have inv' := inv.placed absent fits placed
  have holds := placed.holds_iff absent fits
  split
  next here => rw [getenv_iff inv',holds,if_pos here]
  next other => exact getenv_congr inv inv' fun value => by rw [holds,if_neg other]

/-- The table with a new entry before it is checked: its callback and flags are those the
    lists have for it. -/
structure Created (board : Board) (t u : HsearchData) (i : Nat) (key data : CString) : Prop where
  placed : Placed t u i key data
  others : ∀ j, j ≠ i → u.table j = t.table j
  callback : (u.table i).entry.callback = boundCallback board (getenv u ENV_CALLBACK_VAR) key
  flags : (u.table i).entry.flags = effective board (getenv u ENV_FLAGS_VAR) key

theorem initEntry_created (inv : Inv t) (absent : Absent t key) (fits : Fits t key i)
    (clear : (t.table i).entry.flags = 0 ∧ (t.table i).entry.callback = none) :
    Created board t (initEntry (envHooks board) (t.place i (hval t.size key) key data) i) i key data := by
  have placed := place_placed t i key data
  have placedInv := inv.placed absent fits placed
  have same := initEntry_same (envHooks board) (t.place i (hval t.size key) key data) i
  have entry : ((t.place i (hval t.size key) key data).table i).entry = { (t.table i).entry with key := key, data := data } := by
    simp [HsearchData.place,HsearchData.setSlot]
  refine ⟨placed.same same,?_,?_,?_⟩
  · intro j other
    simp [initEntry,HsearchData.place,HsearchData.setSlot,other]
  · rw [getenv_same placedInv same]
    have bound := @env_callback_init_eq board (t.place i (hval t.size key) key data)
      ((t.place i (hval t.size key) key data).table i).entry (by rw [entry]; exact clear.2)
    rw [entry] at bound
    rw [← bound]
    simp only [initEntry,HsearchData.setSlot,Function.update_self]
    rw [entry]
    rfl
  · -- the lookup of the flags sees the table with the callback set
    have first := setSlot_same (t.place i (hval t.size key) key data) i { (t.place i (hval t.size key) key data).table i with
      entry := { ((t.place i (hval t.size key) key data).table i).entry with
        callback := (envHooks board).env_callback_init (t.place i (hval t.size key) key data)
          ((t.place i (hval t.size key) key data).table i).entry } } rfl rfl rfl
    rw [getenv_same placedInv same,← getenv_same placedInv first]
    simp only [initEntry,HsearchData.setSlot,Function.update_self]
    refine (env_flags_init_eq _ ?_).trans ?_
    · rw [entry]
      exact clear.1
    · rw [entry]

end UBoot.EnvFlagsTable
