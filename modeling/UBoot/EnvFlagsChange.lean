import UBoot.EnvFlagsTable

/-!
One change of the environment, by `hsearch_r(ENTER)` or `hdelete_r`, while `.flags` has one
value: what its flags permit for each variable (`change_spec`). Three things break it: an
entry created in the slot of a live one, a callback `flags` bound to another variable than
`.flags`, whose value then replaces all flags, and setting `.flags` again to a list that a
walk reads in another way than a lookup.
-/
namespace UBoot.EnvFlagsChange
open Option CStrings Hashtable HashtableMap Hexport EnvFlags EnvFlagsTable

variable {board : Board} {F : Option CString} {t u v : HsearchData} {key data : CString} {flag i : Nat} {ok : Bool}

/-! ### Entries with their flags -/

/-- Every entry has the flags that `F` and the static list give to it, and slots without
    an entry have neither flags nor a callback. -/
structure Tidy (board : Board) (F : Option CString) (t : HsearchData) : Prop where
  flags : ∀ i, Live t i → (t.table i).entry.flags = effective board F (t.table i).entry.key
  free : ∀ i, 1 ≤ i → i ≤ t.size → ¬ Live t i → (t.table i).entry.flags = 0 ∧ (t.table i).entry.callback = none

structure Good (board : Board) (F : Option CString) (t : HsearchData) : Prop where
  inv : Inv t
  fixed : getenv t ENV_FLAGS_VAR = F
  tidy : Tidy board F t

theorem hcreate_table {nel : Nat} (made : hcreate_r nel = some t) (i : Nat) : t.table i = ⟨0,default⟩ := by
  unfold hcreate_r at made
  split at made
  · cases made
  split at made
  · cases made
    rfl
  · cases made

theorem hcreate_none_live {nel : Nat} (made : hcreate_r nel = some t) (i : Nat) : ¬ Live t i := by
  rintro ⟨_,_,used⟩
  rw [hcreate_table made] at used
  exact absurd used (by decide)

theorem hcreate_tidy {nel : Nat} (made : hcreate_r nel = some t) : Tidy board F t := by
  constructor
  · exact fun i live => absurd live (hcreate_none_live made i)
  intro i _ _ _
  rw [hcreate_table made]
  exact ⟨rfl,rfl⟩

theorem hcreate_good {nel : Nat} (made : hcreate_r nel = some t) : Good board none t := by
  have inv := hcreate_inv made
  refine ⟨inv,(getenv_none_iff inv _).mpr ?_,hcreate_tidy made⟩
  exact fun i live => absurd live (hcreate_none_live made i)

theorem Tidy.liveOnly (tidy : Tidy board F t) (changed : LiveOnly t u)
    (flags : ∀ i, Live t i → (u.table i).entry.flags = effective board F (t.table i).entry.key) : Tidy board F u := by
  constructor
  · intro i live
    rw [flags i ((same_live changed.same i).mp live),changed.same.key]
  intro i low high free
  have freeBefore := mt (same_live changed.same i).mpr free
  rw [changed.free i freeBefore]
  exact tidy.free i low (changed.same.size ▸ high) freeBefore

theorem Tidy.setData (tidy : Tidy board F t) (i : Nat) (data : CString) : Tidy board F (t.setData i data) := by
  have live : ∀ j, Live (t.setData i data) j ↔ Live t j := by
    intro j
    by_cases here : j = i
    · subst here; simp [Live,HsearchData.setData,HsearchData.setSlot]
    · simp [Live,HsearchData.setData,HsearchData.setSlot,here]
  have entry : ∀ j, ((t.setData i data).table j).entry.flags = (t.table j).entry.flags ∧
      ((t.setData i data).table j).entry.callback = (t.table j).entry.callback ∧
      ((t.setData i data).table j).entry.key = (t.table j).entry.key := by
    intro j
    by_cases here : j = i
    · subst here; simp [HsearchData.setData,HsearchData.setSlot]
    · simp [HsearchData.setData,HsearchData.setSlot,here]
  constructor
  · intro j isLive
    rw [(entry j).1,(entry j).2.2]
    exact tidy.flags j ((live j).mp isLive)
  intro j low high free
  rw [(entry j).1,(entry j).2.1]
  exact tidy.free j low high (mt (live j).mpr free)

theorem tidy_hdelete (flags : ∀ j, j ≠ i → Live t j → (t.table j).entry.flags = effective board F (t.table j).entry.key)
    (free : ∀ j, j ≠ i → 1 ≤ j → j ≤ t.size → ¬ Live t j → (t.table j).entry.flags = 0 ∧ (t.table j).entry.callback = none) :
    Tidy board F (_hdelete t i) := by
  have deleted := hdelete_deleted (SameSlots.refl t) i
  have others : ∀ j, j ≠ i → (_hdelete t i).table j = t.table j := by
    intro j other
    simp [_hdelete,HsearchData.setSlot,other]
  constructor
  · intro j live
    obtain ⟨other,before⟩ := (deleted.live_iff j).mp live
    rw [others j other]
    exact flags j other before
  intro j low high notLive
  by_cases here : j = i
  · subst here
    simp [_hdelete,HsearchData.setSlot]
  rw [others j here]
  apply free j here low high
  exact fun live => notLive ((deleted.live_iff j).mpr ⟨here,live⟩)

/-! ### Callbacks and checks -/

theorem callBack_keeps_flags (inv : Inv t) (entry : ENTRY) (other : entry.callback ≠ some .flags) (name : CString)
    (value : Option CString) (op : EnvOp) (flag : Nat) :
    LiveOnly t ((envHooks board).callBack entry name value op flag t).2 ∧
      ∀ i, (((envHooks board).callBack entry name value op flag t).2.table i).entry.flags = (t.table i).entry.flags := by
  unfold Hooks.callBack
  split
  next c is =>
    cases c with
    | flags => exact absurd is other
    | callbacks => exact on_callbacks_liveOnly inv value
    | other id => exact ⟨LiveOnly.refl t,fun _ => rfl⟩
  next => exact ⟨LiveOnly.refl t,fun _ => rfl⟩

theorem changeDenied_iff (item : ENTRY) (newval : Option CString) (op : EnvOp) (flag : Nat) :
    (envHooks board).changeDenied item newval op flag = true ↔ env_flags_validate board item newval op flag ≠ 0 := by
  simp [Hooks.changeDenied,envHooks]

theorem validate_type {item : ENTRY} {op : EnvOp} (passed : env_flags_validate board item (some data) op flag = 0)
    (stored : op ≠ .delete) :
    _env_flags_validate_type data.bytes (item.flags &&& ENV_FLAGS_VARTYPE_BIN_MASK) = true := by
  by_contra fails
  unfold env_flags_validate at passed
  rw [if_pos ⟨stored,by simpa using fails⟩] at passed
  exact absurd passed (by decide)

theorem validate_overwrite {item : ENTRY} (plain : flag &&& H_FORCE = 0)
    (passed : env_flags_validate board item (some data) .overwrite flag = 0) :
    item.flags &&& ENV_FLAGS_VARACCESS_PREVENT_OVERWR = 0 := by
  by_contra prevents
  rw [env_flags_validate] at passed
  simp only [plain,prevents,ne_eq,not_true_eq_false,not_false_eq_true,if_true,if_false] at passed
  split_ifs at passed
  · exact absurd passed (by decide)
  · exact absurd passed (by decide)

theorem validate_delete {item : ENTRY} (plain : flag &&& H_FORCE = 0)
    (passed : env_flags_validate board item none .delete flag = 0) :
    item.flags &&& ENV_FLAGS_VARACCESS_PREVENT_DELETE = 0 := by
  by_contra prevents
  rw [env_flags_validate] at passed
  simp [plain,prevents] at passed

/-! ### Overwriting -/

theorem Tidy.callBack (tidy : Tidy board F t) (inv : Inv t) {entry : ENTRY} (other : entry.callback ≠ some .flags)
    (name : CString) (value : Option CString) (op : EnvOp) (flag : Nat) :
    Tidy board F ((envHooks board).callBack entry name value op flag t).2 := by
  obtain ⟨changed,flags⟩ := @callBack_keeps_flags board t inv entry other name value op flag
  apply tidy.liveOnly changed
  intro i live
  rw [flags i]
  exact tidy.flags i live

/-- Setting `.flags` again, with a list that a walk and a lookup read in the same way. -/
theorem Tidy.again (tidy : Tidy board F t) (inv : Inv t) (is : F = some data)
    (agree : ∀ i, Live t i → walkedFlags board (some data) (t.table i).entry.key = effective board (some data) (t.table i).entry.key) :
    Tidy board F (on_flags board (some data) t) := by
  apply tidy.liveOnly (on_flags_liveOnly inv (some data))
  intro i live
  rw [on_flags_flags inv live,agree i live,is]

theorem getenv_overwritten (inv : Inv t) (live : Live t i) (same : SameSlots t u) (data : CString) :
    getenv (u.setData i data) (t.table i).entry.key = some data := by
  have written := setData_overwritten same i data
  rw [getenv_iff (inv.congr written.size written.filled written.used written.key),written.holds_iff inv live,if_pos rfl]

theorem overwrite_step (good : Good board F t) (live : Live t i) (keyed : (t.table i).entry.key = key)
    (callback : key ≠ ENV_FLAGS_VAR → (t.table i).entry.callback ≠ some .flags)
    (again : key = ENV_FLAGS_VAR → ∀ j, Live t j →
      walkedFlags board (some data) (t.table j).entry.key = effective board (some data) (t.table j).entry.key)
    (fixed : getenv (overwriteEntry (envHooks board) key (.ENTER data) t flag i).htab ENV_FLAGS_VAR = F) :
    Tidy board F (overwriteEntry (envHooks board) key (.ENTER data) t flag i).htab ∧
      ((overwriteEntry (envHooks board) key (.ENTER data) t flag i).ret ≠ 0 →
        env_flags_validate board (t.table i).entry (some data) .overwrite flag = 0) := by
  rw [overwriteEntry] at fixed ⊢
  by_cases denied : (envHooks board).changeDenied (t.table i).entry (some data) .overwrite flag = true
  · rw [if_pos denied]
    exact ⟨good.tidy,fun wrong => absurd rfl wrong⟩
  have passed : env_flags_validate board (t.table i).entry (some data) .overwrite flag = 0 := by
    simpa [changeDenied_iff] using denied
  rw [if_neg denied] at fixed ⊢
  refine ⟨?_,fun _ => passed⟩
  by_cases runsFlags : (t.table i).entry.callback = some .flags
  · have isFlags : key = ENV_FLAGS_VAR := by
      by_contra other
      exact callback other runsFlags
    have called : (envHooks board).callBack (t.table i).entry key (some data) .overwrite flag t =
        (false,on_flags board (some data) t) := by
      rw [Hooks.callBack,runsFlags]
      rfl
    simp only [called,Bool.false_eq_true,if_false] at fixed ⊢
    have value := getenv_overwritten good.inv live (on_flags_same board (some data) t) data
    rw [keyed,isFlags,fixed] at value
    exact (good.tidy.again good.inv value (again isFlags)).setData i data
  have kept := good.tidy.callBack good.inv runsFlags key (some data) .overwrite flag
  dsimp only
  split_ifs
  · exact kept
  · exact kept.setData i data

/-! ### Creating -/

theorem rejected_tidy (tidy : Tidy board F t) (created : Created board t u i key data) (fits : Fits t key i)
    (changed : LiveOnly u v) (flags : ∀ j, (v.table j).entry.flags = (u.table j).entry.flags) : Tidy board F (_hdelete v i) := by
  have live := created.placed.live_iff fits.1 fits.2.1
  apply tidy_hdelete
  · intro j other isLive
    have before := ((live j).mp ((same_live changed.same j).mp isLive)).resolve_left other
    rw [flags j,changed.same.key,created.others j other]
    exact tidy.flags j before
  intro j other low high free
  have notLive := mt (same_live changed.same j).mpr free
  rw [changed.free j notLive,created.others j other]
  apply tidy.free j low
  · rwa [← created.placed.size,← changed.same.size]
  · exact fun before => notLive ((live j).mpr (.inr before))

theorem accepted_tidy (tidy : Tidy board F t) (created : Created board t u i key data) (fits : Fits t key i)
    (known : getenv u ENV_FLAGS_VAR = F) (changed : LiveOnly u v)
    (flags : ∀ j, (v.table j).entry.flags = (u.table j).entry.flags) : Tidy board F v := by
  have live := created.placed.live_iff fits.1 fits.2.1
  constructor
  · intro j isLive
    rw [flags j,changed.same.key]
    by_cases here : j = i
    · subst here
      rw [created.flags,created.placed.keyHere,known]
    · rw [created.others j here]
      exact tidy.flags j (((live j).mp ((same_live changed.same j).mp isLive)).resolve_left here)
  intro j low high free
  have notLive := mt (same_live changed.same j).mpr free
  have other : j ≠ i := by
    rintro rfl
    exact notLive ((live j).mpr (.inl rfl))
  rw [changed.free j notLive,created.others j other]
  apply tidy.free j low
  · rwa [← created.placed.size,← changed.same.size]
  · exact fun before => notLive ((live j).mpr (.inr before))

theorem create_step (good : Good board F t) (absent : Absent t key) (fits : Fits t key i)
    (callback : key ≠ ENV_FLAGS_VAR →
      boundCallback board (if ENV_CALLBACK_VAR = key then some data else getenv t ENV_CALLBACK_VAR) key ≠ some .flags)
    (fixed : getenv (createEntry (envHooks board) key data t flag (hval t.size key) i).htab ENV_FLAGS_VAR = F) :
    Tidy board F (createEntry (envHooks board) key data t flag (hval t.size key) i).htab ∧
      ((createEntry (envHooks board) key data t flag (hval t.size key) i).ret ≠ 0 →
        _env_flags_validate_type data.bytes (effective board F key &&& ENV_FLAGS_VARTYPE_BIN_MASK) = true) := by
  have notLive : ¬ Live t i := by
    rintro ⟨_,_,positive⟩
    have := fits.2.2.1
    omega
  have created := @initEntry_created board t key data i good.inv absent fits (good.tidy.free i fits.1 fits.2.1 notLive)
  have inv := good.inv.placed absent fits created.placed
  have value := getenv_placed good.inv absent fits created.placed
  rw [createEntry] at fixed ⊢
  generalize initEntry (envHooks board) (t.place i (hval t.size key) key data) i = u at created inv value fixed ⊢
  dsimp only at fixed ⊢
  by_cases denied : (envHooks board).changeDenied (u.table i).entry (some data) .create flag = true
  · rw [if_pos denied]
    exact ⟨rejected_tidy good.tidy created fits (LiveOnly.refl u) (fun _ => rfl),fun wrong => absurd rfl wrong⟩
  have passed : env_flags_validate board (u.table i).entry (some data) .create flag = 0 := by
    simpa [changeDenied_iff] using denied
  rw [if_neg denied] at fixed ⊢
  -- an accepted entry is not `.flags`, which was absent and would have a value now
  have notFlags : getenv ((envHooks board).callBack (u.table i).entry key (some data) .create flag u).2 ENV_FLAGS_VAR = F →
      key ≠ ENV_FLAGS_VAR := by
    rintro same rfl
    rw [getenv_same inv (callBack_same ..),value,← good.fixed,(getenv_none_iff good.inv _).mpr absent] at same
    cases same
  by_cases runsFlags : (u.table i).entry.callback = some .flags
  · have called : ((envHooks board).callBack (u.table i).entry key (some data) .create flag u).1 = false := by
      rw [Hooks.callBack,runsFlags]
      rfl
    rw [called] at fixed
    rw [created.callback,value] at runsFlags
    exact absurd runsFlags (callback (notFlags fixed))
  obtain ⟨changed,flags⟩ := @callBack_keeps_flags board u inv (u.table i).entry runsFlags key (some data) .create flag
  by_cases refused : ((envHooks board).callBack (u.table i).entry key (some data) .create flag u).1 = true
  · rw [if_pos refused]
    exact ⟨rejected_tidy good.tidy created fits changed flags,fun wrong => absurd rfl wrong⟩
  rw [if_neg refused] at fixed ⊢
  have known : getenv u ENV_FLAGS_VAR = F := by
    rw [value,if_neg (notFlags fixed).symm]
    exact good.fixed
  refine ⟨accepted_tidy good.tidy created fits known changed flags,fun _ => ?_⟩
  have complies := validate_type passed (by decide)
  rwa [created.flags,known] at complies

/-! ### Deleting -/

theorem delete_step (good : Good board F t)
    (callback : key ≠ ENV_FLAGS_VAR → ∀ i, Live t i → (t.table i).entry.key = key → (t.table i).entry.callback ≠ some .flags)
    (done : perform t (.delete (envHooks board) key flag) = some (u,ok)) (fixed : getenv u ENV_FLAGS_VAR = F) :
    Tidy board F u ∧ (ok = true → ∃ i, Live t i ∧ (t.table i).entry.key = key ∧
      env_flags_validate board (t.table i).entry none .delete flag = 0) := by
  rw [perform,hdelete_r] at done
  rcases find_spec good.inv (envHooks board) key 0 with ⟨i,live,keyed,search⟩ | ⟨_,search⟩
  swap
  · simp only [search,if_true,map_some,Option.some.injEq,Prod.mk.injEq] at done
    obtain ⟨rfl,rfl⟩ := done
    exact ⟨good.tidy,fun wrong => absurd wrong (by simp)⟩
  have notZero : i ≠ 0 := by have := live.1; omega
  simp only [search,if_neg notZero] at done
  by_cases denied : (envHooks board).changeDenied (t.table i).entry none .delete flag = true
  · simp only [if_pos denied,map_some,Option.some.injEq,Prod.mk.injEq] at done
    obtain ⟨rfl,rfl⟩ := done
    exact ⟨good.tidy,fun wrong => absurd wrong (by simp)⟩
  have passed : env_flags_validate board (t.table i).entry none .delete flag = 0 := by
    simpa [changeDenied_iff] using denied
  simp only [if_neg denied] at done
  have same := callBack_same (envHooks board) (t.table i).entry key none .delete flag t
  by_cases refused : ((envHooks board).callBack (t.table i).entry key none .delete flag t).1 = true
  · have other : (t.table i).entry.callback ≠ some .flags := by
      intro runsFlags
      rw [Hooks.callBack,runsFlags] at refused
      exact absurd refused (by simp [envHooks,callBackOf])
    simp only [if_pos refused,map_some,Option.some.injEq,Prod.mk.injEq] at done
    obtain ⟨rfl,rfl⟩ := done
    exact ⟨good.tidy.callBack good.inv other key none .delete flag,fun wrong => absurd wrong (by simp)⟩
  simp only [if_neg refused,map_some,Option.some.injEq,Prod.mk.injEq] at done
  obtain ⟨rfl,_⟩ := done
  refine ⟨?_,fun _ => ⟨i,live,keyed,passed⟩⟩
  have deleted := hdelete_deleted same i
  have other : (t.table i).entry.callback ≠ some .flags := by
    -- `.flags` had a value, which would be gone
    intro runsFlags
    have isFlags : key = ENV_FLAGS_VAR := by
      by_contra other
      exact callback other i live keyed runsFlags
    have gone : getenv (_hdelete ((envHooks board).callBack (t.table i).entry key none .delete flag t).2 i) ENV_FLAGS_VAR = none := by
      rw [getenv_none_iff (good.inv.deleted live deleted)]
      intro j jLive jKeyed
      have holds := (deleted.holds_iff good.inv live ENV_FLAGS_VAR _).mp ⟨j,jLive,jKeyed,rfl⟩
      exact holds.1 (isFlags.symm.trans keyed.symm)
    rw [gone,← good.fixed] at fixed
    exact (getenv_none_iff good.inv _).mp fixed.symm i live (keyed.trans isFlags)
  obtain ⟨changed,flags⟩ := @callBack_keeps_flags board t good.inv (t.table i).entry other key none .delete flag
  apply tidy_hdelete
  · intro j _ isLive
    rw [flags j,changed.same.key]
    exact good.tidy.flags j ((same_live changed.same j).mp isLive)
  intro j _ low high free
  have notLive := mt (same_live changed.same j).mpr free
  rw [changed.free j notLive]
  exact good.tidy.free j low (changed.same.size ▸ high) notLive

/-! ### Changes -/

inductive Change
  | enter (key data : CString) (flag : Nat)
  | delete (key : CString) (flag : Nat)
deriving DecidableEq

def Change.call (board : Board) : Change → Call
  | .enter key data flag => .enter (envHooks board) key data flag
  | .delete key flag => .delete (envHooks board) key flag

def Change.callFlag : Change → Nat
  | .enter _ _ flag => flag
  | .delete _ flag => flag

/-- The condition on a change. An entry is not created in the slot of a live one; the
    callback `flags` runs for `.flags` only; and when `.flags` is set, a walk over the list
    gives the same flags as lookups to the variables there are. -/
def Sound (board : Board) (t : HsearchData) : Change → Prop
  | .enter key data flag =>
    Safe t (.enter (envHooks board) key data flag) ∧
    (key ≠ ENV_FLAGS_VAR →
      (∀ i, Live t i → (t.table i).entry.key = key → (t.table i).entry.callback ≠ some .flags) ∧
      (Absent t key → boundCallback board (if ENV_CALLBACK_VAR = key then some data else getenv t ENV_CALLBACK_VAR) key ≠ some .flags)) ∧
    (key = ENV_FLAGS_VAR → ∀ i, Live t i →
      walkedFlags board (some data) (t.table i).entry.key = effective board (some data) (t.table i).entry.key)
  | .delete key _ =>
    key ≠ ENV_FLAGS_VAR → ∀ i, Live t i → (t.table i).entry.key = key → (t.table i).entry.callback ≠ some .flags

/-- A change without `H_FORCE` that leaves `.flags` at `F`. -/
def Step (board : Board) (F : Option CString) (t : HsearchData) (c : Change) (u : HsearchData) : Prop :=
  c.callFlag &&& H_FORCE = 0 ∧ (∃ ok, perform t (c.call board) = some (u,ok)) ∧ getenv u ENV_FLAGS_VAR = F

def Complies (board : Board) (F : Option CString) (key value : CString) : Prop :=
  _env_flags_validate_type value.bytes (effective board F key &&& ENV_FLAGS_VARTYPE_BIN_MASK) = true

inductive Permitted (board : Board) (F : Option CString) (key : CString) : Option CString → Option CString → Prop
  | kept (value : Option CString) : Permitted board F key value value
  | created (value : CString) : Complies board F key value → Permitted board F key none (some value)
  | overwritten (old value : CString) : effective board F key &&& ENV_FLAGS_VARACCESS_PREVENT_OVERWR = 0 →
      Complies board F key value → Permitted board F key (some old) (some value)
  | deleted (old : CString) : effective board F key &&& ENV_FLAGS_VARACCESS_PREVENT_DELETE = 0 →
      Permitted board F key (some old) none

theorem getenv_live (inv : Inv t) (live : Live t i) : getenv t (t.table i).entry.key = some (t.table i).entry.data :=
  (getenv_iff inv _ _).mpr ⟨i,live,rfl,rfl⟩

theorem permitted_of (good : Good board F t) (inv : Inv u) {c : Change} (became : Became (Holds t) (Holds u) (c.call board,ok))
    (entered : ∀ key data flag, c = .enter key data flag → ok = true → Complies board F key data ∧
      (∀ old, getenv t key = some old → effective board F key &&& ENV_FLAGS_VARACCESS_PREVENT_OVERWR = 0))
    (deleted : ∀ key flag, c = .delete key flag → ok = true →
      (∃ old, getenv t key = some old) ∧ effective board F key &&& ENV_FLAGS_VARACCESS_PREVENT_DELETE = 0) (k : CString) :
    Permitted board F k (getenv t k) (getenv u k) := by
  have unchanged : (∀ value, Holds u k value ↔ Holds t k value) → Permitted board F k (getenv t k) (getenv u k) := by
    intro same
    rw [getenv_congr good.inv inv same]
    exact .kept _
  cases ok with
  | false =>
    apply unchanged
    cases c with
    | enter key data flag => exact became k
    | delete key flag => exact became k
  | true =>
    cases c with
    | enter key data flag =>
      obtain ⟨complies,overwrite⟩ := entered key data flag rfl rfl
      by_cases here : k = key
      · subst here
        have now : getenv u k = some data := by
          rw [getenv_iff inv,became,if_pos rfl]
        rw [now]
        cases before : getenv t k with
        | none => exact .created data complies
        | some old => exact .overwritten old data (overwrite old before) complies
      apply unchanged
      intro value
      rw [became,if_neg here]
    | delete key flag =>
      obtain ⟨⟨old,before⟩,permitted⟩ := deleted key flag rfl rfl
      by_cases here : k = key
      · subst here
        have now : getenv u k = none := by
          rw [getenv_none_iff inv]
          intro j live keyed
          exact ((became k _).mp ⟨j,live,keyed,rfl⟩).1 rfl
        rw [now,before]
        exact .deleted old permitted
      apply unchanged
      intro value
      rw [became]
      exact and_iff_right here

theorem enter_step (good : Good board F t) (plain : flag &&& H_FORCE = 0) (sound : Sound board t (.enter key data flag))
    (done : perform t (.enter (envHooks board) key data flag) = some (u,ok)) (fixed : getenv u ENV_FLAGS_VAR = F) :
    Tidy board F u ∧ (ok = true → Complies board F key data ∧
      ∀ old, getenv t key = some old → effective board F key &&& ENV_FLAGS_VARACCESS_PREVENT_OVERWR = 0) := by
  obtain ⟨safe,callback,again⟩ := sound
  rw [perform] at done
  rcases enter_cases good.inv (envHooks board) key data flag safe with
    ⟨i,live,keyed,search⟩ | ⟨_,search⟩ | ⟨absent,i,fits,search⟩
  · simp only [search,map_some,Option.some.injEq,Prod.mk.injEq] at done
    obtain ⟨rfl,rfl⟩ := done
    obtain ⟨tidy,passed⟩ := overwrite_step good live keyed (fun other => (callback other).1 i live keyed) again fixed
    refine ⟨tidy,fun success => ?_⟩
    have validated := passed (by simpa using success)
    have flags := good.tidy.flags i live
    rw [keyed] at flags
    constructor
    · rw [Complies,← flags]
      exact validate_type validated (by decide)
    intro old _
    rw [← flags]
    exact validate_overwrite plain validated
  · simp only [search,map_some,Option.some.injEq,Prod.mk.injEq] at done
    obtain ⟨rfl,rfl⟩ := done
    exact ⟨good.tidy,fun wrong => absurd wrong (by simp)⟩
  simp only [search,map_some,Option.some.injEq,Prod.mk.injEq] at done
  obtain ⟨rfl,rfl⟩ := done
  obtain ⟨tidy,passed⟩ := create_step good absent fits (fun other => (callback other).2 absent) fixed
  refine ⟨tidy,fun success => ⟨passed (by simpa using success),?_⟩⟩
  intro old present
  rw [(getenv_none_iff good.inv key).mpr absent] at present
  cases present

theorem change_spec (good : Good board F t) {c : Change} (sound : Sound board t c) (step : Step board F t c u) :
    Good board F u ∧ ∀ key, Permitted board F key (getenv t key) (getenv u key) := by
  obtain ⟨plain,⟨ok,done⟩,fixed⟩ := step
  cases c with
  | enter key data flag =>
    obtain ⟨u',ok',same,inv,became⟩ := enter_spec good.inv (envHooks board) key data flag sound.1
    obtain ⟨rfl,rfl⟩ : u = u' ∧ ok = ok' := by simpa using done.symm.trans same
    have outcome := enter_step good plain sound done fixed
    refine ⟨⟨inv,fixed,outcome.1⟩,@permitted_of board F t u ok good inv (.enter key data flag) became ?_ ?_⟩
    · rintro key' data' flag' is success
      cases is
      exact outcome.2 success
    · rintro key' flag' is
      cases is
  | delete key flag =>
    obtain ⟨u',ok',same,inv,became⟩ := delete_spec good.inv (envHooks board) key flag
    obtain ⟨rfl,rfl⟩ : u = u' ∧ ok = ok' := by simpa using done.symm.trans same
    obtain ⟨tidy,passed⟩ := delete_step good sound done fixed
    refine ⟨⟨inv,fixed,tidy⟩,@permitted_of board F t u ok good inv (.delete key flag) became ?_ ?_⟩
    · rintro key' data' flag' is
      cases is
    rintro key' flag' is success
    cases is
    obtain ⟨i,live,rfl,validated⟩ := passed success
    refine ⟨⟨_,getenv_live good.inv live⟩,?_⟩
    rw [← good.tidy.flags i live]
    exact validate_delete plain validated

theorem flags_first {nel : Nat} (made : hcreate_r nel = some t)
    (done : perform t (.enter (envHooks board) ENV_FLAGS_VAR data flag) = some (u,ok)) (value : getenv u ENV_FLAGS_VAR = some data)
    (agree : walkedFlags board (some data) ENV_FLAGS_VAR = effective board (some data) ENV_FLAGS_VAR) :
    Good board (some data) u := by
  have empty := @hcreate_good board t nel made
  have absent := (getenv_none_iff empty.inv ENV_FLAGS_VAR).mp empty.fixed
  have safe : Safe t (.enter (envHooks board) ENV_FLAGS_VAR data flag) := by
    rintro ⟨_,positive,_⟩
    have : (t.table (hval t.size ENV_FLAGS_VAR)).used = 0 := by rw [hcreate_table made]
    omega
  obtain ⟨u',ok',same,inv,became⟩ := enter_spec empty.inv (envHooks board) ENV_FLAGS_VAR data flag safe
  obtain ⟨rfl,rfl⟩ : u = u' ∧ ok = ok' := by simpa using done.symm.trans same
  refine ⟨inv,value,?_⟩
  obtain rfl : ok = true := by
    by_contra failed
    rw [Bool.eq_false_iff.mpr failed] at became
    rw [getenv_congr empty.inv inv (became ENV_FLAGS_VAR),empty.fixed] at value
    cases value
  rw [perform] at done
  rcases enter_cases empty.inv (envHooks board) ENV_FLAGS_VAR data flag safe with
    ⟨i,live,_⟩ | ⟨_,search⟩ | ⟨_,i,fits,search⟩
  · exact absurd live (hcreate_none_live made i)
  · simp [search] at done
  simp only [search,map_some,Option.some.injEq,Prod.mk.injEq] at done
  obtain ⟨rfl,success⟩ := done
  have created := @initEntry_created board t ENV_FLAGS_VAR data i empty.inv absent fits
    (empty.tidy.free i fits.1 fits.2.1 (hcreate_none_live made i))
  have createdInv := empty.inv.placed absent fits created.placed
  have known := getenv_placed empty.inv absent fits created.placed ENV_FLAGS_VAR
  rw [createEntry] at success ⊢
  generalize initEntry (envHooks board) (t.place i (hval t.size ENV_FLAGS_VAR) ENV_FLAGS_VAR data) i = v at created createdInv known success ⊢
  dsimp only at success ⊢
  split_ifs at success ⊢ with denied refused
  · simp at success
  · simp at success
  by_cases runsFlags : (v.table i).entry.callback = some .flags
  · have called : ((envHooks board).callBack (v.table i).entry ENV_FLAGS_VAR (some data) .create flag v).2 =
        on_flags board (some data) v := by
      rw [Hooks.callBack,runsFlags]
      rfl
    have tidy := accepted_tidy (hcreate_tidy made) created fits known (LiveOnly.refl v) fun _ => rfl
    rw [called]
    apply tidy.again createdInv rfl
    intro j live
    rcases (created.placed.live_iff fits.1 fits.2.1 j).mp live with rfl | old
    · rw [created.placed.keyHere,agree]
    · exact absurd old (hcreate_none_live made j)
  obtain ⟨changed,flags⟩ :=
    @callBack_keeps_flags board v createdInv (v.table i).entry runsFlags ENV_FLAGS_VAR (some data) .create flag
  exact accepted_tidy (hcreate_tidy made) created fits known changed flags

end UBoot.EnvFlagsChange
