import UBoot.EnvFlagsChange
import UBoot.EnvText

/-!
Runs of `setenv`, `env delete` and `himport_r` on the environment while `.flags` has one
value. Each command is a sequence of changes that does not depend on the table
(`perform_changes`); a variable that may not be overwritten or deleted keeps its value over
all of them, and values of variables with a type comply with it.
-/
namespace UBoot.EnvFlagsRuns
open List Option CStrings Hashtable HashtableMap Hexport Himport EnvText EnvFlags
open EnvFlagsTable EnvFlagsChange Runs

variable {cs : List Change}

/-! ### Commands as changes -/

inductive Op
  | env_set (args : List CString)
  | setenv (varname : CString) (varvalue : Option CString)
  | env_delete (args : List CString)
  | himport (env : List UInt8) (sep : UInt8) (flag : Nat) (vars : List CString)

variable {board : Board} {F : Option CString} {t u p q : HsearchData}

def Op.perform (board : Board) (t : HsearchData) : Op → Option HsearchData
  | .env_set args => (_do_env_set board args t).map Prod.fst
  | .setenv varname varvalue => (EnvFlags.setenv board varname varvalue t).map Prod.fst
  | .env_delete args => (do_env_delete board args t).map Prod.fst
  | .himport env sep flag vars => (himport_r (envHooks board) (some t) env sep flag vars).bind Prod.fst

def setChanges (args : List CString) : Option (List Change) :=
  match parseOptions H_INTERACTIVE args with
  | none => some []
  | some (_,[]) => none
  | some (env_flag,name :: values) =>
    if equalSign ∈ name.bytes then some []
    else if values = [] then some [.delete name env_flag]
    else some [.enter name (joinValues values) env_flag]

def deleteChanges (args : List CString) : List Change :=
  match parseOptions H_INTERACTIVE args with
  | none => []
  | some (env_flag,names) => names.map fun name => .delete name env_flag

/-- The changes for the items of a text, and then for the variables that were not in it. -/
def importChanges (flag : Nat) : List Item → List (Option CString) → List Change
  | [], localvars => (localvars.filterMap id).map fun name => .delete name flag
  | .comment :: items, localvars => importChanges flag items localvars
  | .delete name :: items, localvars =>
    let dropped := drop_var_from_set name localvars
    if dropped.1 then .delete name flag :: importChanges flag items dropped.2 else importChanges flag items dropped.2
  | .enter name value :: items, localvars =>
    if name.bytes = [] then []
    else
      let dropped := drop_var_from_set name localvars
      if dropped.1 then .enter name value flag :: importChanges flag items dropped.2 else importChanges flag items dropped.2

/-- The changes a command makes; an import keeps the table with `H_NOCLEAR` only. -/
def Op.changes : Op → Option (List Change)
  | .env_set args => setChanges args
  | .setenv varname varvalue =>
    match varvalue with
    | none => setChanges [varname]
    | some value => if value.bytes = [] then setChanges [varname] else setChanges [varname,value]
  | .env_delete args => some (deleteChanges args)
  | .himport env sep flag vars =>
    if flag &&& H_NOCLEAR = 0 then none
    else (parseAll sep (env.length + 1) env).map fun items => importChanges flag items (vars.map some)

def applyChange (board : Board) (t : HsearchData) (c : Change) : Option HsearchData := (perform t (c.call board)).map Prod.fst

theorem applyChange_delete (t : HsearchData) (name : CString) (flag : Nat) :
    applyChange board t (.delete name flag) = (hdelete_r (envHooks board) name t flag).map Prod.fst := by
  simp [applyChange,Change.call,perform,Function.comp_def]

theorem applyChange_enter (t : HsearchData) (name data : CString) (flag : Nat) :
    applyChange board t (.enter name data flag) =
      (hsearch_r (envHooks board) name (.ENTER data) t flag).map SearchResult.htab := by
  simp [applyChange,Change.call,perform,Function.comp_def]

theorem set_changes {args : List CString} (made : setChanges args = some cs) (t : HsearchData) :
    (_do_env_set board args t).map Prod.fst = cs.foldlM (applyChange board) t := by
  unfold setChanges at made
  unfold _do_env_set
  generalize parseOptions H_INTERACTIVE args = parsed at made ⊢
  rcases parsed with _ | ⟨env_flag,_ | ⟨name,values⟩⟩
  · cases made; rfl
  · cases made
  dsimp only at made ⊢
  split_ifs at made ⊢
  · cases made; rfl
  · cases made
    rw [foldlM_cons,applyChange_delete]
    cases hdelete_r (envHooks board) name t env_flag <;> rfl
  cases made
  rw [foldlM_cons,applyChange_enter]
  cases hsearch_r (envHooks board) name (.ENTER (joinValues values)) t env_flag <;> rfl

theorem delete_changes (args : List CString) (t : HsearchData) :
    (do_env_delete board args t).map Prod.fst = (deleteChanges args).foldlM (applyChange board) t := by
  unfold do_env_delete deleteChanges
  rcases parseOptions H_INTERACTIVE args with _ | ⟨env_flag,names⟩
  · rfl
  dsimp only
  generalize false = failed
  induction names generalizing t failed with
  | nil => rfl
  | cons name names ih =>
    rw [foldlM_cons,map_cons,foldlM_cons,applyChange_delete]
    cases hdelete_r (envHooks board) name t env_flag with
    | none => rfl
    | some result => exact ih result.1 _

theorem left_changes (flag : Nat) (localvars : List (Option CString)) (t : HsearchData) :
    deleteLeft (envHooks board) flag ⟨t,localvars⟩ =
      ((localvars.filterMap id).map fun name => Change.delete name flag).foldlM (applyChange board) t := by
  unfold deleteLeft
  induction localvars generalizing t with
  | nil => rfl
  | cons var localvars ih =>
    cases var with
    | none => exact ih t
    | some name =>
      rw [filterMap_cons]
      simp only [id,map_cons,foldlM_cons,applyChange_delete]
      cases hdelete_r (envHooks board) name t flag with
      | none => rfl
      | some result => exact ih result.1

def finish (board : Board) (flag : Nat) (result : Importing × Bool) : Option HsearchData :=
  if result.2 then deleteLeft (envHooks board) flag result.1 else some result.1.htab

theorem items_changes (flag : Nat) (items : List Item) : ∀ (t : HsearchData) (localvars : List (Option CString)),
    (applyItems (envHooks board) flag ⟨t,localvars⟩ items).bind (finish board flag) =
      (importChanges flag items localvars).foldlM (applyChange board) t := by
  induction items with
  | nil =>
    intro t localvars
    exact left_changes flag localvars t
  | cons item items ih =>
    intro t localvars
    cases item with
    | comment => exact ih t localvars
    | delete name =>
      rw [applyItems,importChanges]
      simp only [applyItem]
      split_ifs with processed
      · rw [foldlM_cons,applyChange_delete]
        cases hdelete_r (envHooks board) name t flag with
        | none => rfl
        | some result => exact ih result.1 _
      · exact ih t _
    | enter name value =>
      rw [applyItems,importChanges]
      simp only [applyItem]
      split_ifs with empty processed
      · rfl
      · rw [foldlM_cons,applyChange_enter]
        cases hsearch_r (envHooks board) name (.ENTER value) t flag with
        | none => rfl
        | some result => exact ih result.htab _
      · exact ih t _

theorem import_changes {env : List UInt8} {sep : UInt8} {flag : Nat} {vars : List CString}
    (made : (Op.himport env sep flag vars).changes = some cs) (t : HsearchData) :
    (himport_r (envHooks board) (some t) env sep flag vars).bind Prod.fst = cs.foldlM (applyChange board) t := by
  simp only [Op.changes] at made
  split_ifs at made with clears
  obtain ⟨items,parsed,rfl⟩ := map_eq_some_iff.mp made
  have table : importTable (some t) env.length flag = some t := by
    rw [importTable,if_neg clears]
  have whole := @items_changes board flag items t (vars.map some)
  simp only [himport_r,table,importLoop_eq,drop_zero,parsed,bind_some]
  rw [← whole]
  cases applyItems (envHooks board) flag ⟨t,vars.map some⟩ items with
  | none => rfl
  | some result =>
    obtain ⟨s,goes⟩ := result
    cases goes with
    | false => rfl
    | true =>
      simp only [bind_some,finish,if_true]
      cases deleteLeft (envHooks board) flag s <;> rfl

theorem perform_changes {op : Op} (made : op.changes = some cs) (t : HsearchData) :
    op.perform board t = cs.foldlM (applyChange board) t := by
  cases op with
  | env_set args => exact set_changes made t
  | setenv varname varvalue =>
    simp only [Op.changes] at made
    simp only [Op.perform,EnvFlags.setenv]
    cases varvalue with
    | none => exact set_changes made t
    | some value =>
      dsimp only at made ⊢
      split_ifs at made ⊢
      · exact set_changes made t
      · exact set_changes made t
  | env_delete args =>
    cases made
    exact delete_changes args t
  | himport env sep flag vars => exact import_changes made t

theorem performAll_changes {ops : List Op} {parts : List (List Change)} (made : ops.mapM Op.changes = some parts)
    (t : HsearchData) : ops.foldlM (Op.perform board) t = parts.flatten.foldlM (applyChange board) t := by
  induction ops generalizing parts t with
  | nil =>
    cases made
    rfl
  | cons op ops ih =>
    simp only [mapM_cons,bind_eq_bind,bind_eq_some_iff] at made
    obtain ⟨cs,first,rest,others,same⟩ := made
    cases same
    rw [foldlM_cons,perform_changes first,flatten_cons,foldlM_append]
    congr 1
    funext u
    exact ih others u

/-! ### Runs -/

def Protected (board : Board) (F : Option CString) (key : CString) : Prop :=
  effective board F key &&& ENV_FLAGS_VARACCESS_PREVENT_OVERWR ≠ 0 ∧
    effective board F key &&& ENV_FLAGS_VARACCESS_PREVENT_DELETE ≠ 0

instance (board : Board) (F : Option CString) (key : CString) : Decidable (Protected board F key) :=
  inferInstanceAs (Decidable (_ ∧ _))

theorem permitted_protected {key value : CString} {after : Option CString}
    (permitted : Permitted board F key (some value) after) (shielded : Protected board F key) : after = some value := by
  cases permitted with
  | kept => rfl
  | overwritten old value allowed => exact absurd allowed shielded.1
  | deleted old allowed => exact absurd allowed shielded.2

theorem permitted_complies {key value : CString} {before : Option CString} (permitted : Permitted board F key before (some value))
    (complied : before = some value → Complies board F key value) : Complies board F key value := by
  cases permitted with
  | kept => exact complied rfl
  | created value complies => exact complies
  | overwritten old value _ complies => exact complies

/-- What has become of the variables since `t`. -/
structure Since (board : Board) (F : Option CString) (t u : HsearchData) : Prop where
  good : Good board F u
  shielded : ∀ key value, Protected board F key → getenv t key = some value → getenv u key = some value
  typed : ∀ key value, getenv t key = none → getenv u key = some value → Complies board F key value

theorem run_since (good : Good board F t) (run : Run (Guarded (Sound board) (Step board F)) t cs u) :
    Since board F t u := by
  apply run.invariant
  · exact ⟨good,fun _ _ _ same => same,fun key value absent present => by rw [absent] at present; cases present⟩
  rintro p c q since ⟨sound,step⟩
  obtain ⟨goodNow,permitted⟩ := change_spec since.good sound step
  refine ⟨goodNow,?_,?_⟩
  · intro key value shielded before
    have still := permitted key
    rw [since.shielded key value shielded before] at still
    exact permitted_protected still shielded
  intro key value absent present
  have change := permitted key
  rw [present] at change
  exact permitted_complies change (since.typed key value absent)

theorem run_computes (run : Run (Guarded (Sound board) (Step board F)) t cs u) :
    cs.foldlM (applyChange board) t = some u := by
  induction run with
  | start => rfl
  | next _ taken ih =>
    obtain ⟨_,_,⟨ok,done⟩,_⟩ := taken
    rw [foldlM_append,ih]
    simp [applyChange,done]

/-! ### Runs that can be computed -/

theorem forall_live_iff (t : HsearchData) (P : Nat → Prop) : (∀ i < t.size + 1, Live t i → P i) ↔ ∀ i, Live t i → P i :=
  ⟨fun all i live => all i (by have := live.2.1; omega) live,fun all i _ live => all i live⟩

instance decidableForallLive (t : HsearchData) (P : Nat → Prop) [DecidablePred P] : Decidable (∀ i, Live t i → P i) :=
  decidable_of_iff _ (forall_live_iff t P)

instance (board : Board) (t : HsearchData) : (c : Change) → Decidable (Sound board t c)
  | .enter .. => inferInstanceAs (Decidable (_ ∧ _))
  | .delete key _ => inferInstanceAs (Decidable (key ≠ ENV_FLAGS_VAR → _))

def nextTable (board : Board) (F : Option CString) (t : HsearchData) (c : Change) : Option HsearchData :=
  (applyChange board t c).filter fun u => c.callFlag &&& H_FORCE = 0 ∧ getenv u ENV_FLAGS_VAR = F

theorem nextTable_step (t : HsearchData) (c : Change) (u : HsearchData) (done : nextTable board F t c = some u) :
    Step board F t c u := by
  obtain ⟨applied,holds⟩ := filter_eq_some_iff.mp done
  obtain ⟨plain,fixed⟩ := of_decide_eq_true holds
  obtain ⟨⟨u',ok⟩,performed,rfl⟩ := map_eq_some_iff.mp applied
  exact ⟨plain,⟨ok,performed⟩,fixed⟩

def soundTable (board : Board) (F : Option CString) (t : HsearchData) (c : Change) : Option HsearchData :=
  if Sound board t c then nextTable board F t c else none

theorem soundTable_step (t : HsearchData) (c : Change) (u : HsearchData) (done : soundTable board F t c = some u) :
    Guarded (Sound board) (Step board F) t c u := by
  unfold soundTable at done
  split_ifs at done with sound
  exact ⟨sound,nextTable_step t c u done⟩

def text (s : String) : CString := toCString (s.toList.map fun c => UInt8.ofNat c.toNat)

def x2600 : Board where
  ENV_FLAGS_LIST_STATIC := text "ethaddr:ma,"
  ENV_CALLBACK_LIST_STATIC := text ".callbacks:callbacks,.flags:flags,baudrate:baudrate,bootfile:bootfile,loadaddr:loadaddr,stdin:console,stdout:console,stderr:console,"
  env_clbk := [(text "callbacks",.callbacks),(text "flags",.flags),(text "baudrate",.other 0),(text "bootfile",.other 1),
    (text "loadaddr",.other 2),(text "console",.other 3)]
  driver _ _ _ _ _ := false
  getenv_default _ := none

/-- A table in which `.flags` was set to a list. -/
def withFlags (list : CString) : Option HsearchData :=
  (hcreate_r 64).bind fun t => nextTable x2600 (some list) t (.enter ENV_FLAGS_VAR list H_INTERACTIVE)

theorem withFlags_good {list : CString} (agree : walkedFlags x2600 (some list) ENV_FLAGS_VAR = effective x2600 (some list) ENV_FLAGS_VAR)
    (made : withFlags list = some t) : Good x2600 (some list) t := by
  obtain ⟨new,created,done⟩ := bind_eq_some_iff.mp made
  obtain ⟨_,⟨ok,performed⟩,fixed⟩ := nextTable_step _ _ _ done
  exact flags_first created performed fixed agree

/-- `a` may be written once, `n` is a decimal number. -/
def onceAndDecimal : CString := text "a:so,n:d"

/-- Two values for `a`, a deletion, and an import of both variables. -/
def attempts : List Op :=
  [.setenv (text "a") (some (text "1")),.setenv (text "a") (some (text "2")),.env_delete [text "a"],
    .himport (text "a=3\nn=12\n").bytes newline H_NOCLEAR []]

theorem attempts_change :
    attempts.mapM Op.changes = some [[.enter (text "a") (text "1") 4],[.enter (text "a") (text "2") 4],[.delete (text "a") 4],
      [.enter (text "a") (text "3") 1,.enter (text "n") (text "12") 1]] := by
  decide +kernel

/-- `x` is bound to the callback `flags` and set; then `a` has no flags any more. -/
def rebinding : List Op :=
  [.setenv (text "a") (some (text "1")),.setenv ENV_CALLBACK_VAR (some (text "x:flags")),
    .setenv (text "x") (some (text "y")),.setenv (text "a") (some (text "2"))]

end UBoot.EnvFlagsRuns
