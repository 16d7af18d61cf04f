import UBoot.EnvAttr
import UBoot.Himport

/-!
Access and type flags of variables, `common/env_flags.c`, the callbacks of variables,
`common/env_callback.c`, and the commands of `common/cmd_nvedit.c` that change the
environment. The board's lists are parameters. The attributes of a name are read into
three bytes by `env_flags_init` and longer ones overflow them; here they are kept whole.
-/
set_option linter.style.nameCheck false

namespace UBoot.EnvFlags
open CStrings Hashtable EnvAttr Hexport Himport

/-! ### Types of values -/

def env_flags_vartype_string : Nat := 0
def env_flags_vartype_decimal : Nat := 1
def env_flags_vartype_hex : Nat := 2
def env_flags_vartype_bool : Nat := 3
def env_flags_vartype_ipaddr : Nat := 4
def env_flags_vartype_macaddr : Nat := 5
def env_flags_vartype_end : Nat := 6

def isdigit (c : UInt8) : Bool := 48 ≤ c && c ≤ 57
def isxdigit (c : UInt8) : Bool := isdigit c || (65 ≤ c && c ≤ 70) || (97 ≤ c && c ≤ 102)

/-- `0x` or `0X`. -/
def is_hex_prefix : List UInt8 → Bool
  | c :: d :: _ => c = 48 && (d = 120 || d = 88)
  | _ => false

/-- At most `n` characters are skipped. -/
def skipDigits (digit : UInt8 → Bool) : Nat → List UInt8 → List UInt8
  | 0, value => value
  | n+1, c :: rest => if digit c then skipDigits digit n rest else c :: rest
  | _+1, [] => []

/-- What is left of the value behind a number; `max_digits` is -1 for no limit. -/
def skip_num (hex : Bool) (value : List UInt8) (max_digits : Option Nat) : List UInt8 :=
  let value := if hex && is_hex_prefix value then value.drop 2 else value
  let digit := if hex then isxdigit else isdigit
  match max_digits with
  | none => value.dropWhile digit
  | some n => skipDigits digit n value

/-- Four numbers of up to three digits with dots between them. -/
def validIpaddr : Nat → List UInt8 → Bool
  | 0, _ => true
  | n+1, cur =>
    let rest := skip_num false cur (some 3)
    if rest.length = cur.length then false
    else if n = 0 then rest = []
    else match rest with
      | c :: rest => if c = 46 then validIpaddr n rest else false
      | [] => false

/-- Six numbers of up to two hexadecimal digits with colons between them. -/
def validMacaddr : Nat → List UInt8 → Bool
  | 0, _ => true
  | n+1, cur =>
    let rest := skip_num true cur (some 2)
    if rest.length = cur.length then false
    else if rest.length + 2 = cur.length ∧ is_hex_prefix cur then false
    else if n = 0 then rest = []
    else match rest with
      | c :: rest => if c = colon then validMacaddr n rest else false
      | [] => false

def boolChars : List UInt8 := [49,121,116,89,84,48,110,102,78,70]

def _env_flags_validate_type (value : List UInt8) (type : Nat) : Bool :=
  if type = env_flags_vartype_decimal then skip_num false value none = []
  else if type = env_flags_vartype_hex then
    skip_num true value none = [] && !(value.length = 2 && is_hex_prefix value)
  else if type = env_flags_vartype_bool then value.length = 1 && value.all fun c => c ∈ boolChars
  else if type = env_flags_vartype_ipaddr then validIpaddr 4 value
  else if type = env_flags_vartype_macaddr then validMacaddr 6 value
  else type ≠ env_flags_vartype_end

/-! ### Flags -/

def ENV_FLAGS_VARTYPE_BIN_MASK : Nat := 0x07
def ENV_FLAGS_VARACCESS_PREVENT_DELETE : Nat := 0x08
def ENV_FLAGS_VARACCESS_PREVENT_CREATE : Nat := 0x10
def ENV_FLAGS_VARACCESS_PREVENT_OVERWR : Nat := 0x20
def ENV_FLAGS_VARACCESS_PREVENT_NONDEF_OVERWR : Nat := 0x40

/-- `"sdxbim"`. -/
def env_flags_vartype_rep : List UInt8 := [115,100,120,98,105,109]

/-- `"aroc"`. -/
def env_flags_varaccess_rep : List UInt8 := [97,114,111,99]

def env_flags_varaccess_mask : List Nat :=
  [0,
    ENV_FLAGS_VARACCESS_PREVENT_DELETE ||| ENV_FLAGS_VARACCESS_PREVENT_CREATE ||| ENV_FLAGS_VARACCESS_PREVENT_OVERWR,
    ENV_FLAGS_VARACCESS_PREVENT_DELETE ||| ENV_FLAGS_VARACCESS_PREVENT_OVERWR,
    ENV_FLAGS_VARACCESS_PREVENT_DELETE ||| ENV_FLAGS_VARACCESS_PREVENT_NONDEF_OVERWR]

/-- The index of a character among the known ones, 0 for an unknown or missing one. -/
def parseRep (rep : List UInt8) : Option UInt8 → Nat
  | none => 0
  | some c => if c ∈ rep then rep.idxOf c else 0

def env_flags_parse_vartype (flags : CString) : Nat := parseRep env_flags_vartype_rep flags.bytes[0]?
def env_flags_parse_varaccess (flags : CString) : Nat := parseRep env_flags_varaccess_rep flags.bytes[1]?

def env_parse_flags_to_bin (flags : CString) : Nat :=
  (env_flags_parse_vartype flags &&& ENV_FLAGS_VARTYPE_BIN_MASK) |||
    env_flags_varaccess_mask.getD (env_flags_parse_varaccess flags) 0

/-! ### The board -/

/-- What the configuration and the drivers contribute: the static lists, the linker list
    of callbacks, what the drivers' callbacks return and the default environment. -/
structure Board where
  ENV_FLAGS_LIST_STATIC : CString
  ENV_CALLBACK_LIST_STATIC : CString
  env_clbk : List (CString × Callback)
  driver : Nat → CString → Option CString → EnvOp → Nat → Bool
  getenv_default : CString → Option CString

/-- `".flags"`. -/
def ENV_FLAGS_VAR : CString := ⟨[46,102,108,97,103,115],by decide⟩

/-- `".callbacks"`. -/
def ENV_CALLBACK_VAR : CString := ⟨[46,99,97,108,108,98,97,99,107,115],by decide⟩

variable (board : Board)

def findSlot (htab : HsearchData) (name : CString) : Option Nat :=
  match hsearch_r Hooks.none name .FIND htab 0 with
  | some result => result.retval
  | none => none

/-- `getenv` once the table is set up. -/
def getenv (htab : HsearchData) (name : CString) : Option CString :=
  (findSlot htab name).map fun idx => (htab.table idx).entry.data

/-- A lookup in a list that may be missing and then, if the name is not there, in the
    static one. -/
def lookupLists (list : Option CString) (static name : CString) : Option CString :=
  match list.bind fun list => (env_attr_lookup list name).join with
  | some attributes => some attributes
  | none => (env_attr_lookup static name).join

def env_flags_lookup (flags_list : Option CString) (name : CString) : Option CString :=
  lookupLists flags_list board.ENV_FLAGS_LIST_STATIC name

def env_flags_init (htab : HsearchData) (var_entry : ENTRY) : Nat :=
  match env_flags_lookup board (getenv htab ENV_FLAGS_VAR) var_entry.key with
  | some flags => if flags.bytes ≠ [] then env_parse_flags_to_bin flags else var_entry.flags
  | none => var_entry.flags

/-- `hwalk_r`, with what the callback does to an entry. -/
def hwalk_r (htab : HsearchData) (callback : ENTRY → ENTRY) : HsearchData :=
  { htab with table := fun i =>
      if 1 ≤ i ∧ i ≤ htab.size ∧ 0 < (htab.table i).used then { htab.table i with entry := callback (htab.table i).entry }
      else htab.table i }

def attrFlags : Option CString → Nat
  | some value => if value.bytes = [] then 0 else env_parse_flags_to_bin value
  | none => 0

def updateEntry (htab : HsearchData) (name : CString) (change : ENTRY → ENTRY) : HsearchData :=
  match findSlot htab name with
  | some idx => htab.setSlot idx { htab.table idx with entry := change (htab.table idx).entry }
  | none => htab

def set_flags (htab : HsearchData) (name : CString) (value : Option CString) : HsearchData :=
  updateEntry htab name fun entry => { entry with flags := attrFlags value }

def on_flags (value : Option CString) (htab : HsearchData) : HsearchData :=
  let htab := hwalk_r htab fun entry => { entry with flags := 0 }
  let htab := env_attr_walk set_flags (some board.ENV_FLAGS_LIST_STATIC) htab
  env_attr_walk set_flags value htab

/-- Consistency check before a change: 0 if it is allowed. -/
def env_flags_validate (item : ENTRY) (newval : Option CString) (op : EnvOp) (flag : Nat) : Int :=
  let newbytes := (newval.map CString.bytes).getD []
  if op ≠ .delete ∧ _env_flags_validate_type newbytes (item.flags &&& ENV_FLAGS_VARTYPE_BIN_MASK) = false then -1
  else if flag &&& H_FORCE ≠ 0 then 0
  else match op with
    | .delete => if item.flags &&& ENV_FLAGS_VARACCESS_PREVENT_DELETE ≠ 0 then 1 else 0
    | .overwrite =>
      if item.flags &&& ENV_FLAGS_VARACCESS_PREVENT_OVERWR ≠ 0 then 1
      else if item.flags &&& ENV_FLAGS_VARACCESS_PREVENT_NONDEF_OVERWR ≠ 0 then
        if item.data.bytes ≠ ((board.getenv_default item.key).map CString.bytes).getD [] then 1 else 0
      else 0
    | .create => if item.flags &&& ENV_FLAGS_VARACCESS_PREVENT_CREATE ≠ 0 then 1 else 0

/-! ### Callbacks -/

def find_env_callback (name : CString) : Option Callback := (board.env_clbk.find? fun clbk => clbk.1 = name).map Prod.snd

def env_callback_init (htab : HsearchData) (var_entry : ENTRY) : Option Callback :=
  match lookupLists (getenv htab ENV_CALLBACK_VAR) board.ENV_CALLBACK_LIST_STATIC var_entry.key with
  | some callback_name =>
    if callback_name.bytes ≠ [] then (find_env_callback board callback_name).or var_entry.callback else var_entry.callback
  | none => var_entry.callback

def set_callback (htab : HsearchData) (name : CString) (value : Option CString) : HsearchData :=
  updateEntry htab name fun entry =>
    { entry with callback := match value with
        | some value => if value.bytes = [] then none else (find_env_callback board value).or entry.callback
        | none => none }

def on_callbacks (value : Option CString) (htab : HsearchData) : HsearchData :=
  let htab := hwalk_r htab fun entry => { entry with callback := none }
  let htab := env_attr_walk (set_callback board) (some board.ENV_CALLBACK_LIST_STATIC) htab
  env_attr_walk (set_callback board) value htab

def callBackOf (c : Callback) (name : CString) (value : Option CString) (op : EnvOp) (flag : Nat) (htab : HsearchData) :
    Bool × HsearchData :=
  match c with
  | .flags => (false,on_flags board value htab)
  | .callbacks => (false,on_callbacks board value htab)
  | .other id => (board.driver id name value op flag,htab)

/-! ### Keys and values stay -/

theorem hwalk_r_same (htab : HsearchData) {callback : ENTRY → ENTRY} (key : ∀ e, (callback e).key = e.key)
    (data : ∀ e, (callback e).data = e.data) : SameSlots htab (hwalk_r htab callback) := by
  refine ⟨rfl,rfl,?_,?_,?_⟩
  all_goals
    intro i
    simp only [hwalk_r]
    split
  · rfl
  · rfl
  · exact key _
  · rfl
  · exact data _
  · rfl

theorem updateEntry_same (htab : HsearchData) (name : CString) {change : ENTRY → ENTRY} (key : ∀ e, (change e).key = e.key)
    (data : ∀ e, (change e).data = e.data) : SameSlots htab (updateEntry htab name change) := by
  unfold updateEntry
  split
  · refine ⟨rfl,rfl,?_,?_,?_⟩
    all_goals
      intro i
      simp only [HsearchData.setSlot,Function.update_apply]
      split
    · subst i; rfl
    · rfl
    · subst i; exact key _
    · rfl
    · subst i; exact data _
    · rfl
  · exact SameSlots.refl htab

theorem env_attr_walk_same {callback : HsearchData → CString → Option CString → HsearchData}
    (same : ∀ htab name value, SameSlots htab (callback htab name value)) (attr_list : Option CString) (htab : HsearchData) :
    SameSlots htab (env_attr_walk callback attr_list htab) := by
  unfold env_attr_walk
  split
  · exact SameSlots.refl htab
  generalize entries _ = list
  induction list generalizing htab with
  | nil => exact SameSlots.refl htab
  | cons entry list ih => exact (same htab entry.1 entry.2).trans (ih _)

theorem set_flags_same (htab : HsearchData) (name : CString) (value : Option CString) :
    SameSlots htab (set_flags htab name value) :=
  updateEntry_same htab name (fun _ => rfl) (fun _ => rfl)

theorem set_callback_same (htab : HsearchData) (name : CString) (value : Option CString) :
    SameSlots htab (set_callback board htab name value) :=
  updateEntry_same htab name (fun _ => rfl) (fun _ => rfl)

theorem on_flags_same (value : Option CString) (htab : HsearchData) : SameSlots htab (on_flags board value htab) := by
  have cleared := @hwalk_r_same htab (fun entry => { entry with flags := 0 }) (fun _ => rfl) (fun _ => rfl)
  exact (cleared.trans (env_attr_walk_same set_flags_same _ _)).trans (env_attr_walk_same set_flags_same _ _)

theorem on_callbacks_same (value : Option CString) (htab : HsearchData) : SameSlots htab (on_callbacks board value htab) := by
  have cleared := @hwalk_r_same htab (fun entry => { entry with callback := none }) (fun _ => rfl) (fun _ => rfl)
  exact (cleared.trans (env_attr_walk_same (set_callback_same board) _ _)).trans
    (env_attr_walk_same (set_callback_same board) _ _)

/-- What `env_htab` is set up with. -/
def envHooks : Hooks where
  change_ok := some fun item newval op flag => env_flags_validate board item newval op flag ≠ 0
  env_callback_init := env_callback_init board
  env_flags_init := env_flags_init board
  callback := callBackOf board
  callbackFrame c name value op flag t := by
    cases c with
    | flags => exact on_flags_same board value t
    | callbacks => exact on_callbacks_same board value t
    | other id => exact SameSlots.refl t

/-! ### Commands -/

/-- The options of a command: the flag and the other arguments, `none` for an option that
    does not exist. -/
def parseOptions : Nat → List CString → Option (Nat × List CString)
  | env_flag, [] => some (env_flag,[])
  | env_flag, arg :: args =>
    match arg.bytes with
    | 45 :: options =>
      if options.all (· = 102) then parseOptions (if options = [] then env_flag else env_flag ||| H_FORCE) args else none
    | _ => some (env_flag,arg :: args)

def joinValues (values : List CString) : CString := toCString ([space].intercalate (values.map CString.bytes))

/-- `_do_env_set` with the arguments behind the name of the command: the table and whether
    it failed. No argument left is `none`, a null pointer in the code. -/
def _do_env_set (args : List CString) (htab : HsearchData) : Option (HsearchData × Bool) :=
  match parseOptions H_INTERACTIVE args with
  | none => some (htab,true)
  | some (_,[]) => none
  | some (env_flag,name :: values) =>
    if equalSign ∈ name.bytes then some (htab,true)
    else if values = [] then
      (hdelete_r (envHooks board) name htab env_flag).map fun result => (result.1,result.2.1 = 0)
    else
      (hsearch_r (envHooks board) name (.ENTER (joinValues values)) htab env_flag).map fun result =>
        (result.htab,result.retval = none)

/-- `setenv`: without a value or with an empty one the variable is deleted. -/
def setenv (varname : CString) (varvalue : Option CString) (htab : HsearchData) : Option (HsearchData × Bool) :=
  match varvalue with
  | none => _do_env_set board [varname] htab
  | some value => if value.bytes = [] then _do_env_set board [varname] htab else _do_env_set board [varname,value] htab

/-- `do_env_delete` with the arguments behind the name of the command. -/
def do_env_delete (args : List CString) (htab : HsearchData) : Option (HsearchData × Bool) :=
  match parseOptions H_INTERACTIVE args with
  | none => some (htab,true)
  | some (env_flag,names) =>
    names.foldlM (fun state name =>
      (hdelete_r (envHooks board) name state.1 env_flag).map fun result => (result.1,state.2 || result.2.1 = 0)) (htab,false)

end UBoot.EnvFlags
