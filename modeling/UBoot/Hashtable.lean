import UBoot.CStrings
import UBoot.Probing

/-!
The environment hash table of `lib/hashtable.c`: creation, search, insertion and
deletion. Slots `1..size` are used; `used` is 0 for a slot never used, -1 for a
deleted entry and the first hash value of the key otherwise. A table small enough
to be allocated has far fewer than `2^31` slots, so `used` never wraps.
-/
namespace UBoot.Hashtable
open CStrings Probing

/-- `enum env_op`. -/
inductive EnvOp
  | create
  | delete
  | overwrite
deriving DecidableEq

/-- The values `__set_errno` stores. -/
inductive Errno
  | EINVAL
  | EPERM
  | ENOMEM
  | ESRCH
deriving DecidableEq

/-- The functions a callback pointer can designate. The two that act on the
    table itself are told apart from the drivers' own. -/
inductive Callback
  | flags
  | callbacks
  | other (id : Nat)
deriving DecidableEq

/-- `ENTRY`. -/
structure ENTRY where
  key : CString
  data : CString
  callback : Option Callback
  flags : Nat
deriving DecidableEq, Inhabited

/-- `_ENTRY`, one slot of the table. -/
structure Slot where
  used : Int
  entry : ENTRY
deriving DecidableEq, Inhabited

/-- `struct hsearch_data`. The slots are an array of `size + 1` elements, index
    zero of which is never used. -/
structure HsearchData where
  table : Nat → Slot
  size : Nat
  filled : Nat

/-- Every slot keeps its state, key and data; only callbacks and flags may differ. -/
structure SameSlots (t u : HsearchData) : Prop where
  size : u.size = t.size
  filled : u.filled = t.filled
  used : ∀ i, (u.table i).used = (t.table i).used
  key : ∀ i, (u.table i).entry.key = (t.table i).entry.key
  data : ∀ i, (u.table i).entry.data = (t.table i).entry.data

theorem SameSlots.refl (t : HsearchData) : SameSlots t t := ⟨rfl,rfl,fun _ => rfl,fun _ => rfl,fun _ => rfl⟩

theorem SameSlots.trans {t u v : HsearchData} (first : SameSlots t u) (second : SameSlots u v) : SameSlots t v :=
  ⟨second.size.trans first.size,second.filled.trans first.filled,fun i => (second.used i).trans (first.used i),
    fun i => (second.key i).trans (first.key i),fun i => (second.data i).trans (first.data i)⟩

/-- What the table calls out to. `change_ok` and the callbacks deny a change with
    `true`. A callback may rewrite callbacks and flags of entries, as `on_flags`
    and `on_callbacks` do, but no key or value. -/
structure Hooks where
  change_ok : Option (ENTRY → Option CString → EnvOp → Nat → Bool)
  env_callback_init : HsearchData → ENTRY → Option Callback
  env_flags_init : HsearchData → ENTRY → Nat
  callback : Callback → CString → Option CString → EnvOp → Nat → HsearchData → Bool × HsearchData
  callbackFrame : ∀ c name value op flag t, SameSlots t (callback c name value op flag t).2

def Hooks.none : Hooks where
  change_ok := .none
  env_callback_init _ _ := .none
  env_flags_init _ _ := 0
  callback _ _ _ _ _ t := (false,t)
  callbackFrame _ _ _ _ _ t := SameSlots.refl t

def Hooks.changeDenied (hooks : Hooks) (entry : ENTRY) (newval : Option CString) (op : EnvOp) (flag : Nat) : Bool :=
  match hooks.change_ok with
  | some denies => denies entry newval op flag
  | .none => false

def Hooks.callBack (hooks : Hooks) (entry : ENTRY) (name : CString) (value : Option CString) (op : EnvOp) (flag : Nat)
    (htab : HsearchData) : Bool × HsearchData :=
  match entry.callback with
  | some c => hooks.callback c name value op flag htab
  | .none => (false,htab)

/-! ### hcreate_r -/

/-- The trial divisor at which the loop of `isprime` stops. -/
def isprimeLoop (number : Nat) : Nat → Nat → Nat
  | 0, div => div
  | fuel+1, div =>
    if (div * div) % 2^32 < number ∧ number % div ≠ 0 then isprimeLoop number fuel ((div + 2) % 2^32) else div

def isprime (number : Nat) : Bool := number % isprimeLoop number number 3 ≠ 0

/-- `while (!isprime(nel)) nel += 2`. -/
def hcreateLoop : Nat → Nat → Option Nat
  | 0, _ => none
  | fuel+1, nel => if isprime nel then some nel else hcreateLoop fuel (nel + 2)

/-- `sizeof(_ENTRY)`: the `used` word and four more. -/
def sizeofSlot : Nat := 20

/-- `hcreate_r` on a descriptor with no table. `calloc` cannot return more memory
    than the 32-bit address space holds. -/
def hcreate_r (nel : Nat) : Option HsearchData :=
  match hcreateLoop (nel + 6) (nel ||| 1) with
  | none => none
  | some size =>
    if (size + 1) * sizeofSlot < 2^32 then some { table := fun _ => ⟨0,default⟩, size := size, filled := 0 } else none

/-! ### hsearch_r -/

/-- A plain `char` added to an `unsigned int`: it is signed on this target. -/
def charToUnsigned (c : UInt8) : Nat := if c.toNat < 128 then c.toNat else c.toNat + (2^32 - 256)

def hashString (key : CString) : Nat :=
  key.bytes.reverse.foldl (fun hval c => (hval * 16 + charToUnsigned c) % 2^32) (key.length % 2^32)

/-- First hash function: the remainder, but never zero. -/
def hval (size : Nat) (key : CString) : Nat :=
  if hashString key % size = 0 then 1 else hashString key % size

/-- Second hash function: the stride. `size - 2` is unsigned. -/
def hval2 (size hval : Nat) : Nat := 1 + hval % ((size + (2^32 - 2)) % 2^32)

/-- `ACTION`, with the data that goes with `ENTER`. -/
inductive ACTION
  | FIND
  | ENTER (data : CString)
deriving DecidableEq

/-- What `hsearch_r` leaves behind: the table, the value returned, the slot
    `*retval` points into and `errno` when it was set. -/
structure SearchResult where
  htab : HsearchData
  ret : Nat
  retval : Option Nat
  errno : Option Errno

def HsearchData.setSlot (htab : HsearchData) (idx : Nat) (slot : Slot) : HsearchData :=
  { htab with table := Function.update htab.table idx slot }

def HsearchData.setData (htab : HsearchData) (idx : Nat) (data : CString) : HsearchData :=
  htab.setSlot idx { htab.table idx with entry := { (htab.table idx).entry with data := data } }

/-- What `_compare_and_overwrite_entry` does once slot `idx` matches the key. -/
def overwriteEntry (hooks : Hooks) (key : CString) (action : ACTION) (htab : HsearchData) (flag idx : Nat) :
    SearchResult :=
  match action with
  | .FIND => ⟨htab,idx,some idx,none⟩
  | .ENTER data =>
    if hooks.changeDenied (htab.table idx).entry (some data) .overwrite flag then ⟨htab,0,none,some .EPERM⟩
    else
      let called := hooks.callBack (htab.table idx).entry key (some data) .overwrite flag htab
      if called.1 then ⟨called.2,0,none,some .EINVAL⟩ else ⟨called.2.setData idx data,idx,some idx,none⟩

/-- `none` means -1: keep searching. -/
def _compare_and_overwrite_entry (hooks : Hooks) (key : CString) (action : ACTION) (htab : HsearchData)
    (flag hval idx : Nat) : Option SearchResult :=
  if (htab.table idx).used = hval ∧ key = (htab.table idx).entry.key then
    some (overwriteEntry hooks key action htab flag idx)
  else none

/-- The `do ... while` loop of `hsearch_r`: the result of a matching entry, or the
    slot at which the search ended. `none` only when the fuel runs out. -/
def probeLoop (hooks : Hooks) (key : CString) (action : ACTION) (htab : HsearchData) (flag hval stride : Nat) :
    Nat → Nat → Option (SearchResult ⊕ Nat)
  | 0, _ => none
  | fuel+1, idx =>
    let idx := stepDown htab.size stride idx
    -- every entry has been visited
    if idx = hval then some (.inr idx)
    else match _compare_and_overwrite_entry hooks key action htab flag hval idx with
      | some result => some (.inl result)
      | none =>
        if (htab.table idx).used ≠ 0 then probeLoop hooks key action htab flag hval stride fuel idx
        else some (.inr idx)

/-- `_hdelete`. -/
def _hdelete (htab : HsearchData) (idx : Nat) : HsearchData :=
  { htab.setSlot idx ⟨-1,{ (htab.table idx).entry with callback := none, flags := 0 }⟩ with
    filled := htab.filled - 1 }

/-- Storing key and data in slot `idx`; callback and flags stay as they are. -/
def HsearchData.place (htab : HsearchData) (idx hval : Nat) (key data : CString) : HsearchData :=
  { htab.setSlot idx ⟨hval,{ (htab.table idx).entry with key := key, data := data }⟩ with
    filled := htab.filled + 1 }

/-- `env_callback_init` and then `env_flags_init` on the new entry. -/
def initEntry (hooks : Hooks) (htab : HsearchData) (idx : Nat) : HsearchData :=
  let callback := hooks.env_callback_init htab (htab.table idx).entry
  let htab := htab.setSlot idx { htab.table idx with entry := { (htab.table idx).entry with callback := callback } }
  let flags := hooks.env_flags_init htab (htab.table idx).entry
  htab.setSlot idx { htab.table idx with entry := { (htab.table idx).entry with flags := flags } }

/-- Creating the entry in slot `idx` and undoing it when the change is rejected. -/
def createEntry (hooks : Hooks) (key data : CString) (htab : HsearchData) (flag hval idx : Nat) : SearchResult :=
  let htab := initEntry hooks (htab.place idx hval key data) idx
  if hooks.changeDenied (htab.table idx).entry (some data) .create flag then
    ⟨_hdelete htab idx,0,none,some .EPERM⟩
  else
    let called := hooks.callBack (htab.table idx).entry key (some data) .create flag htab
    if called.1 then ⟨_hdelete called.2 idx,0,none,some .EINVAL⟩ else ⟨called.2,1,some idx,none⟩

/-- The part of `hsearch_r` after the search, which ended at slot `idx`. -/
def searchEnded (hooks : Hooks) (key : CString) (action : ACTION) (htab : HsearchData)
    (flag hval idx first_deleted : Nat) : SearchResult :=
  match action with
  | .FIND => ⟨htab,0,none,some .ESRCH⟩
  | .ENTER data =>
    if htab.filled = htab.size then ⟨htab,0,none,some .ENOMEM⟩
    else createEntry hooks key data htab flag hval (if first_deleted ≠ 0 then first_deleted else idx)

def hsearch_r (hooks : Hooks) (key : CString) (action : ACTION) (htab : HsearchData) (flag : Nat) :
    Option SearchResult :=
  let h := hval htab.size key
  if (htab.table h).used ≠ 0 then
    -- only the first slot tried is remembered as a deleted one
    let first_deleted := if (htab.table h).used = -1 then h else 0
    match _compare_and_overwrite_entry hooks key action htab flag h h with
    | some result => some result
    | none =>
      match probeLoop hooks key action htab flag h (hval2 htab.size h) (htab.size + 1) h with
      | none => none
      | some (.inl result) => some result
      | some (.inr idx) => some (searchEnded hooks key action htab flag h idx first_deleted)
  else some (searchEnded hooks key action htab flag h h 0)

/-! ### hdelete_r -/

def hdelete_r (hooks : Hooks) (key : CString) (htab : HsearchData) (flag : Nat) :
    Option (HsearchData × Nat × Option Errno) :=
  match hsearch_r hooks key .FIND htab 0 with
  | none => none
  | some found =>
    if found.ret = 0 then some (found.htab,0,some .ESRCH)
    else
      let idx := found.ret
      if hooks.changeDenied (found.htab.table idx).entry none .delete flag then
        some (found.htab,0,some .EPERM)
      else
        let called := hooks.callBack (found.htab.table idx).entry key none .delete flag found.htab
        if called.1 then some (called.2,0,some .EINVAL) else some (_hdelete called.2 idx,1,none)

end UBoot.Hashtable
