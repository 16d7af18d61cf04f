import UBoot.CStrings

/-!
Readers and writers of the raw environment block that do without a hash table:
`fw_getenv` and `fw_env_write` of `tools/env/fw_env.c`, `getenv_f` of
`common/cmd_nvedit.c`. The block is `environment.data`, `ENV_SIZE` bytes; every
access is checked and the result is `none` when one falls outside of it. The loops'
own test against `ENV_SIZE` stands behind the read of the byte it should guard, so
it never comes first.
-/
namespace UBoot.FwEnv
open Buffers CStrings

/-- `envmatch` of both files: the offset of the value if the entry at `s2` is the
    variable `s1`. Two strings that end together make the loop run on behind both. -/
def envmatch (data : List UInt8) : List UInt8 → Nat → Option (Option Nat)
  | [], s2 => data[s2]?.bind fun d => if d = 0 then none else some (if d = equalSign then some (s2 + 1) else none)
  | c :: s1, s2 =>
    data[s2]?.bind fun d =>
      if c = d then if c = equalSign then some (some (s2 + 1)) else envmatch data s1 (s2 + 1)
      else some none

/-- An entry of the block: where it starts, its terminator and its value. -/
structure Found where
  env : Nat
  nxt : Nat
  val : Nat
deriving DecidableEq

/-- The loop over the entries that all three functions share. -/
def findEntry (data : List UInt8) (name : CString) : Nat → Nat → Option (Option Found)
  | 0, _ => none
  | fuel+1, env =>
    data[env]?.bind fun c =>
      if c = 0 then some none
      else
        (skipWhile (· ≠ 0) data (data.length + 1) env).bind fun nxt =>
          (envmatch data name.bytes env).bind fun val =>
            match val with
            | some val => some (some ⟨env,nxt,val⟩)
            | none => findEntry data name fuel (nxt + 1)

def fw_getenv (data : List UInt8) (name : CString) : Option (Option CString) :=
  (findEntry data name (data.length + 1) 0).bind fun found =>
    match found with
    | none => some none
    | some found => (stringAt data found.val).map some

/-! ### getenv_f -/

def copyOut (data : List UInt8) : Nat → Nat → Option (List UInt8 × Bool)
  | 0, _ => some ([],false)
  | n+1, val =>
    data[val]?.bind fun c =>
      if c = 0 then some ([0],true) else (copyOut data n (val + 1)).map fun r => (c :: r.1,r.2)

/-- The value returned and what was written to `buf`, of length `len`. A value that
    is too long is cut off. -/
def getenv_f (data : List UInt8) (name : CString) (len : Nat) : Option (Int × List UInt8) :=
  (findEntry data name (data.length + 1) 0).bind fun found =>
    match found with
    | none => some (-1,[])
    | some found =>
      (copyOut data len found.val).map fun copied =>
        if copied.2 then ((copied.1.length : Int) - 1,copied.1)
        else ((len : Int),copied.1.set (len - 1) 0)

/-! ### fw_env_write -/

structure Access where
  preventDelete : CString → Bool
  preventOverwr : CString → Bool
  preventNondefOverwr : CString → Bool
  preventCreate : CString → Bool
  fw_getdefenv : CString → Option CString

/-- How `fw_env_write` ends: with 0, or with -1 because the change is not permitted
    or the new definition does not fit. -/
inductive Written
  | done
  | readOnly
  | overflow
deriving DecidableEq

/-- Whether the access flags forbid what is about to be done. -/
def Access.denies (access : Access) (name : CString) (oldval : Option CString) (value : CString) : Bool :=
  match oldval, value.bytes with
  | some _, [] => access.preventDelete name
  | some old, _ :: _ =>
    access.preventOverwr name ||
      (access.preventNondefOverwr name && strcmp old ((access.fw_getdefenv name).getD default) ≠ 0)
  | none, _ :: _ => access.preventCreate name
  | none, [] => false

/-- The loop that moves the entries behind a deleted one down: the buffer and `env`
    at its end. -/
def moveEntries : Nat → List UInt8 → Nat → Nat → Option (List UInt8 × Nat)
  | 0, _, _, _ => none
  | fuel+1, data, env, nxt =>
    data[nxt]?.bind fun c =>
      (store data env c).bind fun data =>
        if c = 0 then
          data[nxt + 1]?.bind fun d => if d = 0 then some (data,env) else moveEntries fuel data (env + 1) (nxt + 1)
        else moveEntries fuel data (env + 1) (nxt + 1)

/-- Taking the entry from `env` to its terminator at `nxt` out of the block. -/
def removeEntry (data : List UInt8) (env nxt : Nat) : Option (List UInt8) :=
  data[nxt + 1]?.bind fun c =>
    (if c = 0 then (store data env 0).map fun data => (data,env)
      else moveEntries (data.length + 1) data env (nxt + 1)).bind fun moved => store moved.1 (moved.2 + 1) 0

/-- `for (env = environment.data; *env || *(env + 1); ++env)`. -/
def findEnd (data : List UInt8) : Nat → Nat → Option Nat
  | 0, _ => none
  | fuel+1, env =>
    data[env]?.bind fun c =>
      if c ≠ 0 then findEnd data fuel (env + 1)
      else data[env + 1]?.bind fun d => if d ≠ 0 then findEnd data fuel (env + 1) else some env

/-- Writing `name=value` at `env`, terminated twice. -/
def putEntry (data : List UInt8) (env : Nat) (name value : CString) : Option (List UInt8) :=
  (name.bytes.foldlM put (data,env)).bind fun out =>
    (store out.1 out.2 0).bind fun data =>
      (store data out.2 equalSign).bind fun data =>
        (value.bytes.foldlM put (data,out.2 + 1)).bind fun out =>
          (store out.1 out.2 0).bind fun data => store data (out.2 + 1) 0

def appendEntry (data : List UInt8) (name value : CString) : Option (List UInt8 × Written) :=
  (findEnd data (data.length + 1) 0).bind fun env =>
    let env := if 0 < env then env + 1 else env
    if data.length - env < name.length + 2 + (value.length + 1) then some (data,.overflow)
    else (putEntry data env name value).map fun data => (data,.done)

def fw_env_write (access : Access) (data : List UInt8) (name value : CString) : Option (List UInt8 × Written) :=
  (findEntry data name (data.length + 1) 0).bind fun found =>
    (match found with
      | none => some none
      | some found => (stringAt data found.val).map some).bind fun oldval =>
        if access.denies name oldval value then some (data,.readOnly)
        else
          (match found with
            | none => some data
            | some found => removeEntry data found.env found.nxt).bind fun data =>
              if value.bytes = [] then some (data,.done) else appendEntry data name value

end UBoot.FwEnv
