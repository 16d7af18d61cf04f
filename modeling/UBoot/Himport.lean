import UBoot.Hexport

/-!
`himport_r` of `lib/hashtable.c`. The importer works on a copy of the text and
writes terminators and unescaped values back into it while it scans. Every read
and write of the copy is checked: the result is `none` when one falls outside of
it. `malloc` succeeds.
-/
namespace UBoot.Himport
open Buffers CStrings Hashtable Hexport

inductive Item
  | comment
  | delete (name : CString)
  | enter (name value : CString)
deriving DecidableEq

/-- The loops that skip a comment line and that look for the end of a name. -/
def inLine (sep c : UInt8) : Bool := c ≠ 0 && c ≠ sep
def inName (sep c : UInt8) : Bool := c ≠ equalSign && c ≠ 0 && c ≠ sep

/-- `*dp == '\0' || *(dp + 1) == '\0' || *dp == sep || *(dp + 1) == sep`. -/
def nameOnly (sep : UInt8) (data : List UInt8) (dp : Nat) : Option Bool :=
  data[dp]?.bind fun c =>
    if c = 0 then some true else data[dp + 1]?.map fun d => d = 0 || c = sep || d = sep

/-- Where the character copied from `dp` stands: behind a backslash, unless that is
    the last character before a NUL. -/
def unescapeAt (data : List UInt8) (dp : Nat) (c : UInt8) : Option Nat :=
  if c = backslash then data[dp + 1]?.map fun d => if d ≠ 0 then dp + 1 else dp else some dp

/-- The loop that parses a value: the buffer, `sp` and `dp` at its end. -/
def copyValue (sep : UInt8) : Nat → List UInt8 → Nat → Nat → Option (List UInt8 × Nat × Nat)
  | 0, _, _, _ => none
  | fuel+1, data, sp, dp =>
    match data[dp]? with
    | none => none
    | some c =>
      if c = 0 ∨ c = sep then some (data,sp,dp)
      else
        (unescapeAt data dp c).bind fun dp =>
          data[dp]?.bind fun c =>
            (store data sp c).bind fun data => copyValue sep fuel data (sp + 1) (dp + 1)

/-- An entry without a value: the name is terminated, also in place of the `=`. -/
def deleteItem (data : List UInt8) (name dp : Nat) : Option (Item × List UInt8 × Nat) :=
  data[dp]?.bind fun c =>
    (if c = equalSign then (store data dp 0).map fun data => (data,dp + 1) else some (data,dp)).bind fun here =>
      (store here.1 here.2 0).bind fun data =>
        (stringAt data name).map fun name => (.delete name,data,here.2 + 1)

/-- An entry with a value, which starts after the `=` at `dp`. -/
def enterItem (sep : UInt8) (data : List UInt8) (name dp : Nat) : Option (Item × List UInt8 × Nat) :=
  (store data dp 0).bind fun data =>
    (copyValue sep (data.length + 1) data (dp + 1) (dp + 1)).bind fun copied =>
      (store copied.1 copied.2.1 0).bind fun data =>
        (stringAt data name).bind fun name =>
          (stringAt data (dp + 1)).map fun value => (.enter name value,data,copied.2.2 + 1)

def nextItem (sep : UInt8) (data : List UInt8) (dp : Nat) : Option (Item × List UInt8 × Nat) :=
  (skipWhile isblank data (data.length + 1) dp).bind fun dp =>
    data[dp]?.bind fun c =>
      if c = hash then
        (skipWhile (inLine sep) data (data.length + 1) dp).map fun dp => (.comment,data,dp + 1)
      else
        (skipWhile (inName sep) data (data.length + 1) dp).bind fun stop =>
          (nameOnly sep data stop).bind fun only =>
            if only then deleteItem data dp stop else enterItem sep data dp stop

/-- Whether the name is to be processed, and the variables still to be seen. -/
def drop_var_from_set (name : CString) (vars : List (Option CString)) : Bool × List (Option CString) :=
  if vars.length = 0 then (true,vars)
  else (vars.any (· = some name),vars.map fun var => if var = some name then none else var)

structure Importing where
  htab : HsearchData
  localvars : List (Option CString)

/-- What a turn of the loop does to the table, and whether the loop goes on: an
    empty key makes `himport_r` return 0. -/
def applyItem (hooks : Hooks) (flag : Nat) (s : Importing) : Item → Option (Importing × Bool)
  | .comment => some (s,true)
  | .delete name =>
    let dropped := drop_var_from_set name s.localvars
    if dropped.1 then (hdelete_r hooks name s.htab flag).map fun r => (⟨r.1,dropped.2⟩,true)
    else some (⟨s.htab,dropped.2⟩,true)
  | .enter name value =>
    if name.bytes = [] then some (s,false)
    else
      let dropped := drop_var_from_set name s.localvars
      if dropped.1 then (hsearch_r hooks name (.ENTER value) s.htab flag).map fun r => (⟨r.htab,dropped.2⟩,true)
      else some (⟨s.htab,dropped.2⟩,true)

/-- The parsing loop, which goes on while `(dp < data + size) && *dp`. -/
def importLoop (hooks : Hooks) (sep : UInt8) (flag : Nat) :
    Nat → Importing → List UInt8 → Nat → Option (Importing × Bool)
  | 0, _, _, _ => none
  | fuel+1, s, data, dp =>
    match nextItem sep data dp with
    | none => none
    | some (item,data,dp) =>
      match applyItem hooks flag s item with
      | none => none
      | some (s,false) => some (s,false)
      | some (s,true) =>
        if dp < data.length ∧ data[dp]? ≠ some 0 then importLoop hooks sep flag fuel s data dp else some (s,true)

/-- Deleting the variables of the list that were not in the text. -/
def deleteLeft (hooks : Hooks) (flag : Nat) (s : Importing) : Option HsearchData :=
  s.localvars.foldlM (fun htab var =>
    match var with
    | none => some htab
    | some name => (hdelete_r hooks name htab flag).map Prod.fst) s.htab

def CONFIG_ENV_MIN_ENTRIES : Nat := 64
def CONFIG_ENV_MAX_ENTRIES : Nat := 512

def nent (size : Nat) : Nat := min (CONFIG_ENV_MIN_ENTRIES + size / 8) CONFIG_ENV_MAX_ENTRIES

/-- The table imported into: the old one is kept with `H_NOCLEAR` only. -/
def importTable (htab : Option HsearchData) (size flag : Nat) : Option HsearchData :=
  match if flag &&& H_NOCLEAR = 0 then none else htab with
  | some old => some old
  | none => hcreate_r (nent size)

/-- The table left behind (none if none could be created) and the value returned. -/
def himport_r (hooks : Hooks) (htab : Option HsearchData) (env : List UInt8) (sep : UInt8) (flag : Nat)
    (vars : List CString) : Option (Option HsearchData × Nat) :=
  match importTable htab env.length flag with
  | none => some (none,0)
  | some made =>
    match importLoop hooks sep flag (env.length + 1) ⟨made,vars.map some⟩ env 0 with
    | none => none
    | some (s,false) => some (some s.htab,0)
    | some (s,true) => (deleteLeft hooks flag s).map fun htab => (some htab,1)

end UBoot.Himport
