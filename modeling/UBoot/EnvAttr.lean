import UBoot.CStrings

/-!
Attribute lists, `common/env_attr.c`: entries `name[:attributes]` separated by commas.
`env_attr_lookup` searches a list for one name, `env_attr_walk` visits all its entries;
they do not share the code that finds the entries. The byte before a list is read, but
taken for neither a space nor a comma, and `malloc` succeeds.
-/
namespace UBoot.EnvAttr
open CStrings

/-- `ENV_ATTR_LIST_DELIM`. -/
def comma : UInt8 := 44

/-- `ENV_ATTR_SEP`. -/
def colon : UInt8 := 58

/-! ### Looking up a name -/

/-- Where `strstr` finds `search_for` first. -/
def strstrAt (search_for : List UInt8) : List UInt8 → Option Nat
  | [] => if search_for = [] then some 0 else none
  | c :: rest => if search_for.isPrefixOf (c :: rest) then some 0 else (strstrAt search_for rest).map (· + 1)

/-- The loop of `reverse_strstr`, which continues behind the start of each match. -/
def reverseLoop (list search_for : List UInt8) (searched_start : Option Nat) : Nat → Nat → Option Nat → Option Nat
  | 0, _, result => result
  | fuel+1, searched, result =>
    match strstrAt search_for (list.drop searched) with
    | none => result
    | some skipped =>
      let found := searched + skipped
      if searched_start.any fun start => start < found + search_for.length then result
      else reverseLoop list search_for searched_start fuel (found + 1) (some found)

/-- The last match that ends before `searched_start`, if that is given. -/
def reverse_strstr (list search_for : List UInt8) (searched_start : Option Nat) : Option Nat :=
  if search_for = [] then some 0 else reverseLoop list search_for searched_start (list.length + 1) 0 none

/-- The match at `entry` is a whole name of the list, up to spaces. -/
def isEntry (list name : List UInt8) (entry : Nat) : Bool :=
  let prevch := ((list.take entry).reverse.dropWhile (· = space)).head?
  let nextch := ((list.drop (entry + name.length)).dropWhile (· = space)).head?
  (entry = 0 || prevch = some comma) && (nextch = some colon || nextch = some comma || nextch = none)

/-- The search from the end of the list; `none` if it does not end, as for an empty name. -/
def lookupLoop (list name : List UInt8) : Nat → Option Nat → Option (Option Nat)
  | _, none => some none
  | 0, some _ => none
  | fuel+1, some entry =>
    if isEntry list name entry then some (some entry)
    else lookupLoop list name fuel (reverse_strstr list name (some entry))

/-- What stands behind a name: up to the next comma or space if there is a colon. -/
def attributesBehind (rest : List UInt8) : List UInt8 :=
  match rest.dropWhile (· = space) with
  | [] => []
  | c :: rest => if c = colon then (rest.dropWhile (· = space)).takeWhile fun c => c ≠ comma && c ≠ space else []

/-- The attributes of a name, `none` inside if the list does not have it. -/
def env_attr_lookup (attr_list name : CString) : Option (Option CString) :=
  (lookupLoop attr_list.bytes name.bytes (attr_list.length + 1) (reverse_strstr attr_list.bytes name.bytes none)).map fun entry =>
    entry.map fun entry => toCString (attributesBehind (attr_list.bytes.drop (entry + name.length)))

/-! ### Walking over a list -/

/-- `isspace`, with the no-break space of Latin-1. -/
def isspace (c : UInt8) : Bool := c = 32 || (9 ≤ c && c ≤ 13) || c = 160

def strim (s : List UInt8) : List UInt8 := ((s.dropWhile isspace).reverse.dropWhile isspace).reverse

def entryParts (entry : List UInt8) : CString × Option CString :=
  (toCString (strim (entry.takeWhile (· ≠ colon))),
    if colon ∈ entry then some (toCString (strim ((entry.dropWhile (· ≠ colon)).drop 1))) else none)

def entries (attr_list : CString) : List (CString × Option CString) :=
  ((attr_list.bytes.splitOn comma).map entryParts).filter fun entry => entry.1.bytes ≠ []

/-- `env_attr_walk` with a callback that never fails. -/
def env_attr_walk {σ : Type} (callback : σ → CString → Option CString → σ) (attr_list : Option CString) (s : σ) : σ :=
  match attr_list with
  | none => s
  | some attr_list => (entries attr_list).foldl (fun s entry => callback s entry.1 entry.2) s

end UBoot.EnvAttr
