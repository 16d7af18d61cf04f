import UBoot.Hashtable
import UBoot.Qsort

/-!
`hexport_r` of `lib/hashtable.c`: the entries of the table as a text of
`name=value` fields. Pass 1 chooses the entries and computes the room they need,
pass 2 writes them. `CONFIG_REGEX` is off.
-/
namespace UBoot.Hexport
open List Buffers CStrings Hashtable Qsort

def H_NOCLEAR : Nat := 1
def H_FORCE : Nat := 2
def H_INTERACTIVE : Nat := 4
def H_HIDE_DOT : Nat := 8
def H_MATCH_KEY : Nat := 16
def H_MATCH_DATA : Nat := 32
def H_MATCH_IDENT : Nat := 64
def H_MATCH_SUBSTR : Nat := 128
def H_MATCH_METHOD : Nat := 448

def cmpkey (e1 e2 : ENTRY) : Int := strcmp e1.key e2.key

def match_string (flag : Nat) (str pat : CString) : Bool :=
  if flag &&& H_MATCH_METHOD = H_MATCH_IDENT then strcmp str pat = 0
  else if flag &&& H_MATCH_METHOD = H_MATCH_SUBSTR then strstr str pat
  else false

/-- `argv[0]` is not a pattern. -/
def match_entry (ep : ENTRY) (flag : Nat) (argv : List CString) : Bool :=
  argv.tail.any fun pat =>
    (flag &&& H_MATCH_KEY ≠ 0 && match_string flag ep.key pat) ||
      (flag &&& H_MATCH_DATA ≠ 0 && match_string flag ep.data pat)

/-- The tests of pass 1 on a used entry. -/
def selected (flag : Nat) (argv : List CString) (ep : ENTRY) : Bool :=
  !(decide (0 < argv.length) && !match_entry ep flag argv) &&
    !(decide (flag &&& H_HIDE_DOT ≠ 0) && ep.key.bytes.head? = some 46)

/-- The entries pass 1 puts on the list, in the order of the slots. -/
def exportList (htab : HsearchData) (flag : Nat) (argv : List CString) : List ENTRY :=
  ((List.range' 1 htab.size).filter fun i =>
    decide (0 < (htab.table i).used) && selected flag argv (htab.table i).entry).map fun i => (htab.table i).entry

def escapedLength (sep : UInt8) : List UInt8 → Nat
  | [] => 0
  | s :: data => (if s = sep ∨ s = backslash then 2 else 1) + escapedLength sep data

/-- What pass 1 adds to `totlen` for one entry. Escapes are counted for a separator
    other than NUL only. -/
def entryLength (sep : UInt8) (ep : ENTRY) : Nat :=
  ep.key.length + 2 + (if sep = 0 then ep.data.length else escapedLength sep ep.data.bytes) + 2

def totlen (sep : UInt8) (list : List ENTRY) : Nat := (list.map (entryLength sep)).sum

def putEscaped (sep : UInt8) (out : List UInt8 × Nat) (s : UInt8) : Option (List UInt8 × Nat) :=
  if s = sep ∨ s = backslash then (put out backslash).bind (put · s) else put out s

def putEntry (sep : UInt8) (out : List UInt8 × Nat) (ep : ENTRY) : Option (List UInt8 × Nat) := do
  let out ← ep.key.bytes.foldlM put out
  let out ← put out equalSign
  let out ← ep.data.bytes.foldlM (putEscaped sep) out
  put out sep

/-- The buffer written to: the caller's with its first `size` bytes cleared, or a
    new one. `none` when the caller's is smaller than that. -/
def clearBuffer (resp : Option (List UInt8)) (size : Nat) : Option (List UInt8) :=
  match resp with
  | some buf => if buf.length < size then none else some (List.replicate size 0 ++ buf.drop size)
  | none => some (List.replicate size 0)

/-- How `hexport_r` ends: with -1, with a store outside of the buffer, or with the
    buffer and the size returned. -/
inductive Exported
  | error (errno : Errno)
  | overrun
  | done (res : List UInt8) (size : Nat)
deriving DecidableEq

def exportText (sep : UInt8) (list : List ENTRY) (res : List UInt8) : Option (List UInt8) := do
  let out ← list.foldlM (putEntry sep) (res,0)
  store out.1 out.2 0

def hexport_r (htab : HsearchData) (sep : UInt8) (flag : Nat) (resp : Option (List UInt8)) (size : Nat)
    (argv : List CString) : Exported :=
  let list := exportList htab flag argv
  let sorted := (qsort cmpkey list.toArray).toList
  if size ≠ 0 ∧ size < totlen sep list + 1 then .error .ENOMEM
  else
    let size := if size = 0 then totlen sep list + 1 else size
    match (clearBuffer resp size).bind (exportText sep sorted) with
    | none => .overrun
    | some res => .done res size

/-! ### The text written -/

def escapeByte (sep s : UInt8) : List UInt8 := if s = sep ∨ s = backslash then [backslash,s] else [s]

def escape (sep : UInt8) (data : List UInt8) : List UInt8 := data.flatMap (escapeByte sep)

def entryText (sep : UInt8) (ep : ENTRY) : List UInt8 :=
  ep.key.bytes ++ equalSign :: escape sep ep.data.bytes ++ [sep]

def envText (sep : UInt8) (list : List ENTRY) : List UInt8 := list.flatMap (entryText sep)

theorem putEscaped_eq (sep : UInt8) (out : List UInt8 × Nat) (s : UInt8) :
    putEscaped sep out s = (escapeByte sep s).foldlM put out := by
  unfold putEscaped escapeByte
  split <;> simp [foldlM_cons,Option.bind_eq_bind]

theorem putEntry_eq (sep : UInt8) (out : List UInt8 × Nat) (ep : ENTRY) :
    putEntry sep out ep = (entryText sep ep).foldlM put out := by
  simp only [putEntry,entryText,foldlM_append,foldlM_cons,foldlM_nil,
    foldlM_flatMap (putEscaped_eq sep),escape,append_assoc,cons_append,bind_pure]

theorem exportText_eq (sep : UInt8) (list : List ENTRY) (res : List UInt8) :
    exportText sep list res =
      if (envText sep list).length + 1 ≤ res.length then
        some (envText sep list ++ 0 :: res.drop ((envText sep list).length + 1))
      else none := by
  rw [exportText,foldlM_flatMap (putEntry_eq sep),foldlM_put _ _ _ (Nat.zero_le _)]
  simp only [Nat.zero_add,take_zero,nil_append]
  change (if (envText sep list).length ≤ res.length then
    some (envText sep list ++ res.drop (envText sep list).length,(envText sep list).length) else none).bind _ = _
  generalize envText sep list = text
  by_cases fits : text.length + 1 ≤ res.length
  · have room : text.length < res.length := by omega
    rw [if_pos (by omega),if_pos fits,Option.bind_some,store,if_pos (by simp; omega),set_append_right _ _ (le_refl _),
      Nat.sub_self,drop_eq_getElem_cons room,set_cons_zero]
  rw [if_neg fits]
  split
  · rw [Option.bind_some,store,if_neg (by simp; omega)]
  · rfl

end UBoot.Hexport
