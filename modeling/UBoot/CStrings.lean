import UBoot.Buffers

/-!
Byte strings that end at their first NUL, and reading them out of a buffer.
-/
namespace UBoot.CStrings
open List

/-- A NUL-terminated string, without its terminator. -/
structure CString where
  bytes : List UInt8
  nulFree : 0 ∉ bytes
deriving DecidableEq

instance : Inhabited CString := ⟨⟨[],by simp⟩⟩

@[ext] theorem CString.ext {a b : CString} (same : a.bytes = b.bytes) : a = b := by
  cases a; cases b; cases same; rfl

def CString.length (s : CString) : Nat := s.bytes.length

/-! ### Characters -/

def space : UInt8 := 32
def tab : UInt8 := 9
def newline : UInt8 := 10
def hash : UInt8 := 35
def equalSign : UInt8 := 61
def backslash : UInt8 := 92

/-- `isblank`. -/
def isblank (c : UInt8) : Bool := c = space || c = tab

/-! ### String functions -/

/-- A difference of two characters kept in a `signed char`. -/
def signedChar (c : UInt8) : Int := if c.toNat < 128 then c.toNat else c.toNat - 256

/-- The loop of `strcmp`; the terminators count as characters. -/
def strcmpBytes : List UInt8 → List UInt8 → Int
  | [], [] => 0
  | [], d :: _ => signedChar (0 - d)
  | c :: _, [] => signedChar c
  | c :: cs, d :: ds => if c = d then strcmpBytes cs ds else signedChar (c - d)

def strcmp (cs ct : CString) : Int := strcmpBytes cs.bytes ct.bytes

/-- Whether `strstr` finds `s2` in `s1`. -/
def strstrBytes (s2 : List UInt8) : List UInt8 → Bool
  | [] => s2.isPrefixOf []
  | c :: s1 => s2.isPrefixOf (c :: s1) || strstrBytes s2 s1

def strstr (s1 s2 : CString) : Bool := strstrBytes s2.bytes s1.bytes

/-! ### Buffers -/

/-- The string that starts at offset `i`, or `none` when no NUL ends it inside the buffer. -/
def stringAt (data : List UInt8) (i : Nat) : Option CString :=
  let bytes := (data.drop i).takeWhile (· ≠ 0)
  if i + bytes.length < data.length then
    some ⟨bytes,fun nul => by simpa using mem_takeWhile_imp nul⟩
  else none

def toCString (bytes : List UInt8) : CString :=
  ⟨bytes.takeWhile (· ≠ 0),fun nul => by simpa using mem_takeWhile_imp nul⟩

def CString.ofString (s : String) : CString := toCString (s.toList.map fun c => UInt8.ofNat c.toNat)

theorem toCString_bytes {bytes : List UInt8} (nulFree : 0 ∉ bytes) : (toCString bytes).bytes = bytes := by
  rw [toCString,takeWhile_eq_self_iff]
  intro c member
  have : c ≠ 0 := fun zero => nulFree (zero ▸ member)
  simpa using this

@[simp] theorem toCString_self (s : CString) : toCString s.bytes = s := CString.ext (toCString_bytes s.nulFree)

theorem stringAt_eq {data bytes rest : List UInt8} {i : Nat} (suffix : data.drop i = bytes ++ 0 :: rest)
    (nulFree : 0 ∉ bytes) : stringAt data i = some (toCString bytes) := by
  have all : ∀ c ∈ bytes, decide (c ≠ 0) = true := by
    intro c member
    have : c ≠ 0 := fun zero => nulFree (zero ▸ member)
    simpa using this
  have start : (data.drop i).takeWhile (· ≠ 0) = bytes := by
    rw [suffix,takeWhile_append_of_pos all]
    simp
  have inside : i + bytes.length < data.length := by
    have := congrArg List.length suffix
    simp only [length_drop,length_append,length_cons] at this
    omega
  simp only [stringAt,start,inside,if_true,Option.some.injEq]
  exact CString.ext (toCString_bytes nulFree).symm

theorem stringAt_ends {data : List UInt8} {i e : Nat} (nul : data[e]? = some 0) (start : i ≤ e) :
    ∃ s, stringAt data i = some s ∧ i + s.length ≤ e := by
  obtain ⟨inside,value⟩ := List.getElem?_eq_some_iff.mp nul
  have short : ((data.drop i).takeWhile (· ≠ 0)).length ≤ e - i := by
    by_contra longer
    have member := mem_takeWhile_imp (getElem_mem (Nat.lt_of_not_le longer))
    rw [List.IsPrefix.getElem (List.takeWhile_prefix _),getElem_drop] at member
    simp [Nat.add_sub_cancel' start,value] at member
  refine ⟨_,if_pos (by omega),?_⟩
  show i + ((data.drop i).takeWhile (· ≠ 0)).length ≤ e
  omega

theorem stringAt_nul {data : List UInt8} {i : Nat} {s : CString} (found : stringAt data i = some s) :
    data[i+s.length]? = some 0 := by
  rw [stringAt] at found
  split at found
  case isFalse => cases found
  case isTrue inside =>
    cases found
    have split := @takeWhile_append_dropWhile _ (fun c : UInt8 => decide (c ≠ 0)) (data.drop i)
    have head := head?_dropWhile_not (fun c : UInt8 => decide (c ≠ 0)) (data.drop i)
    show data[i + ((data.drop i).takeWhile fun c => decide (c ≠ 0)).length]? = some 0
    rw [← getElem?_drop]
    cases rest : (data.drop i).dropWhile fun c => decide (c ≠ 0) with
    | nil =>
      rw [rest,append_nil] at split
      rw [split,length_drop] at inside
      omega
    | cons c behind =>
      rw [rest] at head split
      have zero : c = 0 := by simpa using head
      nth_rewrite 1 [← split]
      rw [getElem?_append_right (le_refl _),Nat.sub_self,getElem?_cons_zero,zero]

end UBoot.CStrings
