import Mathlib.Tactic

/-!
The two stored copies of a redundant environment: `env_t` with its checksum and flags
byte, which copy is meant, and the checksum of `lib/crc32.c`, byte by byte.
-/
namespace UBoot.EnvCopies

/-- An entry of `crc_table`, as `make_crc_table` computes it. -/
def crc_table (n : UInt32) : UInt32 :=
  Nat.iterate (fun c : UInt32 => if c &&& 1 = 1 then (0xedb88320 : UInt32) ^^^ (c >>> 1) else c >>> 1) 8 n

/-- `DO_CRC` over the bytes. -/
def crc32_no_comp (crc : UInt32) (buf : List UInt8) : UInt32 :=
  buf.foldl (fun crc x => crc_table ((crc ^^^ x.toUInt32) &&& 255) ^^^ (crc >>> 8)) crc

def crc32 (crc : UInt32) (p : List UInt8) : UInt32 := crc32_no_comp (crc ^^^ 0xffffffff) p ^^^ 0xffffffff

-- the check value of this polynomial, over the digits 1 to 9
example : crc32 0 [49,50,51,52,53,54,55,56,57] = 0xcbf43926 := by decide +kernel

/-- `env_t` of a redundant environment. -/
structure EnvT where
  crc : UInt32
  flags : UInt8
  data : List UInt8
deriving DecidableEq

/-- The copy at `CONFIG_ENV_OFFSET` and the one at `CONFIG_ENV_OFFSET_REDUND`. The
    value of `gd->env_valid` is 1 for the first and 2 for the second. -/
inductive Copy
  | one
  | two
deriving DecidableEq

def Copy.other : Copy → Copy
  | .one => .two
  | .two => .one

@[simp] theorem Copy.other_other (c : Copy) : c.other.other = c := by cases c <;> rfl
@[simp] theorem Copy.other_ne (c : Copy) : c.other ≠ c := by cases c <;> decide
@[simp] theorem Copy.ne_other (c : Copy) : c ≠ c.other := by cases c <;> decide

def EnvT.crcOk (env : EnvT) : Bool := crc32 0 env.data = env.crc

abbrev Stored := Copy → EnvT

theorem flags_toNat : (255 : UInt8).toNat = 255 ∧ (254 : UInt8).toNat = 254 ∧ (1 : UInt8).toNat = 1 ∧ (0 : UInt8).toNat = 0 := by
  decide

/-! ### Selection -/

/-- The choice between two copies that were read, `none` for a failed read: the only
    one with a right checksum, or the one `byFlags` names if both have it. -/
def selectCopy (byFlags : UInt8 → UInt8 → Copy) (env1 env2 : Option EnvT) : Option (Copy × EnvT) :=
  match env1.filter EnvT.crcOk, env2.filter EnvT.crcOk with
  | none, none => none
  | some env1, none => some (.one,env1)
  | none, some env2 => some (.two,env2)
  | some env1, some env2 =>
    match byFlags env1.flags env2.flags with
    | .one => some (.one,env1)
    | .two => some (.two,env2)

def selected (byFlags : UInt8 → UInt8 → Copy) (stored : Stored) : Option (Copy × EnvT) :=
  selectCopy byFlags (some (stored .one)) (some (stored .two))

/-- `c` with flags `mine` wins against the other copy with flags `others`. -/
def Prefers (byFlags : UInt8 → UInt8 → Copy) : Copy → UInt8 → UInt8 → Prop
  | .one, mine, others => byFlags mine others = .one
  | .two, mine, others => byFlags others mine = .two

variable {byFlags : UInt8 → UInt8 → Copy} {stored : Stored} {c : Copy}

theorem selected_none_iff : selected byFlags stored = none ↔ ∀ c, (stored c).crcOk = false := by
  constructor
  · intro none
    cases ok1 : (stored .one).crcOk <;> cases ok2 : (stored .two).crcOk <;>
      simp only [selected,selectCopy,Option.filter,ok1,ok2,if_true,if_false,Bool.false_eq_true,reduceCtorEq] at none
    · rintro (_ | _)
      · exact ok1
      · exact ok2
    · split at none <;> cases none
  · intro bad
    simp [selected,selectCopy,Option.filter,bad .one,bad .two]

/-- A copy with a right checksum is selected exactly if it has no rival or wins by its
    flags. -/
theorem selected_iff (ok : (stored c).crcOk = true) :
    selected byFlags stored = some (c,stored c) ↔
      (stored c.other).crcOk = false ∨ Prefers byFlags c (stored c).flags (stored c.other).flags := by
  cases rival : (stored c.other).crcOk
  · cases c <;> simp_all [selected,selectCopy,Copy.other,Option.filter]
  cases c
  all_goals
    simp only [Copy.other] at rival
    simp only [selected,selectCopy,Option.filter,ok,rival,if_true,Bool.true_eq_false,false_or,Prefers,Copy.other]
    cases byFlags (stored .one).flags (stored .two).flags <;> simp

theorem selected_ok {image : EnvT} (chosen : selected byFlags stored = some (c,image)) :
    image = stored c ∧ (stored c).crcOk = true := by
  cases ok1 : (stored .one).crcOk <;> cases ok2 : (stored .two).crcOk <;>
    simp only [selected,selectCopy,Option.filter,ok1,ok2,if_true,if_false,Bool.false_eq_true,reduceCtorEq] at chosen
  · cases chosen
    exact ⟨rfl,ok2⟩
  · cases chosen
    exact ⟨rfl,ok1⟩
  split at chosen <;> cases chosen
  · exact ⟨rfl,ok1⟩
  · exact ⟨rfl,ok2⟩

/-- A write into the other copy that leaves it unchanged or invalid changes no selection. -/
theorem selected_update {left : EnvT} (chosen : selected byFlags stored = some (c,stored c))
    (harmless : left = stored c.other ∨ left.crcOk = false) :
    selected byFlags (Function.update stored c.other left) = some (c,stored c) := by
  rcases harmless with rfl | bad
  · rwa [Function.update_eq_self]
  have kept : Function.update stored c.other left c = stored c := Function.update_of_ne (by simp) ..
  have ok := (selected_ok chosen).2
  rw [← kept] at ok ⊢
  exact (selected_iff ok).mpr (.inl (by rw [Function.update_self]; exact bad))

end UBoot.EnvCopies
