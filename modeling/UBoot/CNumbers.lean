import UBoot.CStrings

/-!
Reading numbers out of text, as `lib/vsprintf.c` does it: `simple_strtoul`, its `long long`
variant and `simple_strtol`. A text is the bytes from the pointer on; where it ends stands a NUL.
-/
namespace UBoot.CNumbers
open List

/-! ### Characters, from the table of `lib/ctype.c` -/

def isdigit (c : UInt8) : Bool := 48 ≤ c && c ≤ 57
def isxdigit (c : UInt8) : Bool := isdigit c || (65 ≤ c && c ≤ 70) || (97 ≤ c && c ≤ 102)
def isprint (c : UInt8) : Bool := (32 ≤ c && c ≤ 126) || 160 ≤ c

/-- The value of a character that `isxdigit` accepts. -/
def digitValue (c : UInt8) : Nat :=
  if isdigit c then c.toNat - 48 else (if 97 ≤ c then c.toNat - 32 else c.toNat) - 65 + 10

/-! ### Numbers -/

/-- The loop over the digits; the result wraps in its type of `w` bits. -/
def digitsLoop (w base : Nat) : BitVec w → List UInt8 → BitVec w
  | result, [] => result
  | result, c :: cp =>
    if isxdigit c ∧ digitValue c < base then
      digitsLoop w base (result * BitVec.ofNat w base + BitVec.ofNat w (digitValue c)) cp
    else result

/-- The first digit and the base: a leading `0x` overrides the base that was asked for. -/
def numberStart (cp : List UInt8) (base : Nat) : List UInt8 × Nat :=
  match cp with
  | 48 :: cp =>
    match cp with
    | 120 :: c :: rest => if isxdigit c then (c :: rest,16) else (cp,if base = 0 then 8 else base)
    | _ => (cp,if base = 0 then 8 else base)
  | _ => (cp,if base = 0 then 10 else base)

/-- `simple_strtoul` for `w` = 32 and `simple_strtoull` for `w` = 64. -/
def simple_strtoul (w : Nat) (cp : List UInt8) (base : Nat) : BitVec w :=
  digitsLoop w (numberStart cp base).2 0 (numberStart cp base).1

def simple_strtol (cp : List UInt8) (base : Nat) : BitVec 32 :=
  match cp with
  | 45 :: cp => -simple_strtoul 32 cp base
  | _ => simple_strtoul 32 cp base

/-- What stands behind the digits: the `endp` of `simple_strtoul`. -/
def numberEnd (cp : List UInt8) (base : Nat) : List UInt8 :=
  (numberStart cp base).1.dropWhile fun c => isxdigit c ∧ digitValue c < (numberStart cp base).2

/-! ### Writing numbers -/

def digitChar (d : Nat) : UInt8 := UInt8.ofNat (if d < 10 then 48 + d else 87 + d)

/-- A number of at most the given count of digits, as `%llu` and `%llx` print it. -/
def numberText (base : Nat) : Nat → Nat → List UInt8
  | 0, _ => []
  | digits+1, n => if n < base then [digitChar n] else numberText base digits (n / base) ++ [digitChar (n % base)]

/-- `%08llx` -/
def hexText (v : BitVec 64) : List UInt8 :=
  let text := numberText 16 16 v.toNat
  List.replicate (8 - text.length) 48 ++ text

/-- `%llu` -/
def decimalText (v : BitVec 64) : List UInt8 := numberText 10 20 v.toNat

theorem numberText_length_le {base : Nat} (two : 2 ≤ base) {digits n k : Nat} (fits : n < base ^ digits) (some : 0 < k) :
    (numberText base digits n).length ≤ k ↔ n < base ^ k := by
  induction digits generalizing n k with
  | zero =>
    have zero : n = 0 := by simpa using fits
    simp only [numberText,length_nil,zero_le,true_iff,zero]
    positivity
  | succ digits ih =>
    rw [numberText]
    split_ifs with last
    · have one : base ^ 1 ≤ base ^ k := Nat.pow_le_pow_right (by omega) some
      rw [Nat.pow_one] at one
      simp only [length_singleton]
      omega
    rw [Nat.pow_succ,← Nat.div_lt_iff_lt_mul (by omega)] at fits
    rw [length_append,length_singleton]
    obtain ⟨k,rfl⟩ := Nat.exists_eq_succ_of_ne_zero (show k ≠ 0 by omega)
    rw [Nat.add_le_add_iff_right,Nat.pow_succ,← Nat.div_lt_iff_lt_mul (by omega)]
    by_cases none : k = 0
    · subst none
      have high : 0 < n / base := Nat.div_pos (by omega) (by omega)
      have long : 0 < (numberText base digits (n / base)).length := by
        cases digits with
        | zero => simp at fits; omega
        | succ digits =>
          rw [numberText]
          split_ifs <;> simp
      rw [Nat.pow_zero]
      omega
    · exact ih fits (by omega)

/-- `%08llx` prints eight digits, and more for a number of more than 32 bits. -/
theorem hexText_length (v : BitVec 64) : 8 ≤ (hexText v).length ∧ ((hexText v).length = 8 ↔ v.toNat < 2 ^ 32) := by
  have long := @numberText_length_le 16 (by decide) 16 v.toNat 8 (by omega) (by decide)
  rw [hexText]
  simp only [length_append,length_replicate]
  omega

/-! ### What stands behind the digits -/

theorem numberStart_drop (text : List UInt8) (base : Nat) : ∃ j ≤ 2, (numberStart text base).1 = text.drop j := by
  rw [numberStart.eq_def]
  split
  · split
    · rename_i c rest
      by_cases hex : isxdigit c = true
      · rw [if_pos hex]
        exact ⟨2,le_refl 2,rfl⟩
      · rw [if_neg hex]
        exact ⟨1,by decide,rfl⟩
    · exact ⟨1,by decide,rfl⟩
  · exact ⟨0,by decide,rfl⟩

theorem numberStart_append {text : List UInt8} (long : 3 ≤ text.length) (rest : List UInt8) (base : Nat) :
    numberStart (text ++ rest) base = ((numberStart text base).1 ++ rest,(numberStart text base).2) := by
  obtain ⟨a,b,c,tail,rfl⟩ : ∃ a b c tail, text = a :: b :: c :: tail := by
    match text, long with
    | a :: b :: c :: tail, _ => exact ⟨a,b,c,tail,rfl⟩
  simp only [cons_append]
  by_cases zero : a = 48
  · subst zero
    by_cases x : b = 120
    · subst x
      simp only [numberStart]
      split_ifs <;> rfl
    · simp [numberStart,x]
  · simp [numberStart,zero]

theorem numberStart_base (text : List UInt8) : 10 ≤ (numberStart text 10).2 := by
  rw [numberStart.eq_def]
  split
  · split
    · rename_i c rest
      by_cases hex : isxdigit c = true <;> simp [hex]
    · simp
  · simp

def Stops (base : Nat) (c : UInt8) : Prop := ¬ (isxdigit c = true ∧ digitValue c < base)

theorem digitsLoop_append {w base : Nat} {text : List UInt8} (ends : ∃ c ∈ text, Stops base c)
    (rest : List UInt8) (v : BitVec w) : digitsLoop w base v (text ++ rest) = digitsLoop w base v text := by
  induction text generalizing v with
  | nil => simp at ends
  | cons c text ih =>
    simp only [cons_append,digitsLoop]
    split_ifs with digit
    · apply ih
      obtain ⟨d,member,stops⟩ := ends
      rcases mem_cons.mp member with rfl | member
      · exact absurd digit stops
      · exact ⟨d,member,stops⟩
    · rfl

theorem digitsLoop_all {w base : Nat} {text : List UInt8} (all : ¬ ∃ c ∈ text, Stops base c)
    (rest : List UInt8) (v : BitVec w) :
    digitsLoop w base v (text ++ rest) = digitsLoop w base (digitsLoop w base v text) rest := by
  induction text generalizing v with
  | nil => rfl
  | cons c text ih =>
    have digit : isxdigit c = true ∧ digitValue c < base := by
      by_contra stops
      exact all ⟨c,mem_cons_self,stops⟩
    simp only [cons_append,digitsLoop,if_pos digit]
    exact ih (fun ⟨d,member,stops⟩ => all ⟨d,mem_cons_of_mem c member,stops⟩) _

/-! ### Reading back what was written -/

theorem digitChar_decimal {d : Nat} (small : d < 10) :
    isxdigit (digitChar d) = true ∧ digitValue (digitChar d) = d ∧ (digitChar d = 48 ↔ d = 0) := by
  revert d
  decide

theorem numberText_digits {digits n : Nat} : ∀ c ∈ numberText 10 digits n, isxdigit c = true ∧ digitValue c < 10 := by
  induction digits generalizing n with
  | zero => simp [numberText]
  | succ digits ih =>
    intro c inside
    rw [numberText] at inside
    split_ifs at inside with last
    · obtain ⟨hex,value,-⟩ := digitChar_decimal last
      rw [mem_singleton.mp inside,value]
      exact ⟨hex,last⟩
    rcases mem_append.mp inside with high | low
    · exact ih c high
    obtain ⟨hex,value,-⟩ := digitChar_decimal (Nat.mod_lt n (by omega))
    rw [mem_singleton.mp low,value]
    exact ⟨hex,Nat.mod_lt n (by omega)⟩

theorem numberText_head {digits n : Nat} (fits : n < 10 ^ digits) (positive : 0 < n) :
    ∃ c rest, numberText 10 digits n = c :: rest ∧ c ≠ 48 := by
  induction digits generalizing n with
  | zero => omega
  | succ digits ih =>
    rw [numberText]
    split_ifs with last
    · refine ⟨_,_,rfl,fun zero => ?_⟩
      have := (digitChar_decimal last).2.2.mp zero
      omega
    rw [Nat.pow_succ,← Nat.div_lt_iff_lt_mul (by omega)] at fits
    obtain ⟨c,rest,equal,nonzero⟩ := ih fits (Nat.div_pos (by omega) (by omega))
    exact ⟨c,rest ++ [digitChar (n % 10)],by rw [equal,cons_append],nonzero⟩

theorem digitsLoop_numberText {w digits n : Nat} (fits : n < 10 ^ digits) :
    digitsLoop w 10 0 (numberText 10 digits n) = BitVec.ofNat w n := by
  induction digits generalizing n with
  | zero =>
    have zero : n = 0 := by simpa using fits
    rw [zero]
    rfl
  | succ digits ih =>
    rw [numberText]
    split_ifs with last
    · obtain ⟨hex,value,-⟩ := digitChar_decimal last
      rw [digitsLoop,value,if_pos ⟨hex,last⟩,digitsLoop]
      simp
    rw [Nat.pow_succ,← Nat.div_lt_iff_lt_mul (by omega)] at fits
    have small := Nat.mod_lt n (show 10 > 0 by omega)
    obtain ⟨hex,value,-⟩ := digitChar_decimal small
    rw [digitsLoop_all fun ⟨c,inside,stops⟩ => stops (numberText_digits c inside),ih fits,digitsLoop,value,
      if_pos ⟨hex,small⟩,digitsLoop,← BitVec.ofNat_mul,← BitVec.ofNat_add,Nat.div_add_mod']

def NoDigit (rest : List UInt8) : Prop := ∀ c ∈ rest.head?, Stops 10 c

/-- `%llu` is read back by `simple_strtoull` with base 0, up to its end. -/
theorem strtoull_decimalText {v : BitVec 64} (positive : v ≠ 0) {rest : List UInt8} (ends : NoDigit rest) :
    simple_strtoul 64 (decimalText v ++ rest) 0 = v ∧ numberEnd (decimalText v ++ rest) 0 = rest := by
  have fits : v.toNat < 10 ^ 20 := by
    omega
  have nonzero : 0 < v.toNat := by
    rw [Nat.pos_iff_ne_zero]
    exact fun zero => positive (BitVec.eq_of_toNat_eq zero)
  obtain ⟨c,tail,equal,first⟩ := numberText_head fits nonzero
  have start : numberStart (decimalText v ++ rest) 0 = (decimalText v ++ rest,10) := by
    rw [decimalText,equal]
    simp [numberStart,first]
  have digits : ∀ c ∈ decimalText v, isxdigit c = true ∧ digitValue c < 10 := numberText_digits
  constructor
  · rw [simple_strtoul,start]
    rw [digitsLoop_all fun ⟨c,inside,stops⟩ => stops (digits c inside),decimalText,digitsLoop_numberText fits,BitVec.ofNat_toNat,
      BitVec.setWidth_eq]
    cases rest with
    | nil => rfl
    | cons d rest => rw [digitsLoop,if_neg (ends d rfl)]
  rw [numberEnd,start]
  rw [dropWhile_append_of_pos fun c inside => by simpa using digits c inside]
  cases rest with
  | nil => rfl
  | cons d rest =>
    have stops := ends d rfl
    simpa [Stops] using stops

/-! ### Signed numbers -/

def magnitude (cp : List UInt8) : List UInt8 :=
  match cp with
  | 45 :: cp => cp
  | _ => cp

theorem simple_strtol_eq (cp : List UInt8) (base : Nat) : simple_strtol cp base =
    if cp.head? = some 45 then -simple_strtoul 32 (magnitude cp) base else simple_strtoul 32 (magnitude cp) base := by
  cases cp with
  | nil => rfl
  | cons c cp =>
    by_cases minus : c = 45
    · subst minus
      rfl
    · simp [simple_strtol,magnitude,minus]

theorem magnitude_append {text : List UInt8} (long : 1 ≤ text.length) (rest : List UInt8) :
    magnitude (text ++ rest) = magnitude text ++ rest := by
  cases text with
  | nil => simp at long
  | cons c text =>
    by_cases minus : c = 45
    · subst minus
      rfl
    · simp [magnitude,minus]

theorem magnitude_length (text : List UInt8) : text.length ≤ (magnitude text).length + 1 := by
  cases text with
  | nil => simp
  | cons c text =>
    by_cases minus : c = 45
    · subst minus
      simp [magnitude]
    · simp [magnitude,minus]

def Ended (text : List UInt8) (base : Nat) : Prop :=
  ∃ c ∈ (numberStart (magnitude text) base).1, Stops (numberStart (magnitude text) base).2 c

section
variable {text : List UInt8} {base : Nat} (long : 4 ≤ text.length)
include long

theorem simple_strtol_append (ended : Ended text base) (rest : List UInt8) :
    simple_strtol (text ++ rest) base = simple_strtol text base := by
  have enough := magnitude_length text
  have first : (text ++ rest).head? = text.head? := by
    rw [head?_append_of_ne_nil]
    rintro rfl
    simp at long
  have same : simple_strtoul 32 (magnitude text ++ rest) base = simple_strtoul 32 (magnitude text) base := by
    rw [simple_strtoul,numberStart_append (by omega)]
    exact digitsLoop_append ended rest 0
  rw [simple_strtol_eq,simple_strtol_eq,magnitude_append (by omega),first,same]

theorem simple_strtol_next (open_ : ¬ Ended text 10) (rest rest' : List UInt8) :
    simple_strtol (text ++ 49 :: 0 :: rest) 10 ≠ simple_strtol (text ++ 50 :: 0 :: rest') 10 := by
  have enough := magnitude_length text
  have first : ∀ more, (text ++ more).head? = text.head? := by
    intro more
    rw [head?_append_of_ne_nil]
    rintro rfl
    simp at long
  -- the value of the text, one more digit and what ends the number
  obtain ⟨v,b,value⟩ : ∃ v b : BitVec 32, ∀ d ∈ [49,50], ∀ more,
      simple_strtoul 32 (magnitude text ++ d :: 0 :: more) 10 = v * b + BitVec.ofNat 32 (digitValue d) := by
    refine ⟨digitsLoop 32 (numberStart (magnitude text) 10).2 0 (numberStart (magnitude text) 10).1,
      BitVec.ofNat 32 (numberStart (magnitude text) 10).2,?_⟩
    intro d digit more
    have small : isxdigit d = true ∧ digitValue d < (numberStart (magnitude text) 10).2 := by
      have values : ∀ d ∈ [49,50], isxdigit d = true ∧ digitValue d < 10 := by decide +kernel
      exact ⟨(values d digit).1,Nat.lt_of_lt_of_le (values d digit).2 (numberStart_base _)⟩
    have stop : ¬ (isxdigit 0 = true ∧ digitValue 0 < (numberStart (magnitude text) 10).2) := fun zero =>
      absurd zero.1 (by decide)
    rw [simple_strtoul,numberStart_append (by omega),digitsLoop_all open_,digitsLoop,if_pos small,digitsLoop,if_neg stop]
  have differ : v * b + BitVec.ofNat 32 (digitValue 49) ≠ v * b + BitVec.ofNat 32 (digitValue 50) := by
    intro same
    exact absurd ((BitVec.add_right_inj (v*b)).mp same) (by decide)
  rw [simple_strtol_eq,simple_strtol_eq,magnitude_append (by omega),magnitude_append (by omega),first,first,
    value 49 (by decide),value 50 (by decide)]
  split_ifs
  · exact fun same => differ (BitVec.neg_inj.mp same)
  · exact differ
end

end UBoot.CNumbers
