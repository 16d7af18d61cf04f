import Mathlib.Tactic

/-!
Numbers in words of `w` bits, the lowest word first, and Montgomery's product: `m` is the product of
`a` and `b` if `m * R` is congruent to `a * b`. A product is built from rows, one for each word of `a`
(`rows_product`); numbers multiplied by `R` are closed under it (`Represents.mul`).
-/
namespace UBoot.Montgomery
open List Nat

/-! ### Words -/

section
variable {w : Nat}

def value : List (BitVec w) → Nat
  | [] => 0
  | c :: rest => c.toNat + 2 ^ w * value rest

@[simp] theorem value_nil : value ([] : List (BitVec w)) = 0 := rfl

theorem value_cons (c : BitVec w) (rest : List (BitVec w)) : value (c :: rest) = c.toNat + 2 ^ w * value rest := rfl

theorem value_append (xs ys : List (BitVec w)) : value (xs ++ ys) = value xs + 2 ^ (w*xs.length) * value ys := by
  induction xs with
  | nil => simp
  | cons c rest ih =>
    rw [cons_append,value_cons,value_cons,ih,length_cons,mul_succ,pow_add]
    ring

theorem value_lt (xs : List (BitVec w)) : value xs < 2 ^ (w*xs.length) := by
  induction xs with
  | nil => simp
  | cons c rest ih =>
    rw [value_cons,length_cons,mul_succ,pow_add]
    calc c.toNat + 2 ^ w * value rest < 2 ^ w * (value rest + 1) := by rw [mul_succ]; omega
      _ ≤ 2 ^ w * 2 ^ (w*rest.length) := mul_le_mul_left _ ih
      _ = 2 ^ (w*rest.length) * 2 ^ w := mul_comm ..

theorem value_zeros (n : Nat) : value (List.replicate n (0 : BitVec w)) = 0 := by
  induction n with
  | zero => rfl
  | succ n ih => rw [replicate_succ,value_cons,ih]; simp

theorem value_take_succ {xs : List (BitVec w)} {n : Nat} (inside : n < xs.length) :
    value (xs.take (n+1)) = value (xs.take n) + 2 ^ (w*n) * xs[n].toNat := by
  rw [take_succ_eq_append_getElem inside,value_append,length_take,min_eq_left inside.le,value_cons]
  simp

theorem value_lt_of_top {xs ys : List (BitVec w)} {n : Nat} (insideX : n < xs.length) (insideY : n < ys.length)
    (top : xs[n].toNat < ys[n].toNat) : value (xs.take (n+1)) < value (ys.take (n+1)) := by
  have low := value_lt (xs.take n)
  rw [length_take,min_eq_left insideX.le] at low
  rw [value_take_succ insideX,value_take_succ insideY]
  calc value (xs.take n) + 2 ^ (w*n) * xs[n].toNat < 2 ^ (w*n) * (xs[n].toNat + 1) := by rw [Nat.mul_succ]; omega
    _ ≤ 2 ^ (w*n) * ys[n].toNat := Nat.mul_le_mul_left _ top
    _ ≤ value (ys.take n) + 2 ^ (w*n) * ys[n].toNat := Nat.le_add_left ..

/-- The lowest `n` words of a number. -/
def words (w : Nat) : Nat → Nat → List (BitVec w)
  | 0, _ => []
  | n+1, x => BitVec.ofNat w x :: words w n (x / 2 ^ w)

@[simp] theorem words_length (n x : Nat) : (words w n x).length = n := by
  induction n generalizing x with
  | zero => rfl
  | succ n ih => rw [words,length_cons,ih]

theorem value_words {n x : Nat} (small : x < 2 ^ (w*n)) : value (words w n x) = x := by
  induction n generalizing x with
  | zero =>
    have : x = 0 := by simpa using small
    rw [words,value_nil,this]
  | succ n ih =>
    have rest : x / 2 ^ w < 2 ^ (w*n) := by
      rw [Nat.div_lt_iff_lt_mul (Nat.two_pow_pos w),← Nat.pow_add,← Nat.mul_succ]
      exact small
    rw [words,value_cons,ih rest,BitVec.toNat_ofNat,Nat.mod_add_div]

end

/-! ### Products -/

section
variable {N R B a b m n p x y v : Nat}

/-- A row: `t` becomes `t'` with the word `a` of the multiplier. -/
def Row (N B v t a t' : Nat) : Prop := t' * B ≡ t + a * v [MOD N]

def Product (N R a b m : Nat) : Prop := m * R ≡ a * b [MOD N]

/-- `m` stands for `x`. -/
def Represents (N R x m : Nat) : Prop := m ≡ x * R [MOD N]

/-- The factor `R ^ 2` leads to the representation. -/
theorem Product.enter (coprime : N.Coprime R) (square : b ≡ R ^ 2 [MOD N]) (product : Product N R x b m) :
    Represents N R x m := by
  have same : m * R ≡ x * R * R [MOD N] := by
    calc m * R ≡ x * b [MOD N] := product
      _ ≡ x * R ^ 2 [MOD N] := square.mul_left x
      _ = x * R * R := by ring
  exact Nat.ModEq.cancel_right_of_coprime coprime same

theorem Represents.mul (coprime : N.Coprime R) (first : Represents N R x m) (second : Represents N R y n)
    (product : Product N R m n p) : Represents N R (x*y) p := by
  have same : p * R ≡ x * y * R * R [MOD N] := by
    calc p * R ≡ m * n [MOD N] := product
      _ ≡ x * R * (y*R) [MOD N] := Nat.ModEq.mul first second
      _ = x * y * R * R := by ring
  exact Nat.ModEq.cancel_right_of_coprime coprime same

theorem Represents.leave (coprime : N.Coprime R) (first : Represents N R x m) (product : Product N R m y p) :
    p ≡ x * y [MOD N] := by
  have same : p * R ≡ x * y * R [MOD N] := by
    calc p * R ≡ m * y [MOD N] := product
      _ ≡ x * R * y [MOD N] := first.mul_right y
      _ = x * y * R := by ring
  exact Nat.ModEq.cancel_right_of_coprime coprime same

end

theorem rows_product {State : Type*} {w N v : Nat} {step : State → BitVec w → State} {number : State → Nat}
    {ok : State → Prop} (row : ∀ s a, ok s → Row N (2 ^ w) v (number s) a.toNat (number (step s a)) ∧ ok (step s a))
    (as : List (BitVec w)) (s : State) (start : ok s) :
    number (as.foldl step s) * 2 ^ (w*as.length) ≡ number s + value as * v [MOD N] ∧ ok (as.foldl step s) := by
  induction as generalizing s with
  | nil => simpa using ⟨Nat.ModEq.refl _,start⟩
  | cons a as ih =>
    obtain ⟨one,next⟩ := row s a start
    obtain ⟨rest,last⟩ := ih (step s a) next
    refine ⟨?_,last⟩
    rw [foldl_cons,length_cons,mul_succ,pow_add,← mul_assoc,value_cons]
    calc number (as.foldl step (step s a)) * 2 ^ (w*as.length) * 2 ^ w
        ≡ (number (step s a) + value as * v) * 2 ^ w [MOD N] := rest.mul_right _
      _ = number (step s a) * 2 ^ w + value as * v * 2 ^ w := by ring
      _ ≡ number s + a.toNat * v + value as * v * 2 ^ w [MOD N] := Nat.ModEq.add_right _ one
      _ = number s + (a.toNat + 2 ^ w * value as) * v := by ring

end UBoot.Montgomery
