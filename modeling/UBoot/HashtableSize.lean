import UBoot.Hashtable
import Mathlib.NumberTheory.Bertrand

/-!
The size of a new table. The trial division of `isprime` takes 1 for a prime and 3
for a composite number and is right about every other odd number it is given, so
`hcreate_r` ends with a table of one slot or of an odd prime number of slots.
-/
namespace UBoot.HashtableSize
open Hashtable

/-- The divisor at which trial division stops: no smaller odd number divides, and
    it divides itself or is too large to matter. -/
theorem isprimeLoop_spec {number : Nat} (small : number < 2^28) :
    ∀ fuel div, 3 ≤ div → div % 2 = 1 → (div = 3 ∨ (div-2) * (div-2) < number) → number < fuel + div →
      (∀ d, 3 ≤ d → d < div → d % 2 = 1 → number % d ≠ 0) →
      3 ≤ isprimeLoop number fuel div ∧
      (isprimeLoop number fuel div = 3 ∨
        (isprimeLoop number fuel div - 2) * (isprimeLoop number fuel div - 2) < number) ∧
      (number % isprimeLoop number fuel div ≠ 0 → number ≤ isprimeLoop number fuel div * isprimeLoop number fuel div) ∧
      ∀ d, 3 ≤ d → d < isprimeLoop number fuel div → d % 2 = 1 → number % d ≠ 0 := by
  intro fuel
  induction fuel with
  | zero =>
    intro div low _ near enough none
    refine ⟨low,near,fun _ => ?_,none⟩
    have : div ≤ div * div := Nat.le_mul_self div
    simp only [isprimeLoop]; omega
  | succ fuel ih =>
    intro div low odd near enough none
    -- the square is still below `2^32`, so the comparison is exact
    have bounded : div ≤ 2^14 + 2 := by
      rcases near with three | below
      · omega
      by_contra big
      have : 2^14 * 2^14 ≤ (div-2) * (div-2) := Nat.mul_le_mul (by omega) (by omega)
      omega
    have square : div * div < 2^32 := by
      have : div * div ≤ (2^14 + 2) * (2^14 + 2) := Nat.mul_le_mul bounded bounded
      omega
    rw [isprimeLoop,Nat.mod_eq_of_lt square,Nat.mod_eq_of_lt (show div + 2 < 2^32 by omega)]
    by_cases more : div * div < number ∧ number % div ≠ 0
    · rw [if_pos more]
      refine ih (div+2) (by omega) (by omega) (.inr (by simpa using more.1)) (by omega) ?_
      intro d dLow dHigh dOdd
      rcases Nat.lt_or_ge d div with smaller | larger
      · exact none d dLow smaller dOdd
      · have : d = div := by omega
        rw [this]; exact more.2
    rw [if_neg more]
    refine ⟨low,near,fun divides => ?_,none⟩
    by_contra below
    exact more ⟨by omega,divides⟩

/-- What `isprime` accepts is 1 or an odd prime other than 3. -/
theorem isprime_sound {number : Nat} (small : number < 2^28) (odd : number % 2 = 1) (accepted : isprime number = true) :
    number = 1 ∨ (number.Prime ∧ 5 ≤ number) := by
  obtain ⟨low,_,square,none⟩ := isprimeLoop_spec small number 3 (by omega) (by omega) (.inl rfl) (by omega)
    (by omega)
  have divides : number % isprimeLoop number number 3 ≠ 0 := by simpa [isprime] using accepted
  by_cases one : number = 1
  · exact .inl one
  refine .inr ⟨?_,?_⟩
  · by_contra composite
    have factor := Nat.minFac_dvd number
    have prime := Nat.minFac_prime one
    have factorSquare : number.minFac * number.minFac ≤ number := by
      simpa [sq] using Nat.minFac_sq_le_self (by omega) composite
    have factorOdd : number.minFac % 2 = 1 := by
      rcases prime.eq_two_or_odd with two | odd'
      · rw [two] at factor; omega
      · exact odd'
    have factorLow : 3 ≤ number.minFac := by have := prime.two_le; omega
    have factorLe : number.minFac ≤ isprimeLoop number number 3 :=
      Nat.mul_self_le_mul_self_iff.mp (factorSquare.trans (square divides))
    rcases Nat.lt_or_eq_of_le factorLe with lt | same
    · exact none _ factorLow lt factorOdd (Nat.mod_eq_zero_of_dvd factor)
    · exact divides (same ▸ Nat.mod_eq_zero_of_dvd factor)
  by_contra few
  have : number = 3 := by omega
  subst this
  exact absurd accepted (by decide)

theorem isprime_complete {number : Nat} (small : number < 2^28) (prime : number.Prime) (large : 5 ≤ number) :
    isprime number = true := by
  obtain ⟨low,near,_,_⟩ := isprimeLoop_spec small number 3 (by omega) (by omega) (.inl rfl) (by omega)
    (by omega)
  have below : isprimeLoop number number 3 < number := by
    rcases near with three | square
    · omega
    by_contra big
    have : (number-2) * 3 ≤ (isprimeLoop number number 3 - 2) * (isprimeLoop number number 3 - 2) :=
      Nat.mul_le_mul (by omega) (by omega)
    omega
  have : ¬ isprimeLoop number number 3 ∣ number := by
    intro divides
    rcases (Nat.dvd_prime prime).mp divides with one | same <;> omega
  simpa [isprime,Nat.dvd_iff_mod_eq_zero] using this

theorem hcreateLoop_sound : ∀ {fuel nel size : Nat}, hcreateLoop fuel nel = some size →
    isprime size = true ∧ nel ≤ size ∧ size % 2 = nel % 2 := by
  intro fuel
  induction fuel with
  | zero => intro nel size made; simp [hcreateLoop] at made
  | succ fuel ih =>
    intro nel size made
    rw [hcreateLoop] at made
    split at made
    next accepted => cases made; exact ⟨accepted,le_refl _,rfl⟩
    next =>
      obtain ⟨accepted,le,parity⟩ := ih made
      exact ⟨accepted,by omega,by omega⟩

theorem hcreateLoop_total : ∀ (fuel nel k : Nat), k < fuel → isprime (nel + 2 * k) = true →
    ∃ size, hcreateLoop fuel nel = some size ∧ size ≤ nel + 2 * k := by
  intro fuel
  induction fuel with
  | zero => omega
  | succ fuel ih =>
    intro nel k lt accepted
    rw [hcreateLoop]
    split
    next => exact ⟨nel,rfl,by omega⟩
    next rejected =>
      cases k with
      | zero => exact absurd accepted rejected
      | succ k =>
        obtain ⟨size,made,le⟩ := ih (nel+2) k (by omega) (by rw [← accepted]; congr 1; omega)
        exact ⟨size,made,by omega⟩

/-- A table made by `hcreate_r`: empty, with one slot or a prime number of slots
    not below the number asked for. -/
theorem hcreate_spec {nel : Nat} {t} (made : hcreate_r nel = some t) :
    (t.size = 1 ∨ (t.size.Prime ∧ 5 ≤ t.size)) ∧ nel ≤ t.size ∧ t.size < 2^28 ∧ t.filled = 0 ∧
      ∀ i, t.table i = ⟨0,default⟩ := by
  unfold hcreate_r at made
  split at made
  next => cases made
  next size found =>
    split at made
    next fits =>
      cases made
      obtain ⟨accepted,le,parity⟩ := hcreateLoop_sound found
      have small : size < 2^28 := by unfold sizeofSlot at fits; omega
      have odd : size % 2 = 1 := by rw [parity]; simp
      exact ⟨isprime_sound small odd accepted,Nat.left_le_or.trans le,small,rfl,fun _ => rfl⟩
    next => cases made

theorem hcreate_below {nel p : Nat} (prime : p.Prime) (large : 5 ≤ p) (above : nel ≤ p) (near : p ≤ 2 * (nel+4))
    (memory : (p+1) * sizeofSlot < 2^32) : ∃ t, hcreate_r nel = some t := by
  have odd : (nel ||| 1) % 2 = 1 := by simp
  have high : nel ||| 1 ≤ nel + 1 := by
    have : (nel ||| 1) / 2 = nel / 2 := by
      rw [← Nat.shiftRight_one,Nat.shiftRight_or_distrib]; simp [Nat.shiftRight_one]
    omega
  have pOdd : p % 2 = 1 := by rcases prime.eq_two_or_odd with two | pOdd <;> omega
  have reached : (nel ||| 1) + 2 * ((p - (nel ||| 1)) / 2) = p := by omega
  unfold sizeofSlot at memory
  obtain ⟨size,found,le⟩ := hcreateLoop_total (nel+6) (nel ||| 1) ((p - (nel ||| 1)) / 2)
    (by omega) (by rw [reached]; exact isprime_complete (by omega) prime large)
  refine ⟨{ table := fun _ => ⟨0,default⟩, size := size, filled := 0 },?_⟩
  have fits : (size+1) * sizeofSlot < 2^32 := by unfold sizeofSlot; omega
  simp only [hcreate_r,found,if_pos fits]

/-- The largest prime number of slots whose size in bytes is a number of 32 bits. -/
def greatestSize : Nat := 214748357

theorem hcreate_ends {nel : Nat} (small : nel ≤ greatestSize) : ∃ t, hcreate_r nel = some t := by
  by_cases low : nel ≤ 107374174
  · obtain ⟨p,prime,above,below⟩ := Nat.exists_prime_lt_and_le_two_mul (nel+4) (by omega)
    exact hcreate_below prime (by omega) (by omega) below (by unfold sizeofSlot; omega)
  · exact @hcreate_below nel greatestSize (by norm_num [greatestSize]) (by decide) small (by unfold greatestSize; omega) (by decide)

theorem hcreate_total {nel : Nat} (small : nel ≤ 2^24) : ∃ t, hcreate_r nel = some t :=
  hcreate_ends (by unfold greatestSize; omega)

end UBoot.HashtableSize
