import Mathlib.Tactic

/-!
Double hashing over the slots `1..size`: from a start slot, repeatedly stepping
down by a fixed stride with wrap-around at zero. When the stride is coprime to
the size the sequence visits every slot exactly once before it comes back.
-/
namespace UBoot.Probing

/-- One step down, wrapping into `1..size`. -/
def stepDown (size stride idx : Nat) : Nat := if idx ≤ stride then size + idx - stride else idx - stride

/-- The slot tried after `n` steps. -/
def probe (size stride start : Nat) : Nat → Nat
  | 0 => start
  | n+1 => stepDown size stride (probe size stride start n)

theorem probe_succ (size stride start n : Nat) :
    probe size stride start (n+1) = stepDown size stride (probe size stride start n) := rfl

theorem range_ext {size i j : Nat} (iIn : 1 ≤ i ∧ i ≤ size) (jIn : 1 ≤ j ∧ j ≤ size) (same : i ≡ j [MOD size]) :
    i = j := by
  rcases Nat.lt_or_ge i size with iLt | iGe <;> rcases Nat.lt_or_ge j size with jLt | jGe
  · exact Nat.ModEq.eq_of_lt_of_lt same iLt jLt
  · have : j = size := by omega
    subst this
    simp [Nat.ModEq,Nat.mod_eq_of_lt iLt] at same
    omega
  · have : i = size := by omega
    subst this
    simp [Nat.ModEq,Nat.mod_eq_of_lt jLt] at same
    omega
  · omega

section
variable {size stride start : Nat} (small : stride < size) (low : 1 ≤ start) (high : start ≤ size)
include small low high

theorem probe_range (n : Nat) : 1 ≤ probe size stride start n ∧ probe size stride start n ≤ size := by
  induction n with
  | zero => exact ⟨low,high⟩
  | succ n ih =>
    rw [probe_succ,stepDown]
    split <;> omega

theorem probe_modEq (n : Nat) : probe size stride start n + n * stride ≡ start [MOD size] := by
  induction n with
  | zero => simpa [probe] using Nat.ModEq.refl start
  | succ n ih =>
    obtain ⟨_,above⟩ := probe_range small low high n
    rw [probe_succ,stepDown,Nat.succ_mul]
    split
    next wraps =>
      have shift : size + probe size stride start n - stride + (n * stride + stride) =
          size + (probe size stride start n + n * stride) := by omega
      rw [shift]
      exact (show size + (probe size stride start n + n * stride) ≡ probe size stride start n + n * stride [MOD size]
        by simp [Nat.ModEq]).trans ih
    next stays =>
      have shift : probe size stride start n - stride + (n * stride + stride) =
          probe size stride start n + n * stride := by omega
      rw [shift]
      exact ih

theorem probe_size : probe size stride start size = start := by
  have back := probe_modEq small low high size
  have around : probe size stride start size + size * stride ≡ probe size stride start size [MOD size] := by
    simp [Nat.ModEq]
  obtain ⟨above,below⟩ := probe_range small low high size
  exact range_ext ⟨above,below⟩ ⟨low,high⟩ (around.symm.trans back)

variable (coprime : Nat.Coprime size stride)
include coprime

theorem probe_injective {n m : Nat} (nLt : n < size) (mLt : m < size)
    (same : probe size stride start n = probe size stride start m) : n = m := by
  have walked : probe size stride start m + n * stride ≡ probe size stride start m + m * stride [MOD size] :=
    (same ▸ probe_modEq small low high n).trans (probe_modEq small low high m).symm
  have steps : n ≡ m [MOD size] :=
    Nat.ModEq.cancel_right_of_coprime coprime (Nat.ModEq.add_left_cancel' _ walked)
  exact Nat.ModEq.eq_of_lt_of_lt steps nLt mLt

theorem probe_covers {i : Nat} (above : 1 ≤ i) (below : i ≤ size) :
    ∃ n < size, probe size stride start n = i := by
  have image : (Finset.range size).image (probe size stride start) = Finset.Icc 1 size := by
    apply Finset.eq_of_subset_of_card_le
    · intro j member
      obtain ⟨n,_,rfl⟩ := Finset.mem_image.mp member
      exact Finset.mem_Icc.mpr (probe_range small low high n)
    rw [Finset.card_image_of_injOn]
    · simp
    · intro n nIn m mIn same
      exact probe_injective small low high coprime (by simpa using nIn) (by simpa using mIn) same
  have member : i ∈ (Finset.range size).image (probe size stride start) := by
    rw [image]; exact Finset.mem_Icc.mpr ⟨above,below⟩
  obtain ⟨n,nIn,at_n⟩ := Finset.mem_image.mp member
  exact ⟨n,by simpa using nIn,at_n⟩

theorem probe_ne_start {n : Nat} (pos : 0 < n) (lt : n < size) : probe size stride start n ≠ start := by
  intro back
  have := probe_injective small low high coprime (n := n) (m := 0) lt (by omega) back
  omega

end

end UBoot.Probing
