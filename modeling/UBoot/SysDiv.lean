import Mathlib.Tactic

/-!
`gen_sys_div` of `pll_params_creator.c`: the dividers of the system clocks. When it finds nothing to complain about, the
dividers fit their fields and keep the clocks below their limits (`gen_sys_div_respects_limits`).
-/
namespace UBoot.SysDiv
open Nat

/-- The loop from `div` on. With `src_clk + 1` the quotient is 0, so it ends within the fuel. -/
def minDivLoop (src_clk max_clk : Nat) : Nat → Nat → Nat
  | 0, div => div
  | fuel+1, div => if src_clk / div > max_clk then minDivLoop src_clk max_clk fuel (div + 1) else div

def find_min_div (src_clk max_clk : Nat) : Nat := minDivLoop src_clk max_clk src_clk 1

/-- `MAX_H0_CLK` and `MAX_H2_CLK`, which the configuration may set. -/
structure Limits where
  MAX_H0_CLK : Nat
  MAX_H2_CLK : Nat

def Limits.MAX_P_CLK (l : Limits) : Nat := l.MAX_H2_CLK / 2
def MAX_L2_CLK : Nat := 750 * 1000 * 1000

inductive Pll
  | APLL
  | MPLL
deriving DecidableEq

/-- `struct pll_setting`, as far as it is looked at. -/
structure PllSetting where
  apll_freq : Nat
  mpll_freq : Nat
  cpu_freq : Nat
  cpu_sel_pll : Pll
  ddr_sel_pll : Pll

def PllSetting.freq (s : PllSetting) : Pll → Nat
  | .APLL => s.apll_freq
  | .MPLL => s.mpll_freq

/-- `struct div_setting`; `pdiv` is not set when `h2div` is out of range. -/
structure DivSetting where
  cdiv : Int
  l2div : Int
  h0div : Int
  h2div : Int
  pdiv : Option Int

/-- The texts behind `#error`. -/
inductive Complaint
  | slow
  | notDivided
  | outOfRange (div : Int)
deriving DecidableEq

def checkRange (div : Int) : List Complaint := if div < 0 ∨ div > 0xf then [.outOfRange div] else []

def gen_sys_div (l : Limits) (s : PllSetting) : DivSetting × List Complaint :=
  let cpll := s.freq s.cpu_sel_pll
  let periph := s.freq s.ddr_sel_pll
  let slow := if cpll < s.cpu_freq then [Complaint.slow] else []
  let notDivided := if cpll % s.cpu_freq ≠ 0 then [Complaint.notDivided] else []
  let cdiv : Int := (cpll / s.cpu_freq : Nat) - 1
  let l2div : Int := find_min_div cpll MAX_L2_CLK - 1
  let h0div : Int := find_min_div periph l.MAX_H0_CLK - 1
  let h2div : Int := find_min_div periph l.MAX_H2_CLK - 1
  let complaints := slow ++ notDivided ++ checkRange cdiv ++ checkRange l2div ++ checkRange h0div ++ checkRange h2div
  if checkRange h2div ≠ [] then (⟨cdiv,l2div,h0div,h2div,none⟩,complaints)
  else
    let h2_freq := periph / (h2div + 1).toNat
    let h2_pdiv := find_min_div h2_freq l.MAX_P_CLK
    let p_freq := h2_freq / h2_pdiv
    let pdiv : Int := (periph / p_freq : Nat) - 1
    (⟨cdiv,l2div,h0div,h2div,some pdiv⟩,complaints ++ checkRange pdiv)

/-! ### The smallest divider -/

theorem minDivLoop_spec (src max : Nat) : ∀ (fuel div : Nat), 0 < div → src + 1 ≤ fuel + div →
    div ≤ minDivLoop src max fuel div ∧ src / minDivLoop src max fuel div ≤ max ∧
      ∀ d, div ≤ d → d < minDivLoop src max fuel div → max < src / d := by
  intro fuel
  induction fuel with
  | zero =>
    intro div _ enough
    rw [minDivLoop,div_eq_of_lt (by omega)]
    exact ⟨le_refl _,zero_le _,fun d low high => absurd low (by omega)⟩
  | succ fuel ih =>
    intro div positive enough
    rw [minDivLoop]
    split
    case isTrue large =>
      obtain ⟨low,small,before⟩ := ih (div+1) (by omega) (by omega)
      refine ⟨by omega,small,fun d least less => ?_⟩
      rcases eq_or_lt_of_le least with rfl | later
      · exact large
      · exact before d later less
    case isFalse small => exact ⟨le_refl _,by omega,fun d low high => absurd low (by omega)⟩

theorem find_min_div_pos (src max : Nat) : 0 < find_min_div src max :=
  (minDivLoop_spec src max src 1 one_pos (le_refl _)).1

theorem find_min_div_le (src max : Nat) : src / find_min_div src max ≤ max :=
  (minDivLoop_spec src max src 1 one_pos (le_refl _)).2.1

theorem find_min_div_min {src max d : Nat} (positive : 0 < d) (less : d < find_min_div src max) : max < src / d :=
  (minDivLoop_spec src max src 1 one_pos (le_refl _)).2.2 d positive less

theorem half_limit (src max : Nat) : find_min_div src max = 1 ∨ max < 2 * (src / find_min_div src max) + 1 := by
  have positive := find_min_div_pos src max
  rcases eq_or_lt_of_le (succ_le_of_lt positive) with one | two
  · exact .inl one.symm
  have large := find_min_div_min (show 0 < find_min_div src max - 1 by omega) (sub_lt positive one_pos)
  generalize find_min_div src max = d at *
  have high : src < (src / d + 1) * d := lt_mul_of_div_lt (lt_succ_self _) positive
  have low : (max+1) * (d-1) ≤ src := (le_div_iff_mul_le (by omega)).mp large
  by_contra small
  have less : (src / d + 1) * 2 ≤ max + 1 := by omega
  have := mul_le_mul_right (d-1) less
  have twice : d ≤ 2 * (d-1) := by omega
  have := mul_le_mul_left (src / d + 1) twice
  rw [← mul_assoc] at this
  omega

theorem divider_back {f d : Nat} (positive : 0 < d) (large : d ≤ f / d) : f / (f / d) = d := by
  have rest := Nat.mod_lt f positive
  have split := Nat.div_add_mod f d
  refine Nat.div_eq_of_lt_le (by omega) ?_
  rw [Nat.succ_mul]
  omega

section
variable {l : Limits} {s : PllSetting}

theorem pdiv_eq (wide : 256 < l.MAX_P_CLK) {f : Nat} (running : 0 < f)
    (fits : f / (f / find_min_div f l.MAX_H2_CLK / find_min_div (f / find_min_div f l.MAX_H2_CLK) l.MAX_P_CLK) ≤ 16) :
    f / (f / find_min_div f l.MAX_H2_CLK / find_min_div (f / find_min_div f l.MAX_H2_CLK) l.MAX_P_CLK) =
      find_min_div f l.MAX_H2_CLK * find_min_div (f / find_min_div f l.MAX_H2_CLK) l.MAX_P_CLK := by
  have first := half_limit f l.MAX_H2_CLK
  have second := half_limit (f / find_min_div f l.MAX_H2_CLK) l.MAX_P_CLK
  have limits : 2 * l.MAX_P_CLK ≤ l.MAX_H2_CLK := Nat.mul_div_le ..
  have h2 := find_min_div_pos f l.MAX_H2_CLK
  have p := find_min_div_pos (f / find_min_div f l.MAX_H2_CLK) l.MAX_P_CLK
  generalize find_min_div (f / find_min_div f l.MAX_H2_CLK) l.MAX_P_CLK = b at *
  generalize find_min_div f l.MAX_H2_CLK = a at *
  rw [Nat.div_div_eq_div_mul] at fits second ⊢
  have some_ : 0 < a * b := Nat.mul_pos h2 p
  refine divider_back some_ ?_
  -- the quotient is large if the clock is divided at all, and then the divider is at most 16
  have bounded : 0 < f / (a*b) → a * b ≤ 16 := fun nonzero =>
    le_trans ((Nat.le_div_iff_mul_le nonzero).mpr (Nat.mul_div_le f (a*b))) fits
  rcases second with rfl | half
  · rw [Nat.mul_one] at *
    rcases first with rfl | half
    · rw [Nat.div_one]
      exact running
    · omega
  · omega

theorem checkRange_nil {div : Int} : checkRange div = [] ↔ 0 ≤ div ∧ div ≤ 15 := by
  rw [checkRange]
  split
  case isTrue out => exact iff_of_false (List.cons_ne_nil _ _) (by omega)
  case isFalse inside => exact iff_of_true rfl (by omega)

/-- Without a complaint the dividers fit in four bits, the L2, H0, H2 and P clocks stay below their limits, and the
    divider of P is a multiple of that of H2. -/
theorem gen_sys_div_respects_limits (l : Limits) (s : PllSetting) (running : s.apll_freq ≠ 0 ∧ s.mpll_freq ≠ 0 ∧ s.cpu_freq ≠ 0)
    (wide : 256 < l.MAX_P_CLK) (quiet : (gen_sys_div l s).2 = []) :
    ∃ cdiv l2div h0div h2div pdiv : Nat, (gen_sys_div l s).1 = ⟨cdiv,l2div,h0div,h2div,some (pdiv : Int)⟩ ∧
      (∀ div ∈ [cdiv,l2div,h0div,h2div,pdiv], div < 2 ^ 4) ∧
      s.freq s.cpu_sel_pll / (l2div + 1) ≤ MAX_L2_CLK ∧ s.freq s.ddr_sel_pll / (h0div + 1) ≤ l.MAX_H0_CLK ∧
      s.freq s.ddr_sel_pll / (h2div + 1) ≤ l.MAX_H2_CLK ∧ s.freq s.ddr_sel_pll / (pdiv + 1) ≤ l.MAX_P_CLK ∧
      h2div + 1 ∣ pdiv + 1 := by
  have periph : 0 < s.freq s.ddr_sel_pll := by
    cases s.ddr_sel_pll with
    | APLL => exact pos_of_ne_zero running.1
    | MPLL => exact pos_of_ne_zero running.2.1
  rw [gen_sys_div] at quiet ⊢
  generalize s.freq s.ddr_sel_pll = f at *
  generalize s.freq s.cpu_sel_pll = c at *
  have l2 := find_min_div_pos c MAX_L2_CLK
  have h0 := find_min_div_pos f l.MAX_H0_CLK
  have h2 := find_min_div_pos f l.MAX_H2_CLK
  have back : ((find_min_div f l.MAX_H2_CLK : Int) - 1 + 1).toNat = find_min_div f l.MAX_H2_CLK := by omega
  simp only [back] at quiet ⊢
  by_cases wrong : checkRange ((find_min_div f l.MAX_H2_CLK : Int) - 1) ≠ []
  · simp only [if_pos wrong,List.append_eq_nil_iff] at quiet
    exact absurd quiet.2 wrong
  simp only [if_neg wrong,List.append_eq_nil_iff,checkRange_nil] at quiet ⊢
  have multiple := pdiv_eq wide periph (by omega)
  have p := find_min_div_pos (f / find_min_div f l.MAX_H2_CLK) l.MAX_P_CLK
  have product := mul_pos h2 p
  refine ⟨c / s.cpu_freq - 1,find_min_div c MAX_L2_CLK - 1,find_min_div f l.MAX_H0_CLK - 1,find_min_div f l.MAX_H2_CLK - 1,
    find_min_div f l.MAX_H2_CLK * find_min_div (f / find_min_div f l.MAX_H2_CLK) l.MAX_P_CLK - 1,?_,?_,?_,?_,?_,?_,?_⟩
  · simp only [DivSetting.mk.injEq,Option.some.injEq]
    omega
  · simp only [List.forall_mem_cons,List.not_mem_nil,false_imp_iff,implies_true,and_true]
    omega
  · rw [Nat.sub_add_cancel l2]
    exact find_min_div_le c MAX_L2_CLK
  · rw [Nat.sub_add_cancel h0]
    exact find_min_div_le f l.MAX_H0_CLK
  · rw [Nat.sub_add_cancel h2]
    exact find_min_div_le f l.MAX_H2_CLK
  · rw [Nat.sub_add_cancel product,← Nat.div_div_eq_div_mul]
    exact find_min_div_le _ l.MAX_P_CLK
  · rw [Nat.sub_add_cancel h2,Nat.sub_add_cancel product]
    exact Nat.dvd_mul_right ..
end

def boardSetting : PllSetting := ⟨1104000000,600000000,1104000000,.APLL,.MPLL⟩

theorem board_dividers : ∃ cdiv l2div h0div h2div pdiv : Nat,
    (gen_sys_div ⟨300000000,300000000⟩ boardSetting).1 = ⟨cdiv,l2div,h0div,h2div,some (pdiv : Int)⟩ ∧
      (∀ div ∈ [cdiv,l2div,h0div,h2div,pdiv], div < 2 ^ 4) ∧
      1104000000 / (l2div + 1) ≤ MAX_L2_CLK ∧ 600000000 / (h0div + 1) ≤ 300000000 ∧
      600000000 / (h2div + 1) ≤ 300000000 ∧ 600000000 / (pdiv + 1) ≤ 150000000 ∧ h2div + 1 ∣ pdiv + 1 :=
  gen_sys_div_respects_limits ⟨300000000,300000000⟩ boardSetting (by decide) (by decide) (by rfl)

end UBoot.SysDiv
