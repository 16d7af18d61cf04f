import Mathlib.Tactic

/-!
The rates of the peripheral clocks of the x2600: `clk_set_rate` and `get_cgu_rate` of `clk.c`, over the registers of the
clocks. `rate_kept_iff` says for which requests the rate that is read back is not too high.
-/
namespace UBoot.ClkRate

inductive ClkId
  | DDR | MACPHY | LCD | MSC0 | MSC1 | SSI | PWM | SFC
deriving DecidableEq

inductive PllId
  | APLL | MPLL
deriving DecidableEq

def CONFIG_SYS_EXTAL : Nat := 24000000
def MSCCDR_EXCK_E : BitVec 32 := 1 <<< 21
def MSCCDR_MPCS_MASK : BitVec 32 := 3 <<< 30
def MSCCDR_MPCS_EXCLK : BitVec 32 := 3 <<< 30

/-- The PLL of each clock, which is one of the two on every board, and what `pll_get_rate` gives. -/
structure Board where
  sel_src : ClkId → PllId
  pll_get_rate : PllId → Nat
  rate_pos : ∀ p, 0 < pll_get_rate p
  rate_lt : ∀ p, pll_get_rate p < 2 ^ 32

/-- The place of the PLL in the table of `clk_params_creator.c`. -/
def sel : ClkId → PllId → BitVec 32
  | .DDR, .APLL => 1
  | .DDR, .MPLL => 2
  | _, .APLL => 0
  | _, .MPLL => 1

def sel_val (b : Board) (id : ClkId) : BitVec 32 := sel id (b.sel_src id) <<< 30

abbrev Registers := ClkId → BitVec 32

def isMsc (id : ClkId) : Bool := id = .MSC0 || id = .MSC1

/-- The clock whose source a clock has. -/
def leader (id : ClkId) : ClkId := if id = .MSC1 then .MSC0 else id

/-- The divider field for a rate; the sum wraps. -/
def cdrOf (id : ClkId) (pll_rate rate : Nat) : Nat :=
  let ratio := (pll_rate + rate - 1) % 2 ^ 32 / rate
  (if isMsc id then if ratio % 4 ≠ 0 then ratio / 4 else ratio / 4 + 2 ^ 32 - 1 else ratio + 2 ^ 32 - 1) % 256

/-- The bits for `stop`, `busy` and `ce` are 27, 28 and 29 for every clock. -/
def withCdr (regval : BitVec 32) (cdr : Nat) : BitVec 32 :=
  regval &&& ~~~(3#32 <<< 27 ||| 0xff#32) ||| (1#32 <<< 29 ||| BitVec.ofNat 32 cdr)

/-- Slow cards are clocked from the crystal. -/
def fromCrystal (id : ClkId) (rate : Nat) : Bool := isMsc id && !decide (CONFIG_SYS_EXTAL / 4 < rate)

def source (b : Board) (id : ClkId) (rate : Nat) : Nat :=
  if fromCrystal id rate then CONFIG_SYS_EXTAL else b.pll_get_rate (b.sel_src (leader id))

/-- The registers when the clock is no longer busy. -/
def clk_set_rate (b : Board) (regs : Registers) (id : ClkId) (rate : Nat) : Registers :=
  let regs := if fromCrystal id rate then Function.update regs .MSC0 (regs .MSC0 ||| MSCCDR_EXCK_E) else regs
  let regval := if isMsc id then
      regs id &&& ~~~MSCCDR_MPCS_MASK ||| if fromCrystal id rate then MSCCDR_MPCS_EXCLK else sel_val b id
    else regs id
  Function.update regs id (withCdr regval (cdrOf id (source b id rate) rate))

/-- Without the third PLL, which no clock has. -/
def sourceRate (b : Board) (id : ClkId) (select : BitVec 32) : Nat :=
  if id = .DDR then
    if select = 1 then b.pll_get_rate .APLL else if select = 2 then b.pll_get_rate .MPLL else 0
  else if select = 0 then b.pll_get_rate .APLL
  else if select = 1 then b.pll_get_rate .MPLL
  else if select = 2 ∧ isMsc id then CONFIG_SYS_EXTAL
  else 0

def get_cgu_rate (b : Board) (regs : Registers) (id : ClkId) : Nat :=
  let pll_rate := sourceRate b id (regs (leader id) >>> 30)
  let div := (regs id &&& 0xff#32).toNat + 1
  if isMsc id then pll_rate / (div * 2) else pll_rate / div

/-- The sources are selected. -/
def cgu_clks_set (b : Board) (regs : Registers) : Registers := fun id => regs id &&& ~~~MSCCDR_MPCS_MASK ||| sel_val b id

/-- The states after `clk_init` and any calls. -/
inductive Reached (b : Board) : Registers → Prop
  | init (regs : Registers) : Reached b (cgu_clks_set b regs)
  | set {regs : Registers} (id : ClkId) (rate : Nat) (reached : Reached b regs) : Reached b (clk_set_rate b regs id rate)

/-! ### Fields of a register -/

section
open BitVec
variable {v : BitVec 32} {cdr : Nat}

theorem withCdr_low (small : cdr < 256) : (withCdr v cdr &&& 0xff#32).toNat = cdr := by
  have clear : ~~~(3#32 <<< 27 ||| 0xff#32) &&& 0xff#32 = 0#32 := by decide
  have ce : 1#32 <<< 29 &&& 0xff#32 = 0#32 := by decide
  rw [withCdr,and_or_distrib_right,and_or_distrib_right,BitVec.and_assoc,clear,ce,and_zero,zero_or,zero_or,toNat_and,
    toNat_ofNat]
  exact (Nat.and_two_pow_sub_one_eq_mod _ 8).trans (by omega)

theorem shift_mask : v >>> 30 &&& 3#32 = v >>> 30 := by
  apply eq_of_toNat_eq
  rw [toNat_and,toNat_ushiftRight]
  exact (Nat.and_two_pow_sub_one_eq_mod _ 2).trans (by omega)

theorem withCdr_select (small : cdr < 256) : withCdr v cdr >>> 30 = v >>> 30 := by
  have low : BitVec.ofNat 32 cdr >>> 30 = 0#32 := by
    apply eq_of_toNat_eq
    rw [toNat_ushiftRight,toNat_ofNat,Nat.shiftRight_eq_div_pow]
    exact Nat.div_eq_of_lt (by omega)
  have keep : ~~~(3#32 <<< 27 ||| 0xff#32) >>> 30 = 3#32 := by decide
  have ce : 1#32 <<< 29 >>> 30 = 0#32 := by decide
  rw [withCdr,ushiftRight_or_distrib,ushiftRight_and_distrib,ushiftRight_or_distrib,keep,low,ce,shift_mask,or_zero,or_zero]

theorem select_set {s : BitVec 32} : (v &&& ~~~MSCCDR_MPCS_MASK ||| s) >>> 30 = s >>> 30 := by
  have clear : ~~~MSCCDR_MPCS_MASK >>> 30 = 0#32 := by decide
  rw [ushiftRight_or_distrib,ushiftRight_and_distrib,clear,and_zero,zero_or]

theorem exck_select : (v ||| MSCCDR_EXCK_E) >>> 30 = v >>> 30 := by
  have clear : MSCCDR_EXCK_E >>> 30 = 0#32 := by decide
  rw [ushiftRight_or_distrib,clear,or_zero]
end

variable {b : Board} {regs : Registers} {id : ClkId} {rate : Nat}

theorem cdrOf_lt {pll_rate : Nat} : cdrOf id pll_rate rate < 256 := Nat.mod_lt _ (by decide)

theorem sel_val_select : sel_val b id >>> 30 = sel id (b.sel_src id) := by
  rw [sel_val]
  cases id <;> cases b.sel_src _ <;> rfl

theorem sourceRate_sel {p : PllId} : sourceRate b id (sel id p) = b.pll_get_rate p := by
  cases id <;> cases p <;> rfl

theorem set_low : (clk_set_rate b regs id rate id &&& 0xff#32).toNat = cdrOf id (source b id rate) rate := by
  rw [clk_set_rate,Function.update_self,withCdr_low cdrOf_lt]

theorem set_select {id' : ClkId} : clk_set_rate b regs id rate id' >>> 30 =
    if id' = id ∧ isMsc id then if fromCrystal id rate then 3#32 else sel id (b.sel_src id) else regs id' >>> 30 := by
  have others : ∀ id', (if fromCrystal id rate then Function.update regs .MSC0 (regs .MSC0 ||| MSCCDR_EXCK_E) else regs) id'
      >>> 30 = regs id' >>> 30 := by
    intro id'
    split_ifs
    · by_cases first : id' = .MSC0
      · rw [first,Function.update_self,exck_select]
      · rw [Function.update_of_ne first]
    · rfl
  rw [clk_set_rate]
  by_cases same : id' = id
  · rw [same,Function.update_self,withCdr_select cdrOf_lt]
    by_cases msc : isMsc id
    · rw [if_pos msc,if_pos (show id = id ∧ isMsc id from ⟨rfl,msc⟩),select_set]
      by_cases crystal : fromCrystal id rate
      · rw [if_pos crystal,if_pos crystal]
        rfl
      · rw [if_neg crystal,if_neg crystal,sel_val_select]
    · rw [if_neg msc,if_neg (show ¬(id = id ∧ isMsc id) from fun both => msc both.2),others]
  · rw [if_neg (show ¬(id' = id ∧ isMsc id) from fun both => same both.1),Function.update_of_ne same,others]

/-- Every clock has the source of the table, or MSC0 the crystal. -/
structure Selected (b : Board) (regs : Registers) : Prop where
  table : ∀ id, ¬ isMsc id → regs id >>> 30 = sel id (b.sel_src id)
  msc0 : regs .MSC0 >>> 30 = sel .MSC0 (b.sel_src .MSC0) ∨ regs .MSC0 >>> 30 = 3#32

theorem Reached.selected (reached : Reached b regs) : Selected b regs := by
  induction reached with
  | init regs =>
    have all : ∀ id, cgu_clks_set b regs id >>> 30 = sel id (b.sel_src id) := fun id => select_set.trans sel_val_select
    exact ⟨fun id _ => all id,.inl (all .MSC0)⟩
  | set id rate _ ih =>
    refine ⟨fun id' ordinary => ?_,?_⟩
    · rw [set_select,if_neg (show ¬(id' = id ∧ isMsc id) from fun both => ordinary (both.1 ▸ both.2)),ih.table id' ordinary]
    rw [set_select]
    split_ifs with both crystal
    · exact .inr rfl
    · exact .inl (by rw [both.1])
    · exact ih.msc0

/-! ### Dividers -/

/-- The ratio of two rates, rounded up. -/
def ratio (p rate : Nat) : Nat := (p + rate - 1) / rate

/-- The divider has eight bits, and 256 times a ratio is as good as 256. -/
def InRange (p rate : Nat) : Prop := 2 ^ 32 < p + rate ∨ ratio p rate ≤ 256 ∨ 256 ∣ ratio p rate

theorem ratio_bounds {p rate : Nat} (pos : 0 < p) (rate_pos : 0 < rate) :
    0 < ratio p rate ∧ p ≤ ratio p rate * rate ∧ ratio p rate * rate < p + rate := by
  have division := Nat.div_add_mod (p + rate - 1) rate
  have rest := Nat.mod_lt (p + rate - 1) rate_pos
  rw [Nat.mul_comm] at division
  exact ⟨Nat.div_pos (by omega) rate_pos,by rw [ratio]; omega,by rw [ratio]; omega⟩

theorem cdrOf_plain {p rate : Nat} (pos : 0 < p) (rate_pos : 0 < rate) (ordinary : isMsc id = false)
    (fits : p + rate ≤ 2 ^ 32) : cdrOf id p rate = (ratio p rate - 1) % 256 := by
  have some_ := (ratio_bounds pos rate_pos).1
  rw [cdrOf,ordinary,Nat.mod_eq_of_lt (show p + rate - 1 < 2 ^ 32 by omega),← ratio]
  simp only [Bool.false_eq_true,if_false]
  omega

/-- The sum wraps only for a request above the rate of the PLL, and the largest divider is set. -/
theorem cdrOf_wraps {p rate : Nat} (small : p < 2 ^ 32) (wraps : 2 ^ 32 < p + rate) (rate_lt : rate < 2 ^ 32) :
    cdrOf id p rate = 255 := by
  have zero : (p + rate - 1) % 2 ^ 32 / rate = 0 := Nat.div_eq_of_lt (by omega)
  rw [cdrOf,zero]
  split <;> rfl

theorem plain_iff {p rate : Nat} (pos : 0 < p) (rate_pos : 0 < rate) (small : p < 2 ^ 32) (rate_lt : rate < 2 ^ 32)
    (ordinary : isMsc id = false) : p / (cdrOf id p rate + 1) ≤ max rate (p / 256) ↔ InRange p rate := by
  by_cases wraps : 2 ^ 32 < p + rate
  · rw [cdrOf_wraps small wraps rate_lt]
    exact ⟨fun _ => .inl wraps,fun _ => le_max_right ..⟩
  obtain ⟨some_,high,low⟩ := ratio_bounds pos rate_pos
  rw [cdrOf_plain pos rate_pos ordinary (by omega),InRange]
  generalize ratio p rate = r at some_ high low
  by_cases short : r ≤ 256
  · rw [Nat.mod_eq_of_lt (by omega),Nat.sub_add_cancel some_]
    exact ⟨fun _ => .inr (.inl short),fun _ => (Nat.div_le_of_le_mul high).trans (le_max_left ..)⟩
  by_cases whole : 256 ∣ r
  · rw [show (r-1) % 256 + 1 = 256 by omega]
    exact ⟨fun _ => .inr (.inr whole),fun _ => le_max_right ..⟩
  -- r = 256 * k + d: the rate is at least (k+1) times the request
  obtain ⟨k,d,rfl,d_pos,d_lt⟩ : ∃ k d, r = 256 * k + d ∧ 0 < d ∧ d < 256 := ⟨r / 256,r % 256,by omega,by omega,by omega⟩
  have field : (256 * k + d - 1) % 256 + 1 = d := by omega
  have k_pos : 0 < k := by omega
  have quotient : (k+1) * rate ≤ p / d := by
    rw [Nat.le_div_iff_mul_le d_pos]
    have digits : k * rate * d ≤ k * rate * 255 := Nat.mul_le_mul_left _ (by omega)
    have more : rate ≤ k * rate := Nat.le_mul_of_pos_left rate k_pos
    linarith
  have lowest : p / 256 < (k+1) * rate := by
    rw [Nat.div_lt_iff_lt_mul (by decide)]
    nlinarith
  have above : rate < (k+1) * rate := by nlinarith
  rw [field]
  refine ⟨fun kept => absurd (quotient.trans kept) (Nat.not_le.mpr (max_lt above lowest)),?_⟩
  rintro (wrong | wrong | wrong)
  · exact absurd wrong wraps
  · exact absurd wrong short
  · exact absurd wrong whole

/-- The divider is set for a quarter of the rate and read as a half. -/
def Halved (p rate : Nat) : Prop := 2 ^ 32 < p + rate ∨ p ≤ 2 * rate + 1 ∨ 4 * rate < p ∧ p ≤ 4 * rate + 3

theorem cdrOf_msc {p rate : Nat} (pos : 0 < p) (rate_pos : 0 < rate) (msc : isMsc id) (fits : p + rate ≤ 2 ^ 32) :
    cdrOf id p rate = (ratio p (4*rate) - 1) % 256 := by
  have some_ := (ratio_bounds pos rate_pos).1
  have quarter : ratio p (4*rate) = (ratio p rate + 3) / 4 := by
    rw [ratio,ratio,← Nat.add_mul_div_right _ _ rate_pos,Nat.div_div_eq_div_mul,Nat.mul_comm 4]
    congr 1
    omega
  rw [cdrOf,Nat.mod_eq_of_lt (show p + rate - 1 < 2 ^ 32 by omega),← ratio]
  split_ifs <;> omega

theorem msc_iff {p rate : Nat} (pos : 0 < p) (small : p < 2 ^ 32) (rate_lt : rate < 2 ^ 32) (msc : isMsc id)
    (fast : CONFIG_SYS_EXTAL / 4 < rate) : p / ((cdrOf id p rate + 1) * 2) ≤ max rate (p / 512) ↔ Halved p rate := by
  have rate_gt : 6000000 < rate := fast
  by_cases wraps : 2 ^ 32 < p + rate
  · rw [cdrOf_wraps small wraps rate_lt]
    exact ⟨fun _ => .inl wraps,fun _ => le_max_right ..⟩
  obtain ⟨some_,high,low⟩ := @ratio_bounds p (4*rate) pos (by omega)
  rw [cdrOf_msc pos (by omega) msc (by omega),Halved]
  generalize ratio p (4*rate) = c at some_ high low
  have few : c < 180 := by
    by_contra many
    have := Nat.mul_le_mul_right (4*rate) (Nat.not_lt.mp many)
    omega
  rw [Nat.mod_eq_of_lt (by omega),Nat.sub_add_cancel some_]
  obtain rfl | rfl | many : c = 1 ∨ c = 2 ∨ 3 ≤ c := by omega
  · omega
  · omega
  have large : 8 * rate < p := by
    have := Nat.mul_le_mul_right (4*rate) many
    omega
  have above : rate < p / (c*2) := (Nat.le_div_iff_mul_le (by omega)).mpr (by nlinarith)
  have lowest : p / 512 < p / (c*2) := (Nat.le_div_iff_mul_le (by omega)).mpr
    ((Nat.mul_le_mul_left (p / 512 + 1) (show c * 2 ≤ 360 by omega)).trans (by omega))
  exact ⟨fun kept => absurd kept (Nat.not_le.mpr (max_lt above lowest)),fun wrong => by omega⟩

/-! ### Setting and reading a rate -/

/-- The rate that is read back is not above the request, or not above the lowest one. -/
def Kept (b : Board) (regs : Registers) (id : ClkId) (rate : Nat) : Prop :=
  get_cgu_rate b (clk_set_rate b regs id rate) id ≤ max rate (source b id rate / if isMsc id then 512 else 256)

/-- MSC1 is read with the source of MSC0, whatever its own register selects. -/
def Suits (b : Board) (regs : Registers) (id : ClkId) (rate : Nat) : Prop :=
  let p := b.pll_get_rate (b.sel_src (leader id))
  match id with
  | .MSC0 => fromCrystal .MSC0 rate ∨ Halved p rate
  | .MSC1 => regs .MSC0 >>> 30 = 3#32 ∨
      if fromCrystal .MSC1 rate then
        p < (max rate 46875 + 1) * (((ratio CONFIG_SYS_EXTAL (4 * rate) - 1) % 256 + 1) * 2)
      else Halved p rate
  | _ => InRange p rate

theorem get_set : get_cgu_rate b (clk_set_rate b regs id rate) id =
    sourceRate b id (clk_set_rate b regs id rate (leader id) >>> 30) /
      if isMsc id then (cdrOf id (source b id rate) rate + 1) * 2 else cdrOf id (source b id rate) rate + 1 := by
  rw [get_cgu_rate,set_low]
  split_ifs <;> rfl

theorem kept_ordinary (selected : Selected b regs) (ordinary : isMsc id = false) (rate_pos : 0 < rate)
    (rate_lt : rate < 2 ^ 32) : Kept b regs id rate ↔ InRange (b.pll_get_rate (b.sel_src (leader id))) rate := by
  have own : leader id = id := if_neg fun same => by rw [same] at ordinary; cases ordinary
  have pll : source b id rate = b.pll_get_rate (b.sel_src id) := by rw [source,fromCrystal,ordinary,own]; rfl
  have plain : ¬ isMsc id := by rw [ordinary]; exact Bool.false_ne_true
  rw [Kept,get_set,own,set_select,if_neg (show ¬(id = id ∧ isMsc id) from fun both => plain both.2),if_neg plain,
    if_neg plain,selected.table id plain,sourceRate_sel,pll]
  exact plain_iff (b.rate_pos _) rate_pos (b.rate_lt _) rate_lt ordinary

theorem kept_msc (msc : isMsc id) : Kept b regs id rate ↔
    sourceRate b id (clk_set_rate b regs id rate .MSC0 >>> 30) / ((cdrOf id (source b id rate) rate + 1) * 2) ≤
      max rate (source b id rate / 512) := by
  have first : leader id = .MSC0 := by
    cases id <;> first | rfl | cases msc
  rw [Kept,get_set,if_pos msc,if_pos msc,first]

theorem fromCrystal_iff (msc : isMsc id) : fromCrystal id rate ↔ rate ≤ CONFIG_SYS_EXTAL / 4 := by
  simp [fromCrystal,msc]

/-- Whether the rate that is set can be read back as too high, for every state, clock and request. -/
theorem rate_kept_iff (reached : Reached b regs) (rate_pos : 0 < rate) (rate_lt : rate < 2 ^ 32) :
    Kept b regs id rate ↔ Suits b regs id rate := by
  have selected := reached.selected
  cases id with
  | MSC0 =>
    rw [kept_msc rfl,set_select,if_pos (show ClkId.MSC0 = .MSC0 ∧ isMsc .MSC0 from ⟨rfl,rfl⟩),Suits,source]
    by_cases crystal : fromCrystal .MSC0 rate
    · rw [if_pos crystal]
      exact ⟨fun _ => .inl crystal,fun _ => (Nat.zero_div _).le.trans (Nat.zero_le _)⟩
    rw [if_neg crystal,if_neg crystal,sourceRate_sel,or_iff_right crystal]
    rw [fromCrystal_iff rfl] at crystal
    exact msc_iff (b.rate_pos _) (b.rate_lt _) rate_lt rfl (Nat.not_le.mp crystal)
  | MSC1 =>
    rw [kept_msc rfl,set_select,if_neg (show ¬(ClkId.MSC0 = .MSC1 ∧ isMsc .MSC1) from fun both => nomatch both.1),Suits,source]
    rcases selected.msc0 with table | crystal
    · have differs : sel .MSC0 (b.sel_src .MSC0) ≠ 3#32 := by
        cases b.sel_src .MSC0 <;> decide
      have pll : sourceRate b .MSC1 (sel .MSC0 (b.sel_src .MSC0)) = b.pll_get_rate (b.sel_src .MSC0) := by
        cases b.sel_src .MSC0 <;> rfl
      rw [table,or_iff_right differs,pll]
      by_cases crystal : fromCrystal .MSC1 rate
      · have slow := (fromCrystal_iff rfl).mp crystal
        have limits : CONFIG_SYS_EXTAL = 24000000 := rfl
        rw [if_pos crystal,if_pos crystal,cdrOf_msc (by decide) rate_pos rfl (by omega),← Nat.lt_succ_iff,
          Nat.div_lt_iff_lt_mul (by omega)]
        rfl
      rw [if_neg crystal,if_neg crystal]
      rw [fromCrystal_iff rfl] at crystal
      exact msc_iff (b.rate_pos _) (b.rate_lt _) rate_lt rfl (Nat.not_le.mp crystal)
    · rw [crystal]
      exact ⟨fun _ => .inl rfl,fun _ => (Nat.zero_div _).le.trans (Nat.zero_le _)⟩
  | _ => exact kept_ordinary selected rfl rate_pos rate_lt

def board : Board where
  sel_src id := if id = .PWM then .APLL else .MPLL
  pll_get_rate
    | .APLL => 1200000000
    | .MPLL => 1800000000
  rate_pos p := by cases p <;> decide
  rate_lt p := by cases p <;> decide

theorem sfc_rate_kept : Kept board (cgu_clks_set board fun _ => 0) .SFC 100000000 :=
  (rate_kept_iff (.init _) (by decide) (by decide)).mpr (.inr (.inl (by decide)))

/-- A card that is to run at 25 MHz is read back at 50 MHz, and a flash at 7 MHz runs at 900 MHz. -/
theorem rate_doubled : ¬ Kept board (cgu_clks_set board fun _ => 0) .MSC0 25000000 ∧
    ¬ Kept board (cgu_clks_set board fun _ => 0) .SFC 7000000 := by
  unfold Kept
  decide +kernel

end UBoot.ClkRate
