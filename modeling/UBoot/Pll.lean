import Mathlib.Tactic

/-!
The PLL parameters of the x2600, in the three places that share them: the host tool
`pll_params_creator.c` searches them, `pllsetting.c` packs them into the control register
of the PLL, and `pll_get_rate` of `clk.c` reads the rate back out of the register.
Registers and clock rates are 32-bit words, and their arithmetic wraps.
-/
namespace UBoot.Pll

abbrev Word := BitVec 32

/-! ### `pll_params_creator.c` -/

/-- `struct pll_control`, the fields that the search fills. -/
structure PllControl where
  pllm : BitVec 12
  plln : BitVec 6
  pllod1 : BitVec 3
  pllod0 : BitVec 3
deriving DecidableEq

/-- The body of the three loops; `none` is `continue`. The numbers are `int`s in the source; none
    of them is negative, and with both clocks below 4295 MHz no product leaves the type. -/
def tryParams (fin fout n m od1 : Nat) : Option PllControl :=
  let od0 := 1
  let od := od0 * od1
  let fref := fin / n
  if fin % n ≠ 0 ∨ fref < 1 ∨ fref > 1200 then none
  else
    let fvco := fout * od
    if fref * m ≠ fvco ∨ fvco < 600 ∨ fvco > 2400 then none
    else some ⟨.ofNat 12 m,.ofNat 6 n,.ofNat 3 od1,.ofNat 3 od0⟩

/-- The search for the parameters; `none` is the result 0, with nothing stored. -/
def gen_pll_regester_nfro (extern_clk pll_out_clk : Word) : Option PllControl :=
  let fin := extern_clk.toNat / 1000000
  let fout := pll_out_clk.toNat / 1000000
  (List.range' 1 63).findSome? fun n =>
    (List.range' 16 2032).findSome? fun m =>
      (List.range' 1 7).findSome? fun od1 => tryParams fin fout n m od1

/-- The values of one PLL in the generated header `pll_reg_values.h`. -/
structure PllRegValues where
  M : Word
  N : Word
  OD0 : Word
  OD1 : Word
  EN : Word

/-- What `main` prints for one PLL. `uninit` is what the structure on the stack holds when the
    search stored nothing. -/
def pllRegValues (extern_clk pll_out_clk : Word) (uninit : PllControl) : PllRegValues :=
  let pll := gen_pll_regester_nfro extern_clk pll_out_clk
  let ctrl := pll.getD uninit
  ⟨ctrl.pllm.setWidth 32,ctrl.plln.setWidth 32,ctrl.pllod0.setWidth 32,ctrl.pllod1.setWidth 32,
    if pll.isNone then 0 else 1⟩

/-! ### `pllsetting.c` -/

inductive PllReg
  | CPM_CPAPCR
  | CPM_CPMPCR
  | CPM_CPEPCR
deriving DecidableEq

def PllRegValues.pack (v : PllRegValues) : Word :=
  v.EN <<< 0 ||| v.M <<< 20 ||| v.N <<< 14 ||| v.OD1 <<< 11 ||| v.OD0 <<< 8

/-- Switches the PLL off and programs it. The wait for the lock bit changes nothing here. -/
def pll_set (header : PllReg → PllRegValues) (cpm : PllReg → Word) (reg : PllReg) : PllReg → Word :=
  let cpm := Function.update cpm reg (cpm reg &&& ~~~1)
  Function.update cpm reg (header reg).pack

def setIfEnabled (header : PllReg → PllRegValues) (cpm : PllReg → Word) (reg : PllReg) : PllReg → Word :=
  if (header reg).EN ≠ 0 then pll_set header cpm reg else cpm

def pll_sets (header : PllReg → PllRegValues) (cpm : PllReg → Word) : PllReg → Word :=
  [PllReg.CPM_CPAPCR,.CPM_CPMPCR,.CPM_CPEPCR].foldl (setIfEnabled header) cpm

/-! ### `clk.c` -/

/-- The clock ids that `pll_get_rate` tells apart. -/
inductive PllId
  | APLL
  | MPLL
  | EPLL
  | other

def PllId.reg : PllId → Option PllReg
  | .APLL => some .CPM_CPAPCR
  | .MPLL => some .CPM_CPMPCR
  | .EPLL => some .CPM_CPEPCR
  | .other => none

/-- The rate of a register word, with a crystal of `CONFIG_SYS_EXTAL` Hz. -/
def wordRate (extal cpxpcr : Word) : Word :=
  let m := (cpxpcr >>> 20) &&& 0xfff
  let n := (cpxpcr >>> 14) &&& 0x3f
  let od1 := (cpxpcr >>> 11) &&& 0x7
  let od0 := (cpxpcr >>> 8) &&& 0x7
  let rate := extal / 1000 / 1000
  let rate := rate * m / n / (od1 * od0)
  rate * 1000 * 1000

def pll_get_rate (extal : Word) (cpm : PllReg → Word) (pll : PllId) : Word :=
  match pll.reg with
  | some reg => wordRate extal (cpm reg)
  | none => 0

/-! ### The search -/

/-- The divisibility and VCO constraints on feedback divider `m`, reference divider `n` and
    output divider `od1`, for clocks in MHz. -/
def Suitable (fin fout n m od1 : Nat) : Prop :=
  n ∣ fin ∧ fin / n * m = fout * od1 ∧ 600 ≤ fout * od1 ∧ fout * od1 ≤ 2400

/-- The bounds on `fref` that the code checks besides follow from the others. -/
theorem Suitable.fref {fin fout n m od1 : Nat} (suits : Suitable fin fout n m od1) (large : 16 ≤ m) :
    1 ≤ fin / n ∧ fin / n ≤ 1200 := by
  obtain ⟨-,vco,low,high⟩ := suits
  constructor
  · by_contra zero
    have none : fin / n = 0 := Nat.lt_one_iff.mp (not_le.mp zero)
    rw [none] at vco
    omega
  · have : fin / n * 16 ≤ fin / n * m := Nat.mul_le_mul_left _ large
    omega

theorem tryParams_some_iff {fin fout n m od1 : Nat} (large : 16 ≤ m) {p : PllControl} :
    tryParams fin fout n m od1 = some p ↔
      Suitable fin fout n m od1 ∧ p = ⟨.ofNat 12 m,.ofNat 6 n,.ofNat 3 od1,.ofNat 3 1⟩ := by
  simp only [tryParams,Nat.one_mul]
  constructor
  · intro found
    split_ifs at found with refTest vcoTest
    simp only [not_or,not_not,not_lt] at refTest vcoTest
    exact ⟨⟨Nat.dvd_of_mod_eq_zero refTest.1,vcoTest.1,vcoTest.2.1,vcoTest.2.2⟩,by simpa using found.symm⟩
  rintro ⟨suits,rfl⟩
  have bounds := suits.fref large
  obtain ⟨divides,vco,low,high⟩ := suits
  rw [if_neg (by omega),if_neg (by omega)]

theorem tryParams_none_iff {fin fout n m od1 : Nat} (large : 16 ≤ m) :
    tryParams fin fout n m od1 = none ↔ ¬ Suitable fin fout n m od1 := by
  rw [Option.eq_none_iff_forall_ne_some]
  simp only [ne_eq,tryParams_some_iff large,not_and]
  exact ⟨fun none suits => none _ suits rfl,fun unsuited _ suits => absurd suits unsuited⟩

/-- What the search stores satisfies the constraints, and no field of the structure cuts it off. -/
theorem gen_some {extern_clk pll_out_clk : Word} {p : PllControl}
    (found : gen_pll_regester_nfro extern_clk pll_out_clk = some p) :
    Suitable (extern_clk.toNat / 1000000) (pll_out_clk.toNat / 1000000) p.plln.toNat p.pllm.toNat p.pllod1.toNat ∧
      (16 ≤ p.pllm.toNat ∧ p.pllm.toNat < 2048) ∧ (1 ≤ p.plln.toNat ∧ p.plln.toNat < 64) ∧
      (1 ≤ p.pllod1.toNat ∧ p.pllod1.toNat < 8) ∧ p.pllod0.toNat = 1 := by
  obtain ⟨n,nRange,found⟩ := List.exists_of_findSome?_eq_some found
  obtain ⟨m,mRange,found⟩ := List.exists_of_findSome?_eq_some found
  obtain ⟨od1,odRange,found⟩ := List.exists_of_findSome?_eq_some found
  simp only [List.mem_range'_1] at nRange mRange odRange
  obtain ⟨suits,rfl⟩ := (tryParams_some_iff mRange.1).mp found
  have mSame : m % 2 ^ 12 = m := Nat.mod_eq_of_lt (by omega)
  have nSame : n % 2 ^ 6 = n := Nat.mod_eq_of_lt (by omega)
  have odSame : od1 % 2 ^ 3 = od1 := Nat.mod_eq_of_lt (by omega)
  simp only [BitVec.toNat_ofNat,mSame,nSame,odSame]
  exact ⟨suits,by omega,by omega,by omega,by decide⟩

theorem gen_none {extern_clk pll_out_clk : Word} (failed : gen_pll_regester_nfro extern_clk pll_out_clk = none)
    {m n od1 : Nat} (mRange : 16 ≤ m ∧ m ≤ 2047) (nRange : 1 ≤ n ∧ n ≤ 63) (odRange : 1 ≤ od1 ∧ od1 ≤ 7) :
    ¬ Suitable (extern_clk.toNat / 1000000) (pll_out_clk.toNat / 1000000) n m od1 := by
  rw [gen_pll_regester_nfro] at failed
  simp only [List.findSome?_eq_none_iff,List.mem_range'_1] at failed
  exact (tryParams_none_iff mRange.1).mp (failed n (by omega) m (by omega) od1 (by omega))

/-! ### The register word -/

def PllControl.word (p : PllControl) : Word :=
  PllRegValues.pack ⟨p.pllm.setWidth 32,p.plln.setWidth 32,p.pllod0.setWidth 32,p.pllod1.setWidth 32,1⟩

theorem or_eq_add {a b k : Nat} (high : 2 ^ k ∣ a) (low : b < 2 ^ k) : a ||| b = a + b := by
  obtain ⟨c,rfl⟩ := high
  exact (Nat.two_pow_add_eq_or_of_lt low c).symm

theorem word_toNat (p : PllControl) :
    p.word.toNat = p.pllm.toNat * 2 ^ 20 + p.plln.toNat * 2 ^ 14 + p.pllod1.toNat * 2 ^ 11 + p.pllod0.toNat * 2 ^ 8 + 1 := by
  have ordered : p.word = p.pllm.setWidth 32 <<< 20 ||| p.plln.setWidth 32 <<< 14 ||| p.pllod1.setWidth 32 <<< 11 |||
      p.pllod0.setWidth 32 <<< 8 ||| (1 : Word) <<< 0 := by
    dsimp only [PllControl.word,PllRegValues.pack]
    rw [BitVec.or_assoc,BitVec.or_assoc,BitVec.or_assoc,BitVec.or_comm,← BitVec.or_assoc,← BitVec.or_assoc]
  have shifted : ∀ {w : Nat} (v : BitVec w) (k : Nat), v.toNat * 2 ^ k < 2 ^ 32 →
      (v.setWidth 32 <<< k).toNat = v.toNat * 2 ^ k := by
    intro w v k fits
    have small : v.toNat < 2 ^ 32 := lt_of_le_of_lt (Nat.le_mul_of_pos_right _ (Nat.two_pow_pos k)) fits
    rw [BitVec.toNat_shiftLeft,BitVec.toNat_setWidth,Nat.mod_eq_of_lt small,Nat.shiftLeft_eq,Nat.mod_eq_of_lt fits]
  have one : ((1 : Word) <<< 0).toNat = 1 := rfl
  have withN : p.pllm.toNat * 2 ^ 20 ||| p.plln.toNat * 2 ^ 14 = p.pllm.toNat * 2 ^ 20 + p.plln.toNat * 2 ^ 14 :=
    @or_eq_add _ _ 20 (by omega) (by omega)
  have withOd1 := @or_eq_add (p.pllm.toNat * 2 ^ 20 + p.plln.toNat * 2 ^ 14) (p.pllod1.toNat * 2 ^ 11) 14
    (by omega) (by omega)
  have withOd0 := @or_eq_add (p.pllm.toNat * 2 ^ 20 + p.plln.toNat * 2 ^ 14 + p.pllod1.toNat * 2 ^ 11)
    (p.pllod0.toNat * 2 ^ 8) 11 (by omega) (by omega)
  have withEn := @or_eq_add (p.pllm.toNat * 2 ^ 20 + p.plln.toNat * 2 ^ 14 + p.pllod1.toNat * 2 ^ 11 +
    p.pllod0.toNat * 2 ^ 8) 1 8 (by omega) (by omega)
  rw [ordered,BitVec.toNat_or,BitVec.toNat_or,BitVec.toNat_or,BitVec.toNat_or,shifted _ 20 (by omega),
    shifted _ 14 (by omega),shifted _ 11 (by omega),shifted _ 8 (by omega),one,withN,withOd1,withOd0,withEn]

theorem field_toNat (w : Word) (shift width : Nat) (mask : Word) (ones : mask.toNat = 2 ^ width - 1) :
    ((w >>> shift) &&& mask).toNat = w.toNat / 2 ^ shift % 2 ^ width := by
  rw [BitVec.toNat_and,ones,BitVec.toNat_ushiftRight,Nat.and_two_pow_sub_one_eq_mod,Nat.shiftRight_eq_div_pow]

theorem word_fields (p : PllControl) :
    (p.word >>> 20) &&& 0xfff = p.pllm.setWidth 32 ∧ (p.word >>> 14) &&& 0x3f = p.plln.setWidth 32 ∧
    (p.word >>> 11) &&& 0x7 = p.pllod1.setWidth 32 ∧ (p.word >>> 8) &&& 0x7 = p.pllod0.setWidth 32 := by
  have whole := word_toNat p
  refine ⟨?_,?_,?_,?_⟩
  · apply BitVec.eq_of_toNat_eq
    rw [field_toNat _ 20 12 _ rfl,BitVec.toNat_setWidth]
    omega
  · apply BitVec.eq_of_toNat_eq
    rw [field_toNat _ 14 6 _ rfl,BitVec.toNat_setWidth]
    omega
  · apply BitVec.eq_of_toNat_eq
    rw [field_toNat _ 11 3 _ rfl,BitVec.toNat_setWidth]
    omega
  apply BitVec.eq_of_toNat_eq
  rw [field_toNat _ 8 3 _ rfl,BitVec.toNat_setWidth]
  omega

theorem pll_set_word {header : PllReg → PllRegValues} {reg : PllReg} {extern_clk pll_out_clk : Word}
    {uninit p : PllControl} (printed : header reg = pllRegValues extern_clk pll_out_clk uninit)
    (found : gen_pll_regester_nfro extern_clk pll_out_clk = some p) (cpm : PllReg → Word) :
    pll_set header cpm reg reg = p.word := by
  simp [pll_set,printed,pllRegValues,found,PllControl.word]

theorem rate_exact {fin fout n m od1 : Nat} (suits : Suitable fin fout n m od1) (nPos : 1 ≤ n) (odPos : 1 ≤ od1) :
    fin * m / n / od1 = fout := by
  obtain ⟨⟨fref,rfl⟩,vco,-,-⟩ := suits
  rw [Nat.mul_div_cancel_left _ nPos] at vco
  rw [Nat.mul_assoc,Nat.mul_div_cancel_left _ nPos,vco,Nat.mul_div_cancel _ odPos]

theorem wordRate_word {extern_clk pll_out_clk : Word} {p : PllControl}
    (found : gen_pll_regester_nfro extern_clk pll_out_clk = some p) :
    (wordRate extern_clk p.word).toNat = pll_out_clk.toNat / 1000000 * 1000000 := by
  obtain ⟨suits,mRange,nRange,odRange,od0⟩ := gen_some found
  obtain ⟨readM,readN,readOd1,readOd0⟩ := word_fields p
  have exactly := rate_exact suits nRange.1 odRange.1
  have thousand : (1000 : Word).toNat = 1000 := rfl
  have split : extern_clk.toNat / 1000 / 1000 = extern_clk.toNat / 1000000 := Nat.div_div_eq_div_mul _ _ _
  -- the only product before the divisions is below 4295 * 2048
  have product : extern_clk.toNat / 1000000 * p.pllm.toNat ≤ 4294 * 2047 :=
    Nat.mul_le_mul (by omega) (by omega)
  have mWord : p.pllm.toNat % 2 ^ 32 = p.pllm.toNat := Nat.mod_eq_of_lt (by omega)
  have nWord : p.plln.toNat % 2 ^ 32 = p.plln.toNat := Nat.mod_eq_of_lt (by omega)
  have divisor : p.pllod1.toNat % 2 ^ 32 * (1 % 2 ^ 32) % 2 ^ 32 = p.pllod1.toNat := by omega
  simp only [wordRate,readM,readN,readOd1,readOd0,BitVec.toNat_mul,BitVec.toNat_udiv,BitVec.toNat_setWidth,
    thousand,od0,mWord,nWord,divisor,split]
  rw [Nat.mod_eq_of_lt (by omega : extern_clk.toNat / 1000000 * p.pllm.toNat < 2 ^ 32)]
  omega

theorem setIfEnabled_other {header : PllReg → PllRegValues} {cpm : PllReg → Word} {reg other : PllReg}
    (differ : other ≠ reg) : setIfEnabled header cpm reg other = cpm other := by
  simp only [setIfEnabled,pll_set]
  split_ifs
  · rw [Function.update_of_ne differ,Function.update_of_ne differ]
  · rfl

/-- After `pll_sets` every PLL the search found parameters for runs at the rate asked for. -/
theorem pll_sets_rate {header : PllReg → PllRegValues} {extal : Word} {freq : PllReg → Word}
    {uninit : PllReg → PllControl} (printed : ∀ reg, header reg = pllRegValues extal (freq reg) (uninit reg))
    {pll : PllId} {reg : PllReg} (ofPll : pll.reg = some reg) {p : PllControl}
    (found : gen_pll_regester_nfro extal (freq reg) = some p) (cpm : PllReg → Word) :
    (pll_get_rate extal (pll_sets header cpm) pll).toNat = (freq reg).toNat / 1000000 * 1000000 := by
  have enabled : (header reg).EN ≠ 0 := by simp [printed,pllRegValues,found]
  have here : ∀ cpm, setIfEnabled header cpm reg reg = p.word := by
    intro cpm
    rw [setIfEnabled,if_pos enabled,pll_set_word (printed reg) found]
  have word : pll_sets header cpm reg = p.word := by
    simp only [pll_sets,List.foldl]
    -- the registers programmed after this one leave it alone
    cases reg with
    | CPM_CPAPCR => rw [setIfEnabled_other (by decide),setIfEnabled_other (by decide),here]
    | CPM_CPMPCR => rw [setIfEnabled_other (by decide),here]
    | CPM_CPEPCR => rw [here]
  simp only [pll_get_rate,ofPll,word]
  exact wordRate_word found

theorem apll_set_to_1104_MHz : (pll_get_rate 24000000 (pll_sets (fun _ => pllRegValues 24000000 1104000000 ⟨0,0,0,0⟩)
    fun _ => 0) .APLL).toNat = 1104000000 :=
  @pll_sets_rate _ _ (fun _ => 1104000000) (fun _ => ⟨0,0,0,0⟩) (fun _ => rfl) .APLL _ rfl ⟨46,1,1,1⟩ (by decide +kernel) _

/-- The parameters of every PLL the search succeeds for fit their fields and give the rate back that
    was asked for, in whole MHz; where the search fails there are no parameters. -/
theorem pll_parameters_round_trip (extern_clk pll_out_clk : Word) :
    (∀ p, gen_pll_regester_nfro extern_clk pll_out_clk = some p →
      (Suitable (extern_clk.toNat / 1000000) (pll_out_clk.toNat / 1000000) p.plln.toNat p.pllm.toNat p.pllod1.toNat ∧
        (16 ≤ p.pllm.toNat ∧ p.pllm.toNat < 2048) ∧ (1 ≤ p.plln.toNat ∧ p.plln.toNat < 64) ∧
        (1 ≤ p.pllod1.toNat ∧ p.pllod1.toNat < 8) ∧ p.pllod0.toNat = 1) ∧
      ∀ (uninit : PllControl) (header : PllReg → PllRegValues) (cpm : PllReg → Word) (pll : PllId) (reg : PllReg),
        pll.reg = some reg → header reg = pllRegValues extern_clk pll_out_clk uninit →
          ((pll_set header cpm reg reg >>> 20) &&& 0xfff = p.pllm.setWidth 32 ∧
            (pll_set header cpm reg reg >>> 14) &&& 0x3f = p.plln.setWidth 32 ∧
            (pll_set header cpm reg reg >>> 11) &&& 0x7 = p.pllod1.setWidth 32 ∧
            (pll_set header cpm reg reg >>> 8) &&& 0x7 = p.pllod0.setWidth 32) ∧
          (pll_get_rate extern_clk (pll_set header cpm reg) pll).toNat = pll_out_clk.toNat / 1000000 * 1000000) ∧
    (gen_pll_regester_nfro extern_clk pll_out_clk = none →
      ∀ m n od1, 16 ≤ m ∧ m ≤ 2047 → 1 ≤ n ∧ n ≤ 63 → 1 ≤ od1 ∧ od1 ≤ 7 →
        ¬ Suitable (extern_clk.toNat / 1000000) (pll_out_clk.toNat / 1000000) n m od1) := by
  refine ⟨?_,fun failed m n od1 mRange nRange odRange => gen_none failed mRange nRange odRange⟩
  intro p found
  refine ⟨gen_some found,?_⟩
  intro uninit header cpm pll reg ofPll printed
  rw [pll_set_word printed found]
  refine ⟨word_fields p,?_⟩
  simp only [pll_get_rate,ofPll,pll_set_word printed found]
  exact wordRate_word found

/-- 1104 MHz from a crystal of 24 MHz: 24 * 46. -/
theorem parameters_of_1104_MHz :
    gen_pll_regester_nfro 24000000 1104000000 = some ⟨46,1,1,1⟩ ∧
      ∀ cpm, (pll_get_rate 24000000
        (pll_set (fun _ => pllRegValues 24000000 1104000000 ⟨0,0,0,0⟩) cpm .CPM_CPAPCR) .APLL).toNat = 1104000000 := by
  have found : gen_pll_regester_nfro 24000000 1104000000 = some ⟨46,1,1,1⟩ := by decide +kernel
  have all := (pll_parameters_round_trip 24000000 1104000000).1 _ found
  refine ⟨found,fun cpm => ?_⟩
  exact (all.2 ⟨0,0,0,0⟩ _ cpm .APLL .CPM_CPAPCR rfl rfl).2

end UBoot.Pll
