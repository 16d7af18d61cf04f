import UBoot.Montgomery
import UBoot.Rsa

/-!
`pow_mod` computes the power with the exponent 65537 exactly, for every modulus whose top bit is set,
unless the last product is the modulus itself (`pow_mod_exact_iff`).
-/
namespace UBoot.RsaPow
open List Memory Montgomery Rsa

variable {key : PublicKey} {b result : List (BitVec 32)} {y : Nat}

/-! ### Subtraction -/

theorem subtract_word {acc : BitVec 64} (n m : BitVec 32) (borrow : acc.toInt = 0 ∨ acc.toInt = -1) :
    let acc' := acc + (n.setWidth 64 - m.setWidth 64)
    ((acc'.setWidth 32).toNat : Int) + 2 ^ 32 * (acc'.sshiftRight 32).toInt = acc.toInt + n.toNat - m.toNat ∧
    ((acc'.sshiftRight 32).toInt = 0 ∨ (acc'.sshiftRight 32).toInt = -1) := by
  intro acc'
  have exact_ : acc'.toInt = acc.toInt + n.toNat - m.toNat := by
    have split := BitVec.toInt_eq_toNat_cond acc
    have split' := BitVec.toInt_eq_toNat_cond acc'
    have sum : acc'.toNat = (acc.toNat + (2 ^ 64 - m.toNat + n.toNat) % 2 ^ 64) % 2 ^ 64 := by
      simp only [acc',BitVec.toNat_add,BitVec.toNat_sub,BitVec.toNat_setWidth]
      omega
    split_ifs at split split' <;> omega
  have word : ((acc'.setWidth 32).toNat : Int) = acc'.toInt % 2 ^ 32 := by
    have split := BitVec.toInt_eq_toNat_cond acc'
    rw [BitVec.toNat_setWidth]
    split_ifs at split <;> omega
  have shift : (acc'.sshiftRight 32).toInt = acc'.toInt / 2 ^ 32 := by
    rw [BitVec.toInt_sshiftRight,Int.shiftRight_eq_div_pow]
    rfl
  omega

theorem subtractLoop_value {num modulus : List (BitVec 32)} (same : num.length = modulus.length) {acc : BitVec 64}
    (borrow : acc.toInt = 0 ∨ acc.toInt = -1) :
    (subtractLoop acc num modulus).length = num.length ∧ ∃ c : Int, (c = 0 ∨ c = 1) ∧
      (value (subtractLoop acc num modulus) : Int) = acc.toInt + value num - value modulus + c * 2 ^ (32*num.length) := by
  induction num generalizing modulus acc with
  | nil =>
    obtain rfl := length_eq_zero_iff.mp same.symm
    refine ⟨rfl,-acc.toInt,by omega,?_⟩
    simp [subtractLoop]
  | cons n num ih =>
    cases modulus with
    | nil => simp at same
    | cons m modulus =>
      obtain ⟨word,next⟩ := subtract_word n m borrow
      obtain ⟨length,c,bit,rest⟩ := ih (Nat.succ.inj same) next
      simp only [subtractLoop]
      refine ⟨by rw [length_cons,length_cons,length],c,bit,?_⟩
      simp only [value_cons,length_cons,Nat.mul_succ,Nat.cast_add,Nat.cast_mul,Nat.cast_pow,Nat.cast_ofNat]
      rw [rest]
      linear_combination word

theorem subtract_length {num : List (BitVec 32)} (length : num.length = key.len) :
    (subtract_modulus key num).length = key.len := by
  have := (@subtractLoop_value num key.modulus (length.trans key.modulus_length.symm) 0 (.inl rfl)).1
  exact this.trans length

/-- A number that is at most the modulus too large, perhaps with a bit above the top word. -/
theorem subtract_value {num : List (BitVec 32)} {t : Nat} (length : num.length = key.len)
    (total : t = value num ∨ t = value num + 2 ^ (32*key.len)) (enough : value key.modulus ≤ t)
    (small : t - value key.modulus < 2 ^ (32*key.len)) : value (subtract_modulus key num) = t - value key.modulus := by
  obtain ⟨-,c,bit,sum⟩ := @subtractLoop_value num key.modulus (length.trans key.modulus_length.symm) 0 (.inl rfl)
  have words := value_lt (subtract_modulus key num)
  rw [subtract_length length] at words
  have zero : (0 : BitVec 64).toInt = 0 := rfl
  rw [length] at sum
  rw [subtract_modulus] at words ⊢
  have cast : ((2 ^ (32*key.len) : Nat) : Int) = 2 ^ (32*key.len) := by norm_cast
  rcases bit with rfl | rfl <;> omega

/-! ### Comparison -/

theorem compareLoop_eq {num modulus : List (BitVec 32)} {n : Nat} (insideN : n ≤ num.length) (insideM : n ≤ modulus.length) :
    compareLoop num modulus n = if value (num.take n) = value (modulus.take n) then none
      else some (decide (value (modulus.take n) < value (num.take n))) := by
  induction n with
  | zero => simp [compareLoop]
  | succ i ih =>
    rw [compareLoop,getElem?_eq_getElem (by omega),getElem?_eq_getElem (by omega)]
    simp only
    split_ifs with less same greater same same
    · have := value_lt_of_top (by omega) (by omega) less
      omega
    · have := value_lt_of_top (by omega) (by omega) less
      rw [decide_eq_false (by omega)]
    · have := value_lt_of_top (by omega) (by omega) greater
      omega
    · have := value_lt_of_top (by omega) (by omega) greater
      rw [decide_eq_true this]
    all_goals
      have equal : num[i] = modulus[i] := by
        apply BitVec.eq_of_toNat_eq
        rw [BitVec.lt_def] at less greater
        omega
      rw [value_take_succ (by omega),value_take_succ (by omega),equal] at same
      rw [ih (by omega) (by omega)]
    · rw [if_pos (by omega)]
    · rw [if_neg (by omega),value_take_succ (by omega),value_take_succ (by omega),equal]
      simp

/-! ### Rows -/

theorem mul_add_toNat (c : BitVec 64) (a b r : BitVec 32) :
    ((c >>> 32) + a.setWidth 64 * b.setWidth 64 + r.setWidth 64).toNat = (c >>> 32).toNat + a.toNat * b.toNat + r.toNat := by
  have high : (c >>> 32).toNat < 2 ^ 32 := by
    rw [BitVec.toNat_ushiftRight]
    omega
  have product : a.toNat * b.toNat ≤ (2 ^ 32 - 1) * (2 ^ 32 - 1) :=
    Nat.mul_le_mul (Nat.le_sub_one_of_lt a.isLt) (Nat.le_sub_one_of_lt b.isLt)
  rw [BitVec.toNat_add,BitVec.toNat_add,BitVec.toNat_mul,BitVec.toNat_setWidth,BitVec.toNat_setWidth,BitVec.toNat_setWidth,
    Nat.mod_eq_of_lt (show a.toNat < 2 ^ 64 by omega),Nat.mod_eq_of_lt (show b.toNat < 2 ^ 64 by omega)]
  omega

theorem mul_add_first (a b r : BitVec 32) :
    (a.setWidth 64 * b.setWidth 64 + r.setWidth 64).toNat = a.toNat * b.toNat + r.toNat := by
  have sum := mul_add_toNat 0 a b r
  have zero : (0 : BitVec 64) >>> 32 = 0#64 := rfl
  rwa [zero,BitVec.zero_add,BitVec.toNat_zero,Nat.zero_add] at sum

theorem word_split (c : BitVec 64) : (c.setWidth 32).toNat + 2 ^ 32 * (c >>> 32).toNat = c.toNat := by
  rw [BitVec.toNat_setWidth,BitVec.toNat_ushiftRight]
  omega

/-- The words of a row: their value, with the last carry on top, is the sum of the carries and the three
    rows of words. -/
theorem mulAddLoop_value {a d0 : BitVec 32} {bs rs ms : List (BitVec 32)} (sameR : rs.length = bs.length)
    (sameM : ms.length = bs.length) (acc_a acc_b : BitVec 64) :
    (mulAddLoop a d0 acc_a acc_b bs rs ms).1.length = bs.length + 1 ∧
    value (mulAddLoop a d0 acc_a acc_b bs rs ms).1 +
        2 ^ (32 * (bs.length+1)) * ((mulAddLoop a d0 acc_a acc_b bs rs ms).2 >>> 32).toNat =
      (acc_a >>> 32).toNat + (acc_b >>> 32).toNat + value rs + a.toNat * value bs + d0.toNat * value ms := by
  induction bs generalizing rs ms acc_a acc_b with
  | nil =>
    obtain rfl := length_eq_zero_iff.mp sameR
    obtain rfl := length_eq_zero_iff.mp sameM
    have sum : ((acc_a >>> 32) + (acc_b >>> 32)).toNat = (acc_a >>> 32).toNat + (acc_b >>> 32).toNat := by
      rw [BitVec.toNat_add,BitVec.toNat_ushiftRight,BitVec.toNat_ushiftRight]
      omega
    have split := word_split ((acc_a >>> 32) + (acc_b >>> 32))
    refine ⟨rfl,?_⟩
    simp only [mulAddLoop,value_cons,value_nil,length_nil]
    omega
  | cons b bs ih =>
    cases rs with
    | nil => simp at sameR
    | cons r rs =>
      cases ms with
      | nil => simp at sameM
      | cons m ms =>
        simp only [mulAddLoop]
        have firstSum := mul_add_toNat acc_a a b r
        generalize (acc_a >>> 32) + a.setWidth 64 * b.setWidth 64 + r.setWidth 64 = next_a at *
        have secondSum := mul_add_toNat acc_b d0 m (next_a.setWidth 32)
        generalize (acc_b >>> 32) + d0.setWidth 64 * m.setWidth 64 + (next_a.setWidth 32).setWidth 64 = next_b at *
        obtain ⟨length,rest⟩ := ih (Nat.succ.inj sameR) (Nat.succ.inj sameM) next_a next_b
        have splitA := word_split next_a
        have splitB := word_split next_b
        refine ⟨by rw [length_cons,length,length_cons],?_⟩
        rw [value_cons,value_cons,value_cons,value_cons,length_cons]
        have scaled := congrArg (2 ^ 32 * ·) rest
        linear_combination scaled + splitB + secondSum + splitA + firstSum

/-! ### Products -/

/-- A key as the specification has it: an odd modulus with its top bit set, `n0inv = -N⁻¹` modulo a word, and
    `rr` the square of `2 ^ (32 * len)`. -/
structure Valid (key : PublicKey) : Prop where
  words : 1 ≤ key.len
  max : key.len ≤ RSA_MAX_KEY_BITS / 32
  odd : value key.modulus % 2 = 1
  top : 2 ^ (32 * key.len - 1) ≤ value key.modulus
  inverse : (key.n0inv.toNat * value key.modulus + 1) % 2 ^ 32 = 0
  square : value key.rr = 2 ^ (64 * key.len) % value key.modulus

theorem modulus_lt (key : PublicKey) : value key.modulus < 2 ^ (32*key.len) := by
  have := value_lt key.modulus
  rwa [key.modulus_length] at this

theorem Valid.lt_double (valid : Valid key) : 2 ^ (32*key.len) ≤ 2 * value key.modulus := by
  have split : 2 ^ (32*key.len) = 2 * 2 ^ (32 * key.len - 1) := by
    rw [← Nat.pow_succ',Nat.succ_eq_add_one,Nat.sub_add_cancel (by have := valid.words; omega)]
  have := valid.top
  omega

theorem cleared {low n0inv m0 : BitVec 32} (inverse : (n0inv.toNat * m0.toNat + 1) % 2 ^ 32 = 0) :
    ((low*n0inv).toNat * m0.toNat + low.toNat) % 2 ^ 32 = 0 := by
  have same : low.toNat * n0inv.toNat % 2 ^ 32 * m0.toNat + low.toNat ≡ 0 [MOD 2 ^ 32] := by
    calc low.toNat * n0inv.toNat % 2 ^ 32 * m0.toNat + low.toNat
        ≡ low.toNat * n0inv.toNat * m0.toNat + low.toNat [MOD 2 ^ 32] :=
          Nat.ModEq.add_right _ ((Nat.mod_modEq ..).mul_right _)
      _ = low.toNat * (n0inv.toNat * m0.toNat + 1) := by ring
      _ ≡ low.toNat * 0 [MOD 2 ^ 32] := Nat.ModEq.mul_left low.toNat (show _ ≡ 0 [MOD 2 ^ 32] from inverse)
  exact same

/-- What a step adds up before the last subtraction: a multiple of the modulus makes the sum divisible by
    `2 ^ 32`. -/
theorem step_total (valid : Valid key) (lengthR : result.length = key.len)
    (lengthB : b.length = key.len) (a : BitVec 32) :
    ∃ (words : List (BitVec 32)) (carry d0 : Nat), words.length = key.len ∧ d0 < 2 ^ 32 ∧
      montgomery_mul_add_step key result a b = (if carry ≠ 0 then subtract_modulus key words else words) ∧
      2 ^ 32 * (value words + 2 ^ (32*key.len) * carry) = value result + a.toNat * value b + d0 * value key.modulus := by
  have some := valid.words
  have lengthM := key.modulus_length
  have inverse := valid.inverse
  generalize modulus_eq : key.modulus = modulus at *
  cases b with
  | nil => simp at lengthB; omega
  | cons b0 bs =>
  cases result with
  | nil => simp at lengthR; omega
  | cons r0 rs =>
  cases modulus with
  | nil => simp at lengthM; omega
  | cons m0 ms =>
  simp only [montgomery_mul_add_step,modulus_eq]
  have first := mul_add_first a b0 r0
  generalize a.setWidth 64 * b0.setWidth 64 + r0.setWidth 64 = acc_a at *
  have low : (key.n0inv.toNat * m0.toNat + 1) % 2 ^ 32 = 0 := by
    rw [value_cons] at inverse
    have spread : key.n0inv.toNat * (m0.toNat + 2 ^ 32 * value ms) + 1 =
        key.n0inv.toNat * m0.toNat + 1 + 2 ^ 32 * (key.n0inv.toNat * value ms) := by ring
    rwa [spread,Nat.add_mul_mod_self_left] at inverse
  have clear := @cleared (acc_a.setWidth 32) _ _ low
  generalize acc_a.setWidth 32 * key.n0inv = d0 at *
  have second := mul_add_first d0 m0 (acc_a.setWidth 32)
  generalize d0.setWidth 64 * m0.setWidth 64 + (acc_a.setWidth 32).setWidth 64 = acc_b at *
  simp only [length_cons] at lengthB lengthR lengthM
  obtain ⟨length,total⟩ := @mulAddLoop_value a d0 bs rs ms (by omega) (by omega) acc_a acc_b
  rw [lengthB] at length total
  have splitA := word_split acc_a
  have splitB := word_split acc_b
  have zero : (acc_b.setWidth 32).toNat = 0 := by
    rw [BitVec.toNat_setWidth,second]
    exact clear
  refine ⟨_,((mulAddLoop a d0 acc_a acc_b bs rs ms).2 >>> 32).toNat,d0.toNat,length,d0.isLt,?_,?_⟩
  · congr 1
    rw [ne_eq,← BitVec.toNat_inj]
    rfl
  rw [total,value_cons,value_cons,value_cons]
  rw [zero] at splitB
  linear_combination splitB + second + splitA + first

theorem step_row (valid : Valid key) (lengthR : result.length = key.len)
    (lengthB : b.length = key.len) (a : BitVec 32) :
    (montgomery_mul_add_step key result a b).length = key.len ∧
    Row (value key.modulus) (2 ^ 32) (value b) (value result) a.toNat (value (montgomery_mul_add_step key result a b)) ∧
    (value (montgomery_mul_add_step key result a b) = 0 ↔ value result + a.toNat * value b = 0) := by
  obtain ⟨words,carry,d0,length,small,step,total⟩ := step_total valid lengthR lengthB a
  have below := modulus_lt key
  have lowR := value_lt result
  have lowB := value_lt b
  rw [lengthR] at lowR
  rw [lengthB] at lowB
  -- a multiple of the modulus below `2 ^ 32` times it is divisible by `2 ^ 32` only if it is 0
  have nothing : 2 ^ 32 ∣ d0 * value key.modulus → d0 = 0 := by
    intro divides
    have coprime : Nat.Coprime (2 ^ 32) (value key.modulus) :=
      Nat.Coprime.pow_left 32 (Nat.coprime_two_left.mpr (Nat.odd_iff.mpr valid.odd))
    exact Nat.eq_zero_of_dvd_of_lt (coprime.dvd_of_dvd_mul_right divides) small
  have bound : value words + 2 ^ (32*key.len) * carry < 2 ^ (32*key.len) + value key.modulus := by
    have product : a.toNat * value b ≤ (2 ^ 32 - 1) * (2 ^ (32*key.len) - 1) :=
      Nat.mul_le_mul (Nat.le_sub_one_of_lt a.isLt) (Nat.le_sub_one_of_lt lowB)
    have multiple : d0 * value key.modulus ≤ (2 ^ 32 - 1) * value key.modulus :=
      Nat.mul_le_mul_right _ (Nat.le_sub_one_of_lt small)
    omega
  rw [step]
  split_ifs with overflow
  · -- the bit above the top word is at most 1, and the sum is larger than the modulus
    have one : carry = 1 := by
      have : carry < 2 := by
        apply Nat.lt_of_mul_lt_mul_left (a := 2 ^ (32*key.len))
        omega
      omega
    subst one
    have next := subtract_value length (.inr rfl) (by omega) (by omega)
    refine ⟨subtract_length length,?_,?_⟩
    · rw [next]
      have equal : (value words + 2 ^ (32*key.len) - value key.modulus) * 2 ^ 32 + 2 ^ 32 * value key.modulus =
          value result + a.toNat * value b + d0 * value key.modulus := by omega
      have reduced := congrArg (· % value key.modulus) equal
      simp only [Nat.add_mul_mod_self_right] at reduced
      exact reduced
    refine ⟨fun none => by omega,fun none => ?_⟩
    have := nothing ⟨_,by rw [total,none,Nat.zero_add]⟩
    subst this
    omega
  have zero : carry = 0 := by omega
  subst zero
  rw [Nat.mul_zero,Nat.add_zero] at total
  refine ⟨length,?_,?_⟩
  · rw [Row,Nat.mul_comm,total]
    exact Nat.add_mul_mod_self_right ..
  refine ⟨fun none => by omega,fun none => ?_⟩
  have := nothing ⟨_,by rw [total,none,Nat.zero_add]⟩
  subst this
  omega

theorem Valid.coprime (valid : Valid key) : (value key.modulus).Coprime (2 ^ (32*key.len)) :=
  Nat.Coprime.pow_right _ (Nat.coprime_two_right.mpr (Nat.odd_iff.mpr valid.odd))

theorem montgomery_mul_product (valid : Valid key) {a : List (BitVec 32)} (lengthA : a.length = key.len)
    (lengthB : b.length = key.len) : (montgomery_mul key a b).length = key.len ∧
      Product (value key.modulus) (2 ^ (32*key.len)) (value a) (value b) (value (montgomery_mul key a b)) := by
  have row (s : List (BitVec 32)) (w : BitVec 32) (ok : s.length = key.len) := step_row valid ok lengthB w
  obtain ⟨product,length⟩ := rows_product (fun s w ok => ⟨(row s w ok).2.1,(row s w ok).1⟩) a
    (List.replicate key.len 0) length_replicate
  rw [value_zeros,Nat.zero_add,lengthA] at product
  exact ⟨length,product⟩

/-- Only a factor 0 leads to 0: a number that is congruent to 0 is otherwise the modulus. -/
theorem montgomery_mul_eq_zero (valid : Valid key) {a : List (BitVec 32)} (lengthB : b.length = key.len) :
    value (montgomery_mul key a b) = 0 ↔ value a * value b = 0 := by
  have rows : ∀ s : List (BitVec 32), s.length = key.len →
      (value (a.foldl (fun result a => montgomery_mul_add_step key result a b) s) = 0 ↔ value s + value a * value b = 0) := by
    induction a with
    | nil => simp
    | cons w a ih =>
      intro s length
      obtain ⟨next,-,zero⟩ := step_row valid length lengthB w
      rw [foldl_cons,ih _ next,value_cons,Nat.add_mul,Nat.mul_assoc]
      omega
  have all := rows (List.replicate key.len 0) length_replicate
  rwa [value_zeros,Nat.zero_add] at all

/-- The state of the exponentiation: a number that stands for `y`, and is 0 only if `zero` holds. -/
structure Holds (key : PublicKey) (y : Nat) (zero : Prop) (acc : List (BitVec 32)) : Prop where
  length : acc.length = key.len
  represents : Represents (value key.modulus) (2 ^ (32 * key.len)) y (value acc)
  zero_iff : value acc = 0 ↔ zero

theorem Holds.square (valid : Valid key) {zero : Prop} {acc : List (BitVec 32)}
    (holds : Holds key y zero acc) : Holds key (y*y) zero (montgomery_mul key acc acc) := by
  obtain ⟨length,product⟩ := montgomery_mul_product valid holds.length holds.length
  refine ⟨length,holds.represents.mul valid.coprime holds.represents product,?_⟩
  rw [montgomery_mul_eq_zero valid holds.length,mul_self_eq_zero,holds.zero_iff]

theorem squareLoop_holds (valid : Valid key) (i : Nat) {zero : Prop} {acc : List (BitVec 32)}
    (holds : Holds key y zero acc) : Holds key (y ^ 4 ^ i) zero (squareLoop key i acc) := by
  induction i generalizing y acc with
  | zero => simpa [squareLoop] using holds
  | succ i ih =>
    have fourth : (y * y * (y*y)) ^ 4 ^ i = y ^ 4 ^ (i+1) := by
      ring
    rw [← fourth]
    exact ih ((holds.square valid).square valid)

/-- The last product is the power up to a multiple of the modulus, and 0 only for 0. -/
theorem power_product (valid : Valid key) {val : List (BitVec 32)} (length : val.length = key.len) :
    let result := montgomery_mul key (squareLoop key 8 (montgomery_mul key val key.rr)) val
    result.length = key.len ∧ value result ≡ value val ^ (4 ^ 8 + 1) [MOD value key.modulus] ∧
      (value result = 0 ↔ value val = 0) := by
  have odd := Nat.odd_iff.mpr valid.odd
  have square : value key.rr ≡ (2 ^ (32*key.len)) ^ 2 [MOD value key.modulus] := by
    rw [valid.square,← pow_mul,Nat.mul_right_comm]
    exact Nat.mod_modEq ..
  have nonzero : value key.rr ≠ 0 := by
    intro zero
    have divides : value key.modulus ∣ 2 ^ (64*key.len) := Nat.dvd_of_mod_eq_zero (valid.square.symm.trans zero)
    have coprime : (value key.modulus).Coprime (2 ^ (64*key.len)) :=
      Nat.Coprime.pow_right _ (Nat.coprime_two_right.mpr odd)
    have one := coprime.eq_one_of_dvd divides
    have top := valid.top
    have large : 2 ^ 1 ≤ 2 ^ (32 * key.len - 1) := Nat.pow_le_pow_right (by omega) (by have := valid.words; omega)
    omega
  obtain ⟨lengthE,enter⟩ := montgomery_mul_product valid length key.rr_length
  have start : Holds key (value val) (value val = 0) (montgomery_mul key val key.rr) := by
    refine ⟨lengthE,enter.enter valid.coprime square,?_⟩
    rw [montgomery_mul_eq_zero valid key.rr_length,Nat.mul_eq_zero]
    exact ⟨fun either => either.resolve_right nonzero,.inl⟩
  have acc := squareLoop_holds valid 8 start
  obtain ⟨lengthL,leave⟩ := montgomery_mul_product valid acc.length length
  refine ⟨lengthL,?_,?_⟩
  · have power := acc.represents.leave valid.coprime leave
    rwa [← Nat.pow_succ] at power
  · rw [montgomery_mul_eq_zero valid length,Nat.mul_eq_zero,acc.zero_iff,or_self]

/-! ### Bytes -/

theorem toLe_add (m n x : Nat) : toLe (m+n) x = toLe m x ++ toLe n (x / 256 ^ m) := by
  induction m generalizing x with
  | zero => simp [toLe]
  | succ m ih => rw [Nat.succ_add,toLe,ih,toLe,cons_append,Nat.div_div_eq_div_mul,← Nat.pow_succ']

theorem toLe_mod {n x : Nat} (same : x % 256 ^ n = y % 256 ^ n) : toLe n x = toLe n y := by
  induction n generalizing x y with
  | zero => rfl
  | succ n ih =>
    rw [Nat.pow_succ',Nat.mod_mul,Nat.mod_mul] at same
    have low : x % 256 = y % 256 := by omega
    have high : x / 256 % 256 ^ n = y / 256 % 256 ^ n := by omega
    rw [toLe,ih high]
    congr 1
    rw [← UInt8.toNat_inj]
    exact low

theorem val_words (n x : Nat) :
    ((List.range n).map fun i => get_unaligned_be32 ((toLe (4*n) x).reverse.drop (4 * (n - 1 - i)))) = words 32 n x := by
  have word : ∀ i < n, get_unaligned_be32 ((toLe (4*n) x).reverse.drop (4 * (n - 1 - i))) = BitVec.ofNat 32 (x / 2 ^ (32*i)) := by
    intro i inside
    have split : toLe (4*n) x = toLe (4*i) x ++ (toLe 4 (x / 256 ^ (4*i)) ++ toLe (4 * (n - 1 - i)) (x / 256 ^ (4*i) / 256 ^ 4)) := by
      rw [← toLe_add,← toLe_add]
      congr 1
      omega
    rw [get_unaligned_be32,split,reverse_append,reverse_append,append_assoc,drop_left' (by simp),
      take_left' (by simp),reverse_reverse,ofLe_toLe]
    have power : 256 ^ (4*i) = 2 ^ (32*i) := by rw [show 256 = 2 ^ 8 by rfl,← pow_mul]; congr 1; omega
    apply BitVec.eq_of_toNat_eq
    rw [power,BitVec.toNat_ofNat,BitVec.toNat_ofNat,show 256 ^ 4 = 2 ^ 32 by rfl,Nat.mod_mod]
  rw [map_congr_left fun i inside => word i (mem_range.mp inside)]
  clear word
  induction n generalizing x with
  | zero => rfl
  | succ n ih =>
    rw [range_succ_eq_map,map_cons,map_map,words,← ih]
    refine congrArg₂ _ (by simp) (map_congr_left fun i _ => ?_)
    rw [Function.comp,Nat.div_div_eq_div_mul,← Nat.pow_add,Nat.mul_succ,Nat.add_comm]

theorem result_bytes (result : List (BitVec 32)) :
    result.reverse.flatMap put_unaligned_be32 = (toLe (4*result.length) (value result)).reverse := by
  induction result with
  | nil => rfl
  | cons c rest ih =>
    have first : toLe 4 (c.toNat + 2 ^ 32 * value rest) = toLe 4 c.toNat :=
      toLe_mod (by rw [show 256 ^ 4 = 2 ^ 32 by rfl,Nat.add_mul_mod_self_left])
    have high : (c.toNat + 2 ^ 32 * value rest) / 256 ^ 4 = value rest := by
      omega
    rw [reverse_cons,flatMap_append,ih,length_cons,Nat.mul_succ,Nat.add_comm (4*rest.length),value_cons,
      toLe_add,high,first]
    simp [put_unaligned_be32]

/-! ### The power -/

/-- Whatever the comparison finds, the value that comes out is below the modulus. -/
theorem reduce_value (valid : Valid key) (length : result.length = key.len) :
    greater_equal_modulus key result = (if value result = value key.modulus then none
      else some (decide (value key.modulus < value result))) ∧
    (value key.modulus < value result → (subtract_modulus key result).length = key.len ∧
      value (subtract_modulus key result) = value result % value key.modulus) := by
  have compare := @compareLoop_eq result key.modulus key.len (by omega) (by rw [key.modulus_length])
  rw [take_of_length_le (by omega),take_of_length_le (by rw [key.modulus_length])] at compare
  refine ⟨compare,fun larger => ⟨subtract_length length,?_⟩⟩
  have below := value_lt result
  rw [length] at below
  have double := valid.lt_double
  rw [subtract_value length (.inl rfl) larger.le (by omega),Nat.mod_eq_sub_mod larger.le,Nat.mod_eq_of_lt (by omega)]

/-- The power comes out, unless the last product is the modulus: for a value other than 0 whose power the modulus
    divides. -/
theorem pow_mod_exact_iff {key : PublicKey} (valid : Valid key) {x : Nat} (small : x < 2 ^ (32 * key.len)) :
    pow_mod key (toLe (4 * key.len) x).reverse = some (0,(toLe (4 * key.len) (x ^ 65537 % value key.modulus)).reverse) ↔
      x = 0 ∨ ¬ value key.modulus ∣ x ^ 65537 := by
  obtain ⟨length,power,zero⟩ := power_product valid (words_length (w := 32) key.len x)
  rw [value_words small] at power zero
  simp only [pow_mod,val_words,if_neg (Nat.not_lt.mpr valid.max)]
  generalize montgomery_mul key (squareLoop key 8 (montgomery_mul key (words 32 key.len x) key.rr)) (words 32 key.len x) = result at *
  generalize x ^ (4 ^ 8 + 1) = p at *
  obtain ⟨compare,subtract⟩ := reduce_value valid length
  have below := value_lt result
  rw [length] at below
  have double := valid.lt_double
  rw [compare]
  by_cases equal : value result = value key.modulus
  · -- the comparison runs out of the arrays
    have divides : value key.modulus ∣ p := by
      rw [equal] at power
      exact (Nat.modEq_zero_iff_dvd).mp (power.symm.trans (Nat.modEq_zero_iff_dvd.mpr dvd_rfl))
    rw [if_pos equal]
    simp only [reduceCtorEq,false_iff,not_or,not_not]
    exact ⟨fun none => by omega,divides⟩
  rw [if_neg equal]
  have same : value result % value key.modulus = p % value key.modulus := power
  refine iff_of_true ?_ ?_
  · simp only [Option.some.injEq,Prod.mk.injEq,true_and,decide_eq_true_eq]
    split_ifs with larger
    · rw [result_bytes,(subtract larger).1,(subtract larger).2,same]
    · rw [result_bytes,length,← same,Nat.mod_eq_of_lt (by omega)]
  rw [or_iff_not_imp_left]
  intro nonzero divides
  rw [Nat.mod_eq_zero_of_dvd divides] at same
  obtain ⟨q,multiple⟩ := Nat.dvd_of_mod_eq_zero same
  have fewer : q < 2 := by
    apply Nat.lt_of_mul_lt_mul_left (a := value key.modulus)
    omega
  obtain rfl | rfl : q = 0 ∨ q = 1 := by omega
  · exact nonzero (zero.mp multiple)
  · exact equal (multiple.trans (Nat.mul_one _))

/-- A key of one word: the modulus is `2 ^ 31 + 1`, a multiple of 3. -/
def smallKey : PublicKey where
  len := 1
  n0inv := 0x7fffffff
  modulus := [0x80000001]
  rr := [4]
  modulus_length := rfl
  rr_length := rfl

theorem smallKey_valid : Valid smallKey where
  words := le_refl 1
  max := by decide
  odd := rfl
  top := by decide
  inverse := rfl
  square := by decide +kernel

theorem two_power : pow_mod smallKey [0,0,0,2] = some (0,[0,0,0,8]) := by
  have inside : (2 : Nat) < 2 ^ (32*smallKey.len) := by decide
  have remainder : 2 ^ 65537 % value smallKey.modulus = 8 := by decide +kernel
  have exact_ := (pow_mod_exact_iff smallKey_valid inside).mpr (.inr fun divides => by
    omega)
  rw [remainder] at exact_
  exact exact_

/-- The power of the modulus itself is 0; the last product is the modulus, and the comparison of equal numbers does
    not end inside of the arrays. -/
theorem modulus_compared_outside : Valid smallKey ∧ 0x80000001 < 2 ^ (32 * smallKey.len) ∧
    pow_mod smallKey (toLe (4 * smallKey.len) 0x80000001).reverse = none :=
  ⟨smallKey_valid,by decide,by decide +kernel⟩

end UBoot.RsaPow
