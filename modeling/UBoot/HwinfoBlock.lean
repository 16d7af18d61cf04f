import UBoot.Hwinfo

/-!
A slot that the host tool fills is read back by the boot loader exactly if the size starts with a digit,
and the other slots read as before exactly if the slots in front of it are read without reaching it
(`filled_slot_reads_back`).
-/
namespace UBoot.HwinfoBlock
open List CStrings CNumbers Memory Hwinfo

variable {file : List UInt8} {idx : Nat} {mask size content : CString} {rest : Nat → UInt8}

def loaded (rest : Nat → UInt8) (file : List UInt8) : Nat → UInt8 :=
  store rest HWINFO_VA_MEMORY_ADDR (file.take HWINFO_VA_MEMORY_SIZE)

section
variable {buf bytes : List UInt8} {i : Nat} (inside : i + bytes.length ≤ buf.length)
include inside

theorem overwrite_length : (overwrite buf i bytes).length = buf.length := by
  simp only [overwrite,length_append,length_take,length_drop]
  omega

theorem overwrite_getElem (d : Nat) : (overwrite buf i bytes)[d]? =
    if d < i then buf[d]? else if d < i + bytes.length then bytes[d-i]? else buf[d]? := by
  have front : (buf.take i).length = i := by
    rw [length_take]
    omega
  rw [overwrite,append_assoc]
  split_ifs with before within
  · rw [getElem?_append_left (by omega),getElem?_take_of_lt before]
  · rw [getElem?_append_right (by omega),getElem?_append_left (by omega),front]
  rw [getElem?_append_right (by omega),getElem?_append_right (by omega),getElem?_drop]
  congr 1
  omega

theorem loaded_overwrite (small : i + bytes.length ≤ HWINFO_VA_MEMORY_SIZE) :
    loaded rest (overwrite buf i bytes) = store (loaded rest buf) (HWINFO_VA_MEMORY_ADDR+i) bytes := by
  funext x
  simp only [loaded,store,getElem?_take,overwrite_getElem inside]
  generalize HWINFO_VA_MEMORY_SIZE = n at small
  generalize HWINFO_VA_MEMORY_ADDR = a
  by_cases image : a ≤ x
  · obtain ⟨d,rfl⟩ := Nat.exists_eq_add_of_le image
    simp only [Nat.add_sub_cancel_left,Nat.le_add_right,if_true,Nat.add_le_add_iff_left,Nat.add_sub_add_left]
    by_cases before : d < i
    · rw [if_pos before,if_neg (by omega : ¬ i ≤ d)]
    rw [if_neg before,if_pos (by omega : i ≤ d)]
    by_cases within : d < i + bytes.length
    · rw [if_pos within,if_pos (by omega : d < n),getElem?_eq_getElem (by omega)]
      rfl
    · rw [if_neg within,getElem?_eq_none (by omega : bytes.length ≤ d - i)]
      rfl
  · rw [if_neg image,if_neg image,if_neg (by omega)]
end

theorem slot_overwrite {buf bytes : List UInt8} {part : Nat} (slot : idx < HWINFO_BLOCK_MAX)
    (room : (idx+1) * HWINFO_BLOCK_LENS ≤ buf.length) (fits : part + bytes.length ≤ 128) :
    (overwrite buf (idx * HWINFO_BLOCK_LENS + part) bytes).length = buf.length ∧
      loaded rest (overwrite buf (idx * HWINFO_BLOCK_LENS + part) bytes) =
        store (loaded rest buf) (HWINFO_VA_MEMORY_ADDR + idx * 128 + part) bytes := by
  simp only [HWINFO_BLOCK_LENS,HWINFO_BLOCK_MAX] at slot room ⊢
  have inside : idx * 128 + part + bytes.length ≤ buf.length := by omega
  refine ⟨overwrite_length inside,?_⟩
  rw [Nat.add_assoc]
  exact loaded_overwrite inside (by rw [HWINFO_VA_MEMORY_SIZE]; omega)

/-! ### Filling a slot -/

def filled (file : List UInt8) (mask size content : CString) (idx : Nat) : List UInt8 :=
  let buf := overwrite file (idx * HWINFO_BLOCK_LENS + HWINFO_MASK1_SEEK) (terminated mask)
  let buf := overwrite buf (idx * HWINFO_BLOCK_LENS + HWINFO_SIZE_SEEK) (terminated size)
  let buf := overwrite buf (idx * HWINFO_BLOCK_LENS + HWINFO_CONTENT_SEEK) (content.bytes.take (atoi size.bytes).toNat)
  overwrite buf (idx * HWINFO_BLOCK_LENS + HWINFO_MASK2_SEEK) (terminated mask)

structure Accepts (file : List UInt8) (mask size content : CString) (idx : Nat) : Prop where
  given : mask.length ≠ 0 ∧ size.length ≠ 0 ∧ content.length ≠ 0
  bounded : atoi size.bytes ≤ HWINFO_CONTENT_LENS
  agrees : BitVec.ofNat 64 content.length = BitVec.ofInt 64 (atoi size.bytes)
  short : mask.length < HWINFO_MASK1_LENS ∧ size.length < HWINFO_SIZE_LENS
  slot : idx < HWINFO_BLOCK_MAX
  room : (idx + 1) * HWINFO_BLOCK_LENS ≤ file.length
  small : file.length ≤ HWINFO_FILE_MAX_SIZE

theorem hwinfo_block_fill_iff {file' : List UInt8} : hwinfo_block_fill file mask size content idx = (0,file') ↔
    Accepts file mask size content idx ∧ file' = filled file mask size content idx := by
  simp only [hwinfo_block_fill]
  constructor
  · intro done
    split_ifs at done with missing large differs long outside bad
    · simp at done
    · simp at done
    · simp at done
    · simp at done
    · simp at done
    · simp at done
    · push Not at missing differs
      refine ⟨⟨missing,by omega,differs,by omega,by omega,by omega,by omega⟩,(congrArg Prod.snd done).symm⟩
  rintro ⟨accepts,rfl⟩
  obtain ⟨given,bounded,agrees,short,slot,room,small⟩ := accepts
  rw [if_neg (by omega),if_neg (by omega),if_neg (not_not_intro agrees),if_neg (by omega),if_neg (by omega),
    if_neg (by omega)]
  rfl

theorem terminated_length {s : CString} {n : Nat} (short : s.length < n) : (terminated s).length ≤ n := by
  rw [terminated,length_append]
  exact short

theorem slot_address (slot : idx < HWINFO_BLOCK_MAX) : HWINFO_VA_MEMORY_ADDR + idx * 128 + 128 ≤ 2 ^ 32 := by
  simp only [HWINFO_BLOCK_MAX] at slot
  simp only [HWINFO_VA_MEMORY_ADDR]
  omega

theorem Accepts.copied_short (accepts : Accepts file mask size content idx) :
    (content.bytes.take (atoi size.bytes).toNat).length ≤ 100 := by
  have bounded := accepts.bounded
  simp only [HWINFO_CONTENT_LENS] at bounded
  rw [length_take]
  omega

theorem textAt_string {mem : Nat → UInt8} {a : Nat} {s : CString} (held : load mem a (terminated s).length = terminated s)
    (room : a + (terminated s).length ≤ 2 ^ 32) : ∃ more, textAt mem a = s.bytes ++ 0 :: more := by
  have split : 2 ^ 32 - a = (terminated s).length + (2 ^ 32 - a - (terminated s).length) := by omega
  rw [textAt,split,load_add,held,terminated,append_assoc]
  exact ⟨_,rfl⟩

theorem loaded_filled (accepts : Accepts file mask size content idx) :
    loaded rest (filled file mask size content idx) =
      store (store (store (store (loaded rest file) (HWINFO_VA_MEMORY_ADDR + idx * 128) (terminated mask))
        (HWINFO_VA_MEMORY_ADDR + idx * 128 + 10) (terminated size))
        (HWINFO_VA_MEMORY_ADDR + idx * 128 + 18) (content.bytes.take (atoi size.bytes).toNat))
        (HWINFO_VA_MEMORY_ADDR + idx * 128 + 118) (terminated mask) := by
  have slot := accepts.slot
  have room := accepts.room
  have mask_length : (terminated mask).length ≤ 10 := terminated_length accepts.short.1
  have size_length : (terminated size).length ≤ 8 := terminated_length accepts.short.2
  have content_length := accepts.copied_short
  simp only [filled,HWINFO_MASK1_SEEK,HWINFO_SIZE_SEEK,HWINFO_CONTENT_SEEK,HWINFO_MASK2_SEEK]
  obtain ⟨length1,mem1⟩ := @slot_overwrite idx rest file (terminated mask) 0 slot room (by omega)
  obtain ⟨length2,mem2⟩ := @slot_overwrite idx rest _ (terminated size) 10 slot (length1 ▸ room) (by omega)
  obtain ⟨length3,mem3⟩ := @slot_overwrite idx rest _ (content.bytes.take (atoi size.bytes).toNat) 18 slot
    (length2 ▸ length1 ▸ room) (by omega)
  obtain ⟨-,mem4⟩ := @slot_overwrite idx rest _ (terminated mask) 118 slot (length3 ▸ length2 ▸ length1 ▸ room) (by omega)
  rw [mem4,mem3,mem2,mem1,Nat.add_zero]

/-! ### The size of the content -/

theorem decimal_bound (text : List UInt8) (n : Nat) : decimal n text < (n+1) * 10 ^ text.length := by
  induction text generalizing n with
  | nil => simp [decimal]
  | cons c text ih =>
    rw [decimal]
    have positive : 0 < 10 ^ text.length := Nat.pow_pos (by decide)
    split_ifs with digit
    · have small : c.toNat - 48 < 10 := by
        simp only [isdigit,Bool.and_eq_true,decide_eq_true_eq,UInt8.le_iff_toNat_le] at digit
        have : (57 : UInt8).toNat = 57 := rfl
        omega
      calc decimal (10 * n + (c.toNat-48)) text
          < (10 * n + (c.toNat-48) + 1) * 10 ^ text.length := ih _
        _ ≤ ((n+1) * 10) * 10 ^ text.length := Nat.mul_le_mul_right _ (by omega)
        _ = (n+1) * (10 ^ text.length * 10) := by ring
    · calc n < (n+1) * 1 := by omega
        _ ≤ (n+1) * (10 ^ text.length * 10) := Nat.mul_le_mul_left _ (by omega)

theorem atoi_lower (text : List UInt8) : -(10 ^ text.length : Nat) ≤ atoi text := by
  have positive : 0 < 10 ^ text.length := Nat.pow_pos (by decide)
  rw [atoi]
  split
  · rename_i digits minus
    have shorter : digits.length ≤ text.length := by
      have := (@dropWhile_sublist _ text isspace).length_le
      rw [minus,length_cons] at this
      omega
    have bound := decimal_bound digits 0
    have grows : 10 ^ digits.length ≤ 10 ^ text.length := Nat.pow_le_pow_right (by decide) shorter
    omega
  · omega
  · omega

theorem Accepts.size_eq (accepts : Accepts file mask size content idx) (host : content.length < 2 ^ 63) :
    atoi size.bytes = content.length := by
  have lower := atoi_lower size.bytes
  have short : size.bytes.length < 8 := accepts.short.2
  have few : 10 ^ size.bytes.length ≤ 10 ^ 7 := Nat.pow_le_pow_right (by decide) (by omega)
  have upper : atoi size.bytes ≤ 100 := accepts.bounded
  have length : (BitVec.ofNat 64 content.length).toNat = content.length := by
    rw [BitVec.toNat_ofNat]
    omega
  have agrees := congrArg BitVec.toInt accepts.agrees
  rw [BitVec.toInt_ofInt,BitVec.toInt_eq_toNat_of_lt (by omega)] at agrees
  simp only [Int.bmod_def] at agrees
  omega

theorem Accepts.content_short (accepts : Accepts file mask size content idx) (host : content.length < 2 ^ 63) :
    content.length ≤ 100 := by
  have bounded := accepts.bounded
  rw [accepts.size_eq host,HWINFO_CONTENT_LENS] at bounded
  omega

theorem isdigit_iff (c : UInt8) : (isxdigit c = true ∧ digitValue c < 10) ↔ isdigit c = true := by
  constructor
  · rintro ⟨-,small⟩
    by_contra not
    simp only [digitValue,not,if_false] at small
    omega
  intro digit
  refine ⟨by simp [isxdigit,digit],?_⟩
  simp only [digitValue,digit,if_true]
  simp only [isdigit,Bool.and_eq_true,decide_eq_true_eq,UInt8.le_iff_toNat_le] at digit
  have : (57 : UInt8).toNat = 57 := rfl
  omega

theorem digitsLoop_decimal (text more : List UInt8) (n : Nat) :
    digitsLoop 32 10 (BitVec.ofNat 32 n) (text ++ 0 :: more) = BitVec.ofNat 32 (decimal n text) := by
  induction text generalizing n with
  | nil =>
    have stop : ¬ (isxdigit 0 = true ∧ digitValue 0 < 10) := by decide
    simp only [nil_append,digitsLoop,if_neg stop,decimal]
  | cons c text ih =>
    simp only [cons_append,digitsLoop,isdigit_iff,decimal]
    split_ifs with digit
    · have value : digitValue c = c.toNat - 48 := by simp only [digitValue,digit,if_true]
      rw [← ih,value,← BitVec.ofNat_mul,← BitVec.ofNat_add,Nat.mul_comm n]
    · rfl

def StartsWithDigit (text : List UInt8) : Prop := ∃ c ∈ text.head?, isdigit c = true

theorem atoi_digits {text : List UInt8} (digit : StartsWithDigit text) : atoi text = decimal 0 text := by
  obtain ⟨c,first,digit⟩ := digit
  obtain ⟨tail,rfl⟩ := head?_eq_some_iff.mp first
  have others : isspace c = false ∧ c ≠ 45 ∧ c ≠ 43 := by
    simp only [isdigit,isspace,Bool.and_eq_true,decide_eq_true_eq,UInt8.le_iff_toNat_le,Bool.or_eq_false_iff,
      Bool.and_eq_false_iff,decide_eq_false_iff_not,ne_eq,← UInt8.toNat_inj] at digit ⊢
    have : (48 : UInt8).toNat = 48 := rfl
    have : (13 : UInt8).toNat = 13 := rfl
    have : (32 : UInt8).toNat = 32 := rfl
    have : (45 : UInt8).toNat = 45 := rfl
    have : (43 : UInt8).toNat = 43 := rfl
    omega
  simp [atoi,List.dropWhile,others]

theorem simple_strtol_digits {text : List UInt8} (digit : StartsWithDigit text) (positive : decimal 0 text ≠ 0)
    (more : List UInt8) : simple_strtol (text ++ 0 :: more) 10 = BitVec.ofNat 32 (decimal 0 text) := by
  obtain ⟨c,first,digit⟩ := digit
  obtain ⟨tail,rfl⟩ := head?_eq_some_iff.mp first
  have minus : c ≠ 45 := by
    rintro rfl
    exact absurd digit (by decide)
  rw [cons_append,simple_strtol.eq_2 _ _ (by simp [minus]),simple_strtoul]
  by_cases zero : c = 48
  · subst zero
    have skip : ∀ text, decimal 0 (48 :: text) = decimal 0 text := by
      intro text
      rfl
    have start : numberStart (48 :: (tail ++ 0 :: more)) 10 = (tail ++ 0 :: more,10) := by
      cases tail with
      | nil => simp [numberStart]
      | cons d tail =>
        -- behind `0x` the tool reads 0, which is the length of no content
        have notHex : d ≠ 120 := by
          rintro rfl
          exact positive rfl
        simp [numberStart,notHex]
    rw [start]
    exact digitsLoop_decimal tail more 0
  have start : numberStart (c :: (tail ++ 0 :: more)) 10 = (c :: (tail ++ 0 :: more),10) := by
    simp [numberStart,zero]
  rw [start]
  exact digitsLoop_decimal (c :: tail) more 0

/-- Blanks and a plus sign, which the tool skips, end the number for the boot loader. -/
theorem simple_strtol_other {text : List UInt8} (other : ¬ StartsWithDigit text) (positive : 0 < atoi text)
    (more : List UInt8) : simple_strtol (text ++ 0 :: more) 10 = 0 := by
  cases text with
  | nil => exact absurd positive (by decide)
  | cons c tail =>
    have minus : c ≠ 45 := by
      rintro rfl
      simp only [atoi,List.dropWhile,show isspace 45 = false by decide] at positive
      omega
    have notDigit : ¬ isdigit c = true := fun digit => other ⟨c,rfl,digit⟩
    have zero : c ≠ 48 := by
      rintro rfl
      exact notDigit (by decide)
    have start : numberStart (c :: (tail ++ 0 :: more)) 10 = (c :: (tail ++ 0 :: more),10) := by
      simp [numberStart,zero]
    rw [cons_append,simple_strtol.eq_2 _ _ (by simp [minus]),simple_strtoul,start,digitsLoop,
      if_neg fun digit => notDigit ((isdigit_iff c).mp digit)]

/-! ### The slot itself -/

section
variable (accepts : Accepts file mask size content idx)
include accepts

theorem size_of_filled : ∃ more, textAt (loaded rest (filled file mask size content idx))
    (HWINFO_VA_MEMORY_ADDR + idx * 128 + 10) = size.bytes ++ 0 :: more := by
  have short : (terminated size).length ≤ 8 := terminated_length accepts.short.2
  have inside := slot_address accepts.slot
  refine textAt_string ?_ (by omega)
  rw [loaded_filled accepts,load_store_apart (.inl (by omega)),load_store_apart (.inl (by omega)),load_store]

theorem mask_of_filled : ∃ more, textAt (loaded rest (filled file mask size content idx))
    (HWINFO_VA_MEMORY_ADDR + idx * 128) = mask.bytes ++ 0 :: more := by
  have short : (terminated mask).length ≤ 10 := terminated_length accepts.short.1
  have inside := slot_address accepts.slot
  refine textAt_string ?_ (by omega)
  rw [loaded_filled accepts,load_store_apart (.inl (by omega)),load_store_apart (.inl (by omega)),
    load_store_apart (.inl (by omega)),load_store]

variable (host : content.length < 2 ^ 63)
include host

theorem content_of_filled : load (loaded rest (filled file mask size content idx))
    (HWINFO_VA_MEMORY_ADDR + idx * 128 + 18) content.length = content.bytes := by
  have whole : content.bytes.take (atoi size.bytes).toNat = content.bytes := by
    rw [accepts.size_eq host]
    exact take_length
  have short := accepts.content_short host
  rw [loaded_filled accepts,whole,load_store_apart (.inl (by omega))]
  exact load_store

theorem filled_slot_read : hwinfoBlockGet 1 (loaded rest (filled file mask size content idx)) idx =
    (0,some (BitVec.ofNat 32 content.length,content.bytes)) ↔ StartsWithDigit size.bytes := by
  obtain ⟨more,text⟩ := @size_of_filled file idx mask size content rest accepts
  have length := accepts.size_eq host
  have nonempty := accepts.given.2.2
  have short := accepts.content_short host
  have number : (BitVec.ofNat 32 content.length).toNat = content.length := by
    rw [BitVec.toNat_ofNat]
    omega
  rw [hwinfoBlockGet,if_neg (Nat.not_le.mpr accepts.slot),if_neg (by decide)]
  simp only [HWINFO_BLOCK_LENS,HWINFO_SIZE_SEEK,HWINFO_CONTENT_SEEK,text]
  constructor
  · intro reads
    by_contra other
    rw [simple_strtol_other other (by omega)] at reads
    simp only [Prod.mk.injEq,Option.some.injEq,true_and] at reads
    have zero := congrArg BitVec.toNat reads.1
    rw [number] at zero
    exact nonempty zero.symm
  intro digit
  have decimal_eq : decimal 0 size.bytes = content.length := by
    have := atoi_digits digit
    omega
  rw [simple_strtol_digits digit (by omega),decimal_eq,number,content_of_filled accepts host]
end

/-! ### The other slots -/

/-- What stands between the size of slot `j` and slot `idx`. -/
def textBefore (mem : Nat → UInt8) (j idx : Nat) : List UInt8 :=
  load mem (HWINFO_VA_MEMORY_ADDR + j * 128 + 10) ((idx - j) * 128 - 10)

/-- Slot `j` is read without reaching slot `idx` behind it: the size ends before it, and the content
    that it stands for does too. -/
def StaysBefore (mem : Nat → UInt8) (j idx : Nat) : Prop :=
  Ended (textBefore mem j idx) 10 ∧ (simple_strtol (textBefore mem j idx) 10).toNat ≤ (idx - j) * 128 - 18

section
variable {mem mem' : Nat → UInt8} {j : Nat}

/-- Two memories that differ in slot `idx` only. -/
def SameOutside (idx : Nat) (mem mem' : Nat → UInt8) : Prop :=
  ∀ x, x < HWINFO_VA_MEMORY_ADDR + idx * 128 ∨ HWINFO_VA_MEMORY_ADDR + idx * 128 + 128 ≤ x → mem' x = mem x

theorem textAt_split (slot : idx < HWINFO_BLOCK_MAX) (less : j < idx) :
    textAt mem (HWINFO_VA_MEMORY_ADDR + j * 128 + 10) = textBefore mem j idx ++ textAt mem (HWINFO_VA_MEMORY_ADDR + idx * 128) := by
  have inside := slot_address slot
  rw [textAt,textBefore,textAt,show 2 ^ 32 - (HWINFO_VA_MEMORY_ADDR + j * 128 + 10) = ((idx-j) * 128 - 10) +
    (2 ^ 32 - (HWINFO_VA_MEMORY_ADDR + idx * 128)) by omega,load_add,
    show HWINFO_VA_MEMORY_ADDR + j * 128 + 10 + ((idx-j) * 128 - 10) = HWINFO_VA_MEMORY_ADDR + idx * 128 by omega]

theorem textAt_head {a : Nat} {c : UInt8} {tail : List UInt8} (text : textAt mem a = c :: tail) : mem a = c := by
  have first := congrArg List.head? text
  rw [textAt] at first
  generalize 2 ^ 32 - a = n at first
  cases n with
  | zero => simp [load] at first
  | succ n =>
    rw [Nat.add_comm,load_add] at first
    simpa [load] using first

theorem textBefore_same (same : SameOutside idx mem mem') (less : j < idx) :
    textBefore mem' j idx = textBefore mem j idx := load_congr fun x _ high => same x (.inl (by omega))

theorem textBefore_long (less : j < idx) : 4 ≤ (textBefore mem j idx).length := by
  rw [textBefore,load_length]
  omega

theorem get_before (slot : idx < HWINFO_BLOCK_MAX) (less : j < idx) (ended : Ended (textBefore mem j idx) 10) :
    hwinfoBlockGet 1 mem j = (0,some (simple_strtol (textBefore mem j idx) 10,
      load mem (HWINFO_VA_MEMORY_ADDR + j * 128 + 18) (simple_strtol (textBefore mem j idx) 10).toNat)) := by
  rw [hwinfoBlockGet,if_neg (by omega),if_neg (by decide)]
  simp only [HWINFO_BLOCK_LENS,HWINFO_SIZE_SEEK,HWINFO_CONTENT_SEEK]
  rw [textAt_split slot less,simple_strtol_append (textBefore_long less) ended]

theorem get_same_before (slot : idx < HWINFO_BLOCK_MAX) (less : j < idx) (same : SameOutside idx mem mem')
    (stays : StaysBefore mem j idx) : hwinfoBlockGet 1 mem' j = hwinfoBlockGet 1 mem j := by
  have text := textBefore_same same less
  have content : load mem' (HWINFO_VA_MEMORY_ADDR + j * 128 + 18) (simple_strtol (textBefore mem j idx) 10).toNat =
      load mem (HWINFO_VA_MEMORY_ADDR + j * 128 + 18) (simple_strtol (textBefore mem j idx) 10).toNat := by
    have short := stays.2
    exact load_congr fun x _ high => same x (.inl (by omega))
  rw [get_before slot less stays.1,get_before slot less (text ▸ stays.1),text,content]

theorem get_same_behind (less : idx < j) (same : SameOutside idx mem mem') :
    hwinfoBlockGet 1 mem' j = hwinfoBlockGet 1 mem j := by
  have stretch : ∀ a n, HWINFO_VA_MEMORY_ADDR + j * 128 ≤ a → load mem' a n = load mem a n :=
    fun a n behind => load_congr fun x low _ => same x (.inr (by omega))
  simp only [hwinfoBlockGet,textAt,HWINFO_BLOCK_LENS,HWINFO_SIZE_SEEK,HWINFO_CONTENT_SEEK]
  rw [stretch _ _ (by omega)]
  split_ifs
  · rfl
  · rfl
  · rw [stretch _ _ (by omega)]

/-- Two fillings that differ in the first character of the mask tell whether slot `idx` is read. -/
theorem stays_of_same (slot : idx < HWINFO_BLOCK_MAX) (less : j < idx) (same : SameOutside idx mem mem')
    {tail tail' : List UInt8} (one : textAt mem (HWINFO_VA_MEMORY_ADDR + idx * 128) = 49 :: 0 :: tail)
    (two : textAt mem' (HWINFO_VA_MEMORY_ADDR + idx * 128) = 50 :: 0 :: tail')
    (reads : hwinfoBlockGet 1 mem' j = hwinfoBlockGet 1 mem j) : StaysBefore mem j idx := by
  have text := textBefore_same same less
  by_cases ended : Ended (textBefore mem j idx) 10
  · refine ⟨ended,?_⟩
    by_contra long
    rw [get_before slot less ended,get_before slot less (text ▸ ended),text] at reads
    simp only [Prod.mk.injEq,Option.some.injEq,true_and] at reads
    have first := load_eq_iff.mp reads (HWINFO_VA_MEMORY_ADDR + idx * 128) (by omega) (by omega)
    rw [textAt_head one,textAt_head two] at first
    exact absurd first (by decide)
  exfalso
  rw [hwinfoBlockGet,hwinfoBlockGet,if_neg (by omega),if_neg (by decide),if_neg (by omega),if_neg (by decide)] at reads
  simp only [HWINFO_BLOCK_LENS,HWINFO_SIZE_SEEK,HWINFO_CONTENT_SEEK,Prod.mk.injEq,Option.some.injEq,true_and] at reads
  have numbers := reads.1
  rw [textAt_split slot less,textAt_split slot less,text,one,two] at numbers
  exact simple_strtol_next (textBefore_long less) ended _ _ numbers.symm
end

theorem filled_same (accepts : Accepts file mask size content idx) :
    SameOutside idx (loaded rest file) (loaded rest (filled file mask size content idx)) := by
  intro x outside
  have mask_short : (terminated mask).length ≤ 10 := terminated_length accepts.short.1
  have size_short : (terminated size).length ≤ 8 := terminated_length accepts.short.2
  have content_short := accepts.copied_short
  rw [loaded_filled accepts,store_outside (by omega),store_outside (by omega),store_outside (by omega),
    store_outside (by omega)]

theorem mask1_nulFree : 0 ∉ [(49 : UInt8)] := by decide

def mask1 : CString := ⟨[49],mask1_nulFree⟩
def mask2 : CString := ⟨[50],fun h => by simp at h⟩

theorem accepts_sample {mask : CString} (one : mask.length = 1) (slot : idx < HWINFO_BLOCK_MAX)
    (room : (idx+1) * HWINFO_BLOCK_LENS ≤ file.length) (small : file.length ≤ HWINFO_FILE_MAX_SIZE) :
    Accepts file mask mask1 mask1 idx where
  given := ⟨by omega,by decide,by decide⟩
  bounded := by decide
  agrees := by decide
  short := ⟨by rw [one]; decide,by decide⟩
  slot := slot
  room := room
  small := small

/-- For a file with room for slot `idx`: what is filled in reads back exactly if its size starts with a
    digit, and no filling changes what the other slots read exactly if the slots in front of it are read
    without reaching it. A string of the host is shorter than half of its address space. -/
theorem filled_slot_reads_back (rest : Nat → UInt8) (slot : idx < HWINFO_BLOCK_MAX)
    (room : (idx + 1) * HWINFO_BLOCK_LENS ≤ file.length) (small : file.length ≤ HWINFO_FILE_MAX_SIZE) :
    (∀ mask size content file', content.length < 2 ^ 63 → hwinfo_block_fill file mask size content idx = (0,file') →
      (hwinfoBlockGet 1 (loaded rest file') idx = (0,some (BitVec.ofNat 32 content.length,content.bytes)) ↔
        StartsWithDigit size.bytes)) ∧
    ((∀ mask size content file', content.length < 2 ^ 63 → hwinfo_block_fill file mask size content idx = (0,file') →
      ∀ j ≠ idx, hwinfoBlockGet 1 (loaded rest file') j = hwinfoBlockGet 1 (loaded rest file) j) ↔
        ∀ j < idx, StaysBefore (loaded rest file) j idx) := by
  constructor
  · intro mask size content file' host done
    obtain ⟨accepts,rfl⟩ := hwinfo_block_fill_iff.mp done
    exact filled_slot_read accepts host
  constructor
  · intro unchanged j less
    have accepts1 := @accepts_sample file idx mask1 rfl slot room small
    have accepts2 := @accepts_sample file idx mask2 rfl slot room small
    have reads1 := unchanged mask1 mask1 mask1 _ (by decide) (hwinfo_block_fill_iff.mpr ⟨accepts1,rfl⟩) j (by omega)
    have reads2 := unchanged mask2 mask1 mask1 _ (by decide) (hwinfo_block_fill_iff.mpr ⟨accepts2,rfl⟩) j (by omega)
    obtain ⟨tail,one⟩ := @mask_of_filled file idx mask1 mask1 mask1 rest accepts1
    obtain ⟨tail',two⟩ := @mask_of_filled file idx mask2 mask1 mask1 rest accepts2
    have same1 := @filled_same file idx mask1 mask1 mask1 rest accepts1
    have same2 := @filled_same file idx mask2 mask1 mask1 rest accepts2
    have stays := stays_of_same slot less (fun x outside => (same2 x outside).trans (same1 x outside).symm) one two
      (reads2.trans reads1.symm)
    rw [StaysBefore,textBefore_same same1 less] at stays
    exact stays
  intro stays mask size content file' _ done j other
  obtain ⟨accepts,rfl⟩ := hwinfo_block_fill_iff.mp done
  rcases Nat.lt_or_gt_of_ne other with less | greater
  · exact get_same_before slot less (filled_same accepts) (stays j less)
  · exact get_same_behind greater (filled_same accepts)

/-! ### A cleared image -/

def serial : CString := CString.ofString "serial"
def number : CString := CString.ofString "12345"
def five : CString := CString.ofString "5"
def blankFive : CString := CString.ofString " 5"

theorem accepts_serial {size : CString} (value : atoi size.bytes = 5) (given : size.length ≠ 0) (short : size.length < 8) :
    Accepts (zeros 0x8000) serial size number 3 where
  given := ⟨by decide,given,by decide⟩
  bounded := by rw [value]; decide
  agrees := by rw [value]; decide
  short := ⟨by decide,short⟩
  slot := by decide
  room := by rw [zeros_length]; decide
  small := by rw [zeros_length]; decide

theorem loaded_zeros (n x : Nat) : loaded (fun _ => 0) (zeros n) x = 0 := by
  simp only [loaded,store]
  split_ifs
  · cases found : ((zeros n).take HWINFO_VA_MEMORY_SIZE)[x-HWINFO_VA_MEMORY_ADDR]? with
    | none => rfl
    | some c =>
      have member := mem_of_mem_take (mem_of_getElem? found)
      exact eq_of_mem_replicate member
  · rfl

theorem zeros_stay {n j idx : Nat} (less : j < idx) : StaysBefore (loaded (fun _ => 0) (zeros n)) j idx := by
  have text : textBefore (loaded (fun _ => 0) (zeros n)) j idx = 0 :: zeros ((idx-j) * 128 - 11) := by
    rw [textBefore,load_zeros fun x _ _ => loaded_zeros n x,← zeros_succ]
    congr 1
    omega
  have stop : Stops 10 0 := fun digit => absurd digit.1 (by decide)
  rw [StaysBefore,text]
  refine ⟨⟨0,?_,?_⟩,?_⟩
  · simp [magnitude,numberStart]
  · simpa [magnitude,numberStart] using stop
  · simp [simple_strtol,simple_strtoul,numberStart,digitsLoop,if_neg stop]

theorem serial_reads_back :
    hwinfoBlockGet 1 (loaded (fun _ => 0) (filled (zeros 0x8000) serial five number 3)) 3 = (0,some (5,number.bytes)) ∧
    hwinfoBlockGet 1 (loaded (fun _ => 0) (filled (zeros 0x8000) serial five number 3)) 2 =
      hwinfoBlockGet 1 (loaded (fun _ => 0) (zeros 0x8000)) 2 := by
  have accepts := @accepts_serial five (by decide) (by decide) (by decide)
  have both := filled_slot_reads_back (fun _ => 0) accepts.slot accepts.room accepts.small
  have done := hwinfo_block_fill_iff.mpr ⟨accepts,rfl⟩
  refine ⟨(both.1 serial five number _ (by decide) done).mpr ⟨53,rfl,by decide⟩,?_⟩
  exact both.2.mpr (fun j less => zeros_stay less) serial five number _ (by decide) done 2 (by decide)

/-- A blank before the size: the tool accepts it, the boot loader reads no content. -/
theorem blank_before_size_lost : ∃ file', hwinfo_block_fill (zeros 0x8000) serial blankFive number 3 = (0,file') ∧
    hwinfoBlockGet 1 (loaded (fun _ => 0) file') 3 ≠ (0,some (BitVec.ofNat 32 number.length,number.bytes)) := by
  have accepts := @accepts_serial blankFive (by decide) (by decide) (by decide)
  refine ⟨_,hwinfo_block_fill_iff.mpr ⟨accepts,rfl⟩,fun reads => ?_⟩
  obtain ⟨c,first,digit⟩ := (filled_slot_read accepts (by decide)).mp reads
  cases first
  exact absurd digit (by decide)

end UBoot.HwinfoBlock
