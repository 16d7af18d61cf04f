import UBoot.HwinfoBlock

/-!
How much the readers of `common/spl/hwinfo.c` copy, and what the host tool copies. The length of a content is text in
the image that nothing bounds (`readers_bounded_iff`), and the checks of the tool let through texts that leave no room for
their terminators (`tool_copies_fit_iff`).
-/
namespace UBoot.HwinfoBounds
open List CStrings CNumbers Memory Hwinfo HwinfoBlock

/-! ### The readers -/

def HWINFO_BLOCK_BOOT_SELECT : Nat := 88

/-- The result and, if it is 0, `*lens` and the bytes copied to `content`. -/
def hwinfoLargeBlockGet (status : Nat) (mem : Nat → UInt8) (type_start type_end : Nat) : Int × Option (BitVec 32 × List UInt8) :=
  if type_start ≥ type_end ∨ type_end ≥ HWINFO_BLOCK_MAX then (-1000,none)
  else if status = 0 then (-1001,none)
  else
    let lens := simple_strtol (textAt mem (HWINFO_VA_MEMORY_ADDR + type_start * HWINFO_BLOCK_LENS + HWINFO_SIZE_SEEK)) 10
    (0,some (lens,load mem (HWINFO_VA_MEMORY_ADDR + type_start * HWINFO_BLOCK_LENS + HWINFO_CONTENT_SEEK) lens.toNat))

def copied (result : Int × Option (BitVec 32 × List UInt8)) : List UInt8 := (result.2.map Prod.snd).getD []

/-- The copy goes to a variable of four bytes that is 0 before. -/
def boot_select_get (status : Nat) (mem : Nat → UInt8) : Bool :=
  ((copied (hwinfoBlockGet status mem HWINFO_BLOCK_BOOT_SELECT)).take 4).any (· ≠ 0)

section
variable {status : Nat} {mem : Nat → UInt8} {type type_start type_end : Nat}

def sizeAt (type : Nat) : Nat := HWINFO_VA_MEMORY_ADDR + type * HWINFO_BLOCK_LENS + HWINFO_SIZE_SEEK

def sizeEnd (mem : Nat → UInt8) (type : Nat) : Nat := 2 ^ 32 - (numberEnd (magnitude (textAt mem (sizeAt type))) 10).length

/-- What the comments in `hwinfo.h` promise: a slot has at most 100 bytes and is read inside of the image, several slots
    have the bytes between them, and the choice of the partition fits its variable. -/
structure Bounded (status : Nat) (mem : Nat → UInt8) (type type_start type_end : Nat) : Prop where
  block : (copied (hwinfoBlockGet status mem type)).length ≤ HWINFO_CONTENT_LENS
  inside : (hwinfoBlockGet status mem type).1 = 0 → sizeEnd mem type < HWINFO_VA_MEMORY_ADDR + HWINFO_VA_MEMORY_SIZE ∧
    type * HWINFO_BLOCK_LENS + HWINFO_CONTENT_SEEK + (copied (hwinfoBlockGet status mem type)).length ≤ HWINFO_VA_MEMORY_SIZE
  large : (copied (hwinfoLargeBlockGet status mem type_start type_end)).length ≤ (type_end - type_start) * 128 - 28
  select : (copied (hwinfoBlockGet status mem HWINFO_BLOCK_BOOT_SELECT)).length ≤ 4

def digitsNumber (base : Nat) : Nat → List UInt8 → Nat
  | n, [] => n
  | n, c :: text => if isxdigit c ∧ digitValue c < base then digitsNumber base (n * base + digitValue c) text else n

def number (text : List UInt8) : Int :=
  let n := digitsNumber (numberStart (magnitude text) 10).2 0 (numberStart (magnitude text) 10).1
  if text.head? = some 45 then -n else n

def slotSize (mem : Nat → UInt8) (type : Nat) : Nat := (number (textAt mem (sizeAt type)) % 2 ^ 32).toNat

def imageText (mem : Nat → UInt8) (type : Nat) : List UInt8 :=
  load mem (sizeAt type) (HWINFO_VA_MEMORY_SIZE - type * HWINFO_BLOCK_LENS - HWINFO_SIZE_SEEK)

theorem digitsLoop_number (base n : Nat) (text : List UInt8) :
    digitsLoop 32 base (BitVec.ofNat 32 n) text = BitVec.ofNat 32 (digitsNumber base n text) := by
  induction text generalizing n with
  | nil => rfl
  | cons c text ih =>
    rw [digitsLoop,digitsNumber]
    split
    · rw [← BitVec.ofNat_mul,← BitVec.ofNat_add,ih]
    · rfl

theorem simple_strtol_number (text : List UInt8) : (simple_strtol text 10).toNat = (number text % 2 ^ 32).toNat := by
  have digits : simple_strtoul 32 (magnitude text) 10 = _ := digitsLoop_number _ 0 _
  rw [simple_strtol_eq,digits,number]
  split
  · rw [BitVec.toNat_neg,BitVec.toNat_ofNat]
    omega
  · rw [BitVec.toNat_ofNat]
    omega

theorem copied_block (status : Nat) (mem : Nat → UInt8) (type : Nat) :
    if status ≠ 0 ∧ type < HWINFO_BLOCK_MAX then
      (hwinfoBlockGet status mem type).1 = 0 ∧ (copied (hwinfoBlockGet status mem type)).length = slotSize mem type
    else (hwinfoBlockGet status mem type).1 ≠ 0 ∧ (copied (hwinfoBlockGet status mem type)).length = 0 := by
  rw [hwinfoBlockGet,slotSize,← simple_strtol_number]
  by_cases unknown : HWINFO_BLOCK_MAX ≤ type
  · rw [if_neg (by omega),if_pos unknown]
    exact ⟨by decide,rfl⟩
  rw [if_neg unknown]
  by_cases off : status = 0
  · rw [if_neg (by omega),if_pos off]
    exact ⟨by decide,rfl⟩
  · rw [if_pos (by omega),if_neg off]
    exact ⟨rfl,load_length⟩

theorem copied_large (status : Nat) (mem : Nat → UInt8) (type_start type_end : Nat) :
    (copied (hwinfoLargeBlockGet status mem type_start type_end)).length =
      if status ≠ 0 ∧ type_start < type_end ∧ type_end < HWINFO_BLOCK_MAX then slotSize mem type_start else 0 := by
  rw [hwinfoLargeBlockGet,slotSize,← simple_strtol_number]
  by_cases unknown : type_start ≥ type_end ∨ type_end ≥ HWINFO_BLOCK_MAX
  · rw [if_pos unknown,if_neg (by omega)]
    rfl
  rw [if_neg unknown]
  by_cases off : status = 0
  · rw [if_pos off,if_neg (by omega)]
    rfl
  · rw [if_neg off,if_pos (by omega)]
    exact load_length

/-- The number ends inside of the image exactly if one of the image's characters ends it. -/
theorem sizeEnd_inside (known : type < HWINFO_BLOCK_MAX) :
    sizeEnd mem type < HWINFO_VA_MEMORY_ADDR + HWINFO_VA_MEMORY_SIZE ↔ Ended (imageText mem type) 10 := by
  have long : 4 ≤ (imageText mem type).length := by
    rw [imageText,load_length]
    simp only [HWINFO_BLOCK_MAX,HWINFO_VA_MEMORY_SIZE,HWINFO_BLOCK_LENS,HWINFO_SIZE_SEEK] at *
    omega
  have split : textAt mem (sizeAt type) = imageText mem type ++ textAt mem (HWINFO_VA_MEMORY_ADDR+HWINFO_VA_MEMORY_SIZE) := by
    rw [textAt,imageText,textAt]
    simp only [sizeAt,HWINFO_BLOCK_MAX,HWINFO_VA_MEMORY_ADDR,HWINFO_VA_MEMORY_SIZE,HWINFO_BLOCK_LENS,HWINFO_SIZE_SEEK] at *
    rw [show 2 ^ 32 - (0xa7ff8000 + type * 128 + 10) = 0x8000 - type * 128 - 10 + (2 ^ 32 - (0xa7ff8000+0x8000)) by omega,load_add,
      show 0xa7ff8000 + type * 128 + 10 + (0x8000 - type * 128 - 10) = 0xa7ff8000 + 0x8000 by omega]
  have behind : (textAt mem (HWINFO_VA_MEMORY_ADDR+HWINFO_VA_MEMORY_SIZE)).length =
      2 ^ 32 - (HWINFO_VA_MEMORY_ADDR+HWINFO_VA_MEMORY_SIZE) := load_length
  have enough := magnitude_length (imageText mem type)
  rw [sizeEnd,split,magnitude_append (by omega),numberEnd,numberStart_append (by omega),Ended]
  generalize textAt mem (HWINFO_VA_MEMORY_ADDR+HWINFO_VA_MEMORY_SIZE) = more at behind ⊢
  generalize (numberStart (magnitude (imageText mem type)) 10).1 = text
  generalize (numberStart (magnitude (imageText mem type)) 10).2 = base
  simp only [HWINFO_VA_MEMORY_ADDR,HWINFO_VA_MEMORY_SIZE] at behind ⊢
  have ends : (text.dropWhile fun c => isxdigit c ∧ digitValue c < base) ≠ [] ↔ ∃ c ∈ text, Stops base c := by
    rw [ne_eq,dropWhile_eq_nil_iff]
    simp only [Stops,decide_eq_true_eq,not_forall,exists_prop]
  rw [← ends,dropWhile_append]
  split
  case isTrue none_ =>
    have shorter := (dropWhile_sublist (fun c => decide (isxdigit c ∧ digitValue c < base)) (l := more)).length_le
    rw [List.isEmpty_iff] at none_
    simp only [none_,ne_eq,not_true_eq_false,iff_false]
    omega
  case isFalse some_ =>
    rw [List.isEmpty_iff] at some_
    have positive := length_pos_of_ne_nil some_
    rw [length_append]
    exact iff_of_true (by omega) some_

/-- The readers stay in their bounds exactly if nothing was loaded, or the sizes in the image do and the text of the
    slot's own size ends in the image. -/
theorem readers_bounded_iff (status : Nat) (mem : Nat → UInt8) (type type_start type_end : Nat) :
    Bounded status mem type type_start type_end ↔ status = 0 ∨
      (type < HWINFO_BLOCK_MAX → Ended (imageText mem type) 10 ∧ slotSize mem type ≤ 100) ∧
      (type_start < type_end → type_end < HWINFO_BLOCK_MAX → slotSize mem type_start ≤ (type_end - type_start) * 128 - 28) ∧
      slotSize mem HWINFO_BLOCK_BOOT_SELECT ≤ 4 := by
  have block := copied_block status mem type
  have large := copied_large status mem type_start type_end
  have select := copied_block status mem HWINFO_BLOCK_BOOT_SELECT
  by_cases off : status = 0
  · rw [if_neg (by omega)] at block large select
    exact iff_of_true ⟨block.2 ▸ Nat.zero_le _,fun zero => absurd zero block.1,large ▸ Nat.zero_le _,select.2 ▸ Nat.zero_le _⟩ (.inl off)
  rw [if_pos ⟨off,by decide⟩] at select
  have sizes : Bounded status mem type type_start type_end ↔
      (type < HWINFO_BLOCK_MAX → Ended (imageText mem type) 10 ∧ slotSize mem type ≤ 100) ∧
      (copied (hwinfoLargeBlockGet status mem type_start type_end)).length ≤ (type_end-type_start) * 128 - 28 ∧
      slotSize mem HWINFO_BLOCK_BOOT_SELECT ≤ 4 := by
    by_cases known : type < HWINFO_BLOCK_MAX
    · rw [if_pos ⟨off,known⟩] at block
      rw [← sizeEnd_inside known]
      refine ⟨fun bounded => ⟨fun _ => ⟨(bounded.inside block.1).1,block.2 ▸ bounded.block⟩,bounded.large,select.2 ▸ bounded.select⟩,?_⟩
      rintro ⟨here,large,fits⟩
      refine ⟨block.2 ▸ (here known).2,fun _ => ⟨(here known).1,?_⟩,large,select.2 ▸ fits⟩
      simp only [HWINFO_BLOCK_MAX,HWINFO_BLOCK_LENS,HWINFO_CONTENT_SEEK,HWINFO_VA_MEMORY_SIZE] at *
      omega
    rw [if_neg fun given => known given.2] at block
    refine ⟨fun bounded => ⟨fun less => absurd less known,bounded.large,select.2 ▸ bounded.select⟩,?_⟩
    rintro ⟨_,large,fits⟩
    exact ⟨block.2 ▸ Nat.zero_le _,fun zero => absurd zero block.1,large,select.2 ▸ fits⟩
  rw [sizes,large,or_iff_right off]
  split
  case isTrue given => simp only [given.2,true_imp_iff]
  case isFalse other =>
    rw [and_iff_right (Nat.zero_le _),and_iff_right fun less known => absurd ⟨off,less,known⟩ other]

theorem slotSize_text {text : List UInt8} (held : load mem (sizeAt type) text.length = text) (long : 4 ≤ text.length)
    (ended : Ended text 10) (known : sizeAt type + text.length ≤ 2 ^ 32) : slotSize mem type = (simple_strtol text 10).toNat := by
  have split : textAt mem (sizeAt type) = text ++ load mem (sizeAt type + text.length) (2 ^ 32 - sizeAt type - text.length) := by
    rw [textAt,show 2 ^ 32 - sizeAt type = text.length + (2 ^ 32 - sizeAt type - text.length) by omega,load_add,held,Nat.add_sub_cancel_left]
  rw [slotSize,← simple_strtol_number,split,simple_strtol_append long ended]
end

/-- A memory of zeros but for the size of the slot that names the partition to boot. -/
def longSelect : Nat → UInt8 := store (fun _ => 0) (sizeAt HWINFO_BLOCK_BOOT_SELECT) [50,48,48,0]

/-- A size of 200: as many bytes are copied to an `int`. -/
theorem select_overrun : (copied (hwinfoBlockGet 1 longSelect HWINFO_BLOCK_BOOT_SELECT)).length = 200 ∧
    ¬ Bounded 1 longSelect HWINFO_BLOCK_BOOT_SELECT 0 1 := by
  have size : slotSize longSelect HWINFO_BLOCK_BOOT_SELECT = 200 := by
    refine (@slotSize_text longSelect _ [50,48,48,0] load_store (by decide) ⟨0,by decide,?_⟩ (by decide)).trans (by decide)
    exact fun digit => absurd digit.1 (by decide)
  have block := copied_block 1 longSelect HWINFO_BLOCK_BOOT_SELECT
  rw [size] at block
  refine ⟨block.2,fun bounded => ?_⟩
  have small := bounded.select
  rw [block.2] at small
  exact absurd small (by decide)

/-! ### The host tool -/

/-- `atoi` for a text of any length: a `long` at the end of its range, cut to an `int`. -/
def atoiLong (text : List UInt8) : Int := (max (-2 ^ 63) (min (2 ^ 63 - 1) (atoi text))).bmod (2 ^ 32)

structure Argv where
  file_path : CString
  mask : CString
  size : CString
  content : CString
  index : CString

/-- A `strcpy`: the size of its destination, and the bytes that it writes. -/
structure Copy where
  room : Nat
  written : Nat
deriving DecidableEq

def refused (argv : Argv) : Option Int :=
  if argv.file_path.length = 0 ∨ argv.mask.length = 0 ∨ argv.size.length = 0 ∨ argv.content.length = 0 ∨ argv.index.length = 0 then
    some (-1000)
  else if atoiLong argv.index.bytes < 0 ∨ HWINFO_BLOCK_MAX ≤ atoiLong argv.index.bytes then some (-900)
  else if argv.file_path.length ≥ 256 then some (-801)
  else none

/-- The copies that `main` makes, and the value that it returns if it does not get to `hwinfo_block_fill`. -/
def main (argv : Argv) : List Copy × Option Int :=
  match refused argv with
  | some ret => ([],some ret)
  | none =>
    let copies : List Copy := [⟨256,argv.file_path.length + 1⟩]
    if argv.mask.length > HWINFO_MASK1_LENS then (copies,some (-802))
    else
      let copies := copies ++ [⟨HWINFO_MASK1_LENS,argv.mask.length + 1⟩]
      if argv.size.length > HWINFO_SIZE_LENS then (copies,some (-803))
      else
        let copies := copies ++ [⟨HWINFO_SIZE_LENS,argv.size.length + 1⟩]
        if argv.content.length > HWINFO_CONTENT_LENS then (copies,some (-804))
        else (copies ++ [⟨HWINFO_CONTENT_LENS,argv.content.length + 1⟩],none)

/-- The copies of `hwinfo_block_fill`, by their place in the file and their length. -/
def fillCopies (file : List UInt8) (mask size content : CString) (idx : Nat) : List (Nat × Nat) :=
  if (hwinfo_block_fill file mask size content idx).1 = 0 then
    [(idx * HWINFO_BLOCK_LENS + HWINFO_MASK1_SEEK,mask.length + 1),(idx * HWINFO_BLOCK_LENS + HWINFO_SIZE_SEEK,size.length + 1),
      (idx * HWINFO_BLOCK_LENS + HWINFO_CONTENT_SEEK,(BitVec.ofInt 64 (atoi size.bytes)).toNat),
      (idx * HWINFO_BLOCK_LENS + HWINFO_MASK2_SEEK,mask.length + 1)]
  else []

theorem fillCopies_inside {file : List UInt8} {mask size content : CString} {idx : Nat} (host : content.length < 2 ^ 63)
    {copy : Nat × Nat} (member : copy ∈ fillCopies file mask size content idx) :
    idx * HWINFO_BLOCK_LENS ≤ copy.1 ∧ copy.1 + copy.2 ≤ (idx+1) * HWINFO_BLOCK_LENS := by
  rw [fillCopies] at member
  split at member
  case isFalse => cases member
  case isTrue done =>
    obtain ⟨accepts,_⟩ := hwinfo_block_fill_iff.mp (Prod.ext done rfl)
    have short := accepts.short
    have fits := accepts.content_short host
    rw [← accepts.agrees,BitVec.toNat_ofNat] at member
    simp only [HWINFO_BLOCK_LENS,HWINFO_MASK1_LENS,HWINFO_SIZE_LENS,HWINFO_MASK1_SEEK,HWINFO_SIZE_SEEK,HWINFO_CONTENT_SEEK,
      HWINFO_MASK2_SEEK,mem_cons,not_mem_nil,or_false] at member short ⊢
    rcases member with rfl | rfl | rfl | rfl <;> exact ⟨by omega,by omega⟩

/-- The copies fit exactly if none of the texts that are copied is as long as its array. -/
theorem tool_copies_fit_iff (argv : Argv) :
    ((∀ copy ∈ (main argv).1, copy.written ≤ copy.room) ∧
      ∀ file mask size (content : CString) idx, content.length < 2 ^ 63 → ∀ copy ∈ fillCopies file mask size content idx,
        idx * HWINFO_BLOCK_LENS ≤ copy.1 ∧ copy.1 + copy.2 ≤ (idx + 1) * HWINFO_BLOCK_LENS) ↔
      refused argv ≠ none ∨ 10 < argv.mask.length ∨
        argv.mask.length ≠ 10 ∧ (8 < argv.size.length ∨ argv.size.length ≠ 8 ∧ argv.content.length ≠ 100) := by
  rw [and_iff_left fun _ _ _ _ _ host _ member => fillCopies_inside host member,main]
  cases first : refused argv with
  | some ret => simp
  | none =>
    have path : argv.file_path.length + 1 ≤ 256 := by
      rw [refused] at first
      split_ifs at first
      omega
    have limits : HWINFO_MASK1_LENS = 10 ∧ HWINFO_SIZE_LENS = 8 ∧ HWINFO_CONTENT_LENS = 100 := ⟨rfl,rfl,rfl⟩
    simp only [cons_append,nil_append,ne_eq,not_true_eq_false,false_or]
    by_cases mask : argv.mask.length > HWINFO_MASK1_LENS
    · simp only [if_pos mask,forall_mem_singleton]
      omega
    rw [if_neg mask]
    by_cases size : argv.size.length > HWINFO_SIZE_LENS
    · simp only [if_pos size,forall_mem_cons,not_mem_nil,false_imp_iff,implies_true,and_true]
      omega
    rw [if_neg size]
    by_cases content : argv.content.length > HWINFO_CONTENT_LENS
    · simp only [if_pos content,forall_mem_cons,not_mem_nil,false_imp_iff,implies_true,and_true]
      omega
    · simp only [if_neg content,forall_mem_cons,not_mem_nil,false_imp_iff,implies_true,and_true]
      omega

def longest : Argv :=
  ⟨CString.ofString "hwinfo.bin",CString.ofString "1",CString.ofString "100",⟨List.replicate 100 97,by decide⟩,CString.ofString "93"⟩

/-- Its copy is one byte too long. -/
theorem content_terminator_outside : ⟨100,101⟩ ∈ (main longest).1 ∧ (main longest).2 = none ∧
    ¬ ∀ copy ∈ (main longest).1, copy.written ≤ copy.room := by
  have copies : main longest = ([⟨256,11⟩,⟨10,2⟩,⟨8,4⟩,⟨100,101⟩],none) := by decide +kernel
  rw [copies]
  refine ⟨by simp,rfl,fun fits => absurd (fits ⟨100,101⟩ (by simp)) (by decide)⟩

end UBoot.HwinfoBounds
