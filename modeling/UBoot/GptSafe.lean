import UBoot.GptTable

/-!
Which disks `get_partition_info_efi` can parse without an access outside of its buffers: the block with
the header, the array of entries and the name of the partition (`parsing_in_bounds_iff`). The sizes
come from the disk, and a valid checksum is all that vouches for them.
-/
namespace UBoot.GptSafe
open CStrings Memory Gpt
open EnvCopies (crc32)

def header (dev : BlockDev) : GptHeader := GptHeader.ofBytes (load dev.disk 512 512)

def count (dev : BlockDev) : Nat := ((header dev).num_partition_entries * (header dev).sizeof_partition_entry).toNat

def array (dev : BlockDev) : List UInt8 :=
  load dev.disk (512 * ((header dev).partition_entry_lba.setWidth 32).toNat) (512 * BLOCK_CNT (count dev))

/-- A signed header; the checksum is computed next, over `header_size` bytes. -/
structure Signed (dev : BlockDev) : Prop where
  present : 2 ≤ dev.lba.toNat
  signature : (header dev).signature = GPT_HEADER_SIGNATURE

/-- A header that passes all checks, with entries inside of the device. -/
structure Accepted (dev : BlockDev) : Prop extends Signed dev where
  size : (header dev).header_size.toNat ≤ 512
  checksum : (crc32 0 ((((header dev).setCrc 0).bytes ++ (load dev.disk 512 512).drop 92).take
    (header dev).header_size.toNat)).toBitVec = (header dev).header_crc32
  mine : (header dev).my_lba = GPT_PRIMARY_PARTITION_TABLE_LBA
  usable : ¬ (dev.lba.setWidth 64 < (header dev).first_usable_lba ∨ dev.lba.setWidth 64 < (header dev).last_usable_lba)
  some_ : count dev ≠ 0
  inside : ((header dev).partition_entry_lba.setWidth 32).toNat + BLOCK_CNT (count dev) ≤ dev.lba.toNat

/-- A valid table with an entry of the number `part`. -/
structure Listed (dev : BlockDev) (part : Int) : Prop extends Accepted dev where
  checksums : (crc32 0 ((array dev).take (count dev))).toBitVec = (header dev).partition_entry_array_crc32
  number : part ≤ (header dev).num_partition_entries.toNat

/-- The entry with the number `part`. -/
def entry (dev : BlockDev) (part : Int) : GptEntry :=
  GptEntry.ofBytes (((array dev).drop (128 * (part.toNat - 1))).take 128)

/-- The sizes on the disk fit: the header its block, the array its allocation, the entry the array, and
    the name the field `name` of the result. -/
structure Fits (dev : BlockDev) (part : Int) : Prop where
  headerFits : Signed dev → (header dev).header_size.toNat ≤ 512
  arrayFits : Accepted dev → count dev ≤ 2 ^ 32 - 512
  entryFits : Listed dev part → 128 * part.toNat ≤ 512 * BLOCK_CNT (count dev)
  nameFits : Listed dev part → is_pte_valid (entry dev part) → (toCString (print_efiname (entry dev part))).length < 32

section
variable {dev : BlockDev} {part : Int}

theorem array_length : (array dev).length = 512 * BLOCK_CNT (count dev) := load_length

theorem padded_iff {size : Nat} (small : size < 2 ^ 32) :
    PAD_TO_BLOCKSIZE size < 512 * BLOCK_CNT size ↔ 2 ^ 32 - 512 < size := by
  rw [PAD_TO_BLOCKSIZE,BLOCK_CNT]
  omega

theorem entries_of_accepted (accepted : Accepted dev) :
    alloc_read_gpt_entries dev (header dev) = if 2 ^ 32 - 512 < count dev then none else some (some (array dev)) := by
  have small : count dev < 2 ^ 32 := BitVec.isLt _
  simp only [alloc_read_gpt_entries]
  rw [← count,if_neg accepted.some_,block_read_inside accepted.inside]
  show (if PAD_TO_BLOCKSIZE (count dev) < (array dev).length then none else some (some (array dev))) = _
  rw [array_length]
  simp only [padded_iff small]

theorem entries_unread (unread : ¬ (count dev ≠ 0 ∧
      ((header dev).partition_entry_lba.setWidth 32).toNat + BLOCK_CNT (count dev) ≤ dev.lba.toNat)) :
    alloc_read_gpt_entries dev (header dev) = some none := by
  simp only [alloc_read_gpt_entries]
  rw [← count]
  split_ifs with none
  · rfl
  have outside : ¬ ((header dev).partition_entry_lba.setWidth 32).toNat + BLOCK_CNT (count dev) ≤ dev.lba.toNat :=
    fun inside => unread ⟨none,inside⟩
  rw [BlockDev.block_read,if_neg outside]

/-- The checks of `is_gpt_valid` in their order, up to the one that decides. -/
theorem is_gpt_valid_cases : let valid := is_gpt_valid dev GPT_PRIMARY_PARTITION_TABLE_LBA
    (¬ Signed dev ∧ valid = some none) ∨
    (Signed dev ∧ 512 < (header dev).header_size.toNat ∧ valid = none) ∨
    ((header dev).header_size.toNat ≤ 512 ∧ ¬ Accepted dev ∧ valid = some none) ∨
    (Accepted dev ∧ 2 ^ 32 - 512 < count dev ∧ valid = none) ∨
    (Accepted dev ∧ count dev ≤ 2 ^ 32 - 512 ∧
      (crc32 0 ((array dev).take (count dev))).toBitVec ≠ (header dev).partition_entry_array_crc32 ∧ valid = some none) ∨
    (Accepted dev ∧ count dev ≤ 2 ^ 32 - 512 ∧
      (crc32 0 ((array dev).take (count dev))).toBitVec = (header dev).partition_entry_array_crc32 ∧
      valid = some (some (header dev,array dev))) := by
  intro valid
  have eq : valid = is_gpt_valid dev GPT_PRIMARY_PARTITION_TABLE_LBA := rfl
  have one : (GPT_PRIMARY_PARTITION_TABLE_LBA.setWidth 32).toNat = 1 := by decide
  by_cases present : 2 ≤ dev.lba.toNat
  swap
  · refine .inl ⟨fun signed => present signed.present,?_⟩
    rw [eq,is_gpt_valid,one,BlockDev.block_read,if_neg present]
  have block : dev.block_read 1 1 = some (load dev.disk 512 512) := block_read_inside present
  rw [is_gpt_valid,one,block] at eq
  have found : GptHeader.ofBytes (load dev.disk 512 512) = header dev := rfl
  simp only [found] at eq
  by_cases signature : (header dev).signature = GPT_HEADER_SIGNATURE
  swap
  · rw [if_pos signature] at eq
    exact .inl ⟨fun signed => signature signed.signature,eq⟩
  rw [if_neg (not_not_intro signature)] at eq
  by_cases size : 512 < (header dev).header_size.toNat
  · rw [if_pos size] at eq
    exact .inr (.inl ⟨⟨present,signature⟩,size,eq⟩)
  rw [if_neg size] at eq
  have small : (header dev).header_size.toNat ≤ 512 := by omega
  by_cases checksum : (crc32 0 ((((header dev).setCrc 0).bytes ++ (load dev.disk 512 512).drop 92).take
      (header dev).header_size.toNat)).toBitVec = (header dev).header_crc32
  swap
  · rw [if_pos checksum] at eq
    exact .inr (.inr (.inl ⟨small,fun accepted => checksum accepted.checksum,eq⟩))
  rw [if_neg (not_not_intro checksum)] at eq
  by_cases mine : (header dev).my_lba = GPT_PRIMARY_PARTITION_TABLE_LBA
  swap
  · rw [if_pos mine] at eq
    exact .inr (.inr (.inl ⟨small,fun accepted => mine accepted.mine,eq⟩))
  rw [if_neg (not_not_intro mine)] at eq
  by_cases usable : dev.lba.setWidth 64 < (header dev).first_usable_lba ∨ dev.lba.setWidth 64 < (header dev).last_usable_lba
  · rw [if_pos usable] at eq
    exact .inr (.inr (.inl ⟨small,fun accepted => accepted.usable usable,eq⟩))
  rw [if_neg usable] at eq
  by_cases readable : count dev ≠ 0 ∧
      ((header dev).partition_entry_lba.setWidth 32).toNat + BLOCK_CNT (count dev) ≤ dev.lba.toNat
  swap
  · rw [entries_unread readable] at eq
    exact .inr (.inr (.inl ⟨small,fun accepted => readable ⟨accepted.some_,accepted.inside⟩,eq⟩))
  have accepted : Accepted dev := ⟨⟨present,signature⟩,small,checksum,mine,usable,readable.1,readable.2⟩
  rw [entries_of_accepted accepted] at eq
  by_cases large : 2 ^ 32 - 512 < count dev
  · rw [if_pos large] at eq
    exact .inr (.inr (.inr (.inl ⟨accepted,large,eq⟩)))
  rw [if_neg large] at eq
  simp only at eq
  rw [← count] at eq
  have rest : count dev ≤ 2 ^ 32 - 512 := Nat.not_lt.mp large
  by_cases checksums : (crc32 0 ((array dev).take (count dev))).toBitVec = (header dev).partition_entry_array_crc32
  · rw [if_neg (not_not_intro checksums)] at eq
    exact .inr (.inr (.inr (.inr (.inr ⟨accepted,rest,checksums,eq⟩))))
  · rw [if_pos checksums] at eq
    exact .inr (.inr (.inr (.inr (.inl ⟨accepted,rest,checksums,eq⟩))))

theorem entry_in_bounds_iff (part_pos : 1 ≤ part) (accepted : Accepted dev) (room : count dev ≤ 2 ^ 32 - 512)
    (checksums : (crc32 0 ((array dev).take (count dev))).toBitVec = (header dev).partition_entry_array_crc32)
    (valid : is_gpt_valid dev GPT_PRIMARY_PARTITION_TABLE_LBA = some (some (header dev,array dev))) :
    (get_partition_info_efi dev part).isSome ↔ Fits dev part := by
  have before : part.toNat - 1 + 1 = part.toNat := by omega
  rw [get_partition_info_efi,if_neg (by omega),valid]
  simp only
  by_cases number : part > (header dev).num_partition_entries.toNat
  · rw [if_pos number]
    have missing : ¬ Listed dev part := fun listed => by
      have := listed.number
      omega
    exact ⟨fun _ => ⟨fun _ => accepted.size,fun _ => room,fun listed => absurd listed missing,fun listed => absurd listed missing⟩,
      fun _ => rfl⟩
  have listed : Listed dev part := ⟨accepted,checksums,by omega⟩
  rw [if_neg number,array_length,before]
  by_cases inside : 512 * BLOCK_CNT (count dev) < 128 * part.toNat
  · rw [if_pos inside]
    refine ⟨fun none => by simp at none,fun fits => ?_⟩
    have := fits.entryFits listed
    omega
  rw [if_neg inside,← entry]
  cases used : is_pte_valid (entry dev part) with
  | false =>
    refine ⟨fun _ => ⟨fun _ => accepted.size,fun _ => room,fun _ => by omega,fun _ valid => ?_⟩,fun _ => rfl⟩
    rw [used] at valid
    cases valid
  | true =>
    by_cases long : 32 ≤ (toCString (print_efiname (entry dev part))).length
    · rw [if_pos long]
      refine ⟨fun none => by simp at none,fun fits => ?_⟩
      have := fits.nameFits listed used
      omega
    · rw [if_neg long]
      exact ⟨fun _ => ⟨fun _ => accepted.size,fun _ => room,fun _ => by omega,fun _ _ => by omega⟩,fun _ => rfl⟩

end

def longHeader : GptHeader :=
  { signature := GPT_HEADER_SIGNATURE, revision := GPT_HEADER_REVISION_V1, header_size := 513, header_crc32 := 0, reserved1 := 0
    my_lba := 1, alternate_lba := 99, first_usable_lba := 34, last_usable_lba := 66, disk_guid := PARTITION_BASIC_DATA_GUID
    partition_entry_lba := 2, num_partition_entries := 128, sizeof_partition_entry := 128, partition_entry_array_crc32 := 0 }

end UBoot.GptSafe
