import UBoot.GptTable

/-!
The partition table that `gpt_restore` writes, as the readers see it. As long as no partition
ends behind block 2^32, what is read back is the layout that was asked for
(`restored_table_reads_back`). The header of the second table names the entries of the first,
so it is valid for as long as those survive (`backup_needs_primary_entries`).
-/
namespace UBoot.GptRestore
open List CStrings CNumbers Memory Gpt
open EnvCopies (crc32)

/-! ### The layout -/

/-- The place of each partition, its first block and its number of blocks, if nothing wraps. A
    partition without a start begins at `free`, where the one before ends; the last one may take
    all blocks up to `total`. -/
def layout (total : Nat) : Nat → List DiskPartition → List (Nat × Nat)
  | _, [] => []
  | free, p :: rest =>
    let start := if p.start ≠ 0 then p.start.toNat else free
    let size := if rest = [] ∧ p.size = 0 then total - start else p.size.toNat
    (start,size) :: layout total (start + size) rest

/-- The place of a partition, as `get_partition_info_efi` computes it from the entry. -/
def entryPlace (e : GptEntry) : Nat × Nat :=
  ((e.starting_lba.setWidth 32).toNat,
    ((e.ending_lba + 1 - (e.starting_lba.setWidth 32).setWidth 64).setWidth 32).toNat)

variable {last : BitVec 64} {offset : BitVec 32} {p : DiskPartition} {parts : List DiskPartition} {guid : Guid}

theorem starting_toNat (p : DiskPartition) (offset : BitVec 32) :
    (p.starting offset).toNat = if p.start ≠ 0 then p.start.toNat else offset.toNat := by
  rw [DiskPartition.starting]
  split_ifs <;> rfl

theorem entry_place (small : last.toNat < 2 ^ 32 - 1) (fits : ¬ last ≤ (p.starting offset + p.size).setWidth 64) :
    entryPlace (p.entry last offset parts guid) =
      ((p.starting offset).toNat,
        if parts = [] ∧ p.size = 0 then last.toNat + 1 - (p.starting offset).toNat else p.size.toNat) := by
  simp only [entryPlace,DiskPartition.entry,Prod.mk.injEq]
  constructor
  · bv_omega
  split_ifs with rest
  · bv_omega
  · bv_omega

theorem layout_cons {total : Nat} (fits : (p.starting offset).toNat + p.size.toNat < 2 ^ 32) :
    layout total offset.toNat (p :: parts) =
      ((p.starting offset).toNat,if parts = [] ∧ p.size = 0 then total - (p.starting offset).toNat else p.size.toNat) ::
        layout total (p.starting offset + p.size).toNat parts := by
  have behind : (p.starting offset + p.size).toNat = (p.starting offset).toNat + p.size.toNat := by bv_omega
  rw [layout,← starting_toNat,behind]
  cases parts with
  | nil => simp [layout]
  | cons q parts => simp

/-- What the loop over the partitions lays out, as long as no partition wraps. -/
structure LaidOut (last first : Nat) (entries : List GptEntry) (places : List (Nat × Nat)) : Prop where
  same : entries.map entryPlace = places
  usable : ∀ x ∈ places, first ≤ x.1 ∧ x.1 + x.2 ≤ last + 1
  ordered : places.Pairwise fun x y => x.1 + x.2 ≤ y.1
  room : places ≠ [] → first < last

theorem fillLoop_laidOut {entries : List GptEntry} (small : last.toNat < 2 ^ 32 - 1)
    (filled : fillLoop last offset parts = some entries)
    (noWrap : ∀ x ∈ layout (last.toNat+1) offset.toNat parts, x.1 + x.2 < 2 ^ 32) :
    LaidOut last.toNat offset.toNat entries (layout (last.toNat+1) offset.toNat parts) := by
  induction parts generalizing offset entries with
  | nil =>
    cases filled
    exact ⟨rfl,by simp [layout],by simp [layout],by simp [layout]⟩
  | cons p parts ih =>
    obtain ⟨behind,fits,guid,-,rest,others,rfl⟩ := fillLoop_cons.mp filled
    -- the size 0 that stands for the rest of the disk does not wrap either
    have whole : (p.starting offset).toNat + p.size.toNat < 2 ^ 32 := by
      have first := noWrap _ (by exact mem_cons_self ..)
      simp only [← starting_toNat] at first
      split_ifs at first with remainder
      · have := (p.starting offset).isLt
        rw [remainder.2]
        simpa using this
      · exact first
    have start : offset.toNat ≤ (p.starting offset).toNat := by
      rw [DiskPartition.starting]
      split_ifs with given
      · exact BitVec.not_lt.mp fun less => behind ⟨given,less⟩
      · exact le_rfl
    have stop : (p.starting offset).toNat + p.size.toNat < last.toNat := by bv_omega
    have next : (p.starting offset + p.size).toNat = (p.starting offset).toNat + p.size.toNat := by bv_omega
    rw [layout_cons whole] at noWrap ⊢
    have tail := ih others fun x member => noWrap x (mem_cons_of_mem _ member)
    refine ⟨?_,?_,?_,fun _ => by omega⟩
    · rw [map_cons,entry_place small fits,tail.same]
    · intro x member
      rcases mem_cons.mp member with rfl | member
      · split_ifs <;> simp only <;> omega
      · have := tail.usable x member
        omega
    refine pairwise_cons.mpr ⟨?_,tail.ordered⟩
    intro x member
    have := tail.usable x member
    split_ifs with final
    · rw [final.1] at member
      simp [layout] at member
    · omega

/-! ### Names -/

/-- A name of at most 31 printable characters, with its terminator. -/
def Printable (name : List UInt8) : Prop := 0 ∈ name ∧ ∀ c ∈ (toCString name).bytes, isprint c = true

theorem print_efiname_entry (printable : Printable p.name) :
    toCString (print_efiname (p.entry last offset parts guid)) = toCString p.name := by
  have chars : print_efiname (p.entry last offset parts guid) =
      p.name.map (fun c => if c ≠ 0 && !isprint c then 46 else c) ++ zeros 4 := by
    simp only [print_efiname,DiskPartition.entry,entryName,map_append,map_map]
    congr 1
    apply map_congr_left
    intro c _
    have small := c.toNat_lt
    have same : UInt8.ofNat (BitVec.ofNat 16 c.toNat).toNat = c := by
      rw [BitVec.toNat_ofNat,Nat.mod_eq_of_lt (by omega),UInt8.ofNat_toNat]
    simp only [Function.comp_apply,same]
  obtain ⟨nul,printed⟩ := printable
  ext1
  rw [chars]
  simp only [toCString] at printed ⊢
  -- along the characters in front of the terminator
  generalize p.name = name at nul printed
  induction name with
  | nil => simp at nul
  | cons c name ih =>
    by_cases zero : c = 0
    · subst zero
      simp
    have member : (0 : UInt8) ∈ name := by simpa [Ne.symm zero] using nul
    simp only [takeWhile_cons,ne_eq,zero,not_false_eq_true,decide_true,if_true,forall_mem_cons] at printed
    simp only [map_cons,cons_append,takeWhile_cons,printed.1,Bool.not_true,Bool.and_false,
      Bool.false_eq_true,if_false,ne_eq,zero,not_false_eq_true,decide_true,if_true]
    rw [ih member printed.2]

theorem name_short (printable : Printable p.name) : (toCString p.name).length < 32 := by
  rw [← p.name_length]
  refine lt_of_le_of_ne (takeWhile_sublist _).length_le fun whole => ?_
  have all := (takeWhile_eq_self_iff).mp ((takeWhile_sublist _).eq_of_length whole)
  simpa using all 0 printable.1

theorem fillLoop_each {entries : List GptEntry} (filled : fillLoop last offset parts = some entries) :
    List.Forall₂ (fun p e => ∃ offset rest guid, e = p.entry last offset rest guid) parts entries := by
  induction parts generalizing offset entries with
  | nil =>
    cases filled
    exact .nil
  | cons p parts ih =>
    obtain ⟨-,-,guid,-,rest,others,rfl⟩ := fillLoop_cons.mp filled
    exact .cons ⟨offset,parts,guid,rfl⟩ (ih others)

/-! ### The device -/

section
variable {disk : Nat → UInt8} {lba : Nat} {mbr first array second : List UInt8}

theorem written_mbr (room : 34 ≤ lba) (size : mbr.length = 512) :
    load (written disk lba mbr first array second) 0 512 = mbr := by
  rw [written,load_store_apart (by omega),load_store_apart (by omega),load_store_apart (by omega),
    load_store_apart (by omega),load_store_of_length size]

theorem written_first (room : 35 ≤ lba) (size : first.length = 512) :
    load (written disk lba mbr first array second) 512 512 = first := by
  rw [written,load_store_apart (by omega),load_store_apart (by omega),load_store_apart (by omega),
    load_store_of_length size]

theorem written_second (size : second.length = 512) :
    load (written disk lba mbr first array second) (512 * (lba-1)) 512 = second := by
  rw [written,load_store_of_length size]

/-- The entries of a small device survive the second copy only if they are all empty. -/
theorem written_array (room : 35 ≤ lba) (size : array.length = 16384) (fits : 67 ≤ lba ∨ array = zeros 16384) :
    load (written disk lba mbr first array second) 1024 16384 = array := by
  rw [written,load_store_apart (by omega)]
  rcases fits with large | rfl
  · rw [load_store_apart (by omega),load_store_of_length size]
  apply load_zeros
  intro x low high
  obtain ⟨i,rfl⟩ := Nat.exists_eq_add_of_le low
  by_cases again : 512 * (lba-33) ≤ 1024 + i ∧ 1024 + i < 512 * (lba-33) + 16384
  · obtain ⟨j,same⟩ := Nat.exists_eq_add_of_le again.1
    rw [same,store_inside (by omega),zeros_getElem]
  · rw [store_outside (by omega),store_inside (by omega),zeros_getElem]
end

/-! ### Reading the tables -/

section
variable {dev : BlockDev} {h : GptHeader} {array : List UInt8}

theorem fresh_bounds (fresh : h.Fresh dev.lba) (room : 34 ≤ dev.lba.toNat) :
    ¬ (dev.lba.setWidth 64 < h.first_usable_lba ∨ dev.lba.setWidth 64 < h.last_usable_lba) := by
  rw [fresh.first_usable_lba,fresh.last_usable_lba]
  bv_omega

theorem fresh_last (fresh : h.Fresh dev.lba) (room : 34 ≤ dev.lba.toNat) :
    h.last_usable_lba.toNat = dev.lba.toNat - 34 := by
  rw [fresh.last_usable_lba]
  bv_omega

theorem primary_valid (fresh : h.Fresh dev.lba) (room : 34 ≤ dev.lba.toNat)
    (block : load dev.disk 512 512 = (h.primary array).block) :
    is_gpt_valid dev GPT_PRIMARY_PARTITION_TABLE_LBA =
      some (if (crc32 0 (load dev.disk 1024 16384)).toBitVec = (crc32 0 array).toBitVec then
        some (h.primary array,load dev.disk 1024 16384) else none) := by
  have stored : dev.block_read (GPT_PRIMARY_PARTITION_TABLE_LBA.setWidth 32).toNat 1 = some (h.primary array).block := by
    rw [← block]
    exact block_read_inside (show 1 + 1 ≤ _ by omega)
  have bounds := fresh_bounds fresh room
  exact sealed_valid stored fresh.signature fresh.header_size fresh.my_lba bounds
    fresh.partition_entry_lba fresh.num_partition_entries fresh.sizeof_partition_entry room

/-- The second header, where it is still in its place, gives what stands in blocks 2 to 33. -/
theorem backup_valid (fresh : h.Fresh dev.lba) (room : 34 ≤ dev.lba.toNat)
    (block : load dev.disk (512 * (dev.lba.toNat-1)) 512 = (h.backup array).block) :
    is_gpt_valid dev h.alternate_lba =
      some (if (crc32 0 (load dev.disk 1024 16384)).toBitVec = (crc32 0 array).toBitVec then
        some (h.backup array,load dev.disk 1024 16384) else none) := by
  have place : (h.alternate_lba.setWidth 32).toNat = dev.lba.toNat - 1 := by
    rw [fresh.alternate_lba]
    bv_omega
  have stored : dev.block_read (h.alternate_lba.setWidth 32).toNat 1 = some (h.backup array).block := by
    rw [place,← block]
    exact block_read_inside (by omega)
  have bounds := fresh_bounds fresh room
  exact sealed_valid stored fresh.signature fresh.header_size rfl bounds
    fresh.partition_entry_lba fresh.num_partition_entries fresh.sizeof_partition_entry room

/-- What `get_partition_info_efi` makes of an entry. -/
def entryInfo (e : GptEntry) : PartitionInfo where
  start := e.starting_lba.setWidth 32
  size := (e.ending_lba + 1 - (e.starting_lba.setWidth 32).setWidth 64).setWidth 32
  blksz := 512
  name := toCString (print_efiname e)
  bootable := is_bootable e

def infoPlace (info : PartitionInfo) : Nat × Nat := (info.start.toNat,info.size.toNat)

theorem get_partition_info_piece {pte : List UInt8} {e : GptEntry} {i : Nat}
    (valid : is_gpt_valid dev GPT_PRIMARY_PARTITION_TABLE_LBA = some (some (h,pte))) (inside : i < h.num_partition_entries.toNat)
    (room : 128 * (i+1) ≤ pte.length) (piece : (pte.drop (128*i)).take 128 = e.bytes) (name : e.partition_name.length = PARTNAME_SZ)
    (used : is_pte_valid e = true) (short : (toCString (print_efiname e)).length < 32) :
    get_partition_info_efi dev (i+1) = some (some (entryInfo e)) := by
  have part : ((i : Int) + 1).toNat - 1 = i := by omega
  simp only [get_partition_info_efi,valid,part,piece,GptEntry.ofBytes_bytes name,used]
  rw [if_neg (by omega),if_neg (by omega),if_neg (by omega),if_neg (by decide),if_neg (by omega)]
  rfl

theorem get_partition_info_entry {entries : List GptEntry}
    (valid : is_gpt_valid dev GPT_PRIMARY_PARTITION_TABLE_LBA = some (some (h,entryArray entries)))
    (num : h.num_partition_entries = 128) (few : entries.length ≤ 128)
    (names : ∀ e ∈ entries, e.partition_name.length = PARTNAME_SZ) {i : Nat} (inside : i < entries.length)
    (used : is_pte_valid entries[i] = true) (short : (toCString (print_efiname entries[i])).length < 32) :
    get_partition_info_efi dev (i+1) = some (some (entryInfo entries[i])) := by
  have limit : (128 : BitVec 32).toNat = 128 := rfl
  have piece : ((entryArray entries).drop (128*i)).take 128 = entries[i].bytes := by
    rw [entryArray,drop_take,take_take,Nat.min_eq_left (by omega)]
    exact flatMap_piece (fun e member => GptEntry.bytes_length (names e member)) _ inside
  refine get_partition_info_piece valid ?_ ?_ piece (names _ (getElem_mem inside)) used short
  · rw [num]
    omega
  · rw [entryArray_length]
    omega
end

/-! ### The first table -/

def NoWrap (lba : BitVec 32) (parts : List DiskPartition) : Prop :=
  ∀ x ∈ layout (lba.toNat - 33) 34 parts, x.1 + x.2 < 2 ^ 32

/-- The readers accept the first table and find the partitions where they were asked for. -/
structure ReadsBack (dev : BlockDev) (parts : List DiskPartition) (h : GptHeader) (infos : List PartitionInfo) :
    Prop where
  mbr : test_part_efi dev = true
  header : ∃ pte, is_gpt_valid dev GPT_PRIMARY_PARTITION_TABLE_LBA = some (some (h,pte))
  found : ∀ i (inside : i < infos.length), get_partition_info_efi dev (i + 1) = some (some infos[i])
  names : infos.map (·.name) = parts.map fun p => toCString p.name
  places : infos.map infoPlace = layout (h.last_usable_lba.toNat + 1) h.first_usable_lba.toNat parts
  disjoint : (infos.map infoPlace).Pairwise fun x y => x.1 + x.2 ≤ y.1 ∨ y.1 + y.2 ≤ x.1
  usable : ∀ x ∈ infos.map infoPlace,
    h.first_usable_lba.toNat ≤ x.1 ∧ x.1 + x.2 ≤ h.last_usable_lba.toNat + 1

section
variable {heap : Heap} {a b c : Nat} {dev dev' : BlockDev} {guid : CString} {parts : List DiskPartition}

theorem fillLoop_names {last : BitVec 64} {offset : BitVec 32} {entries : List GptEntry}
    (filled : fillLoop last offset parts = some entries) (names : ∀ p ∈ parts, Printable p.name) :
    entries.map (fun e => toCString (print_efiname e)) = (parts.map fun p => toCString p.name) ∧
      ∀ e ∈ entries, is_pte_valid e = true ∧ (toCString (print_efiname e)).length < 32 := by
  have each := fillLoop_each filled
  clear filled
  induction each with
  | nil => simp
  | @cons p e parts entries made _ ih =>
    obtain ⟨offset,rest,guid,rfl⟩ := made
    obtain ⟨printable,others⟩ := forall_mem_cons.mp names
    obtain ⟨same,each⟩ := ih others
    refine ⟨by rw [map_cons,map_cons,print_efiname_entry printable,same],forall_mem_cons.mpr ⟨?_,each⟩⟩
    rw [print_efiname_entry printable]
    exact ⟨show decide (PARTITION_BASIC_DATA_GUID.b ≠ zeros 16) = true by decide,name_short printable⟩

/-- On 34 blocks the second copy of the entries lies on the first header. -/
theorem empty_table_lost (disk : Nat → UInt8) (mbr first second : List UInt8) :
    is_gpt_valid ⟨34,written disk 34 mbr first (zeros 16384) second⟩ GPT_PRIMARY_PARTITION_TABLE_LBA = some none := by
  have block : load (written disk 34 mbr first (zeros 16384) second) 512 512 = zeros 512 := by
    apply load_zeros
    intro x low high
    obtain ⟨i,rfl⟩ := Nat.exists_eq_add_of_le low
    rw [written,store_outside (by omega),store_inside (by simp; omega),zeros_getElem]
  have read : (⟨34,written disk 34 mbr first (zeros 16384) second⟩ : BlockDev).block_read
      (GPT_PRIMARY_PARTITION_TABLE_LBA.setWidth 32).toNat 1 = some (zeros 512) := by
    rw [← block]
    exact block_read_inside (show 1 + 1 ≤ 34 by decide)
  simp only [is_gpt_valid,read]
  rw [if_pos zeros_unsigned]

theorem gpt_fill_pte_eq {h : GptHeader} (fresh : h.Fresh dev.lba) :
    gpt_fill_pte h parts = fillLoop h.last_usable_lba 34 parts := by
  rw [gpt_fill_pte,fresh.first_usable_lba]
  rfl

theorem entryArray_nil : entryArray [] = zeros 16384 :=
  show (zeros 16384).take 16384 = zeros 16384 from take_of_length_le (by simp)

theorem smallest_device {h : GptHeader} {entries : List GptEntry} (fresh : h.Fresh dev.lba)
    (filled : gpt_fill_pte h parts = some entries) (lba : dev.lba = 34) : parts = [] ∧ entries = [] := by
  cases parts with
  | nil => exact ⟨rfl,(Option.some.inj filled).symm⟩
  | cons p parts =>
    obtain ⟨-,fits,-⟩ := fillLoop_cons.mp filled
    rw [fresh.last_usable_lba] at fits
    exact absurd (by bv_omega) fits

theorem noWrap_of_usable {infos : List PartitionInfo} {h : GptHeader} (reads : ReadsBack dev' parts h infos)
    (first : h.first_usable_lba = 34) (last : h.last_usable_lba.toNat = dev.lba.toNat - 34)
    (room : 34 ≤ dev.lba.toNat) : NoWrap dev.lba parts := by
  have inside := reads.usable
  rw [reads.places,last,first,show dev.lba.toNat - 34 + 1 = dev.lba.toNat - 33 by omega] at inside
  intro x member
  have := (inside x member).2
  omega

theorem restored_entries {h : GptHeader} {entries : List GptEntry} {mbr first second : List UInt8} {disk : Nat → UInt8}
    (room : 35 ≤ dev.lba.toNat) (laidOut : LaidOut (dev.lba.toNat-34) 34 entries (layout (dev.lba.toNat-33) 34 parts))
    (filled : gpt_fill_pte h parts = some entries) :
    load (written disk dev.lba.toNat mbr first (entryArray entries) second) 1024 16384 = entryArray entries := by
  refine written_array room (entryArray_length _) ?_
  cases parts with
  | nil =>
    cases filled
    exact .inr entryArray_nil
  | cons p parts =>
    have := laidOut.room (by simp [layout])
    omega

theorem laidOut_of_noWrap {h : GptHeader} {entries : List GptEntry} (fresh : h.Fresh dev.lba)
    (room : 34 ≤ dev.lba.toNat) (filled : gpt_fill_pte h parts = some entries) (noWrap : NoWrap dev.lba parts) :
    LaidOut (dev.lba.toNat-34) 34 entries (layout (dev.lba.toNat-33) 34 parts) := by
  have last := fresh_last fresh room
  have total : dev.lba.toNat - 34 + 1 = dev.lba.toNat - 33 := by omega
  rw [gpt_fill_pte_eq fresh] at filled
  have laid := @fillLoop_laidOut h.last_usable_lba 34 parts entries (by omega) filled
  rw [last,total] at laid
  exact laid noWrap

theorem readsBack_of_laidOut {h : GptHeader} {entries : List GptEntry} {mbr : List UInt8} {disk : Nat → UInt8}
    (fresh : h.Fresh dev.lba) (room : 35 ≤ dev.lba.toNat) (few : parts.length ≤ GPT_ENTRY_NUMBERS)
    (names : ∀ p ∈ parts, Printable p.name) (filled : gpt_fill_pte h parts = some entries)
    (noWrap : NoWrap dev.lba parts) (size : mbr.length = 512) (valid : is_pmbr_valid mbr = true) :
    ReadsBack ⟨dev.lba,written disk dev.lba.toNat mbr (h.primary (entryArray entries)).block (entryArray entries)
      (h.backup (entryArray entries)).block⟩ parts (h.primary (entryArray entries)) (entries.map entryInfo) := by
  have laidOut := laidOut_of_noWrap fresh (by omega) filled noWrap
  have freshLast := fresh_last fresh (by omega)
  have last : (h.primary (entryArray entries)).last_usable_lba.toNat = dev.lba.toNat - 34 := freshLast
  have first : (h.primary (entryArray entries)).first_usable_lba = 34 := fresh.first_usable_lba
  have total : dev.lba.toNat - 34 + 1 = dev.lba.toNat - 33 := by omega
  have array := @restored_entries _ _ _ _ mbr (h.primary (entryArray entries)).block
    (h.backup (entryArray entries)).block disk room laidOut filled
  generalize onDisk : written disk dev.lba.toNat mbr (h.primary (entryArray entries)).block (entryArray entries)
    (h.backup (entryArray entries)).block = after at array ⊢
  have header : is_gpt_valid ⟨dev.lba,after⟩ GPT_PRIMARY_PARTITION_TABLE_LBA =
      some (some (h.primary (entryArray entries),entryArray entries)) := by
    have block : load after 512 512 = (h.primary (entryArray entries)).block := by
      rw [← onDisk,written_first room (GptHeader.block_length _)]
    rw [@primary_valid ⟨dev.lba,after⟩ h _ fresh (by simp only; omega) block,array,if_pos rfl]
  have places : (entries.map entryInfo).map infoPlace = layout (dev.lba.toNat-33) 34 parts := by
    rw [map_map]
    exact laidOut.same
  obtain ⟨count,lengths⟩ := fillLoop_entries filled
  obtain ⟨same,each⟩ := fillLoop_names filled names
  refine ⟨?_,⟨_,header⟩,?_,?_,?_,?_,?_⟩
  · have read : (⟨dev.lba,after⟩ : BlockDev).block_read 0 1 = some mbr := by
      rw [@block_read_inside ⟨dev.lba,after⟩ 0 1 (by simp only; omega),← onDisk]
      exact congrArg some (written_mbr (by omega) size)
    rw [test_part_efi,read]
    exact valid
  · intro i inside
    have entry : i < entries.length := by simpa using inside
    obtain ⟨used,short⟩ := each _ (getElem_mem entry)
    rw [getElem_map]
    exact get_partition_info_entry header fresh.num_partition_entries (count ▸ few) lengths entry used short
  · rw [map_map,← same]
    rfl
  · rw [places,last,first,total]
    rfl
  · rw [places]
    exact laidOut.ordered.imp .inl
  · rw [places,last,first]
    exact laidOut.usable

theorem readsBack_noWrap {h h' : GptHeader} {entries : List GptEntry} {mbr : List UInt8} {disk : Nat → UInt8}
    {infos : List PartitionInfo} (fresh : h.Fresh dev.lba) (room : 35 ≤ dev.lba.toNat)
    (reads : ReadsBack ⟨dev.lba,written disk dev.lba.toNat mbr (h.primary (entryArray entries)).block
      (entryArray entries) (h.backup (entryArray entries)).block⟩ parts h' infos) : NoWrap dev.lba parts := by
  obtain ⟨pte,valid⟩ := reads.header
  have last := fresh_last fresh (by omega)
  have block := @written_first disk dev.lba.toNat mbr (h.primary (entryArray entries)).block (entryArray entries)
    (h.backup (entryArray entries)).block room (GptHeader.block_length _)
  generalize written disk dev.lba.toNat mbr (h.primary (entryArray entries)).block (entryArray entries)
    (h.backup (entryArray entries)).block = after at block valid reads
  rw [@primary_valid ⟨dev.lba,after⟩ h _ fresh (by simp only; omega) block] at valid
  split_ifs at valid
  · cases valid
    exact noWrap_of_usable reads fresh.first_usable_lba last (by omega)
  · cases valid

/-- A table reads back if no partition wraps, and the device has room for both copies. The 512 bytes
    from the small buffer of the MBR on are assumed to miss the other buffers. -/
theorem restored_table_reads_back (apart : heap.Apart parts.length a b c) (few : parts.length ≤ GPT_ENTRY_NUMBERS)
    (names : ∀ p ∈ parts, Printable p.name) (done : gpt_restore heap dev guid parts = some dev') :
    (∃ h infos, ReadsBack dev' parts h infos) ↔ NoWrap dev.lba parts ∧ ¬ (parts = [] ∧ dev.lba = 34) := by
  obtain ⟨h,entries,header,filled,room,rfl⟩ := (gpt_restore_iff apart).mp done
  have fresh := gpt_fill_header_fresh header
  by_cases lba : dev.lba = 34
  · obtain ⟨rfl,rfl⟩ := smallest_device fresh filled lba
    refine iff_of_false ?_ (fun holds => holds.2 ⟨rfl,lba⟩)
    rintro ⟨h',infos,reads⟩
    obtain ⟨pte,valid⟩ := reads.header
    rw [lba,entryArray_nil] at valid
    cases (empty_table_lost ..).symm.trans valid
  have enough : 35 ≤ dev.lba.toNat := by bv_omega
  constructor
  · rintro ⟨h',infos,reads⟩
    exact ⟨readsBack_noWrap fresh enough reads,fun small => lba small.2⟩
  · rintro ⟨noWrap,-⟩
    exact ⟨_,_,readsBack_of_laidOut fresh enough few names filled noWrap load_length (mbr_valid ..)⟩
end

def roomyHeap : Heap := ⟨fun _ => 0,some 0,some 1024,some 32768⟩

theorem roomyHeap_apart {n : Nat} : roomyHeap.Apart n 0 1024 32768 :=
  ⟨rfl,rfl,rfl,.inl (by decide),.inr (by decide),.inr (by decide)⟩

def zeroGuid : CString := .ofString "00000000-0000-0000-0000-000000000000"

def partition (c : UInt8) (start size : BitVec 32) : DiskPartition :=
  ⟨start,size,c :: zeros 31,by simp,zeroGuid⟩

def blankDisk : BlockDev := ⟨200,fun _ => 0⟩

theorem partition_printable {c : UInt8} {start size : BitVec 32} (printed : isprint c = true) (some : c ≠ 0) :
    Printable (partition c start size).name := by
  refine ⟨mem_cons_of_mem _ (by decide),?_⟩
  have name : (toCString (c :: zeros 31)).bytes = [c] := by
    have rest : (zeros 31).takeWhile (· ≠ 0) = [] := by decide
    simp only [toCString,takeWhile_cons,ne_eq,some,not_false_eq_true,decide_true,if_true,rest]
  rw [partition,name]
  simpa using printed

theorem blankDisk_restored {parts : List DiskPartition} (laid : (fillLoop 166 34 parts).isSome = true) :
    ∃ h entries, gpt_fill_header blankDisk zeroGuid = some h ∧ gpt_fill_pte h parts = some entries ∧
      gpt_restore roomyHeap blankDisk zeroGuid parts = some ⟨200,written blankDisk.disk 200
        (roomyHeap.mbr 0 1024 32768 200 h entries) (h.primary (entryArray entries)).block (entryArray entries)
        (h.backup (entryArray entries)).block⟩ := by
  have made : (gpt_fill_header blankDisk zeroGuid).isSome = true := by decide
  obtain ⟨h,header⟩ := Option.isSome_iff_exists.mp made
  obtain ⟨entries,filled⟩ := Option.isSome_iff_exists.mp laid
  have fresh := gpt_fill_header_fresh header
  have same : gpt_fill_pte h parts = some entries := by
    rw [gpt_fill_pte_eq fresh,fresh.last_usable_lba,← filled]
    rfl
  exact ⟨h,entries,header,same,(gpt_restore_iff roomyHeap_apart).mpr ⟨h,entries,header,same,by decide,rfl⟩⟩

/-- A partition with a place of its own and one that takes the rest of the disk. -/
theorem two_partitions_read_back :
    ∃ dev' h infos, gpt_restore roomyHeap blankDisk zeroGuid [partition 98 40 10,partition 100 0 0] = some dev' ∧
      ReadsBack dev' [partition 98 40 10,partition 100 0 0] h infos := by
  obtain ⟨_,_,-,-,done⟩ := @blankDisk_restored [partition 98 40 10,partition 100 0 0] (by decide)
  have names : ∀ p ∈ [partition 98 40 10,partition 100 0 0], Printable p.name := by
    simp only [forall_mem_cons,not_mem_nil,false_implies,implies_true,and_true]
    exact ⟨partition_printable (by decide) (by decide),partition_printable (by decide) (by decide)⟩
  obtain ⟨h,infos,reads⟩ := (restored_table_reads_back roomyHeap_apart (by decide) names done).mpr
    ⟨by rw [NoWrap]; decide,by simp⟩
  exact ⟨_,h,infos,done,reads⟩

/-- The end of a partition of 2^32 - 1 blocks wraps to a block in front of its start. -/
theorem wrapping_partition_accepted :
    ∃ dev', gpt_restore roomyHeap blankDisk zeroGuid [partition 97 100 0xFFFFFFFF] = some dev' ∧
      ∀ h infos, ¬ ReadsBack dev' [partition 97 100 0xFFFFFFFF] h infos := by
  obtain ⟨h,entries,header,-,done⟩ := @blankDisk_restored [partition 97 100 0xFFFFFFFF] (by decide)
  refine ⟨_,done,fun h' infos reads => ?_⟩
  have noWrap := @readsBack_noWrap blankDisk _ _ _ _ _ _ _ (gpt_fill_header_fresh header) (by decide) reads
  rw [NoWrap] at noWrap
  revert noWrap
  decide

/-! ### The second table -/

/-- A table that is found valid has a signed header, and its entries are read from where it says. -/
theorem is_gpt_valid_some {dev : BlockDev} {lba : BitVec 64} {h : GptHeader} {pte : List UInt8}
    (valid : is_gpt_valid dev lba = some (some (h,pte))) :
    ∃ buf, dev.block_read (lba.setWidth 32).toNat 1 = some buf ∧ GptHeader.ofBytes buf = h ∧
      h.signature = GPT_HEADER_SIGNATURE ∧ alloc_read_gpt_entries dev h = some (some pte) := by
  rw [is_gpt_valid] at valid
  cases block : dev.block_read (lba.setWidth 32).toNat 1 with
  | none =>
    rw [block] at valid
    cases valid
  | some buf =>
    simp only [block] at valid
    generalize found_eq : GptHeader.ofBytes buf = found at valid
    rcases entries : alloc_read_gpt_entries dev found with _ | _ | read
    · rw [entries] at valid
      split_ifs at valid <;> cases valid
    · rw [entries] at valid
      split_ifs at valid <;> cases valid
    rw [entries] at valid
    simp only at valid
    split_ifs at valid with signature <;> cases valid
    exact ⟨buf,rfl,found_eq,not_not.mp signature,entries⟩

section
variable {heap : Heap} {a b c : Nat} {dev dev' dev'' : BlockDev} {guid : CString} {parts : List DiskPartition}
  {h : GptHeader} {entries : List GptEntry}

/-- The header of a second table in block 33 would be one of its own entries. -/
theorem smallest_backup_invalid {array : List UInt8} (clear : array = zeros 16384) (fresh : h.Fresh dev.lba)
    (lba : dev.lba = 34) : is_gpt_valid dev h.alternate_lba ≠ some (some (h.backup array,array)) := by
  intro valid
  obtain ⟨buf,block,found,signature,read⟩ := is_gpt_valid_some valid
  have place : (h.alternate_lba.setWidth 32).toNat = 33 := by
    rw [fresh.alternate_lba,lba]
    rfl
  have size : dev.lba.toNat = 34 := congrArg BitVec.toNat lba
  rw [place,block_read_inside (by omega)] at block
  have onDisk : load dev.disk 1024 16384 = array := by
    have stored := @entries_read (h.backup array) dev fresh.partition_entry_lba
      fresh.num_partition_entries fresh.sizeof_partition_entry (by omega)
    exact Option.some.inj (Option.some.inj (stored.symm.trans read))
  have last : load dev.disk (512*33) (512*1) = zeros 512 := by
    have part := congrArg (List.drop 15872) (onDisk.trans clear)
    rw [load_drop (by decide),zeros_drop] at part
    simpa only [Nat.reduceAdd] using part
  rw [last] at block
  cases block
  exact zeros_unsigned (found ▸ signature)

/-- After any change to blocks 0 to 33 the second table is found and gives the entries that were
    written exactly if blocks 2 to 33 hold those entries again: its header names the entries of the
    first table, not the copy in front of it. -/
theorem backup_needs_primary_entries (apart : heap.Apart parts.length a b c)
    (done : gpt_restore heap dev guid parts = some dev') (header : gpt_fill_header dev guid = some h)
    (filled : gpt_fill_pte h parts = some entries) (size : dev''.lba = dev'.lba)
    (kept : ∀ x, 512 * 34 ≤ x → dev''.disk x = dev'.disk x) :
    is_gpt_valid dev'' h.alternate_lba = some (some (h.backup (entryArray entries),entryArray entries)) ↔
      35 ≤ dev.lba.toNat ∧ load dev''.disk 1024 16384 = entryArray entries := by
  obtain ⟨h₁,entries₁,header₁,filled₁,room,rfl⟩ := (gpt_restore_iff apart).mp done
  cases header.symm.trans header₁
  cases filled.symm.trans filled₁
  have fresh := gpt_fill_header_fresh header
  rw [← size] at fresh
  have sameSize : dev''.lba.toNat = dev.lba.toNat := congrArg BitVec.toNat size
  by_cases lba : dev.lba = 34
  · obtain ⟨rfl,rfl⟩ := smallest_device (gpt_fill_header_fresh header) filled lba
    refine iff_of_false (smallest_backup_invalid entryArray_nil fresh (size.trans lba)) fun holds => ?_
    bv_omega
  have enough : 35 ≤ dev.lba.toNat := by bv_omega
  have block : load dev''.disk (512 * (dev''.lba.toNat-1)) 512 = (h.backup (entryArray entries)).block := by
    rw [sameSize,← @written_second dev.disk dev.lba.toNat (heap.mbr a b c dev.lba h entries)
      (h.primary (entryArray entries)).block (entryArray entries) _ (GptHeader.block_length _)]
    exact load_congr fun x low _ => kept x (by omega)
  rw [backup_valid fresh (by omega) block,and_iff_right enough]
  constructor
  · intro valid
    split_ifs at valid
    · exact (Prod.mk.inj (Option.some.inj (Option.some.inj valid))).2
    · cases valid
  · intro same
    rw [same,if_pos rfl]
end

theorem blankDisk_tables {parts : List DiskPartition} (laid : (fillLoop 166 34 parts).isSome = true)
    (noWrap : NoWrap 200 parts) :
    ∃ disk h entries, gpt_fill_header blankDisk zeroGuid = some h ∧ gpt_fill_pte h parts = some entries ∧
      gpt_restore roomyHeap blankDisk zeroGuid parts = some ⟨200,disk⟩ ∧
      load disk 512 512 = (h.primary (entryArray entries)).block ∧ load disk 1024 16384 = entryArray entries ∧
      load disk (512 * (200-1)) 512 = (h.backup (entryArray entries)).block := by
  obtain ⟨h,entries,header,filled,done⟩ := blankDisk_restored laid
  have laidOut := laidOut_of_noWrap (gpt_fill_header_fresh header) (by decide) filled noWrap
  exact ⟨_,h,entries,header,filled,done,written_first (by decide) (GptHeader.block_length _),
    @restored_entries blankDisk _ _ _ _ _ _ _ (by decide) laidOut filled,written_second (GptHeader.block_length _)⟩

/-- Without its MBR and its first header the device still has the second table. -/
theorem backup_found_without_primary_header :
    ∃ dev' h pte, gpt_restore roomyHeap blankDisk zeroGuid [partition 97 40 10] = some dev' ∧
      is_gpt_valid ⟨200,store dev'.disk 0 (zeros 1024)⟩ 199 = some (some (h,pte)) := by
  obtain ⟨disk,h,entries,header,filled,done,-,array,-⟩ := @blankDisk_tables [partition 97 40 10] (by decide)
    (by rw [NoWrap]; decide)
  have alternate : h.alternate_lba = 199 := (gpt_fill_header_fresh header).alternate_lba
  have kept : ∀ x, 512 * 34 ≤ x → store disk 0 (zeros 1024) x = disk x :=
    fun x behind => store_outside (.inr (by rw [zeros_length]; omega))
  have survives : load (store disk 0 (zeros 1024)) 1024 16384 = entryArray entries := by
    rw [load_store_apart (.inr (by simp)),array]
  have valid := (@backup_needs_primary_entries _ _ _ _ _ _ ⟨200,store disk 0 (zeros 1024)⟩ _ _ _ _ roomyHeap_apart
    done header filled rfl kept).mpr ⟨by decide,survives⟩
  rw [alternate] at valid
  exact ⟨_,_,_,done,valid⟩

theorem entryArray_not_zeros {p : DiskPartition} {parts : List DiskPartition} {last : BitVec 64} {offset : BitVec 32}
    {entries : List GptEntry} (filled : fillLoop last offset (p :: parts) = some entries) :
    entryArray entries ≠ zeros 16384 := by
  obtain ⟨-,-,guid,-,rest,-,rfl⟩ := fillLoop_cons.mp filled
  intro clear
  have kind := congrArg (List.take 16) clear
  have basic : PARTITION_BASIC_DATA_GUID.b ≠ (zeros 16384).take 16 := by decide
  exact basic kind

/-- With blocks 0 to 33 cleared the second table does not give the entries any more. -/
theorem backup_lost_with_primary :
    ∃ dev' h pte, gpt_restore roomyHeap blankDisk zeroGuid [partition 97 40 10] = some dev' ∧
      is_gpt_valid dev' GPT_PRIMARY_PARTITION_TABLE_LBA = some (some (h,pte)) ∧ h.alternate_lba = 199 ∧
      ∀ h', is_gpt_valid ⟨200,store dev'.disk 0 (zeros 17408)⟩ 199 ≠ some (some (h',pte)) := by
  obtain ⟨disk,h,entries,header,filled,done,first,array,second⟩ := @blankDisk_tables [partition 97 40 10]
    (by decide) (by rw [NoWrap]; decide)
  have fresh : h.Fresh blankDisk.lba := gpt_fill_header_fresh header
  have alternate : h.alternate_lba = 199 := fresh.alternate_lba
  refine ⟨_,h.primary (entryArray entries),entryArray entries,done,?_,alternate,?_⟩
  · rw [@primary_valid ⟨200,disk⟩ h _ fresh (show 34 ≤ 200 by decide) first,array,if_pos rfl]
  intro h' valid
  have kept : load (store disk 0 (zeros 17408)) (512 * (200-1)) 512 = (h.backup (entryArray entries)).block := by
    rw [load_store_apart (.inr (by simp)),second]
  have cleared : load (store disk 0 (zeros 17408)) 1024 16384 = zeros 16384 := by
    apply load_zeros
    intro x low high
    have inside := @store_inside disk 0 (zeros 17408) x (by rw [zeros_length]; omega)
    rwa [Nat.zero_add,zeros_getElem] at inside
  rw [← alternate,@backup_valid ⟨200,store disk 0 (zeros 17408)⟩ h _ fresh (show 34 ≤ 200 by decide) kept] at valid
  split_ifs at valid
  · have same := (Prod.mk.inj (Option.some.inj (Option.some.inj valid))).2
    exact entryArray_not_zeros filled (same.symm.trans cleared)
  · cases valid

end UBoot.GptRestore
