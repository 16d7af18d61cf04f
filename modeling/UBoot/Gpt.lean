import UBoot.CNumbers
import UBoot.EnvCopies
import UBoot.Memory

/-!
`disk/part_efi.c`: the GUID partition table on a block device with blocks of 512 bytes. The
writer `gpt_restore` builds header and entries in buffers of the heap and writes both copies
of the table; the readers are `test_part_efi`, `is_gpt_valid` and `get_partition_info_efi`.
Structures in memory and on disk are packed and little-endian, as is the CPU.
-/
namespace UBoot.Gpt
open CStrings CNumbers Memory
open EnvCopies (crc32)

/-! ### The structures of `part_efi.h` -/

/-- `efi_guid_t`. -/
structure Guid where
  b : List UInt8
  length : b.length = 16
deriving DecidableEq

def Guid.ofBytes (buf : List UInt8) : Guid := ⟨buf.takeD 16 0,List.takeD_length ..⟩

/-- The macro `EFI_GUID`. -/
def EFI_GUID (a : BitVec 32) (b c : BitVec 16) (d0 d1 d2 d3 d4 d5 d6 d7 : UInt8) : Guid :=
  ⟨leBytes a ++ leBytes b ++ leBytes c ++ [d0,d1,d2,d3,d4,d5,d6,d7],by simp⟩

def PARTITION_SYSTEM_GUID : Guid := EFI_GUID 0xC12A7328 0xF81F 0x11d2 0xBA 0x4B 0x00 0xA0 0xC9 0x3E 0xC9 0x3B
def PARTITION_BASIC_DATA_GUID : Guid := EFI_GUID 0xEBD0A0A2 0xB9E5 0x4433 0x87 0xC0 0x68 0xB6 0xB7 0x26 0x99 0xC7

def MSDOS_MBR_SIGNATURE : BitVec 16 := 0xAA55
def EFI_PMBR_OSTYPE_EFI_GPT : UInt8 := 0xEE
def GPT_HEADER_SIGNATURE : BitVec 64 := 0x5452415020494645
def GPT_HEADER_REVISION_V1 : BitVec 32 := 0x00010000
def GPT_PRIMARY_PARTITION_TABLE_LBA : BitVec 64 := 1
def GPT_ENTRY_NUMBERS : Nat := 128
def PARTNAME_SZ : Nat := 36

/-- `gpt_header`, 92 bytes. -/
structure GptHeader where
  signature : BitVec 64
  revision : BitVec 32
  header_size : BitVec 32
  header_crc32 : BitVec 32
  reserved1 : BitVec 32
  my_lba : BitVec 64
  alternate_lba : BitVec 64
  first_usable_lba : BitVec 64
  last_usable_lba : BitVec 64
  disk_guid : Guid
  partition_entry_lba : BitVec 64
  num_partition_entries : BitVec 32
  sizeof_partition_entry : BitVec 32
  partition_entry_array_crc32 : BitVec 32

def GptHeader.bytes (h : GptHeader) : List UInt8 :=
  leBytes h.signature ++ (leBytes h.revision ++ (leBytes h.header_size ++ (leBytes h.header_crc32 ++
    (leBytes h.reserved1 ++ (leBytes h.my_lba ++ (leBytes h.alternate_lba ++ (leBytes h.first_usable_lba ++
      (leBytes h.last_usable_lba ++ (h.disk_guid.b ++ (leBytes h.partition_entry_lba ++
        (leBytes h.num_partition_entries ++ (leBytes h.sizeof_partition_entry ++
          leBytes h.partition_entry_array_crc32))))))))))))

def GptHeader.ofBytes (buf : List UInt8) : GptHeader :=
  let (signature,buf) := takeLe 64 buf
  let (revision,buf) := takeLe 32 buf
  let (header_size,buf) := takeLe 32 buf
  let (header_crc32,buf) := takeLe 32 buf
  let (reserved1,buf) := takeLe 32 buf
  let (my_lba,buf) := takeLe 64 buf
  let (alternate_lba,buf) := takeLe 64 buf
  let (first_usable_lba,buf) := takeLe 64 buf
  let (last_usable_lba,buf) := takeLe 64 buf
  let (disk_guid,buf) := (Guid.ofBytes buf,buf.drop 16)
  let (partition_entry_lba,buf) := takeLe 64 buf
  let (num_partition_entries,buf) := takeLe 32 buf
  let (sizeof_partition_entry,buf) := takeLe 32 buf
  let (partition_entry_array_crc32,_) := takeLe 32 buf
  { signature,revision,header_size,header_crc32,reserved1,my_lba,alternate_lba,first_usable_lba,last_usable_lba,
    disk_guid,partition_entry_lba,num_partition_entries,sizeof_partition_entry,partition_entry_array_crc32 }

/-- `gpt_entry`, 128 bytes; `partition_name` has 36 characters of 16 bits. -/
structure GptEntry where
  partition_type_guid : Guid
  unique_partition_guid : Guid
  starting_lba : BitVec 64
  ending_lba : BitVec 64
  attributes : BitVec 64
  partition_name : List (BitVec 16)

def GptEntry.bytes (e : GptEntry) : List UInt8 :=
  e.partition_type_guid.b ++ (e.unique_partition_guid.b ++ (leBytes e.starting_lba ++ (leBytes e.ending_lba ++
    (leBytes e.attributes ++ e.partition_name.flatMap leBytes))))

/-- `n` characters of 16 bits. -/
def takeChars : Nat → List UInt8 → List (BitVec 16)
  | 0, _ => []
  | n+1, buf => (takeLe 16 buf).1 :: takeChars n (takeLe 16 buf).2

def GptEntry.ofBytes (buf : List UInt8) : GptEntry :=
  let (partition_type_guid,buf) := (Guid.ofBytes buf,buf.drop 16)
  let (unique_partition_guid,buf) := (Guid.ofBytes buf,buf.drop 16)
  let (starting_lba,buf) := takeLe 64 buf
  let (ending_lba,buf) := takeLe 64 buf
  let (attributes,buf) := takeLe 64 buf
  { partition_type_guid,unique_partition_guid,starting_lba,ending_lba,attributes,
    partition_name := takeChars PARTNAME_SZ buf }

/-! ### Block devices -/

/-- `block_dev_desc_t`: the number of blocks, which is below 2^32, and their content. -/
structure BlockDev where
  lba : BitVec 32
  disk : Nat → UInt8

/-- Reads inside of the device succeed. -/
def BlockDev.block_read (dev : BlockDev) (start blkcnt : Nat) : Option (List UInt8) :=
  if start + blkcnt ≤ dev.lba.toNat then some (load dev.disk (512 * start) (512 * blkcnt)) else none

/-- Writes inside of the device succeed. -/
def BlockDev.block_write (dev : BlockDev) (start blkcnt : Nat) (buffer : List UInt8) : Option BlockDev :=
  if start + blkcnt ≤ dev.lba.toNat then some {dev with disk := store dev.disk (512 * start) buffer} else none

/-- `PAD_COUNT` for blocks of 512 bytes. -/
def BLOCK_CNT (size : Nat) : Nat := (size - 1) / 512 + 1

/-! ### The writer -/

/-- `disk_partition_t`, the fields that the writer reads. -/
structure DiskPartition where
  start : BitVec 32
  size : BitVec 32
  name : List UInt8
  name_length : name.length = 32
  uuid : CString

def dashes : List Nat := [8,13,18,23]

def string_uuid (uuid : CString) : Option Guid :=
  if uuid.length ≠ 36 then none
  else if uuid.bytes.zipIdx.all fun (c,i) => if i ∈ dashes then c = 45 else isxdigit c then
    let a := simple_strtoul 32 uuid.bytes 16
    let b := (simple_strtoul 32 (uuid.bytes.drop 9) 16).setWidth 16
    let c := (simple_strtoul 32 (uuid.bytes.drop 14) 16).setWidth 16
    let d := (simple_strtoul 32 (uuid.bytes.drop 19) 16).setWidth 16
    let e := simple_strtoul 64 (uuid.bytes.drop 24) 16
    let p := fun k => UInt8.ofNat (e.toNat / 256 ^ k)
    some (EFI_GUID a b c (UInt8.ofNat (d.toNat / 256)) (UInt8.ofNat d.toNat) (p 5) (p 4) (p 3) (p 2) (p 1) (p 0))
  else none

def gpt_fill_header (dev : BlockDev) (str_guid : CString) : Option GptHeader :=
  (string_uuid str_guid).map fun disk_guid =>
    { signature := GPT_HEADER_SIGNATURE
      revision := GPT_HEADER_REVISION_V1
      header_size := 92
      header_crc32 := 0
      reserved1 := 0
      my_lba := 1
      alternate_lba := (dev.lba - 1).setWidth 64
      first_usable_lba := 34
      last_usable_lba := (dev.lba - 34).setWidth 64
      disk_guid
      partition_entry_lba := 2
      num_partition_entries := BitVec.ofNat 32 GPT_ENTRY_NUMBERS
      sizeof_partition_entry := 128
      partition_entry_array_crc32 := 0 }

/-- The name of an entry: the whole array of the partition, also behind its NUL. -/
def entryName (name : List UInt8) : List (BitVec 16) :=
  name.map (fun c => BitVec.ofNat 16 c.toNat) ++ List.replicate (PARTNAME_SZ - 32) 0

/-- A partition without a start begins where the one before it ends. -/
def DiskPartition.starting (p : DiskPartition) (offset : BitVec 32) : BitVec 32 :=
  if p.start ≠ 0 then p.start else offset

/-- The entry of a partition; `rest` are the partitions behind it. The last partition may take what
    is left of the disk. -/
def DiskPartition.entry (p : DiskPartition) (last_usable_lba : BitVec 64) (offset : BitVec 32)
    (rest : List DiskPartition) (guid : Guid) : GptEntry where
  partition_type_guid := PARTITION_BASIC_DATA_GUID
  unique_partition_guid := guid
  starting_lba := (p.starting offset).setWidth 64
  ending_lba := if rest = [] ∧ p.size = 0 then last_usable_lba else (p.starting offset + p.size - 1).setWidth 64
  attributes := 0
  partition_name := entryName p.name

/-- The loop over the partitions, from the running `offset` on; `none` is the result -1. -/
def fillLoop (last_usable_lba : BitVec 64) : BitVec 32 → List DiskPartition → Option (List GptEntry)
  | _, [] => some []
  | offset, p :: rest =>
    -- a start inside of the partition before
    if p.start ≠ 0 ∧ p.start < offset then none
    else if last_usable_lba ≤ (p.starting offset + p.size).setWidth 64 then none
    else
      match string_uuid p.uuid with
      | none => none
      | some guid =>
        (fillLoop last_usable_lba (p.starting offset + p.size) rest).map (p.entry last_usable_lba offset rest guid :: ·)

def gpt_fill_pte (h : GptHeader) (partitions : List DiskPartition) : Option (List GptEntry) :=
  fillLoop h.last_usable_lba (h.first_usable_lba.setWidth 32) partitions

/-- The heap: its bytes and the addresses the three calls of `calloc` give, in their order. -/
structure Heap where
  mem : Nat → UInt8
  gpt_h : Option Nat
  gpt_e : Option Nat
  p_mbr : Option Nat

/-- `p_mbr = calloc(1, sizeof(p_mbr))` gets the 4 bytes of a pointer, but the fields of a whole
    `legacy_mbr` are stored, and 512 bytes written to the device. -/
def set_protective_mbr (dev : BlockDev) (mem : Nat → UInt8) (p_mbr : Option Nat) :
    Option (BlockDev × (Nat → UInt8)) :=
  match p_mbr with
  | none => none
  | some p =>
    let mem := store mem p (zeros 4)
    let mem := store mem (p + 510) (leBytes MSDOS_MBR_SIGNATURE)
    let mem := store mem (p + 450) [EFI_PMBR_OSTYPE_EFI_GPT]
    let mem := store mem (p + 454) (leBytes (1 : BitVec 32))
    let mem := store mem (p + 458) (leBytes dev.lba)
    (dev.block_write 0 1 (load mem p 512)).map fun dev => (dev,mem)

def headerAt (mem : Nat → UInt8) (gpt_h : Nat) : GptHeader := GptHeader.ofBytes (load mem gpt_h 92)

def changeHeader (mem : Nat → UInt8) (gpt_h : Nat) (f : GptHeader → GptHeader) : Nat → UInt8 :=
  store mem gpt_h (f (headerAt mem gpt_h)).bytes

def GptHeader.setArrayCrc (h : GptHeader) (crc : BitVec 32) : GptHeader := {h with partition_entry_array_crc32 := crc}
def GptHeader.setCrc (h : GptHeader) (crc : BitVec 32) : GptHeader := {h with header_crc32 := crc}

def GptHeader.swapLba (h : GptHeader) : GptHeader := {h with my_lba := h.alternate_lba, alternate_lba := h.my_lba}

/-- `efi_crc32` of a stretch of memory. -/
def efi_crc32 (mem : Nat → UInt8) (buf len : Nat) : BitVec 32 := (crc32 0 (load mem buf len)).toBitVec

def write_gpt_table (dev : BlockDev) (mem : Nat → UInt8) (gpt_h gpt_e : Nat) (p_mbr : Option Nat) : Option BlockDev :=
  let pte_blk_cnt := BLOCK_CNT ((headerAt mem gpt_h).num_partition_entries.toNat * 128)
  match set_protective_mbr dev mem p_mbr with
  | none => none
  | some (dev,mem) =>
    let h := headerAt mem gpt_h
    let arrayCrc := efi_crc32 mem gpt_e (h.num_partition_entries * h.sizeof_partition_entry).toNat
    let mem := changeHeader mem gpt_h (·.setArrayCrc arrayCrc)
    let headerCrc := efi_crc32 mem gpt_h (headerAt mem gpt_h).header_size.toNat
    let mem := changeHeader mem gpt_h (·.setCrc headerCrc)
    -- the first table, behind the legacy MBR
    match dev.block_write 1 1 (load mem gpt_h 512) with
    | none => none
    | some dev =>
    match dev.block_write 2 pte_blk_cnt (load mem gpt_e (512 * pte_blk_cnt)) with
    | none => none
    | some dev =>
    -- the header of the second table
    let mem := changeHeader mem gpt_h fun h => h.swapLba.setCrc 0
    let headerCrc := efi_crc32 mem gpt_h (headerAt mem gpt_h).header_size.toNat
    let mem := changeHeader mem gpt_h (·.setCrc headerCrc)
    let h := headerAt mem gpt_h
    match dev.block_write ((h.last_usable_lba + 1).setWidth 32).toNat pte_blk_cnt
        (load mem gpt_e (512 * pte_blk_cnt)) with
    | none => none
    | some dev => dev.block_write (h.my_lba.setWidth 32).toNat 1 (load mem gpt_h 512)

/-- `none` is the result -1; otherwise the device as it is left behind. -/
def gpt_restore (heap : Heap) (dev : BlockDev) (str_disk_guid : CString) (partitions : List DiskPartition) :
    Option BlockDev :=
  match heap.gpt_h, heap.gpt_e with
  | some gpt_h, some gpt_e =>
    let mem := store (store heap.mem gpt_h (zeros 512)) gpt_e (zeros 16384)
    match gpt_fill_header dev str_disk_guid with
    | none => none
    | some h =>
      let mem := store mem gpt_h h.bytes
      match gpt_fill_pte h partitions with
      | none => none
      | some entries => write_gpt_table dev (store mem gpt_e (entries.flatMap GptEntry.bytes)) gpt_h gpt_e heap.p_mbr
  | _, _ => none

/-! ### The readers -/

def le32At (buf : List UInt8) (i : Nat) : BitVec 32 := (takeLe 32 (buf.drop i)).1

/-- `struct partition` at `part`. -/
def pmbr_part_valid (mbr : List UInt8) (part : Nat) : Bool :=
  mbr[part + 4]? = some EFI_PMBR_OSTYPE_EFI_GPT && le32At mbr (part + 8) = 1

def is_pmbr_valid (mbr : List UInt8) : Bool :=
  (takeLe 16 (mbr.drop 510)).1 = MSDOS_MBR_SIGNATURE &&
    (List.range 4).any fun i => pmbr_part_valid mbr (446 + 16 * i)

def test_part_efi (dev : BlockDev) : Bool :=
  match dev.block_read 0 1 with
  | some legacymbr => is_pmbr_valid legacymbr
  | none => false

/-- `PAD_TO_BLOCKSIZE`, a number of bytes of 32 bits. -/
def PAD_TO_BLOCKSIZE (size : Nat) : Nat := BLOCK_CNT size * 512 % 2 ^ 32

/-- The entries of the table: `some none` for an empty table or a failed read. The outer `none` is an
    array that is smaller than what is read into it. -/
def alloc_read_gpt_entries (dev : BlockDev) (h : GptHeader) : Option (Option (List UInt8)) :=
  let count := (h.num_partition_entries * h.sizeof_partition_entry).toNat
  if count = 0 then some none
  else
    match dev.block_read (h.partition_entry_lba.setWidth 32).toNat (BLOCK_CNT count) with
    | none => some none
    | some pte => if PAD_TO_BLOCKSIZE count < pte.length then none else some (some pte)

/-- The outer `none` is an access outside of a buffer; `some none` is the result 0. -/
def is_gpt_valid (dev : BlockDev) (lba : BitVec 64) : Option (Option (GptHeader × List UInt8)) :=
  match dev.block_read (lba.setWidth 32).toNat 1 with
  | none => some none
  | some buf =>
    let h := GptHeader.ofBytes buf
    if h.signature ≠ GPT_HEADER_SIGNATURE then some none
    else
      let cleared := (h.setCrc 0).bytes ++ buf.drop 92
      if 512 < h.header_size.toNat then none
      else if (crc32 0 (cleared.take h.header_size.toNat)).toBitVec ≠ h.header_crc32 then some none
      else if h.my_lba ≠ lba then some none
      else if dev.lba.setWidth 64 < h.first_usable_lba ∨ dev.lba.setWidth 64 < h.last_usable_lba then some none
      else
        match alloc_read_gpt_entries dev h with
        | none => none
        | some none => some none
        | some (some pte) =>
          if (crc32 0 (pte.take (h.num_partition_entries * h.sizeof_partition_entry).toNat)).toBitVec ≠
              h.partition_entry_array_crc32 then some none
          else some (some (h,pte))

def is_pte_valid (pte : GptEntry) : Bool := pte.partition_type_guid.b ≠ zeros 16

/-- The 36 characters of a name; what cannot be printed becomes a dot. -/
def print_efiname (pte : GptEntry) : List UInt8 :=
  pte.partition_name.map fun u =>
    let c := UInt8.ofNat u.toNat
    if c ≠ 0 && !isprint c then 46 else c

/-- `legacy_bios_bootable` is bit 2 of the attributes. -/
def is_bootable (p : GptEntry) : Bool := p.attributes.getLsbD 2 || p.partition_type_guid = PARTITION_SYSTEM_GUID

/-- `disk_partition_t`, the fields that the reader fills from the table. -/
structure PartitionInfo where
  start : BitVec 32
  size : BitVec 32
  blksz : Nat
  name : CString
  bootable : Bool

/-- The outer `none` is an access outside of a buffer: an entry behind the array that was read, or a
    name that does not fit `info->name`. `some none` is the result -1. -/
def get_partition_info_efi (dev : BlockDev) (part : Int) : Option (Option PartitionInfo) :=
  if part < 1 then some none
  else
    match is_gpt_valid dev GPT_PRIMARY_PARTITION_TABLE_LBA with
    | none => none
    | some none => some none
    | some (some (h,pte)) =>
      if part > h.num_partition_entries.toNat then some none
      else
        let i := part.toNat - 1
        if pte.length < 128 * (i + 1) then none
        else
          let entry := GptEntry.ofBytes ((pte.drop (128 * i)).take 128)
          if !is_pte_valid entry then some none
          else
            let start := entry.starting_lba.setWidth 32
            let name := toCString (print_efiname entry)
            if 32 ≤ name.length then none
            else
              some (some {
                start
                size := (entry.ending_lba + 1 - start.setWidth 64).setWidth 32
                blksz := 512
                name
                bootable := is_bootable entry })

end UBoot.Gpt
