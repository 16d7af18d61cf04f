import Mathlib.Data.List.DropRight
import UBoot.GptTable

/-!
`tools/ingenic-tools/gpt_creator.c`, the host's tool that turns a text with partitions into the files with the MBR and the
GUID partition table. Groups, names and values are strings inside of the buffer with the text; a result `none`
stands for an access outside of a buffer. Files can be opened, read and written.
-/
namespace UBoot.GptCreator
open CStrings CNumbers Memory Gpt
open EnvCopies (crc32)

def colon : UInt8 := 58
def comma : UInt8 := 44

def ascii (s : String) : List UInt8 := s.toList.map fun c => UInt8.ofNat c.toNat

/-! ### Reading the text -/

/-- `*p && (*p <= ' ')`, where a `char` has a sign. -/
def trims (c : UInt8) : Bool := c ≠ 0 && signedChar c ≤ 32

/-- In front of a string stands a NUL, at which the search for its end stops. -/
def str_trim (str : List UInt8) : List UInt8 := (str.rdropWhile trims).dropWhile trims

/-- What stands in front of and behind the first `c`. -/
def strchr (str : List UInt8) (c : UInt8) : Option (List UInt8 × List UInt8) :=
  if c ∈ str then some (str.takeWhile (· ≠ c),(str.dropWhile (· ≠ c)).tail) else none

/-- `item_t`. -/
structure Item where
  name : List UInt8
  value : List UInt8
deriving DecidableEq

/-- `group_t`, with the items that are set. -/
structure Group where
  name : List UInt8
  items : List Item
deriving DecidableEq

/-- One line; the current group is the first one. `none` is the result -1. -/
def parseLine (groups : List Group) (line : List UInt8) : Option (List Group) :=
  let line := line.takeWhile (· ≠ hash)
  match strchr line colon with
  | some (group_name,_) =>
    if str_trim group_name = [] then some groups
    else if 10 ≤ groups.length then none
    else some (⟨str_trim group_name,[]⟩ :: groups)
  | none =>
    match strchr line equalSign, groups with
    | some (property_name,value), group :: earlier =>
      if str_trim property_name = [] then some groups
      else if 128 ≤ group.items.length then none
      else some ({ group with items := group.items ++ [⟨str_trim property_name,str_trim value⟩] } :: earlier)
    | _, _ => some groups

/-- What was read before an error is kept. -/
def parseLines : List (List UInt8) → List Group → List Group
  | [], groups => groups
  | line :: lines, groups =>
    match parseLine groups line with
    | some groups => parseLines lines groups
    | none => groups

/-- The `group_list` after the text. -/
def parse_config_file (buffer : List UInt8) : List Group := (parseLines (buffer.splitOn newline) []).reverse

def get_group (group_list : List Group) (group_name : List UInt8) : Option Group := group_list.find? (·.name = group_name)

def get_item (group_list : List Group) (group_name item_name : List UInt8) : Option Item := do
  let group ← get_group group_list group_name
  group.items.find? (·.name = item_name)

def get_item_value (group_list : List Group) (group_name item_name : List UInt8) : Option (List UInt8) :=
  (get_item group_list group_name item_name).map (·.value)

/-! ### Sizes -/

def isspace (c : UInt8) : Bool := c = 32 || (9 ≤ c && c ≤ 13)

/-- The number that the digits at the beginning of a text make. -/
def decimal (str : List UInt8) : Nat := (str.takeWhile isdigit).foldl (fun n c => 10 * n + (c.toNat - 48)) 0

/-- `strtoull` of the C library, for the base 10. -/
def strtoull (str : List UInt8) : BitVec 64 :=
  let magnitude := fun digits => if decimal digits < 2 ^ 64 then BitVec.ofNat 64 (decimal digits) else BitVec.allOnes 64
  match str.dropWhile isspace with
  | 43 :: digits => magnitude digits
  | 45 :: digits => if decimal digits < 2 ^ 64 then -magnitude digits else BitVec.allOnes 64
  | digits => magnitude digits

def parse_size (sz : List UInt8) : BitVec 64 :=
  let n := strtoull sz
  match sz.getLast? with
  | some 107 | some 75 => n * 1024
  | some 109 | some 77 => n * (1024 * 1024)
  | some 103 | some 71 => n * (1024 * 1024 * 1024)
  | _ => n

def startsDigit (str : List UInt8) : Bool := str.head?.any isdigit

/-- `some none` is the result -1; otherwise start and size. The value is copied to an array of 128 bytes. The size
    ends where its comma is overwritten, after it was trimmed. -/
def parse_partition_item (value : List UInt8) : Option (Option (BitVec 64 × BitVec 64)) :=
  if 128 ≤ value.length then none
  else some do
    let (str_start,sub_str) ← strchr value comma
    let str_start := str_trim str_start
    guard (startsDigit str_start)
    let str_size := str_trim sub_str
    guard (startsDigit str_size)
    let (str_size,str_type) ← strchr str_size comma
    guard (str_trim str_type ≠ [])
    some (parse_size str_start,parse_size str_size)

/-! ### Writing the table -/

def partition_type_uuid : Guid :=
  ⟨[0xa2,0xa0,0xd0,0xeb,0xe5,0xb9,0x33,0x44,0x87,0xc0,0x68,0xb6,0xb7,0x26,0x99,0xc7],rfl⟩

/-- `MAKE_SIGNATURE32('I','N','G','E')`. -/
def INGENIC_SIGNATURE : BitVec 32 := 0x494e4745

/-- The 512 bytes of `ptbl.mbr`, which was cleared. -/
def init_mbr (blocks gpt_header_lba : BitVec 32) (custom_signature : Bool) : List UInt8 :=
  let mbr := store (fun _ => 0) 0x1be [0x00,0xff,0xff,0xff]
  let mbr := store mbr 0x1c2 [0xee,0xff,0xff,0xff]
  let mbr := store mbr 0x1c6 [0x01,0x00,0x00,0x00]
  let mbr := store mbr 0x1ca (leBytes blocks)
  let mbr := store mbr 0x1fe [0x55,0xaa]
  load (if custom_signature then mbr else store mbr 432 (leBytes INGENIC_SIGNATURE ++ leBytes gpt_header_lba)) 0 512

/-- The messages of errors. -/
inductive Message
  | noHeaderLba
  | noDiskSize
  | overlaps (name : List UInt8) (first : BitVec 64)
  | doesNotFit (name : List UInt8)
  | outOfEntries

/-- The characters of a name in an entry, and zeros behind them. -/
def ptnName (name : List UInt8) : List (BitVec 16) :=
  (name.take PARTNAME_SZ).map (fun c => c.toBitVec.signExtend 16) ++ List.replicate (PARTNAME_SZ - name.length) 0

/-- The entries in use come first. -/
def add_ptn (last_lba : BitVec 64) (get_uuid : Nat → Guid) (entries : List GptEntry) (first last : BitVec 64) (name : List UInt8) :
    Except Message (List GptEntry) :=
  if first < 34 then .error (.overlaps name first)
  else if last_lba < last then .error (.doesNotFit name)
  else if 128 ≤ entries.length then .error .outOfEntries
  else .ok (entries ++ [{
    partition_type_guid := partition_type_uuid
    unique_partition_guid := get_uuid (entries.length + 1)
    starting_lba := first
    ending_lba := last
    attributes := 0
    partition_name := ptnName name }])

/-- The loop over the items of the partitions. A value that cannot be read leaves start and size 0. -/
def addItems (last_lba : BitVec 64) (get_uuid : Nat → Guid) : List Item → List GptEntry → Option (List GptEntry × List Message)
  | [], entries => some (entries,[])
  | partition :: items, entries => do
    let parsed ← parse_partition_item partition.value
    let (start,size) := parsed.getD (0,0)
    match add_ptn last_lba get_uuid entries (start / 512) (start / 512 + size / 512 - 1) partition.name with
    | .error message => (addItems last_lba get_uuid items entries).map fun (entries,messages) => (entries,message :: messages)
    | .ok entries => addItems last_lba get_uuid items entries

def fillHeader (gpt_header_lba disk_blocks : BitVec 64) (get_uuid : Nat → Guid) (entries_count : Nat) : GptHeader where
  signature := GPT_HEADER_SIGNATURE
  revision := GPT_HEADER_REVISION_V1
  header_size := 92
  header_crc32 := 0
  reserved1 := 0
  my_lba := gpt_header_lba
  alternate_lba := disk_blocks - 1
  first_usable_lba := gpt_header_lba + 33
  last_usable_lba := disk_blocks - 1
  disk_guid := get_uuid 0
  partition_entry_lba := gpt_header_lba + 1
  num_partition_entries := BitVec.ofNat 32 entries_count
  sizeof_partition_entry := 128
  partition_entry_array_crc32 := 0

/-- Both checksums; the one of the entries is about as many as the header counts. -/
def setCrcs (h : GptHeader) (array : List UInt8) : GptHeader :=
  let h := h.setArrayCrc (crc32 0 (array.take (h.num_partition_entries * h.sizeof_partition_entry).toNat)).toBitVec
  h.setCrc (crc32 0 h.bytes).toBitVec

/-- What the tool leaves behind: messages, and the two files with the entries that they were made from. -/
structure Output where
  messages : List Message
  entries : List GptEntry
  files : Option (List UInt8 × List UInt8)

/-- The first 2048 bytes of the file are read. The value of `custom_signature` only matters as being 0, which it is
    without the property. The calls of `get_uuid` are numbered. -/
def main (get_uuid : Nat → Guid) (file : List UInt8) : Option Output := do
  let text ← stringAt (file.take 2048 ++ zeros (2048 - file.length)) 0
  let group_list := parse_config_file text.bytes
  match get_item_value group_list (ascii "property") (ascii "gpt_header_lba") with
  | none | some [] => some ⟨[.noHeaderLba],[],none⟩
  | some str_gpt_lba =>
    match get_item_value group_list (ascii "property") (ascii "disk_size") with
    | none | some [] => some ⟨[.noDiskSize],[],none⟩
    | some str_disk_size =>
      let gpt_header_lba := parse_size str_gpt_lba / 512
      let disk_blocks := parse_size str_disk_size / 512
      let custom_signature := (get_item_value group_list (ascii "property") (ascii "custom_signature")).any (· ≠ [])
      let mbr := init_mbr ((disk_blocks - 1).setWidth 32) (gpt_header_lba.setWidth 32) custom_signature
      let items := ((get_group group_list (ascii "partition")).map (·.items)).getD []
      let entries_count := ((get_group group_list (ascii "partition")).map (·.items.length)).getD 128
      let (entries,messages) ← addItems (disk_blocks - 1) get_uuid items []
      let header := setCrcs (fillHeader gpt_header_lba disk_blocks get_uuid entries_count) (entryArray entries)
      some ⟨messages,entries,some (mbr,header.block ++ entryArray entries)⟩

end UBoot.GptCreator
