import UBoot.CNumbers
import UBoot.SpiNand

/-!
`common/spl/hwinfo.c` and the host tool `hwinfo/tools.c`. The hardware information is an image of
256 slots of 128 bytes: a mask, the size of the content as text, the content, and the mask again.
The flash holds the image twice, in two regions of four blocks. `hwinfo_init` looks for a good block
in each region, loads both copies and keeps the newer one whose checksum is right.
-/
namespace UBoot.Hwinfo
open CStrings CNumbers Memory SpiNand

def HWINFO_MASK1_SEEK : Nat := 0
def HWINFO_SIZE_SEEK : Nat := 10
def HWINFO_CONTENT_SEEK : Nat := 18
def HWINFO_MASK2_SEEK : Nat := 118
def HWINFO_MASK1_LENS : Nat := 10
def HWINFO_SIZE_LENS : Nat := 8
def HWINFO_CONTENT_LENS : Nat := 100
def HWINFO_BLOCK_LENS : Nat := 128
def HWINFO_BLOCK_UPDATE_COUNT : Nat := 89
def HWINFO_BLOCK_CRC : Nat := 255
def HWINFO_BLOCK_MAX : Nat := 256

def CONFIG_SYS_TEXT_BASE : Nat := 0x80100000
def HWINFO_VA_MEMORY_ADDR : Nat := 0xa7ff8000
def HWINFO_VA_MEMORY_SIZE : Nat := 0x8000
def HWINFO_FLASH_ADDR : Nat := 0x100000
def HWINFO_FLASH_DATA_SIZE : Nat := 0x8000
def HWINFO1_SEEK_START : Nat := 0
def HWINFO1_SEEK_STEP : Nat := 0x20000
def HWINFO1_SEEK_MAX : Nat := 0x80000
def HWINFO2_SEEK_START : Nat := 0x80000
def HWINFO2_SEEK_STEP : Nat := 0x20000
def HWINFO2_SEEK_MAX : Nat := 0x100000

/-! ### The checksum -/

/-- One entry of `crc_table`. -/
def crcTable (i : BitVec 32) : BitVec 32 :=
  (List.range 8).foldl (fun c _ => if c &&& 1 = 1 then 0xedb88320 ^^^ (c >>> 1) else c >>> 1) i

def crc32_verify (buffer : List UInt8) : BitVec 32 :=
  ~~~ (buffer.foldl (fun crc b => crcTable ((crc ^^^ b.toBitVec.setWidth 32) &&& 0xff) ^^^ (crc >>> 8)) 0xFFFFFFFF)

/-- The image from `addr` on, without its last slot. -/
def hwinfoCrc32Verify (mem : Nat → UInt8) (addr : Nat) : BitVec 32 :=
  crc32_verify (load mem addr (HWINFO_BLOCK_LENS * HWINFO_BLOCK_CRC))

def textAt (mem : Nat → UInt8) (addr : Nat) : List UInt8 := load mem addr (2 ^ 32 - addr)

/-! ### Reading a slot -/

/-- The result and, if it is 0, `*lens` and the bytes copied to `content`. The pointers are not
    `NULL`. -/
def hwinfoBlockGet (status : Nat) (mem : Nat → UInt8) (type : Nat) : Int × Option (BitVec 32 × List UInt8) :=
  if HWINFO_BLOCK_MAX ≤ type then (-1000,none)
  else if status = 0 then (-1001,none)
  else
    let lens := simple_strtol (textAt mem (HWINFO_VA_MEMORY_ADDR + type * HWINFO_BLOCK_LENS + HWINFO_SIZE_SEEK)) 10
    (0,some (lens,load mem (HWINFO_VA_MEMORY_ADDR + type * HWINFO_BLOCK_LENS + HWINFO_CONTENT_SEEK) lens.toNat))

/-! ### Boot -/

structure State where
  hwinfo1_seek : Nat
  hwinfo2_seek : Nat
  hwinfo_is_inited : Nat
  chip : Chip
  mem : Nat → UInt8

/-- The scan of a region: the address of the first block whose check gives 0. A check gives 0, 1 or 2. -/
def scan (p : NandParam) (fuel step mem_addr : Nat) :
    List Nat → Chip → (Nat → UInt8) → Option (Chip × (Nat → UInt8) × Option Nat)
  | [], chip, mem => some (chip,mem,none)
  | ll_tmp :: rest, chip, mem =>
    match sfc_nand_block_check p fuel chip mem (BitVec.ofNat 32 ll_tmp) step mem_addr with
    | none => none
    | some (chip,mem,ret) =>
      if ret = 0 then some (chip,mem,some ll_tmp) else scan p fuel step mem_addr rest chip mem

/-- The addresses that a scan visits: from `seek` on, below `max`. -/
def seekAddrs (seek max step : Nat) : List Nat := List.range' seek ((max - seek + (step - 1)) / step) step

/-- A copy in memory has the checksum that its last slot names. -/
def copyRight (mem : Nat → UInt8) (addr : Nat) : Bool :=
  hwinfoCrc32Verify mem addr =
    simple_strtoul 32 (textAt mem (addr + HWINFO_BLOCK_LENS * HWINFO_BLOCK_CRC + HWINFO_CONTENT_SEEK)) 16

def updateCount (mem : Nat → UInt8) (addr : Nat) : BitVec 32 :=
  simple_strtoul 32 (textAt mem (addr + HWINFO_BLOCK_LENS * HWINFO_BLOCK_UPDATE_COUNT + HWINFO_CONTENT_SEEK)) 16

/-- The choice between the copies at `addr1` and `addr2`. -/
def choose (st : State) (addr1 addr2 : Nat) : State :=
  let copy := fun addr => {st with
    hwinfo_is_inited := 1
    mem := store st.mem HWINFO_VA_MEMORY_ADDR (load st.mem addr HWINFO_VA_MEMORY_SIZE) }
  if copyRight st.mem addr1 = false ∧ copyRight st.mem addr2 = false then
    {st with mem := store st.mem HWINFO_VA_MEMORY_ADDR (zeros HWINFO_VA_MEMORY_SIZE)}
  else if (copyRight st.mem addr1 = false ∧ copyRight st.mem addr2 = true) ∨
      (copyRight st.mem addr1 = true ∧ copyRight st.mem addr2 = true ∧
        updateCount st.mem addr1 < updateCount st.mem addr2) then copy addr2
  else copy addr1

/-- `none` if one of the loops of the flash driver needs more fuel. -/
def hwinfo_init (p : NandParam) (fuel : Nat) (st : State) : Option State := do
  let size := min HWINFO_FLASH_DATA_SIZE HWINFO_VA_MEMORY_SIZE
  let hwinfo1_mem_addr := CONFIG_SYS_TEXT_BASE
  let hwinfo2_mem_addr := CONFIG_SYS_TEXT_BASE + size
  let (chip,mem,found1) ← scan p fuel HWINFO1_SEEK_STEP hwinfo1_mem_addr
    (seekAddrs st.hwinfo1_seek (HWINFO_FLASH_ADDR + HWINFO1_SEEK_MAX) HWINFO1_SEEK_STEP) st.chip st.mem
  let (chip,mem,found2) ← scan p fuel HWINFO2_SEEK_STEP hwinfo2_mem_addr
    (seekAddrs st.hwinfo2_seek (HWINFO_FLASH_ADDR + HWINFO2_SEEK_MAX) HWINFO2_SEEK_STEP) chip mem
  -- without a good block the variable keeps its value
  let seek1 := found1.getD st.hwinfo1_seek
  let seek2 := found2.getD st.hwinfo2_seek
  if HWINFO_FLASH_ADDR + HWINFO1_SEEK_MAX ≤ seek1 ∨ HWINFO_FLASH_ADDR + HWINFO2_SEEK_MAX ≤ seek2 then
    return ⟨seek1,seek2,st.hwinfo_is_inited,chip,store mem HWINFO_VA_MEMORY_ADDR (zeros HWINFO_VA_MEMORY_SIZE)⟩
  let (chip,mem) ← sfc_nand_load p fuel chip mem (BitVec.ofNat 32 seek1) size hwinfo1_mem_addr
  let (chip,mem) ← sfc_nand_load p fuel chip mem (BitVec.ofNat 32 seek2) size hwinfo2_mem_addr
  return choose ⟨seek1,seek2,st.hwinfo_is_inited,chip,mem⟩ hwinfo1_mem_addr hwinfo2_mem_addr

def initialState (chip : Chip) (mem : Nat → UInt8) : State :=
  ⟨HWINFO_FLASH_ADDR + HWINFO1_SEEK_START,HWINFO_FLASH_ADDR + HWINFO2_SEEK_START,0,chip,mem⟩

/-! ### The host tool -/

def isspace (c : UInt8) : Bool := c = 32 || (9 ≤ c && c ≤ 13)

def decimal : Nat → List UInt8 → Nat
  | n, [] => n
  | n, c :: rest => if isdigit c then decimal (10 * n + (c.toNat - 48)) rest else n

/-- `atoi` of the C library; texts here are too short to overflow. -/
def atoi (text : List UInt8) : Int :=
  match text.dropWhile isspace with
  | 45 :: digits => -(decimal 0 digits)
  | 43 :: digits => decimal 0 digits
  | digits => decimal 0 digits

def terminated (s : CString) : List UInt8 := s.bytes ++ [0]

/-- Bytes copied over a buffer from `i` on. -/
def overwrite (buf : List UInt8) (i : Nat) (bytes : List UInt8) : List UInt8 :=
  buf.take i ++ bytes ++ buf.drop (i + bytes.length)

def HWINFO_FILE_MAX_SIZE : Nat := 1024 * 1024

/-- The result and the content of the image file afterwards, for a file that exists and can be read
    and written; `strncpy` stops at the end of `content`, which is `content_size` long. The comparison
    of the length with `content_size` is unsigned. -/
def hwinfo_block_fill (file : List UInt8) (mask size content : CString) (idx : Nat) : Int × List UInt8 :=
  if mask.length = 0 ∨ size.length = 0 ∨ content.length = 0 then (-2001,file)
  else
    let content_size := atoi size.bytes
    if content_size > HWINFO_CONTENT_LENS then (-2002,file)
    else if BitVec.ofNat 64 content.length ≠ BitVec.ofInt 64 content_size then (-20020,file)
    else if HWINFO_MASK1_LENS ≤ mask.length ∨ HWINFO_SIZE_LENS ≤ size.length then (-20021,file)
    else if HWINFO_BLOCK_MAX ≤ idx then (-2003,file)
    else if file.length < (idx + 1) * HWINFO_BLOCK_LENS ∨ HWINFO_FILE_MAX_SIZE < file.length then (-2005,file)
    else
      let buf := overwrite file (idx * HWINFO_BLOCK_LENS + HWINFO_MASK1_SEEK) (terminated mask)
      let buf := overwrite buf (idx * HWINFO_BLOCK_LENS + HWINFO_SIZE_SEEK) (terminated size)
      let buf := overwrite buf (idx * HWINFO_BLOCK_LENS + HWINFO_CONTENT_SEEK) (content.bytes.take content_size.toNat)
      let buf := overwrite buf (idx * HWINFO_BLOCK_LENS + HWINFO_MASK2_SEEK) (terminated mask)
      (0,buf)

end UBoot.Hwinfo
