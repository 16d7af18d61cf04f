import UBoot.Memory

/-!
`common/spl/spl_sfc_nand_v2.c`: the SPI NAND functions of the boot loader. A chip is driven by
commands that move whole pages between the array and a cache register; the page functions check
the status for uncorrectable errors and the spare area of a block's first page for the mark of a
bad block. `sfc_nand_write`, `sfc_nand_load` and `sfc_nand_block_check` are loops over pages; they
have fuel, and `none` says that it ran out. Addresses in the flash wrap at 2^32.
-/
namespace UBoot.SpiNand
open Memory

def CONFIG_SPI_NAND_PPB : Nat := 64

/-- The ids of chips with two planes, each with a cache register of its own: bit 12 of a column
    address selects the plane. -/
def planeIds : List Nat := [0x22,0x72,0xF1,0xF2,0x24]

/-- `struct spl_nand_param`, and the width of the bus. The spare area of a page begins at column
    `pagesize`. -/
structure NandParam where
  device_id : Nat
  pagesize : Nat
  ecc_bit : Nat
  bit_counts : Nat
  eccerrstatus : List (BitVec 32)
  wideBus : Bool
  pagesize_pos : 0 < pagesize
  columns : device_id ∈ planeIds → pagesize < 4096

def NandParam.blocksize (p : NandParam) : Nat := CONFIG_SPI_NAND_PPB * p.pagesize

/-! ### The chip -/

/-- A chip: the bytes of each page, the status it shows once a page is read, the cache register of
    each plane, the pages that were programmed so far, and what the controller pads the last word
    of a transfer with. -/
structure Chip where
  pages : Nat → Nat → UInt8
  status : Nat → BitVec 32
  cache : Nat → Nat → UInt8
  programmed : List Nat
  padding : Nat → UInt8

def NandParam.plane (p : NandParam) (page : Nat) : Nat := if p.device_id ∈ planeIds then page / 64 % 2 else 0

/-- Plane and column that the chip takes from a column address. -/
def NandParam.decode (p : NandParam) (column : Nat) : Nat × Nat :=
  if p.device_id ∈ planeIds then (column / 4096 % 2,column % 4096) else (0,column)

/-- `SPINAND_CMD_PARD`: a page into the cache. -/
def Chip.readPage (p : NandParam) (chip : Chip) (page : Nat) : Chip :=
  {chip with cache := Function.update chip.cache (p.plane page) (chip.pages page)}

/-- `SPINAND_CMD_FRCH`: bytes out of the cache. -/
def Chip.fromCache (p : NandParam) (chip : Chip) (column len : Nat) : List UInt8 :=
  load (chip.cache (p.decode column).1) (p.decode column).2 len

/-- `SPINAND_CMD_PRO_LOAD`: bytes into the cache, which is set to 0xff before. -/
def Chip.programLoad (p : NandParam) (chip : Chip) (column : Nat) (data : List UInt8) : Chip :=
  {chip with cache := Function.update chip.cache (p.decode column).1 (store (fun _ => 0xff) (p.decode column).2 data)}

/-- `SPINAND_CMD_PRO_EN`: programming can clear bits only. -/
def Chip.programExecute (p : NandParam) (chip : Chip) (page : Nat) : Chip :=
  {chip with
    pages := Function.update chip.pages page fun column => chip.pages page column &&& chip.cache (p.plane page) column
    programmed := chip.programmed ++ [page] }

/-! ### Pages -/

/-- Whether the status after reading a page says that its errors could not be corrected. -/
def NandParam.eccError (p : NandParam) (status : BitVec 32) : Bool :=
  p.eccerrstatus.any fun e => ((status &&& 0xff) >>> p.ecc_bit) &&& ~~~((0xff : BitVec 32) <<< p.bit_counts) = e

def NandParam.selectPlane (p : NandParam) (page column : Nat) : Nat :=
  if p.device_id ∈ planeIds then column ||| (page / 64 % 2) <<< 12 else column

def spinand_bad_block_check (len : Nat) (check_buf : List UInt8) : Bool := (check_buf.take len).any (· ≠ 0xff)

/-- The words that `sfc_read_data` stores for `len` bytes: the last one may be padded. -/
def Chip.words (chip : Chip) (data : List UInt8) : List UInt8 := data ++ load chip.padding 0 ((4 - data.length % 4) % 4)

/-- The chip, the result and what is stored at `dst_addr`. -/
def spinand_read_page (p : NandParam) (chip : Chip) (page column len : Nat) : Chip × Int × List UInt8 :=
  let chip := chip.readPage p page
  if p.eccError (chip.status page) then (chip,-1,[])
  else
    let data := chip.words (chip.fromCache p (p.selectPlane page column) len)
    if page % CONFIG_SPI_NAND_PPB ≠ 0 then (chip,0,data)
    else
      -- once more, for the mark in the spare area
      let chip := chip.readPage p page
      if p.eccError (chip.status page) then (chip,-1,data)
      else
        let read_buf := chip.fromCache p (p.selectPlane page p.pagesize) 4
        if spinand_bad_block_check (if p.wideBus then 2 else 1) read_buf then (chip,1,data)
        else (chip,0,data)

/-- The result is 1 for a block that is bad or whose first page cannot be read: the -1 of the check
    is kept in an unsigned variable. The column of the data comes without the bit of the plane. -/
def spinand_write_page (p : NandParam) (chip : Chip) (page column : Nat) (data : List UInt8) : Chip × Int :=
  let block_addr := page / CONFIG_SPI_NAND_PPB
  let (chip,ret,_) := spinand_read_page p chip (block_addr * CONFIG_SPI_NAND_PPB) p.pagesize 4
  if BitVec.ofInt 32 ret > 0 then (chip,1)
  else ((chip.programLoad p column data).programExecute p page,0)

/-! ### Loops over pages -/

def sfc_nand_write (p : NandParam) : Nat → Chip → BitVec 32 → List UInt8 → Option Chip
  | _, chip, _, [] => some chip
  | 0, _, _, _ => none
  | fuel+1, chip, flash_start_addr, write_buffer =>
    let pageaddr := flash_start_addr.toNat / p.pagesize
    let columnaddr := flash_start_addr.toNat % p.pagesize
    let wlen := min (p.pagesize - columnaddr) write_buffer.length
    let (chip,ret) := spinand_write_page p chip pageaddr columnaddr (write_buffer.take wlen)
    if ret > 0 then sfc_nand_write p fuel chip (flash_start_addr + BitVec.ofNat 32 p.blocksize) write_buffer
    else sfc_nand_write p fuel chip (flash_start_addr + BitVec.ofNat 32 wlen) (write_buffer.drop wlen)

/-- What one pass of a reading loop does with the result of a page. -/
inductive Pass
  | bad
  | retry (retry_count : Int)
  | failed
  | done

/-- Errors are tried five times again. -/
def pass (ret retry_count : Int) : Pass :=
  if ret > 0 then .bad
  else if ret < 0 ∧ retry_count ≠ 0 then .retry (retry_count - 1)
  else if (if ret < 0 then retry_count - 1 else retry_count) < 0 then .failed
  else .done

/-- The loop of `sfc_nand_load`: blocks that are bad or cannot be read are skipped. -/
def loadLoop (p : NandParam) : Nat → Chip → (Nat → UInt8) → BitVec 32 → Nat → Nat → Int → Option (Chip × (Nat → UInt8))
  | _, chip, mem, _, 0, _, _ => some (chip,mem)
  | 0, _, _, _, _, _, _ => none
  | fuel+1, chip, mem, src_addr, count, buf, retry_count =>
    let pageaddr := src_addr.toNat / p.pagesize
    let columnaddr := src_addr.toNat % p.pagesize
    let rlen := min (p.pagesize - columnaddr) count
    let (chip,ret,data) := spinand_read_page p chip pageaddr columnaddr rlen
    let mem := store mem buf data
    match pass ret retry_count with
    | .bad => loadLoop p fuel chip mem (src_addr + BitVec.ofNat 32 p.blocksize) count buf retry_count
    | .retry retry_count => loadLoop p fuel chip mem src_addr count buf retry_count
    | .failed => loadLoop p fuel chip mem (src_addr + BitVec.ofNat 32 p.blocksize) count buf 5
    | .done => loadLoop p fuel chip mem (src_addr + BitVec.ofNat 32 rlen) (count - rlen) (buf + rlen) 5

def sfc_nand_load (p : NandParam) (fuel : Nat) (chip : Chip) (mem : Nat → UInt8) (src_addr : BitVec 32)
    (count dst_addr : Nat) : Option (Chip × (Nat → UInt8)) :=
  loadLoop p fuel chip mem src_addr count dst_addr 5

/-- The loop of `sfc_nand_block_check`: 1 for a bad block, 2 for an error that stays, else 0. -/
def checkLoop (p : NandParam) :
    Nat → Chip → (Nat → UInt8) → BitVec 32 → Nat → Nat → Int → Option (Chip × (Nat → UInt8) × Nat)
  | _, chip, mem, _, 0, _, _ => some (chip,mem,0)
  | 0, _, _, _, _, _, _ => none
  | fuel+1, chip, mem, src_addr, count, buf, retry_count =>
    let pageaddr := src_addr.toNat / p.pagesize
    let columnaddr := src_addr.toNat % p.pagesize
    let rlen := min (p.pagesize - columnaddr) count
    let (chip,ret,data) := spinand_read_page p chip pageaddr columnaddr rlen
    let mem := store mem buf data
    match pass ret retry_count with
    | .bad => some (chip,mem,1)
    | .retry retry_count => checkLoop p fuel chip mem src_addr count buf retry_count
    | .failed => some (chip,mem,2)
    | .done => checkLoop p fuel chip mem (src_addr + BitVec.ofNat 32 rlen) (count - rlen) (buf + rlen) 5

def sfc_nand_block_check (p : NandParam) (fuel : Nat) (chip : Chip) (mem : Nat → UInt8) (src_addr : BitVec 32)
    (count dst_addr : Nat) : Option (Chip × (Nat → UInt8) × Nat) :=
  checkLoop p fuel chip mem src_addr count dst_addr 5

end UBoot.SpiNand
