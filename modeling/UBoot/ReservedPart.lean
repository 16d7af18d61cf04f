import UBoot.Runs

/-!
Reserved partitions: `drivers/mtd/devices/jz_sfc_v2/reserved_part.c` and the functions of
`jz_sfc_nor.c` and `jz_sfc_nand.c` that write or erase. A partition of the table that carries the
symbol is reserved; calls that would touch it are refused while it is read-only. What a call does is
the list of commands that it sends to the chip.
-/
namespace UBoot.ReservedPart

def MTDPART_SIZ_FULL : BitVec 32 := 0
def MTDPART_OFS_APPEND : BitVec 32 := -1
def RESERVED_PART_SYMBOL_RO : BitVec 32 := 0x30000000
def NORFLASH_PART_RO : BitVec 32 := 2

inductive FlashType where
  | SFC_NAND_FLASH
  | SFC_NOR_FLASH
deriving DecidableEq

inductive RwMode where
  | RESERVED_PART_RW
  | RESERVED_PART_R_ONLY
deriving DecidableEq

structure Partition where
  size : BitVec 32
  offset : BitVec 32
  mask_flags : BitVec 32
deriving DecidableEq

structure ReservedPartition where
  index : Nat
  start : BitVec 32
  end_ : BitVec 32
  rw_mode : RwMode
deriving DecidableEq

/-- The chip and its driver: size of the chip, of a page and of what is erased at once, the partitions
    that `jz_sfc_nor.c` looks at, the options of the bad block marks. The sizes of a NOR flash are
    powers of two. -/
structure Flash where
  flash_type : FlashType
  size : Nat
  writesize : Nat
  erasesize : Nat
  burner : Bool
  norflash_partitions : List Partition
  write_oob : Bool
  scanLastPage : Bool
  scan2ndPage : Bool
  buswidth16 : Bool
  badblockpos : BitVec 32
  writesize_pos : 0 < writesize
  erasesize_pos : 0 < erasesize
  wholePages : writesize ∣ erasesize
  erasesize_lt : erasesize < 2 ^ 32
  norSizes : flash_type = .SFC_NOR_FLASH → (∃ k, writesize = 2 ^ k) ∧ ∃ k, erasesize = 2 ^ k

/-! ### The table -/

def Partition.reserved (part : Partition) : Bool := part.mask_flags &&& RESERVED_PART_SYMBOL_RO ≠ 0

def Flash.endOf (f : Flash) (part : Partition) : Nat :=
  if part.size = MTDPART_SIZ_FULL ∨ part.size = MTDPART_OFS_APPEND then f.size else part.offset.toNat + part.size.toNat

def add_reserved_part (f : Flash) (index : Nat) (part : Partition) : ReservedPartition where
  index := index
  start := part.offset
  end_ := BitVec.ofNat 32 (f.endOf part)
  rw_mode := .RESERVED_PART_R_ONLY

/-- The loop over the table; `cnt` is a `u8`. -/
def scanLoop (f : Flash) : Nat → List Partition → List ReservedPartition
  | _, [] => []
  | cnt, part :: parts =>
    if part.reserved then add_reserved_part f cnt part :: scanLoop f ((cnt + 1) % 256) parts else scanLoop f cnt parts

/-- The list of reserved partitions; `none` if the loop does not end, since its index is a `u8`. -/
def scan_reserved_part (f : Flash) (partitions : List Partition) : Option (List ReservedPartition) :=
  if partitions.length ≤ 255 then some (scanLoop f 1 partitions) else none

def modify_reserved_part_rw_mode (parts : List ReservedPartition) (rw_mode : RwMode) : List ReservedPartition :=
  parts.map fun part => { part with rw_mode := rw_mode }

/-- The condition of the search; the sums wrap. -/
def ReservedPartition.meets (part : ReservedPartition) (addr len : BitVec 32) : Bool :=
  (addr ≤ part.start && part.end_ ≤ addr + len) || (part.start ≤ addr && addr < part.end_) ||
    (part.start < addr + len && addr + len ≤ part.end_)

def offset_2_reserved_part (parts : List ReservedPartition) (addr len : BitVec 32) : Option ReservedPartition :=
  parts.find? fun part => part.meets addr len

/-- `true` if the range is not to be written. -/
def check_partition_is_writable (parts : List ReservedPartition) (to_ len : BitVec 32) : Bool :=
  match offset_2_reserved_part parts to_ len with
  | some part => part.rw_mode = .RESERVED_PART_R_ONLY
  | none => false

/-! ### Commands -/

inductive Command where
  | norWrite (addr len : BitVec 32)
  | norErase (addr : BitVec 32)
  | nandWrite (pageaddr columnaddr len : BitVec 32)
  | nandErase (pageaddr : BitVec 32)
deriving DecidableEq

/-- The bytes that a command may change. A program that leaves its page goes on at the start of the page,
    or in the spare area of a NAND page, which counts as the whole page. -/
def Command.changes (f : Flash) : Command → Nat → Prop
  | .norWrite addr len, x => x / f.writesize = addr.toNat / f.writesize ∧
      (addr.toNat % f.writesize + len.toNat ≤ f.writesize → addr.toNat ≤ x ∧ x < addr.toNat + len.toNat)
  | .norErase addr, x => x / f.erasesize = addr.toNat / f.erasesize
  | .nandWrite page column len, x => x / f.writesize = page.toNat ∧
      (column.toNat + len.toNat ≤ f.writesize →
        page.toNat * f.writesize + column.toNat ≤ x ∧ x < page.toNat * f.writesize + column.toNat + len.toNat)
  | .nandErase page, x => x / f.erasesize = page.toNat * f.writesize / f.erasesize

/-- What the calls depend on besides their arguments: the results of the commands in the order in which
    they are sent, the value of a variable that is never set, and how long a loop is watched. -/
structure Environment where
  result : Nat → Int
  unset : Int
  fuel : Nat

/-! ### NOR -/

/-- The check of `jz_sfc_nor.c` on the partition of the first byte, which is not compiled into the burner. -/
def Flash.partReadOnly (f : Flash) (addr : BitVec 32) : Bool :=
  !f.burner && f.norflash_partitions.any fun part =>
    part.offset ≤ addr && addr < part.offset + part.size && part.mask_flags &&& NORFLASH_PART_RO ≠ 0

/-- The loop over whole pages; `i` is a `u32`. -/
def pageLoop (f : Flash) (to_ len : BitVec 32) : Nat → BitVec 32 → List Command
  | 0, _ => []
  | fuel+1, i =>
    if i < len then
      let actual_len := if BitVec.ofNat 32 f.writesize ≤ len - i then BitVec.ofNat 32 f.writesize else len - i
      .norWrite (to_ + i) actual_len :: pageLoop f to_ len fuel (i + BitVec.ofNat 32 f.writesize)
    else []

def sfc_nor_page_write (f : Flash) (env : Environment) (to_ len : BitVec 32) : List Command :=
  if f.partReadOnly to_ then []
  else
    let page_offset := to_ &&& (BitVec.ofNat 32 f.writesize - 1)
    if page_offset + len ≤ BitVec.ofNat 32 f.writesize then [.norWrite to_ len]
    else
      let actual_len := BitVec.ofNat 32 f.writesize - page_offset
      .norWrite to_ actual_len :: pageLoop f to_ len env.fuel actual_len

def sfc_nor_write (f : Flash) (env : Environment) (parts : List ReservedPartition) (to_ len : BitVec 32) : List Command :=
  if check_partition_is_writable parts to_ len then [] else sfc_nor_page_write f env to_ len

/-- The loop that erases from `addr` to `end_`: the commands and the result, `none` while it runs. -/
def eraseLoop (f : Flash) (env : Environment) (command : BitVec 32 → Command) (end_ : BitVec 32) :
    Nat → Nat → BitVec 32 → Int → List Command × Option Int
  | 0, _, _, _ => ([],none)
  | fuel+1, n, addr, ret =>
    if addr < end_ then
      if env.result n ≠ 0 then ([command addr],some (env.result n))
      else
        let (commands,result) := eraseLoop f env command end_ fuel (n + 1) (addr + BitVec.ofNat 32 f.erasesize) 0
        (command addr :: commands,result)
    else ([],some ret)

def sfc_nor_erase (f : Flash) (env : Environment) (parts : List ReservedPartition) (addr len : BitVec 32) : List Command :=
  if check_partition_is_writable parts addr len then []
  else if f.partReadOnly addr then []
  else
    let erasesize := BitVec.ofNat 32 f.erasesize
    let len := if len % erasesize ≠ 0 then len - len % erasesize + erasesize else len
    (eraseLoop f env .norErase (addr + len) env.fuel 0 addr 0).1

/-! ### NAND -/

def writeLoop (f : Flash) (env : Environment) : Nat → Nat → BitVec 32 → BitVec 32 → List Command
  | 0, _, _, _ => []
  | fuel+1, n, to_, len =>
    if len = 0 then []
    else
      let pagesize := BitVec.ofNat 32 f.writesize
      let columnaddr := to_ % pagesize
      let wlen := if pagesize - columnaddr < len then pagesize - columnaddr else len
      .nandWrite (to_ / pagesize) columnaddr wlen ::
        if env.result n ≠ 0 then [] else writeLoop f env fuel (n + 1) (to_ + wlen) (len - wlen)

def jz_sfcnand_write (f : Flash) (env : Environment) (parts : List ReservedPartition) (to_ len : BitVec 32) : List Command :=
  if check_partition_is_writable parts to_ len then [] else writeLoop f env env.fuel 0 to_ len

/-- `struct mtd_oob_ops`: which buffers are given, their lengths and the place in the spare area. -/
structure OobOps where
  datbuf : Bool
  oobbuf : Bool
  len : BitVec 32
  ooblen : BitVec 32
  ooboffs : BitVec 32

/-- The commands, the first of which is number `n`, and the result. -/
def jz_sfcnand_write_oob (f : Flash) (env : Environment) (parts : List ReservedPartition) (n : Nat) (addr : BitVec 32)
    (ops : OobOps) : List Command × Int :=
  if check_partition_is_writable parts addr ops.len then ([],-30)
  else
    let page := addr / BitVec.ofNat 32 f.writesize
    let data : List Command := if ops.datbuf ∧ ops.len ≠ 0 then [.nandWrite page 0 ops.len] else []
    if data ≠ [] ∧ env.result n ≠ 0 then (data,env.result n)
    else if ops.oobbuf ∧ ops.ooblen ≠ 0 then
      (data ++ [.nandWrite page (BitVec.ofNat 32 f.writesize + ops.ooboffs) ops.ooblen],env.result (n + data.length))
    else (data,if data = [] then env.unset else 0)

/-- Without a bad block table in the flash. -/
def jz_sfcnand_block_markbad (f : Flash) (env : Environment) (parts : List ReservedPartition) (n : Nat)
    (ofs : BitVec 32) : List Command × Int :=
  if f.write_oob then
    let width : BitVec 32 := if f.buswidth16 then 2 else 1
    let ooboffs := if f.buswidth16 then f.badblockpos &&& ~~~1 else f.badblockpos
    let ops : OobOps := ⟨false,true,width,width,ooboffs⟩
    let wr_ofs := if f.scanLastPage then ofs + BitVec.ofNat 32 (f.erasesize - f.writesize) else ofs
    let (first,res) := jz_sfcnand_write_oob f env parts n wr_ofs ops
    if f.scan2ndPage then
      let (second,res') := jz_sfcnand_write_oob f env parts (n + first.length) (wr_ofs + BitVec.ofNat 32 f.writesize) ops
      (first ++ second,if res = 0 then res' else res)
    else (first,res)
  else ([],0)

def jz_sfc_nand_erase (f : Flash) (env : Environment) (addr len : BitVec 32) : List Command × Option Int :=
  if addr % BitVec.ofNat 32 f.erasesize ≠ 0 then ([],some (-22))
  else eraseLoop f env (fun addr => .nandErase (addr / BitVec.ofNat 32 f.writesize)) (addr + len) env.fuel 0 addr env.unset

def jz_sfcnand_erase (f : Flash) (env : Environment) (parts : List ReservedPartition) (addr len : BitVec 32) :
    List Command :=
  if check_partition_is_writable parts addr len then []
  else
    match jz_sfc_nand_erase f env addr len with
    | (commands,some 0) => commands
    | (commands,none) => commands
    | (commands,some _) => commands ++ (jz_sfcnand_block_markbad f env parts commands.length addr).1

/-! ### Calls -/

inductive Call : FlashType → Type where
  | sfc_nor_write (to_ len : BitVec 32) : Call .SFC_NOR_FLASH
  | sfc_nor_erase (addr len : BitVec 32) : Call .SFC_NOR_FLASH
  | jz_sfcnand_write (to_ len : BitVec 32) : Call .SFC_NAND_FLASH
  | jz_sfcnand_write_oob (addr : BitVec 32) (ops : OobOps) : Call .SFC_NAND_FLASH
  | jz_sfcnand_erase (addr len : BitVec 32) : Call .SFC_NAND_FLASH
  | modify_reserved_part_rw_mode {t : FlashType} (rw_mode : RwMode) : Call t

def Call.commands {t : FlashType} (f : Flash) (env : Environment) (parts : List ReservedPartition) :
    Call t → List Command
  | sfc_nor_write to_ len => ReservedPart.sfc_nor_write f env parts to_ len
  | sfc_nor_erase addr len => ReservedPart.sfc_nor_erase f env parts addr len
  | jz_sfcnand_write to_ len => ReservedPart.jz_sfcnand_write f env parts to_ len
  | jz_sfcnand_write_oob addr ops => (ReservedPart.jz_sfcnand_write_oob f env parts 0 addr ops).1
  | jz_sfcnand_erase addr len => ReservedPart.jz_sfcnand_erase f env parts addr len
  | modify_reserved_part_rw_mode _ => []

def Call.parts {t : FlashType} (parts : List ReservedPartition) : Call t → List ReservedPartition
  | modify_reserved_part_rw_mode rw_mode => ReservedPart.modify_reserved_part_rw_mode parts rw_mode
  | _ => parts

end UBoot.ReservedPart
