import UBoot.Skipping

/-!
Reading and writing with bad blocks skipped, as in `drivers/mtd/nand/nand_util.c`. Offsets and the limit
are `loff_t`; lengths are `size_t` of 32 bits, and so are the sizes of a block and of a page. Loops take
the number of passes as their first argument; the result is `none` if they need more of them.
-/
namespace UBoot.NandUtil
open Skipping

def EINVAL : Int := 22
def EFBIG : Int := 27

structure nand_info_t where
  size : Nat
  erasesize : Nat
  writesize : Nat
  /-- The size of a block is a power of two of 32 bits. -/
  shift : Nat
  shift_lt : shift < 32
  erase_eq : erasesize = 2 ^ shift
  pages : writesize ∣ erasesize
  blocks : erasesize ∣ size

/-- The content of the chip, and the calls of `nand_write` so far: offset and length. -/
structure Flash where
  bytes : Nat → UInt8
  writes : List (Nat × Nat)

/-- Programming succeeds and stores the whole buffer. -/
def nand_write (flash : Flash) (ofs : Nat) (buf : List UInt8) : Flash :=
  ⟨program flash.bytes ((List.range' ofs buf.length).zip buf),flash.writes ++ [(ofs,buf.length)]⟩

def nand_read (flash : Flash) (ofs len : Nat) : List UInt8 := (List.range' ofs len).map flash.bytes

section
variable (nand : nand_info_t) (bad : Nat → Bool)

/-- `offset & (nand->erasesize - 1)` -/
def blockOffset (offset : Nat) : Nat := offset &&& (nand.erasesize - 1)

/-- `offset & ~(loff_t)(nand->erasesize - 1)` -/
def blockStart (offset : Nat) : Nat := (BitVec.ofNat 64 offset &&& ~~~BitVec.ofNat 64 (nand.erasesize - 1)).toNat

/-- `offset & ~(nand->erasesize - 1)`: the complement has 32 bits, and is then extended with zeros. -/
def blockStart32 (offset : Nat) : Nat :=
  (BitVec.ofNat 64 offset &&& (~~~BitVec.ofNat 32 (nand.erasesize - 1)).setWidth 64).toNat

/-- The loop of `check_skip_len`; the result, and `*used`. -/
def checkLoop (length : Nat) : Nat → Nat → Nat → Nat → Int → Option (Int × Nat)
  | 0, _, _, _, _ => none
  | fuel+1, offset, len_excl_bad, used, ret =>
    if len_excl_bad < length then
      if nand.size ≤ offset then some (-1,used)
      else
        let block_len := nand.erasesize - blockOffset nand offset
        let used := (used + block_len) % 2 ^ 32
        if bad (blockStart nand offset) then checkLoop length fuel (offset + block_len) len_excl_bad used 1
        else checkLoop length fuel (offset + block_len) ((len_excl_bad + block_len) % 2 ^ 32) used ret
    else if length < len_excl_bad then some (ret,(used + 2 ^ 32 - (len_excl_bad - length)) % 2 ^ 32)
    else some (ret,used)

def check_skip_len (fuel offset length : Nat) : Option (Int × Nat) := checkLoop nand bad length fuel offset 0 0 0

def dropLoop (buf : List UInt8) : Nat → Nat
  | 0 => 0
  | i+1 => if buf[i]? ≠ some 0xFF then i + 1 else dropLoop buf i

def drop_ffs (buf : List UInt8) (len : Nat) : Nat :=
  let l := dropLoop buf len
  let l := (l + nand.writesize - 1) / nand.writesize * nand.writesize
  min l len

/-- The loop of `nand_write_skip_bad`; `p_buffer` is what is left of the buffer. -/
def writeLoop (drop : Bool) : Nat → Flash → Nat → Nat → List UInt8 → Option Flash
  | 0, _, _, _, _ => none
  | fuel+1, flash, offset, left_to_write, p_buffer =>
    if 0 < left_to_write then
      let block_offset := blockOffset nand offset
      if bad (blockStart32 nand offset) then
        writeLoop drop fuel flash (offset + (nand.erasesize - block_offset)) left_to_write p_buffer
      else
        let write_size := if left_to_write < nand.erasesize - block_offset then left_to_write else nand.erasesize - block_offset
        let truncated_write_size := if drop then drop_ffs nand p_buffer write_size else write_size
        let flash := nand_write flash offset (p_buffer.take truncated_write_size)
        writeLoop drop fuel flash (offset + write_size) (left_to_write - write_size) (p_buffer.drop write_size)
    else some flash

/-- The result, `*length`, `*actual` and the chip; `drop` is the flag `WITH_DROP_FFS`. -/
def nand_write_skip_bad (fuel : Nat) (flash : Flash) (offset length : Nat) (lim : Int) (buffer : List UInt8) (drop : Bool) :
    Option (Int × Nat × Nat × Flash) :=
  if offset &&& (nand.writesize - 1) ≠ 0 then some (-EINVAL,0,0,flash)
  else do
    let (need_skip,used_for_write) ← check_skip_len nand bad fuel offset length
    if need_skip < 0 then some (-EINVAL,0,used_for_write,flash)
    else if lim < used_for_write then some (-EFBIG,0,used_for_write,flash)
    else if need_skip = 0 ∧ drop = false then some (0,length,used_for_write,nand_write flash offset (buffer.take length))
    else do
      let flash ← writeLoop nand bad drop fuel flash offset length buffer
      some (0,length,used_for_write,flash)

/-- The loop of `nand_read_skip_bad`. -/
def readLoop (flash : Flash) : Nat → Nat → Nat → Option (List UInt8)
  | 0, _, _ => none
  | fuel+1, offset, left_to_read =>
    if 0 < left_to_read then
      let block_offset := blockOffset nand offset
      if bad (blockStart32 nand offset) then readLoop flash fuel (offset + (nand.erasesize - block_offset)) left_to_read
      else do
        let read_length := if left_to_read < nand.erasesize - block_offset then left_to_read else nand.erasesize - block_offset
        let more ← readLoop flash fuel (offset + read_length) (left_to_read - read_length)
        some (nand_read flash offset read_length ++ more)
    else some []

/-- The result, `*length`, `*actual` and the bytes read. -/
def nand_read_skip_bad (fuel : Nat) (flash : Flash) (offset length : Nat) (lim : Int) : Option (Int × Nat × Nat × List UInt8) :=
  if offset &&& (nand.writesize - 1) ≠ 0 then some (-EINVAL,0,0,[])
  else do
    let (need_skip,used_for_read) ← check_skip_len nand bad fuel offset length
    if need_skip < 0 then some (-EINVAL,0,used_for_read,[])
    else if lim < used_for_read then some (-EFBIG,0,used_for_read,[])
    else if need_skip = 0 then some (0,length,used_for_read,nand_read flash offset length)
    else do
      let bytes ← readLoop nand bad flash fuel offset length
      some (0,length,used_for_read,bytes)
end

end UBoot.NandUtil
