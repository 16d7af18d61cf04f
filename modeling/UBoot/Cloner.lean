import UBoot.Memory
import UBoot.Skipping

/-!
Burning a NAND over USB, as in `drivers/usb/gadget/cloner/cloner_sfcnand.c`, with `get_partion_index` of
`jz_sfc_nand.c`. Addresses, lengths and the sums of them are `unsigned int`. The static variables
`bad_len` and `pt_index_bak` are part of the state.
-/
namespace UBoot.Cloner
open Memory Skipping

def EIO : Int := 5
def MTD_MODE : Nat := 0
def UBI_MANAGER : Nat := 1
def MTD_D_MODE : Nat := 2
def CONFIG_SPIFLASH_PART_OFFSET : Nat := 0x5800

structure jz_sfcnand_partition where
  name : String
  size : Nat
  offset : Nat
  manager_mode : Nat

inductive Command where
  | nandErase (offset size : Nat)
  | ubiPart (name : String)
  | ubiCreate (name : String)
  | ubiWrite (name : String) (length : Nat)
  | ubiWritePart (name : String) (length : Nat) (full_size : Option Nat)

/-- The chip, the settings of the burner, and what the drivers do: whether a write succeeds and the content of the chip
    after it, and the result of a command. -/
structure Burner where
  partitions : List jz_sfcnand_partition
  erasesize : Nat
  bad : Nat → Bool
  spi_erase : Bool
  download_params : Bool
  /-- The partition table as it is stored in the boot loader, and the type of the memory. -/
  bp : List UInt8
  ddr_type : Option (BitVec 32)
  nand_write : (Nat → UInt8) → Nat → List UInt8 → Bool × (Nat → UInt8)
  run_command : Command → List UInt8 → (Nat → UInt8) → Int × (Nat → UInt8)

/-- The content of the chip, the ranges erased and written so far, and the static variables. -/
structure State where
  bytes : Nat → UInt8
  accesses : List (Nat × Nat)
  bad_len : Nat
  pt_index_bak : Int

structure Write where
  partition : Nat
  offset : Nat
  data : List UInt8
  full_size : Nat

def partionLoop (startaddr length : Nat) : Nat → List jz_sfcnand_partition → Option (Nat × jz_sfcnand_partition)
  | _, [] => none
  | i, p :: more =>
    if p.offset ≤ startaddr ∧ (startaddr + length) % 2 ^ 32 ≤ (p.offset + p.size) % 2 ^ 32 then some (i,p)
    else partionLoop startaddr length (i + 1) more

section
variable (b : Burner)

def get_partion_index (startaddr length : Nat) : Option (Nat × jz_sfcnand_partition) :=
  partionLoop startaddr length 0 b.partitions

/-- The loop of `sfc_nand_skip_bad`: the address and `bad_len`. After `2 ^ 32 / erasesize` passes it is back at its
    start, so that it never ends if it did not end before. -/
def skipLoop : Nat → Nat → Nat → Option (Nat × Nat)
  | 0, _, _ => none
  | fuel+1, offset, bad_len =>
    if b.bad offset then skipLoop fuel ((offset + b.erasesize) % 2 ^ 32) ((bad_len + b.erasesize) % 2 ^ 32)
    else some (offset,bad_len)

def sfc_nand_skip_bad (bad_len addr : Nat) : Option (Nat × Nat) :=
  skipLoop b (2 ^ 32 / b.erasesize) ((addr + bad_len) % 2 ^ 32) bad_len

def patch (buf : List UInt8) (at_ : Nat) (bytes : List UInt8) : List UInt8 :=
  buf.take at_ ++ bytes ++ buf.drop (at_ + bytes.length)

def sfcnand_add_info_to_flash (buf : List UInt8) : List UInt8 :=
  let buf := patch buf CONFIG_SPIFLASH_PART_OFFSET b.bp
  let buf := match b.ddr_type with
    | some type => if 0 < type.toNat then patch buf 128 (toLe 4 type.toNat) else buf
    | none => buf
  let word := ofLe ((buf.drop 512).take 4)
  if word = 0 ∨ 65535 < word then patch buf 512 (toLe 4 0x1111) else buf

def erase (offset size : Nat) (databuf : List UInt8) (s : State) : Int × State :=
  let (ret,bytes) := b.run_command (.nandErase offset size) databuf s.bytes
  (ret,{ s with bytes := bytes, accesses := s.accesses ++ [(offset,size)] })

def command (c : Command) (databuf : List UInt8) (s : State) : Int × State :=
  let (ret,bytes) := b.run_command c databuf s.bytes
  (ret,{ s with bytes := bytes })

/-- The write, at an address that has been moved behind bad blocks. -/
def programAt (partition : jz_sfcnand_partition) (startaddr : Nat) (databuf : List UInt8) (s : State) : Int × State :=
  let length := databuf.length
  if (startaddr + length) % 2 ^ 32 ≤ (partition.size + partition.offset) % 2 ^ 32 then
    let (ok,bytes) := b.nand_write s.bytes startaddr databuf
    let s := { s with bytes := bytes, accesses := s.accesses ++ [(startaddr,length)] }
    if ok = false ∨ length = 0 then (- EIO,s) else (0,s)
  else (0,s)

def eraseBefore (pt_index : Nat) (partition : jz_sfcnand_partition) (startaddr : Nat) (databuf : List UInt8) (s : State) :
    Int × State :=
  if b.spi_erase = false ∧ ((pt_index : Int) ≠ s.pt_index_bak ∨ partition.manager_mode = MTD_D_MODE ∧ startaddr % b.erasesize = 0) then
    if partition.manager_mode = MTD_D_MODE then
      erase b startaddr ((databuf.length + b.erasesize - 1) / b.erasesize * b.erasesize % 2 ^ 32) databuf s
    else erase b partition.offset partition.size databuf s
  else (0,s)

/-- The branch of `MTD_MODE` and `MTD_D_MODE`. -/
def programMtd (pt_index : Nat) (partition : jz_sfcnand_partition) (startaddr : Nat) (databuf : List UInt8) (s : State) :
    Option (Int × State) := do
  let bad_len := if (pt_index : Int) ≠ s.pt_index_bak then 0 else s.bad_len
  let (startaddr,bad_len) ← sfc_nand_skip_bad b bad_len startaddr
  let (ret,s) := eraseBefore b pt_index partition startaddr databuf { s with bad_len := bad_len }
  if ret ≠ 0 then some (ret,s)
  else some (programAt b partition startaddr databuf { s with pt_index_bak := pt_index })

def eraseUbi (pt_index : Nat) (partition : jz_sfcnand_partition) (databuf : List UInt8) (s : State) : Int × State :=
  if b.spi_erase = false ∧ (pt_index : Int) ≠ s.pt_index_bak then
    erase b partition.offset partition.size databuf { s with pt_index_bak := pt_index }
  else (0,s)

def prepareUbi (pt_index : Nat) (partition : jz_sfcnand_partition) (databuf : List UInt8) (s : State) : Int × State :=
  let (ret,s) := eraseUbi b pt_index partition databuf s
  if ret ≠ 0 then (ret,s)
  else
    let (ret,s) := command b (.ubiPart partition.name) databuf s
    if ret ≠ 0 then (ret,s) else command b (.ubiCreate partition.name) databuf s

/-- The branch of `UBI_MANAGER`. -/
def programUbi (pt_index : Nat) (partition : jz_sfcnand_partition) (startaddr full_size : Nat) (databuf : List UInt8) (s : State) :
    Int × State :=
  let length := databuf.length
  let (ret,s) := if startaddr = partition.offset then prepareUbi b pt_index partition databuf s else (0,s)
  if ret ≠ 0 then (ret,s)
  else if full_size ≠ 0 ∧ full_size ≤ length then command b (.ubiWrite partition.name full_size) databuf s
  else if full_size ≠ 0 then command b (.ubiWritePart partition.name length (some full_size)) databuf s
  else command b (.ubiWritePart partition.name length none) databuf s

/-- `none`: the search for a good block never ends. -/
def sfc_nand_program (w : Write) (s : State) : Option (Int × State) :=
  let startaddr := (w.partition + w.offset) % 2 ^ 32
  match get_partion_index b startaddr w.data.length with
  | none => some (- EIO,s)
  | some (pt_index,partition) =>
    let databuf := if startaddr = 0 ∧ b.download_params then (sfcnand_add_info_to_flash b w.data).take w.data.length else w.data
    if partition.manager_mode = MTD_MODE ∨ partition.manager_mode = MTD_D_MODE then
      programMtd b pt_index partition startaddr databuf s
    else if partition.manager_mode = UBI_MANAGER then
      some (programUbi b pt_index partition startaddr w.full_size databuf s)
    else some (0,s)

def calls : List Write → State → Option State
  | [], s => some s
  | w :: more, s => do
    let (_,s) ← sfc_nand_program b w s
    calls more s

/-- An image sent to a partition in chunks: the results of the calls, and the state afterwards. -/
def burn (partition : jz_sfcnand_partition) : Nat → List (List UInt8) → State → Option (List Int × State)
  | _, [], s => some ([],s)
  | offset, chunk :: more, s => do
    let (ret,s) ← sfc_nand_program b ⟨partition.offset,offset,chunk,0⟩ s
    let (rets,s) ← burn partition (offset + chunk.length) more s
    some (ret :: rets,s)
end

end UBoot.Cloner
