import Mathlib.Data.BitVec
import UBoot.CNumbers

/-!
The `mtdparts` variable and its commands, as in `common/cmd_mtdparts.c`: reading and writing the list of
devices with their partitions, `mtdparts add` and `mtdparts del`. A text is the characters up to its NUL.
The number of partitions of a device is the length of its list, modulo `2 ^ 16` where the source reads
`num_parts`.
-/
namespace UBoot.Mtdparts
open CNumbers

def MIN_PART_SIZE : BitVec 64 := 4096
def SIZE_REMAINING : BitVec 64 := ~~~0
def OFFSET_NOT_SPECIFIED : BitVec 64 := ~~~0
def MTDPARTS_MAXLEN : Nat := 512
def PART_ADD_DESC_MAXLEN : Nat := 64
def MTD_DEV_TYPE_NOR : UInt8 := 1
def MTD_DEV_TYPE_NAND : UInt8 := 2
def MTD_DEV_TYPE_ONENAND : UInt8 := 4

/-! ### Devices and partitions -/

structure EraseRegion where
  offset : BitVec 64
  erasesize : BitVec 32
  numblocks : BitVec 32
deriving DecidableEq

/-- An entry of `mtdids`, with what the device behind it says about its blocks. -/
structure Mtdids where
  type : UInt8
  num : UInt8
  size : BitVec 64
  mtd_id : List UInt8
  erasesize : BitVec 32
  eraseregions : List EraseRegion
deriving DecidableEq

structure Part where
  name : List UInt8
  auto_name : Bool
  size : BitVec 64
  offset : BitVec 64
  /-- `mask_flags` is 0 or `MTD_WRITEABLE_CMD`. -/
  ro : Bool
deriving DecidableEq

structure Device where
  id : Mtdids
  parts : List Part
deriving DecidableEq

/-! ### Sizes -/

def memsize_parse (ptr : List UInt8) : BitVec 64 × List UInt8 :=
  let ret := simple_strtoul 64 ptr 0
  match numberEnd ptr 0 with
  | 71 :: retptr | 103 :: retptr => (ret <<< 30,retptr)
  | 77 :: retptr | 109 :: retptr => (ret <<< 20,retptr)
  | 75 :: retptr | 107 :: retptr => (ret <<< 10,retptr)
  | retptr => (ret,retptr)

def memsize_format (size : BitVec 64) : List UInt8 :=
  if size % 2 ^ 30 = 0 then decimalText (size / 2 ^ 30) ++ [103]
  else if size % 2 ^ 20 = 0 then decimalText (size / 2 ^ 20) ++ [109]
  else if size % 2 ^ 10 = 0 then decimalText (size / 2 ^ 10) ++ [107]
  else decimalText size

/-! ### Validation -/

/-- The starts of the blocks of a region, in an `unsigned long` of 32 bits. -/
def regionStarts (region : EraseRegion) : List (BitVec 64) :=
  (List.range region.numblocks.toNat).map fun j =>
    (region.offset.setWidth 32 + BitVec.ofNat 32 j * region.erasesize).setWidth 64

/-- Where the loops over the regions leave `start`. -/
def regionsEnd (regions : List EraseRegion) : BitVec 64 :=
  match regions.getLast? with
  | none => 0
  | some region => (region.offset.setWidth 32 + region.numblocks * region.erasesize).setWidth 64

def part_validate_eraseblock (id : Mtdids) (offset size : BitVec 64) : Bool :=
  if id.eraseregions = [] then offset % id.erasesize.setWidth 64 = 0 && size % id.erasesize.setWidth 64 = 0
  else
    (id.eraseregions.flatMap regionStarts).contains offset &&
      ((id.eraseregions.flatMap regionStarts).contains (offset + size) || offset + size = regionsEnd id.eraseregions)

/-- The partition with its size filled in, or `none`. -/
def part_validate (id : Mtdids) (part : Part) : Option Part :=
  let part := if part.size = SIZE_REMAINING then { part with size := id.size - part.offset } else part
  if id.size < part.offset then none
  else if part.offset + part.size ≤ part.offset then none
  else if id.size < part.offset + part.size then none
  else if part_validate_eraseblock id part.offset part.size then some part
  else none

/-! ### Partitions of a device -/

/-- A new partition stands in front of those at the same offset. -/
def part_sort_add : List Part → Part → Option (List Part)
  | [], part => some [part]
  | pi :: parts, part =>
    if part.offset = pi.offset ∧ pi.offset = 0 then none
    else if part.offset ≤ pi.offset then some (part :: pi :: parts)
    else (part_sort_add parts part).map (pi :: ·)

def part_add (dev : Device) (part : Part) : Option Device := do
  let part ← part_validate dev.id part
  let parts ← part_sort_add dev.parts part
  some { dev with parts := parts }

/-- The name of a partition, the memory reserved for it, and the bytes written to it. -/
structure Name where
  name : List UInt8
  auto_name : Bool
  name_len : Nat
  written : Nat

/-- `0x%08llx@0x%08llx`, cut off at `name_len` again after it has been written. -/
def autoName (size offset : BitVec 64) : Name :=
  let text := [48,120] ++ hexText size ++ [64,48,120] ++ hexText offset
  ⟨text.take 21,true,22,text.length + 1⟩

def userName (name : List UInt8) : Name := ⟨name,false,name.length + 1,name.length + 1⟩

def nameParse (size offset : BitVec 64) (p : List UInt8) : Option (Name × List UInt8) :=
  match p with
  | 40 :: name =>
    if 41 ∉ name then none
    else if name.takeWhile (· ≠ 41) = [] then none
    else some (userName (name.takeWhile (· ≠ 41)),(name.dropWhile (· ≠ 41)).drop 1)
  | _ => some (autoName size offset,p)

def sizeParse (p : List UInt8) : Option (BitVec 64 × BitVec 64 × List UInt8) := do
  let (size,p) ← match p with
    | 45 :: p => some (SIZE_REMAINING,p)
    | _ => if (memsize_parse p).1 < MIN_PART_SIZE then none else some (memsize_parse p)
  match p with
  | 64 :: p => some (size,memsize_parse p)
  | _ => some (size,OFFSET_NOT_SPECIFIED,p)

def roParse (p : List UInt8) : Bool × List UInt8 :=
  match p with
  | 114 :: 111 :: p => (true,p)
  | _ => (false,p)

/-- What follows a definition: another one, another device, or nothing. -/
def nextParse (size : BitVec 64) (p : List UInt8) : Option (List UInt8) :=
  match p with
  | 44 :: p => if size = SIZE_REMAINING then none else some p
  | [] => some []
  | 59 :: p => some (59 :: p)
  | _ => none

/-- The partition, its name, and the next definition. -/
def part_parse (partdef : List UInt8) : Option (Part × Name × List UInt8) := do
  let (size,offset,p) ← sizeParse partdef
  let (name,p) ← nameParse size offset p
  let (ro,p) := roParse p
  let ret ← nextParse size p
  some (⟨name.name,name.auto_name,size,offset,ro⟩,name,ret)

/-! ### Devices -/

def device_find (devices : List Device) (type num : UInt8) : Option Device :=
  devices.find? fun dev => dev.id.type = type ∧ dev.id.num = num

def id_find (ids : List Mtdids) (type num : UInt8) : Option Mtdids :=
  ids.find? fun id => id.type = type ∧ id.num = num

def id_find_by_mtd_id (ids : List Mtdids) (mtd_id : List UInt8) : Option Mtdids := ids.find? fun id => id.mtd_id = mtd_id

/-- The loop of `device_parse`: the partitions, and the text that is left. A definition has at least one character. -/
def partsLoop (id : Mtdids) : Nat → BitVec 64 → List UInt8 → Option (List Part × List UInt8)
  | 0, _, _ => none
  | fuel+1, offset, p =>
    if p = [] ∨ p.head? = some 59 then some ([],p)
    else do
      let (part,_,p) ← part_parse p
      let part ← part_validate id { part with offset := if part.offset = OFFSET_NOT_SPECIFIED then offset else part.offset }
      let (parts,p) ← partsLoop id fuel (part.offset + part.size) p
      some (part :: parts,p)

def firstOffset (devices : List Device) (id : Mtdids) : BitVec 64 :=
  match (device_find devices id.type id.num).bind fun dev => dev.parts.getLast? with
  | some part => part.offset + part.size
  | none => 0

def device_parse (ids : List Mtdids) (devices : List Device) (mtd_dev : List UInt8) : Option (Device × List UInt8) := do
  guard (58 ∈ mtd_dev)
  let id ← id_find_by_mtd_id ids (mtd_dev.takeWhile (· ≠ 58))
  let p := (mtd_dev.dropWhile (· ≠ 58)).drop 1
  let (parts,p) ← partsLoop id (p.length + 1) (firstOffset devices id) p
  guard (parts ≠ [])
  let parts ← parts.foldlM part_sort_add []
  some (⟨id,parts⟩,p.drop 1)

/-- The loop of `parse_mtdparts`. -/
def devicesLoop (ids : List Mtdids) : Nat → List Device → List UInt8 → Option (List Device)
  | 0, _, _ => none
  | fuel+1, devices, p =>
    if p = [] then some devices
    else do
      let (dev,p) ← device_parse ids devices p
      guard (device_find devices dev.id.type dev.id.num = none)
      devicesLoop ids fuel (devices ++ [dev]) p

/-- `mtdparts=` -/
def mtdpartsPrefix : List UInt8 := [109,116,100,112,97,114,116,115,61]

def parse_mtdparts (ids : List Mtdids) (mtdparts : List UInt8) : Option (List Device) := do
  guard (mtdparts.take 9 = mtdpartsPrefix ∧ mtdparts.drop 9 ≠ [])
  devicesLoop ids ((mtdparts.drop 9).length + 1) [] (mtdparts.drop 9)

/-! ### Writing the variable -/

/-- The next piece is written if `maxlen` allows it; otherwise the text so far is the error. -/
def put (s : List UInt8 × Nat) (piece : List UInt8) : Except (List UInt8) (List UInt8 × Nat) :=
  if s.2 < piece.length then .error s.1 else .ok (s.1 ++ piece,s.2 - piece.length)

def putIf (c : Bool) (s : List UInt8 × Nat) (piece : List UInt8) : Except (List UInt8) (List UInt8 × Nat) :=
  if c then put s piece else pure s

/-- The offset is only written where there is a gap. -/
def hasOffset (prev : Option Part) (part : Part) : Bool :=
  match prev with
  | none => part.offset ≠ 0
  | some prev => prev.offset + prev.size ≠ part.offset

def putPart (prev : Option Part) (part : Part) (more : Bool) (s : List UInt8 × Nat) : Except (List UInt8) (List UInt8 × Nat) := do
  let s ← put s (memsize_format part.size)
  let s ← putIf (hasOffset prev part) s (64 :: memsize_format part.offset)
  let s ← putIf (!part.auto_name) s (40 :: part.name ++ [41])
  let s ← putIf part.ro s [114,111]
  putIf more s [44]

def putParts (num_parts : Nat) : Option Part → Nat → List Part → List UInt8 × Nat → Except (List UInt8) (List UInt8 × Nat)
  | _, _, [], s => pure s
  | prev, part_cnt, part :: parts, s => do
    let s ← putPart prev part (part_cnt + 1 < num_parts) s
    putParts num_parts (some part) (part_cnt + 1) parts s

def putDevices : List Device → List UInt8 × Nat → Except (List UInt8) (List UInt8 × Nat)
  | [], s => pure s
  | dev :: devices, s => do
    let s ← put s (dev.id.mtd_id ++ [58])
    let s ← putParts (dev.parts.length % 2 ^ 16) none 0 dev.parts s
    let s ← putIf (devices ≠ []) s [59]
    putDevices devices s

/-- The text, or what has been written of it when it got too long. -/
def generate_mtdparts (devices : List Device) (buflen : Nat) : Except (List UInt8) (List UInt8) := do
  if devices = [] then pure []
  else
    let s ← putDevices devices (mtdpartsPrefix,(buflen + 2 ^ 32 - 1) % 2 ^ 32)
    pure s.1

/-- The bytes written to the buffer; `sprintf` ends its text with a NUL, which the next character overwrites. -/
def generatedBytes (devices : List Device) (buflen : Nat) : Nat :=
  match generate_mtdparts devices buflen with
  | .ok text => text.length + 1
  | .error text => max 10 text.length

/-! ### Commands -/

/-- `nand`, `nor` or `onenand`, and the number behind it. -/
def mtd_id_parse (id : List UInt8) : Option (UInt8 × UInt8 × List UInt8) := do
  let (dev_type,p) ← match id with
    | 110 :: 97 :: 110 :: 100 :: p => some (MTD_DEV_TYPE_NAND,p)
    | 110 :: 111 :: 114 :: p => some (MTD_DEV_TYPE_NOR,p)
    | 111 :: 110 :: 101 :: 110 :: 97 :: 110 :: 100 :: p => some (MTD_DEV_TYPE_ONENAND,p)
    | _ => none
  guard ((p.head?.map isdigit).getD false)
  some (dev_type,UInt8.ofNat (simple_strtoul 32 p 0).toNat,numberEnd p 0)

/-- The arguments of `mtdparts add`. -/
structure AddArgs where
  dev : List UInt8
  size : List UInt8
  name : List UInt8
  option : Option (List UInt8)

/-- The length that is compared with `PART_ADD_DESC_MAXLEN`, in a `u8`. -/
def descLen (id : Mtdids) (argv : AddArgs) : BitVec 8 :=
  let len := BitVec.ofNat 8 (id.mtd_id.length + 1)
  let len := len + BitVec.ofNat 8 argv.size.length
  let len := len + BitVec.ofNat 8 (argv.name.length + 2)
  if argv.option.map List.length = some 2 then len + 2 else len

/-- `tmpbuf`, if the length is accepted. -/
def addText (id : Mtdids) (argv : AddArgs) : Option (List UInt8) :=
  if PART_ADD_DESC_MAXLEN ≤ (descLen id argv).toNat then none
  else some (id.mtd_id ++ 58 :: argv.size ++ 40 :: argv.name ++ 41 :: argv.option.getD [])

def updateDevice (devices : List Device) (dev : Device) : List Device :=
  devices.map fun old => if old.id.type = dev.id.type ∧ old.id.num = dev.id.num then dev else old

/-- The list after `mtdparts add`; `none` if the command fails. -/
def mtdparts_add (ids : List Mtdids) (devices : List Device) (argv : AddArgs) : Option (List Device) := do
  let (type,num,_) ← mtd_id_parse argv.dev
  let id ← id_find ids type num
  let tmpbuf ← addText id argv
  let (dev,_) ← device_parse ids devices tmpbuf
  match device_find devices dev.id.type dev.id.num with
  | none => some (devices ++ [dev])
  | some dev_tmp => do
    let p ← dev.parts.head?
    let dev_tmp ← part_add dev_tmp p
    some (updateDevice devices dev_tmp)

/-- The first partition with the name, as numbers of its device and of the partition in it. -/
def findName (id : List UInt8) : List Device → Option (Nat × Nat)
  | [] => none
  | dev :: devices =>
    match dev.parts.findIdx? fun part => part.name = id with
    | some j => some (0,j)
    | none => (findName id devices).map fun found => (found.1 + 1,found.2)

def find_dev_and_part (devices : List Device) (id : List UInt8) : Option (Nat × Nat) :=
  match findName id devices with
  | some found => some found
  | none => do
    let (type,dnum,p) ← mtd_id_parse id
    guard (p.head? = some 44 ∧ p.drop 1 ≠ [])
    guard (numberEnd (p.drop 1) 0 = [])
    let i ← devices.findIdx? fun dev => dev.id.type = type ∧ dev.id.num = dnum
    let dev ← devices[i]?
    let pnum := (UInt8.ofNat (simple_strtoul 32 (p.drop 1) 0).toNat).toNat
    guard (pnum < dev.parts.length % 2 ^ 16)
    some (i,pnum)

/-- A device without partitions is removed. -/
def part_del (devices : List Device) (i j : Nat) : List Device :=
  match devices[i]? with
  | none => devices
  | some dev =>
    if dev.parts.length % 2 ^ 16 = 1 then devices.eraseIdx i
    else devices.set i { dev with parts := dev.parts.eraseIdx j }

inductive Op where
  /-- The variable has been changed and is read. -/
  | init (mtdparts : List UInt8)
  | add (argv : AddArgs)
  | del (id : List UInt8)

/-- The device list after a command. A variable that is refused leaves no device behind. -/
def perform (ids : List Mtdids) (devices : List Device) : Op → List Device
  | .init mtdparts => (parse_mtdparts ids mtdparts).getD []
  | .add argv => (mtdparts_add ids devices argv).getD devices
  | .del id =>
    match find_dev_and_part devices id with
    | some (i,j) => part_del devices i j
    | none => devices

end UBoot.Mtdparts
