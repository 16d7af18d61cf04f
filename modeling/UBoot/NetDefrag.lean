import UBoot.Chains

/-!
IP reassembly, `__NetDefragment` of `net/net.c`, and the checks `NetReceive` makes
before it. The descriptors of the holes lie in the holes themselves, eight bytes each,
with 16-bit fields in little-endian order. Every access is checked: the result is `none`
when one leaves `pkt_buff` or the received packet, or when the walk over the holes does
not end.
-/
set_option linter.style.nameCheck false

namespace UBoot.NetDefrag
open Chains

def IP_HDR_SIZE : Nat := 20
def IP_UDP_HDR_SIZE : Nat := 28

/-- `CONFIG_NET_MAXDEFRAG` and the 100 bytes of an RPC reply. -/
def IP_PKTSIZE : Nat := 16484
def IP_MAXUDP : Nat := IP_PKTSIZE - IP_HDR_SIZE

def maxHoles : Nat := IP_MAXUDP / 8

/-! ### Received packets -/

def be16 (ip : List UInt8) (i : Nat) : Nat := 256 * (ip.getD i 0).toNat + (ip.getD (i + 1) 0).toNat

def ip_len (ip : List UInt8) : Nat := be16 ip 2
def ip_id (ip : List UInt8) : Nat := be16 ip 4
def ip_off (ip : List UInt8) : Nat := be16 ip 6

/-- `ip_off & IP_OFFS`, in units of eight bytes. -/
def offset8 (ip : List UInt8) : Nat := ip_off ip % 0x2000

/-- `ip_off & IP_FLAGS_MFRAG`. -/
def moreFragments (ip : List UInt8) : Bool := ip_off ip / 0x2000 % 2 = 1

/-- The sum of `len` 16-bit words, folded. -/
def NetCksum (ptr : List UInt8) (len : Nat) : Nat :=
  let xsum := ((List.range len).map fun i => (ptr.getD (2 * i) 0).toNat + 256 * (ptr.getD (2 * i + 1) 0).toNat).sum
  let xsum := xsum % 0x10000 + xsum / 0x10000
  let xsum := xsum % 0x10000 + xsum / 0x10000
  xsum % 0x10000

def NetCksumOk (ptr : List UInt8) (len : Nat) : Bool :=
  NetCksum ptr len = 0 || NetCksum ptr len = 0xffff

def be32 (ip : List UInt8) (i : Nat) : Nat := 65536 * be16 ip i + be16 ip (i + 2)

/-- The checks of `NetReceive` on an IP packet, from its IP header on. -/
def passesNetReceive (NetOurIP : Nat) (ip : List UInt8) : Bool :=
  IP_UDP_HDR_SIZE ≤ ip.length && ip_len ip ≤ ip.length && (ip.getD 0 0).toNat / 16 = 4 && (ip.getD 0 0).toNat % 16 ≤ 5 &&
    NetCksumOk ip (IP_HDR_SIZE / 2) && (NetOurIP = 0 || be32 ip 16 = NetOurIP || be32 ip 16 = 0xFFFFFFFF)

/-! ### Hole descriptors -/

/-- `struct hole`. -/
structure Hole where
  last_byte : Nat
  next_hole : Nat
  prev_hole : Nat
  unused : Nat

def u16 (payload : Nat → UInt8) (i : Nat) : Nat := (payload i).toNat + 256 * (payload (i + 1)).toNat

def readHole (payload : Nat → UInt8) (k : Nat) : Hole :=
  ⟨u16 payload (8 * k),u16 payload (8 * k + 2),u16 payload (8 * k + 4),u16 payload (8 * k + 6)⟩

/-- Byte `i` of a descriptor. -/
def Hole.byte (h : Hole) : Nat → UInt8
  | 0 => UInt8.ofNat h.last_byte
  | 1 => UInt8.ofNat (h.last_byte / 256)
  | 2 => UInt8.ofNat h.next_hole
  | 3 => UInt8.ofNat (h.next_hole / 256)
  | 4 => UInt8.ofNat h.prev_hole
  | 5 => UInt8.ofNat (h.prev_hole / 256)
  | 6 => UInt8.ofNat h.unused
  | _ => UInt8.ofNat (h.unused / 256)

def writeHole (payload : Nat → UInt8) (k : Nat) (h : Hole) : Nat → UInt8 :=
  fun i => if i / 8 = k then h.byte (i % 8) else payload i

/-- The static variables, with `pkt_buff` in two parts. -/
structure Defrag where
  header : List UInt8
  payload : Nat → UInt8
  first_hole : Nat
  total_len : Nat

/-- `payload[k]`, inside the buffer. -/
def Defrag.hole (s : Defrag) (k : Nat) : Option Hole := if k < maxHoles then some (readHole s.payload k) else none

/-- `payload[k] = h`. -/
def Defrag.setHole (s : Defrag) (k : Nat) (h : Hole) : Option Defrag :=
  if k < maxHoles then some { s with payload := writeHole s.payload k h } else none

/-- `payload[k].last_byte = last`. -/
def Defrag.setLast (s : Defrag) (k last : Nat) : Option Defrag :=
  (s.hole k).bind fun h => s.setHole k { h with last_byte := last }

/-- `payload[k].next_hole = next`. -/
def Defrag.setNext (s : Defrag) (k next : Nat) : Option Defrag :=
  (s.hole k).bind fun h => s.setHole k { h with next_hole := next }

/-- `payload[k].prev_hole = prev`. -/
def Defrag.setPrev (s : Defrag) (k prev : Nat) : Option Defrag :=
  (s.hole k).bind fun h => s.setHole k { h with prev_hole := prev }

/-! ### Reassembly -/

/-- A new packet: one hole without end, and the header of the fragment. -/
def Defrag.reset (s : Defrag) (ip : List UInt8) : Option Defrag :=
  if IP_HDR_SIZE ≤ ip.length then
    some
      { header := ip.take IP_HDR_SIZE
        payload := writeHole s.payload 0 { readHole s.payload 0 with last_byte := 0xffff, next_hole := 0, prev_hole := 0 }
        first_hole := 0
        total_len := 0xffff }
  else none

/-- The walk to the first hole that does not end before `start`; `some none` if there is
    no hole that far away. -/
def findHole (s : Defrag) (start : Nat) : Nat → Nat → Option (Option Nat)
  | 0, _ => none
  | fuel+1, k =>
    (s.hole k).bind fun h =>
      if h.last_byte < start then
        if h.next_hole = 0 then some none else findHole s start fuel h.next_hole
      else some (some k)

/-- Complete overlap: the hole `k` goes. With no neighbour it was the last one. -/
def removeHole (s : Defrag) (k : Nat) : Option (Defrag × Bool) :=
  (s.hole k).bind fun h =>
    if h.prev_hole = 0 ∧ h.next_hole = 0 then some (s,true)
    else if h.prev_hole = 0 then
      ({ s with first_hole := h.next_hole }.setPrev h.next_hole 0).map fun s => (s,false)
    else if h.next_hole = 0 then (s.setNext h.prev_hole 0).map fun s => (s,false)
    else
      (s.setPrev h.next_hole h.prev_hole).bind fun s =>
        (s.hole k).bind fun h => (s.setNext h.prev_hole h.next_hole).map fun s => (s,false)

/-- Overlap with the initial part: the hole `k` moves to `newh`. -/
def moveHole (s : Defrag) (k newh : Nat) : Option Defrag :=
  (s.hole k).bind fun h =>
    (s.setHole newh h).bind fun s =>
      (s.hole newh).bind fun h =>
        (if h.next_hole ≠ 0 then s.setPrev h.next_hole newh else some s).bind fun s =>
          (s.hole newh).bind fun h =>
            if h.prev_hole ≠ 0 then s.setNext h.prev_hole newh else some { s with first_hole := newh }

/-- The fragment sits in the middle: the hole `k` ends at `start`, a new one is made. -/
def splitHole (s : Defrag) (k newh start : Nat) : Option Defrag :=
  (s.hole k).bind fun h =>
    (s.setHole newh h).bind fun s =>
      (s.setLast k start).bind fun s =>
        (s.setNext k newh).bind fun s =>
          (s.setPrev newh k).bind fun s =>
            (s.hole newh).bind fun h => if h.next_hole ≠ 0 then s.setPrev h.next_hole newh else some s

/-- The index of `thisfrag + len / 8`, which C rounds towards 0; `none` before the buffer. -/
def newHole (offset8 : Nat) (len : Int) : Option Nat :=
  let newh := (offset8 : Int) + len.tdiv 8
  if 0 ≤ newh then some newh.toNat else none

/-- The four ways to fix the hole list, for a fragment that ends at `last`. -/
def fixHoles (s : Defrag) (offset8 k : Nat) (len last : Int) : Option (Defrag × Bool) :=
  (s.hole k).bind fun h =>
    if offset8 ≤ k ∧ (h.last_byte : Int) ≤ last then removeHole s k
    else if (h.last_byte : Int) ≤ last then (s.setLast k (offset8 * 8)).map fun s => (s,false)
    else
      (newHole offset8 len).bind fun newh =>
        if offset8 ≤ k then (moveHole s k newh).map fun s => (s,false)
        else (splitHole s k newh (offset8 * 8)).map fun s => (s,false)

/-- `memcpy((uchar *)thisfrag, indata + IP_HDR_SIZE, len)`. -/
def copyIn (s : Defrag) (start : Nat) (len : Int) (ip : List UInt8) : Option Defrag :=
  if 0 ≤ len ∧ start + len ≤ IP_MAXUDP ∧ IP_HDR_SIZE + len ≤ ip.length then
    some { s with payload := fun i =>
      if start ≤ i ∧ i < start + len.toNat then ip.getD (IP_HDR_SIZE + (i - start)) 0 else s.payload i }
  else none

/-- A fragment that overlaps hole `k`: the list is fixed and the fragment copied. Gives
    the state and, once the packet is complete, `*lenp`. -/
def accept (s : Defrag) (ip : List UInt8) (k : Nat) : Option (Defrag × Option Nat) :=
  let start := offset8 ip * 8
  let len : Int := (ip_len ip : Int) - IP_HDR_SIZE
  let last := start + len
  -- no more fragments: the last hole is truncated
  (if moreFragments ip then some s else { s with total_len := last.toNat }.setLast k last.toNat).bind fun s =>
    (fixHoles s (offset8 ip) k len last).bind fun fixed =>
      (copyIn fixed.1 start len ip).map fun s =>
        if fixed.2 then
          ({ s with header := (s.header.set 2 (UInt8.ofNat (s.total_len / 256))).set 3 (UInt8.ofNat s.total_len) },
            some (s.total_len + IP_HDR_SIZE))
        else (s,none)

def collect (s : Defrag) (ip : List UInt8) : Option (Defrag × Option Nat) :=
  let len : Int := (ip_len ip : Int) - IP_HDR_SIZE
  (findHole s (offset8 ip * 8) (maxHoles + 1) s.first_hole).bind fun found =>
    match found with
    | none => some (s,none)
    | some k =>
      -- no overlap with holes; the "+ 7" forces acceptance of a last fragment of 1 to 7 bytes
      if (offset8 ip : Int) + (len + 7).tdiv 8 ≤ k then some (s,none) else accept s ip k

/-- The fragment extends too far; the comparison is unsigned, so a negative sum does too. -/
def extendsTooFar (ip : List UInt8) : Prop :=
  let last : Int := offset8 ip * 8 + ((ip_len ip : Int) - IP_HDR_SIZE)
  last < 0 ∨ IP_MAXUDP < last

instance (ip : List UInt8) : Decidable (extendsTooFar ip) := inferInstanceAs (Decidable (_ ∨ _))

def startsNew (s : Defrag) (ip : List UInt8) : Prop := s.total_len = 0 ∨ ip_id s.header ≠ ip_id ip

instance (s : Defrag) (ip : List UInt8) : Decidable (startsNew s ip) := inferInstanceAs (Decidable (_ ∨ _))

def __NetDefragment (s : Defrag) (ip : List UInt8) : Option (Defrag × Option Nat) :=
  if extendsTooFar ip then some (s,none)
  else (if startsNew s ip then s.reset ip else some s).bind fun s => collect s ip

/-- `NetDefragment`: a packet that is not a fragment passes unchanged. -/
def NetDefragment (s : Defrag) (ip : List UInt8) : Option (Defrag × Option Nat) :=
  if offset8 ip = 0 ∧ moreFragments ip = false then some (s,some (ip_len ip)) else __NetDefragment s ip

end UBoot.NetDefrag
