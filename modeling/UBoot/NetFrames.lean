import UBoot.NetDefrag

/-!
What `NetReceive` of `net/net.c` hands to the UDP handler, without CDP, UDP checksums and the API. The lengths of the frame
and of the IP packet are checked, that of the UDP packet is not, so the payload is inside the frame if and only if the
sender gives a length that is (`payload_inside_iff`). `inpkt` is the receive buffer, `len` the length of the frame.
-/
namespace UBoot.NetFrames
open NetDefrag

def ETHER_HDR_SIZE : Nat := 14
def VLAN_ETHER_HDR_SIZE : Nat := 18
def E802_HDR_SIZE : Nat := 22
def UDP_HDR_SIZE : Nat := 8
def PROT_IP : Nat := 0x0800
def PROT_VLAN : Nat := 0x8100
def IPPROTO_UDP : UInt8 := 17
def VLAN_NONE : Nat := 4095

/-- The variables, in host order. -/
structure Station where
  NetOurVLAN : Nat
  NetOurNativeVLAN : Nat
  NetOurIP : Nat

variable (s : Station) (inpkt : List UInt8) (len : Nat)

/-- Where the IP header starts, the protocol and the VLAN. -/
def etherHeader : Option (Nat × Nat × Nat) :=
  let eth_proto := be16 inpkt 12
  if eth_proto < 1514 then some (E802_HDR_SIZE,be16 inpkt 20,VLAN_NONE)
  else if eth_proto ≠ PROT_VLAN then some (ETHER_HDR_SIZE,eth_proto,VLAN_NONE)
  else if len < VLAN_ETHER_HDR_SIZE then none
  else if s.NetOurVLAN % 0x1000 = VLAN_NONE then none
  else some (VLAN_ETHER_HDR_SIZE,be16 inpkt 16,be16 inpkt 14 % 0x1000)

def otherVLAN (vlanid : Nat) : Bool :=
  let myvlanid := if s.NetOurVLAN = 0xffff then VLAN_NONE else s.NetOurVLAN
  let mynvlanid := if s.NetOurNativeVLAN = 0xffff then VLAN_NONE else s.NetOurNativeVLAN
  let vlanid := if vlanid = VLAN_NONE then mynvlanid % 0x1000 else vlanid
  myvlanid % 0x1000 ≠ VLAN_NONE && vlanid ≠ myvlanid % 0x1000

/-- IPv4 without options and with a right checksum, for our address or all, if we have one. -/
def forUs (ip : List UInt8) : Bool :=
  (ip.getD 0 0).toNat / 16 = 4 && (ip.getD 0 0).toNat % 16 ≤ 5 && NetCksumOk ip (IP_HDR_SIZE / 2) &&
    (s.NetOurIP = 0 || be32 ip 16 = s.NetOurIP || be32 ip 16 = 0xFFFFFFFF)

def wholeUDP (ip : List UInt8) : Bool := offset8 ip = 0 && !moreFragments ip && ip.getD 9 0 = IPPROTO_UDP

def udp_len (ip : List UInt8) : Nat := be16 ip 24

/-- The place and the length of the payload that is handed to `udp_packet_handler`; what is made of fragments is in
    another buffer and left out here. -/
def NetReceive : Option (Nat × Int) :=
  if len < ETHER_HDR_SIZE then none
  else (etherHeader s inpkt len).bind fun (start,eth_proto,vlanid) =>
    let ip := inpkt.drop start
    let left : Int := len - start
    if otherVLAN s vlanid || eth_proto ≠ PROT_IP then none
    -- compared with a `sizeof`, a negative length is a large one
    else if left % 2 ^ 32 < IP_UDP_HDR_SIZE then none
    else if left < ip_len ip then none
    else if forUs s ip && wholeUDP ip then some (start + IP_UDP_HDR_SIZE,udp_len ip - UDP_HDR_SIZE) else none

/-- The tests that a frame has to pass: its IP packet starts at `start` and is all there. -/
structure Accepted (start : Nat) : Prop where
  protocol : ∃ vlanid, etherHeader s inpkt len = some (start,PROT_IP,vlanid) ∧ otherVLAN s vlanid = false
  header : start + IP_UDP_HDR_SIZE ≤ len
  packet : start + ip_len (inpkt.drop start) ≤ len
  udp : forUs s (inpkt.drop start) = true ∧ wholeUDP (inpkt.drop start) = true

variable {s inpkt len}

theorem etherHeader_start {start proto vlanid : Nat} (found : etherHeader s inpkt len = some (start,proto,vlanid)) :
    14 ≤ start ∧ start ≤ 22 := by
  rw [etherHeader] at found
  split_ifs at found
  · cases found; decide
  · cases found; decide
  · cases found; decide

theorem NetReceive_eq (int : len < 2 ^ 31) {p : Nat} {n : Int} : NetReceive s inpkt len = some (p,n) ↔
    ∃ start, Accepted s inpkt len start ∧ p = start + IP_UDP_HDR_SIZE ∧ n = udp_len (inpkt.drop start) - UDP_HDR_SIZE := by
  rw [NetReceive]
  constructor
  · intro given
    rw [ite_eq_iff] at given
    obtain ⟨-,wrong⟩ | ⟨-,given⟩ := given
    · cases wrong
    obtain ⟨⟨start,proto,vlanid⟩,found,rest⟩ := Option.bind_eq_some_iff.mp given
    have bounds := etherHeader_start found
    simp only at rest
    split_ifs at rest with other short cut wanted
    simp only [Bool.or_eq_true,decide_eq_true_eq,not_or,not_not,Bool.not_eq_true] at other
    rw [Bool.and_eq_true] at wanted
    -- a negative length is less than the one in the header
    simp only [IP_UDP_HDR_SIZE] at short
    refine ⟨start,⟨⟨vlanid,other.2 ▸ found,other.1⟩,by simp only [IP_UDP_HDR_SIZE]; omega,by omega,wanted⟩,?_⟩
    cases rest
    exact ⟨rfl,rfl⟩
  rintro ⟨start,⟨⟨vlanid,found,same⟩,header,packet,udp⟩,rfl,rfl⟩
  have bounds := etherHeader_start found
  simp only [IP_UDP_HDR_SIZE] at header
  rw [if_neg (show ¬ len < ETHER_HDR_SIZE by simp only [ETHER_HDR_SIZE]; omega),found,Option.bind_some]
  simp only [same,udp,IP_UDP_HDR_SIZE]
  rw [if_neg (by decide),if_neg (by omega),if_neg (by omega),if_pos (by decide)]

/-- The payload that is handed on lies in the frame exactly if the UDP packet of an accepted frame does. -/
theorem payload_inside_iff (s : Station) (inpkt : List UInt8) (int : len < 2 ^ 31) :
    (∀ p n, NetReceive s inpkt len = some (p,n) → 0 ≤ n ∧ p + n ≤ len) ↔
      ∀ start, Accepted s inpkt len start → UDP_HDR_SIZE ≤ udp_len (inpkt.drop start) ∧
        start + IP_HDR_SIZE + udp_len (inpkt.drop start) ≤ len := by
  simp only [NetReceive_eq int]
  constructor
  · intro inside start accepted
    have := inside _ _ ⟨start,accepted,rfl,rfl⟩
    simp only [IP_UDP_HDR_SIZE,UDP_HDR_SIZE,IP_HDR_SIZE] at *
    omega
  rintro right p n ⟨start,accepted,rfl,rfl⟩
  have := right start accepted
  simp only [IP_UDP_HDR_SIZE,UDP_HDR_SIZE,IP_HDR_SIZE] at *
  omega

/-- A frame without payload, with the given length of its UDP packet. -/
def frame (high low : UInt8) : List UInt8 :=
  List.replicate 12 0 ++ [8,0] ++ [0x45,0,0,28,0,0,0,0,64,17,122,210,0,0,0,0,0,0,0,0] ++ [0,0,0,0,high,low,0,0]

theorem empty_payload_inside : NetReceive ⟨0xffff,0xffff,0⟩ (frame 0 8) 42 = some (42,0) ∧
    ∀ p n, NetReceive ⟨0xffff,0xffff,0⟩ (frame 0 8) 42 = some (p,n) → 0 ≤ n ∧ p + n ≤ (42 : Nat) := by
  have given : NetReceive ⟨0xffff,0xffff,0⟩ (frame 0 8) 42 = some (42,0) := by decide +kernel
  refine ⟨given,(payload_inside_iff _ (frame 0 8) (by decide)).mpr fun start accepted => ?_⟩
  obtain ⟨vlanid,found,_⟩ := accepted.protocol
  obtain rfl : 14 = start := by
    have plain : etherHeader ⟨0xffff,0xffff,0⟩ (frame 0 8) 42 = some (14,0x0800,4095) := by decide +kernel
    cases plain.symm.trans found
    rfl
  decide

theorem payload_outside : NetReceive ⟨0xffff,0xffff,0⟩ (frame 255 255) 42 = some (42,65527) ∧
    NetReceive ⟨0xffff,0xffff,0⟩ (frame 0 0) 42 = some (42,-8) := by decide +kernel

end UBoot.NetFrames
