import UBoot.CNumbers

/-!
Queries and answers of the domain name system, `net/dns.c`. The packet is the memory that the handler reads; what
is printed for debugging is left out.
-/
namespace UBoot.Dns
open CStrings CNumbers

def DNS_A_RECORD : Nat := 1
def DNS_CNAME_RECORD : Nat := 5

def dot : UInt8 := 46

/-! ### Queries -/

/-- The loop of `DnsSend` over the chunks of the name. -/
def encodeName : Nat → List UInt8 → List UInt8
  | 0, _ => []
  | fuel+1, name =>
    let chunk := name.takeWhile (· ≠ dot)
    UInt8.ofNat chunk.length :: chunk ++
      match name.dropWhile (· ≠ dot) with
      | [] => []
      | _ :: rest => encodeName fuel rest

def question (name : CString) : List UInt8 := encodeName (name.length + 1) name.bytes ++ [0,0,UInt8.ofNat DNS_A_RECORD,0,1]

/-- The packet that is sent. `tid` is not swapped. -/
def DnsSend (NetDNSResolve : CString) : List UInt8 := [1,0,1,0,0,1,0,0,0,0,0,0] ++ question NetDNSResolve

/-! ### Answers -/

def get_unaligned_be16 (pkt : Nat → UInt8) (p : Nat) : Nat := (pkt p).toNat * 256 + (pkt (p + 1)).toNat

/-- `while (*p && &p[k] < e) p++`. -/
def skipName (pkt : Nat → UInt8) (e k : Nat) : Nat → Nat → Nat
  | 0, p => p
  | fuel+1, p => if pkt p ≠ 0 ∧ p + k < e then skipName pkt e k fuel (p + 1) else p

/-- The place two bytes in front of the type of a record. -/
def beforeType (pkt : Nat → UInt8) (e p : Nat) : Nat := if pkt p ≠ 0xc0 then skipName pkt e 12 e p - 1 else p

/-- The loop through the answers: `p` and `found`. Each round but the last moves `p` on, so that `e` rounds are enough. -/
def answers (pkt : Nat → UInt8) (e : Nat) : Nat → Nat → Nat × Bool
  | 0, p => (p,false)
  | fuel+1, p =>
    if p + 12 < e then
      let p := beforeType pkt e p
      let type := get_unaligned_be16 pkt (p + 2)
      if type = DNS_CNAME_RECORD then answers pkt e fuel (p + 12 + get_unaligned_be16 pkt (p + 10))
      else if type = DNS_A_RECORD then (p,true)
      else (p,false)
    else (p,false)

def ntohl (x : Nat) : Nat := x % 256 * 2 ^ 24 + x / 2 ^ 8 % 256 * 2 ^ 16 + x / 2 ^ 16 % 256 * 2 ^ 8 + x / 2 ^ 24 % 256

/-- A number up to 255, with `%d`. -/
def byteText (n : Nat) : List UInt8 := numberText 10 3 n

def ip_to_string (x : Nat) : List UInt8 :=
  let x := ntohl x
  byteText (x / 2 ^ 24 % 256) ++ dot :: byteText (x / 2 ^ 16 % 256) ++ dot :: byteText (x / 2 ^ 8 % 256) ++ dot :: byteText (x % 256)

/-- `memcpy(&IPAddress, p, 4)`. -/
def copyAddress (pkt : Nat → UInt8) (p : Nat) : Nat :=
  (pkt p).toNat + (pkt (p + 1)).toNat * 2 ^ 8 + (pkt (p + 2)).toNat * 2 ^ 16 + (pkt (p + 3)).toNat * 2 ^ 24

/-- What the handler does: it ignores the packet, or it ends the loop after it has set a variable or not. -/
inductive Handled
  | ignored
  | done (set : Option (CString × List UInt8))
deriving DecidableEq

def DnsHandler (DnsOurPort : Nat) (NetDNSenvvar : Option CString) (pkt : Nat → UInt8) (dest len : Nat) : Handled :=
  if dest ≠ DnsOurPort then .ignored
  else if get_unaligned_be16 pkt 4 ≠ 1 then .ignored
  else if get_unaligned_be16 pkt 6 = 0 then .done none
  else
    let p := skipName pkt len 0 len 12
    if len < p + 5 ∨ get_unaligned_be16 pkt (p + 1) ≠ DNS_A_RECORD then .done none
    else
      let (p,found) := answers pkt len len (p + 5)
      if found = true ∧ p + 12 < len then
        let dlen := get_unaligned_be16 pkt (p + 10)
        if p + 12 + dlen ≤ len then .done (NetDNSenvvar.map fun var => (var,ip_to_string (copyAddress pkt (p + 12))))
        else .done none
      else .done none

end UBoot.Dns
