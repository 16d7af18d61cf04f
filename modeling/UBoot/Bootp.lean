import UBoot.CStrings

/-!
The BOOTP and DHCP clients of `net/bootp.c`. A packet is the list of the bytes that may be read from its payload on;
a pointer into it is the rest of the list, and reading behind its end gives `none`. The same holds for stores
outside of a variable. Addresses and other words are four bytes in the order of the packet. What is printed, the
vendor extensions and `CONFIG_SYS_BOOTFILE_PREFIX` are left out.
-/
namespace UBoot.Bootp
open Buffers CStrings

abbrev Quad := UInt8 × UInt8 × UInt8 × UInt8

def zeroQuad : Quad := (0,0,0,0)

def Quad.bytes (q : Quad) : List UInt8 := [q.1,q.2.1,q.2.2.1,q.2.2.2]

/-- `NetReadLong`, `NetCopyIP`. -/
def readQuad : List UInt8 → Option Quad
  | a :: b :: c :: d :: _ => some (a,b,c,d)
  | _ => none

/-- Reading `n` bytes. -/
def takeN (value : List UInt8) (n : Nat) : Option (List UInt8) := if n ≤ value.length then some (value.take n) else none

/-! ### Packets and variables -/

def bp_id : Nat := 4
def bp_yiaddr : Nat := 16
def bp_siaddr : Nat := 20
def bp_file : Nat := 108
def bp_vend : Nat := 236

/-- The size of `bp_file` and of `BootFile`. -/
def fileSize : Nat := 128

/-- `sizeof(struct Bootp_t)` with DHCP. -/
def BOOTP_HDR_SIZE : Nat := bp_vend + 312

def BOOTP_VENDOR_MAGIC : Quad := (99,130,83,99)

def DHCP_REQUEST : UInt8 := 3
def DHCP_ACK : Int := 5

inductive DhcpState
  | INIT
  | INIT_REBOOT
  | REBOOTING
  | SELECTING
  | REQUESTING
  | REBINDING
  | BOUND
  | RENEWING
deriving DecidableEq

/-- `CONFIG_BOOTP_SERVERIP`, `CONFIG_BOOTP_DNS2`, and `CONFIG_CMD_SNTP` with `CONFIG_BOOTP_TIMEOFFSET` or
    `CONFIG_BOOTP_NTPSERVER`. -/
structure Config where
  serverip : Bool
  dns2 : Bool
  timeOffset : Bool
  ntpServer : Bool

structure Net where
  dhcp_state : DhcpState
  BootpID : Quad
  BootpTry : Nat
  NetDHCPServerIP : Quad
  dhcp_leasetime : Quad
  NetServerIP : Quad
  NetServerEther : List UInt8
  NetOurIP : Quad
  NetOurSubnetMask : Quad
  NetOurGatewayIP : Quad
  NetOurDNSIP : Quad
  NetOurDNS2IP : Quad
  NetTimeOffset : Quad
  NetNtpServerIP : Quad
  NetOurHostName : List UInt8
  NetOurRootPath : List UInt8
  NetOurNISDomain : List UInt8
  NetBootFileSize : Nat
  BootFile : List UInt8
  bootfile : Option CString
deriving DecidableEq

/-- `BootpCheckPkt`. -/
def BootpCheckPkt (pkt : List UInt8) (dest src len : Nat) (BootpID : Quad) : Option Int :=
  if dest ≠ 68 ∨ src ≠ 67 then some (-1)
  else if len < bp_vend then some (-2)
  else do
    let op ← pkt[0]?
    let htype ← pkt[1]?
    let hlen ← pkt[2]?
    let id ← readQuad (pkt.drop bp_id)
    if op ≠ 1 ∧ op ≠ 2 ∧ op ≠ 5 ∧ op ≠ 6 then some (-3)
    else if htype ≠ 1 then some (-4)
    else if hlen ≠ 6 then some (-5)
    else if id ≠ BootpID then some (-6)
    else some 0

/-! ### Copying -/

/-- The loop of `copy_filename`, which runs at most `n` times. -/
def copyLoop : Nat → List UInt8 → Nat → List UInt8 → Option (List UInt8)
  | 0, dst, i, _ => store dst i 0
  | _+1, _, _, [] => none
  | n+1, dst, i, c :: src =>
    if c ≠ 0 ∧ c ≠ 34 then do
      let dst ← store dst i c
      copyLoop n dst (i + 1) src
    else store dst i 0

def copy_filename (dst src : List UInt8) (size : Nat) : Option (List UInt8) := do
  let first ← src[0]?
  if first = 34 then copyLoop (size - 2) dst 0 (src.drop 1) else copyLoop (size - 1) dst 0 src

def copyBootFile (bp : List UInt8) (BootFile : List UInt8) : Option (List UInt8) := do
  let file ← stringAt bp bp_file
  if 0 < file.length then copy_filename BootFile (bp.drop bp_file) fileSize else some BootFile

/-- `et_src` is the sender's address in front of the packet. -/
def BootpCopyNetParams (cfg : Config) (et_src : List UInt8) (bp : List UInt8) (net : Net) : Option Net := do
  let siaddr ← readQuad (bp.drop bp_siaddr)
  let yiaddr ← readQuad (bp.drop bp_yiaddr)
  let BootFile ← copyBootFile bp net.BootFile
  some { net with
    NetServerIP := if cfg.serverip = false ∧ siaddr ≠ zeroQuad then siaddr else net.NetServerIP
    NetServerEther := if cfg.serverip then net.NetServerEther else et_src
    NetOurIP := yiaddr
    BootFile := BootFile
    bootfile := if (toCString BootFile).bytes ≠ [] then some (toCString BootFile) else net.bootfile }

def truncate_sz (maxlen curlen : Nat) : Nat := if maxlen ≤ curlen then maxlen - 1 else curlen

/-- A text of `size` bytes is truncated to the variable, and terminated. -/
def copyText (dest value : List UInt8) (size : Nat) : Option (List UInt8) := do
  let text ← takeN value (truncate_sz dest.length size)
  let copied ← storeAll dest 0 text
  store copied text.length 0

/-! ### Vendor extensions of BOOTP -/

def fillQuad (old : Quad) (value : List UInt8) : Option Quad := if old = zeroQuad then readQuad value else some old

def fillText (old value : List UInt8) (size : Nat) : Option (List UInt8) :=
  if (toCString old).bytes = [] then copyText old value size else some old

def fillDns2 (cfg : Config) (old : Quad) (value : List UInt8) (size : Nat) : Option Quad :=
  if cfg.dns2 = true ∧ old = zeroQuad ∧ 4 < size then readQuad (value.drop 4) else some old

/-- `ntohs` and `ntohl` of the first bytes. -/
def readNumber (value : List UInt8) (n : Nat) : Option Nat :=
  (takeN value n).map fun bytes => bytes.foldl (fun sum c => sum * 256 + c.toNat) 0

def BootpVendorFieldProcess (cfg : Config) (ext : UInt8) (size : Nat) (value : List UInt8) (net : Net) : Option Net :=
  let net := { net with NetBootFileSize := 0 }
  match ext with
  | 1 => do some { net with NetOurSubnetMask := ← fillQuad net.NetOurSubnetMask value }
  | 3 => do some { net with NetOurGatewayIP := ← fillQuad net.NetOurGatewayIP value }
  | 6 => do
    some { net with NetOurDNSIP := ← fillQuad net.NetOurDNSIP value, NetOurDNS2IP := ← fillDns2 cfg net.NetOurDNS2IP value size }
  | 12 => do some { net with NetOurHostName := ← fillText net.NetOurHostName value size }
  | 13 =>
    if size = 2 ∨ size = 4 then do some { net with NetBootFileSize := ← readNumber value size } else some net
  | 17 => do some { net with NetOurRootPath := ← fillText net.NetOurRootPath value size }
  | 40 => do some { net with NetOurNISDomain := ← fillText net.NetOurNISDomain value size }
  | 42 => if cfg.ntpServer then do some { net with NetNtpServerIP := ← readQuad value } else some net
  | _ => some net

/-- The loop of `BootpVendorProcess`; `left` is the distance to `end`. Each round goes on in the packet. -/
def vendorLoop (cfg : Config) : Nat → Nat → List UInt8 → Net → Option Net
  | 0, _, _, _ => none
  | fuel+1, left, ext, net =>
    if left = 0 then some net
    else match ext with
      | [] => none
      | c :: rest =>
        if c = 0xff then some net
        else if c = 0 then vendorLoop cfg fuel (left - 1) rest net
        else match rest with
          | [] => none
          | size :: value =>
            if size.toNat + 2 ≤ left then do
              let net ← BootpVendorFieldProcess cfg c size.toNat value net
              vendorLoop cfg fuel (left - (size.toNat + 2)) (value.drop size.toNat) net
            else vendorLoop cfg fuel (left - (size.toNat + 2)) (value.drop size.toNat) net

def BootpVendorProcess (cfg : Config) (ext : List UInt8) (size : Nat) (net : Net) : Option Net :=
  vendorLoop cfg (ext.length + 1) size ext net

/-- What is done for an accepted packet, up to `net_auto_load`. The vendor area ends `len` bytes behind its beginning. -/
def BootpHandler (cfg : Config) (et_src pkt : List UInt8) (dest src len : Nat) (net : Net) : Option Net := do
  let check ← BootpCheckPkt pkt dest src len net.BootpID
  if check ≠ 0 then some net
  else do
    let net ← BootpCopyNetParams cfg et_src pkt net
    let magic ← readQuad (pkt.drop bp_vend)
    if magic = BOOTP_VENDOR_MAGIC then BootpVendorProcess cfg (pkt.drop (bp_vend + 4)) len net else some net

/-! ### Options of DHCP -/

/-- The boot file in the options is put into the packet, if there is none. -/
def copyOptFile (value : List UInt8) (oplen : Nat) (bp : List UInt8) : Option (List UInt8) := do
  let first ← bp[bp_file]?
  if first = 0 ∧ 0 < truncate_sz fileSize oplen then do
    let name ← takeN value (truncate_sz fileSize oplen)
    storeAll bp bp_file (name ++ [0])
  else some bp

def optDns2 (cfg : Config) (old : Quad) (value : List UInt8) (oplen : Nat) : Option Quad :=
  if cfg.dns2 = true ∧ 4 < oplen then readQuad (value.drop 4) else some old

/-- The `switch` of `DhcpOptionsProcess`: the packet and the variables. -/
def dhcpOption (cfg : Config) (code : UInt8) (oplen : Nat) (value bp : List UInt8) (net : Net) : Option (List UInt8 × Net) :=
  match code with
  | 1 => do some (bp,{ net with NetOurSubnetMask := ← readQuad value })
  | 2 => if cfg.timeOffset then do some (bp,{ net with NetTimeOffset := ← readQuad value }) else some (bp,net)
  | 3 => do some (bp,{ net with NetOurGatewayIP := ← readQuad value })
  | 6 => do some (bp,{ net with NetOurDNSIP := ← readQuad value, NetOurDNS2IP := ← optDns2 cfg net.NetOurDNS2IP value oplen })
  | 12 => do some (bp,{ net with NetOurHostName := ← copyText net.NetOurHostName value oplen })
  | 17 => do some (bp,{ net with NetOurRootPath := ← copyText net.NetOurRootPath value oplen })
  | 42 => if cfg.ntpServer then do some (bp,{ net with NetNtpServerIP := ← readQuad value }) else some (bp,net)
  | 51 => do some (bp,{ net with dhcp_leasetime := ← readQuad value })
  | 54 => do some (bp,{ net with NetDHCPServerIP := ← readQuad value })
  | 67 => do some (← copyOptFile value oplen bp,net)
  | _ => some (bp,net)

/-- The loop of `DhcpOptionsProcess`; `left` is the distance to `end`. -/
def optionsLoop (cfg : Config) : Nat → Nat → List UInt8 → List UInt8 → Net → Option (List UInt8 × Net)
  | 0, _, _, _, _ => none
  | fuel+1, left, popt, bp, net =>
    if left = 0 then some (bp,net)
    else match popt with
      | [] => none
      | code :: rest =>
        if code = 0xff then some (bp,net)
        else match rest with
          | [] => none
          | oplen :: value => do
            let (bp,net) ← dhcpOption cfg code oplen.toNat value bp net
            optionsLoop cfg fuel (left - (oplen.toNat + 2)) (value.drop oplen.toNat) bp net

def DhcpOptionsProcess (cfg : Config) (popt bp : List UInt8) (net : Net) : Option (List UInt8 × Net) :=
  optionsLoop cfg (popt.length + 1) BOOTP_HDR_SIZE popt bp net

/-- The options are processed behind the magic number only. -/
def processOptions (cfg : Config) (bp : List UInt8) (net : Net) : Option (List UInt8 × Net) := do
  let magic ← readQuad (bp.drop bp_vend)
  if magic = BOOTP_VENDOR_MAGIC then DhcpOptionsProcess cfg (bp.drop (bp_vend + 4)) bp net else some (bp,net)

/-- The loop of `DhcpMessageType`, which has no end. -/
def typeLoop : Nat → List UInt8 → Option Int
  | 0, _ => none
  | _+1, [] => none
  | fuel+1, code :: rest =>
    if code = 0xff then some (-1)
    else if code = 53 then (rest[1]?).map fun type => (type.toNat : Int)
    else match rest with
      | [] => none
      | oplen :: value => typeLoop fuel (value.drop oplen.toNat)

def DhcpMessageType (popt : List UInt8) : Option Int := do
  let magic ← readQuad popt
  if magic ≠ BOOTP_VENDOR_MAGIC then some (-1) else typeLoop popt.length (popt.drop 4)

/-! ### Requests -/

/-- The options of a packet that is sent. Addresses that are 0 are left out; no parameters are requested. -/
def DhcpExtended (message_type : UInt8) (ServerID RequestedIP : Quad) : List UInt8 :=
  let options := BOOTP_VENDOR_MAGIC.bytes ++ [53,1,message_type,57,2,2,64] ++
    (if ServerID ≠ zeroQuad then 54 :: 4 :: ServerID.bytes else []) ++
    (if RequestedIP ≠ zeroQuad then 50 :: 4 :: RequestedIP.bytes else []) ++ [255]
  options ++ List.replicate (64 - options.length) 0

structure Request where
  id : Quad
  options : List UInt8
deriving DecidableEq

def DhcpSendRequestPkt (bp_offer : List UInt8) (net : Net) : Option Request := do
  let id ← readQuad (bp_offer.drop bp_id)
  let OfferedIP ← readQuad (bp_offer.drop bp_yiaddr)
  some ⟨id,DhcpExtended DHCP_REQUEST net.NetDHCPServerIP OfferedIP⟩

/-- A new discovery with the id `BootpID`. -/
def BootpRequest (BootpID : Quad) (net : Net) : Net :=
  { net with dhcp_state := .SELECTING, BootpID := BootpID, BootpTry := net.BootpTry + 1 }

/-- `NetLoop` starts DHCP. -/
def startDhcp (BootpID : Quad) (net : Net) : Net := BootpRequest BootpID { net with BootpTry := 0, NetOurIP := zeroQuad }

def TIMEOUT_COUNT : Nat := 5

def BootpTimeout (BootpID : Quad) (net : Net) : Net := if TIMEOUT_COUNT ≤ net.BootpTry then net else BootpRequest BootpID net

def DhcpHandler (cfg : Config) (et_src pkt : List UInt8) (dest src len : Nat) (net : Net) : Option (Net × Option Request) := do
  let check ← BootpCheckPkt pkt dest src len net.BootpID
  if check ≠ 0 then some (net,none)
  else match net.dhcp_state with
    | .SELECTING => do
      let (bp,net) ← processOptions cfg pkt { net with dhcp_state := .REQUESTING }
      some (net,some (← DhcpSendRequestPkt bp net))
    | .REQUESTING => do
      let type ← DhcpMessageType (pkt.drop bp_vend)
      if type = DHCP_ACK then do
        let (bp,net) ← processOptions cfg pkt net
        let net ← BootpCopyNetParams cfg et_src bp net
        some ({ net with dhcp_state := .BOUND },none)
      else some (net,none)
    | _ => some (net,none)

end UBoot.Bootp
