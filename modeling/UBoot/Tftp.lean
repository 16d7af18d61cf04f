import Mathlib.Data.BitVec
import UBoot.CNumbers
import UBoot.Memory

/-!
The TFTP client of `net/tftp.c`, with `CONFIG_CMD_TFTPPUT` and without multicast, direct flash and
server mode: what the handlers do with a packet, a timeout and an ICMP message. `ulong` has 32 bits.
The memory is the one from `load_addr` on for a download and from `save_addr` on for an upload.
-/
namespace UBoot.Tftp
open BitVec CStrings CNumbers Memory

def WELL_KNOWN_PORT : Nat := 69
def TFTP_RRQ : Nat := 1
def TFTP_WRQ : Nat := 2
def TFTP_DATA : Nat := 3
def TFTP_ACK : Nat := 4
def TFTP_ERROR : Nat := 5
def TFTP_OACK : Nat := 6
def TFTP_BLOCK_SIZE : BitVec 16 := 512
def TFTP_SEQUENCE_SIZE : BitVec 32 := 1 <<< 16

inductive TftpState where
  | STATE_SEND_RRQ
  | STATE_DATA
  | STATE_TOO_LARGE
  | STATE_BAD_MAGIC
  | STATE_OACK
  | STATE_RECV_WRQ
  | STATE_SEND_WRQ
deriving DecidableEq

inductive NetState where
  | NETLOOP_CONTINUE
  | NETLOOP_RESTART
  | NETLOOP_SUCCESS
  | NETLOOP_FAIL
deriving DecidableEq

structure Datagram where
  src : Nat
  dest : Nat
  data : List UInt8
deriving DecidableEq

/-- What does not change during a transfer: the request behind its opcode (file name and options), how
    often a timeout is answered, and the state that `NetStartAgain` leaves. -/
structure Config where
  request : List UInt8
  TIMEOUT_COUNT : Int
  again : NetState
  again_ne : again ≠ .NETLOOP_SUCCESS

structure Client where
  TftpRemotePort : Nat
  TftpOurPort : Nat
  TftpTimeoutCount : Int
  TftpTimeoutCountMax : Int
  TftpBlock : BitVec 32
  TftpLastBlock : BitVec 32
  TftpBlockWrap : BitVec 32
  TftpBlockWrapOffset : BitVec 32
  TftpState : TftpState
  TftpWriting : Bool
  TftpFinalBlock : Bool
  TftpBlkSize : BitVec 16
  NetBootFileXferSize : BitVec 32
  net_state : NetState
  mem : Nat → UInt8

/-! ### Numbers in packets -/

def htons (n : Nat) : List UInt8 := [UInt8.ofNat (n / 256),UInt8.ofNat n]

def ntohs (pkt : List UInt8) : Nat := (pkt.getD 0 0).toNat * 256 + (pkt.getD 1 0).toNat

theorem ntohs_htons (n : Nat) (rest : List UInt8) : ntohs (htons n ++ rest) = n % 2 ^ 16 := by
  simp only [ntohs,htons,List.cons_append,List.getD_cons_zero,List.getD_cons_succ,UInt8.toNat_ofNat']
  omega

@[simp] theorem htons_length (n : Nat) : (htons n).length = 2 := rfl

/-! ### Blocks -/

def Client.blkSize (t : Client) : BitVec 32 := t.TftpBlkSize.setWidth 32

def store_block (t : Client) (block : BitVec 32) (src : List UInt8) : Client :=
  let offset := block * t.blkSize + t.TftpBlockWrapOffset
  let newsize := offset + BitVec.ofNat 32 src.length
  { t with
    mem := store t.mem offset.toNat src
    NetBootFileXferSize := if t.NetBootFileXferSize < newsize then newsize else t.NetBootFileXferSize }

def new_transfer (t : Client) : Client :=
  { t with TftpLastBlock := 0, TftpBlockWrap := 0, TftpBlockWrapOffset := 0, TftpFinalBlock := false }

def load_block (t : Client) (block len : BitVec 32) : List UInt8 :=
  let offset := (block - 1) * len + t.TftpBlockWrapOffset
  let tosend := if t.NetBootFileXferSize - offset < len then t.NetBootFileXferSize - offset else len
  load t.mem offset.toNat tosend.toNat

/-- A number of 0 means that the counter of 16 bits has wrapped. -/
def update_block_number (t : Client) : Client :=
  if t.TftpBlock = 0 then
    { t with
      TftpBlockWrap := t.TftpBlockWrap + 1
      TftpBlockWrapOffset := t.TftpBlockWrapOffset + t.blkSize * TFTP_SEQUENCE_SIZE
      TftpTimeoutCount := 0 }
  else t

def tftp_complete (t : Client) : Client := { t with net_state := .NETLOOP_SUCCESS }

def NetStartAgain (cfg : Config) (t : Client) : Client := { t with net_state := cfg.again }

/-! ### Sending -/

def errorPacket (code : Nat) (text : String) : List UInt8 :=
  htons TFTP_ERROR ++ htons code ++ (CString.ofString text).bytes ++ [0]

def TftpSend (cfg : Config) (t : Client) : Client × Datagram :=
  let packet : Client × List UInt8 :=
    match t.TftpState with
    | .STATE_SEND_RRQ => (t,htons TFTP_RRQ ++ cfg.request)
    | .STATE_SEND_WRQ => (t,htons TFTP_WRQ ++ cfg.request)
    | .STATE_OACK | .STATE_RECV_WRQ | .STATE_DATA =>
      if t.TftpWriting then
        let loaded := load_block t t.TftpBlock t.blkSize
        ({ t with TftpFinalBlock := BitVec.ofNat 32 loaded.length < t.blkSize },
          htons TFTP_DATA ++ htons t.TftpBlock.toNat ++ loaded)
      else (t,htons TFTP_ACK ++ htons t.TftpBlock.toNat)
    | .STATE_TOO_LARGE => (t,errorPacket 3 "File too large")
    | .STATE_BAD_MAGIC => (t,errorPacket 2 "File has bad magic")
  (packet.1,⟨t.TftpOurPort,t.TftpRemotePort,packet.2⟩)

/-! ### Receiving -/

def blksizeText : List UInt8 := (CString.ofString "blksize").bytes ++ [0]

def oackBlkSize (pkt : List UInt8) (size : BitVec 16) : BitVec 16 :=
  (List.range (pkt.length - 8)).foldl
    (fun size i => if (pkt.drop i).take 8 = blksizeText then (simple_strtoul 32 (pkt.drop (i + 8)) 10).setWidth 16 else size)
    size

def handleAck (cfg : Config) (t : Client) (pkt : List UInt8) : Client × List Datagram :=
  if t.TftpWriting then
    if t.TftpFinalBlock then (tftp_complete t,[])
    else
      let block := ntohs pkt
      let ack_ok := t.TftpBlock = BitVec.ofNat 32 block
      let t := update_block_number { t with TftpBlock := BitVec.ofNat 32 ((block + 1) % 2 ^ 16) }
      if ack_ok then
        let (t,sent) := TftpSend cfg t
        (t,[sent])
      else (t,[])
  else (t,[])

def handleOack (cfg : Config) (t : Client) (src : Nat) (pkt : List UInt8) : Client × List Datagram :=
  let t := { t with TftpState := .STATE_OACK, TftpRemotePort := src, TftpBlkSize := oackBlkSize pkt t.TftpBlkSize }
  let t := if t.TftpWriting then { t with TftpState := .STATE_DATA, TftpBlock := t.TftpBlock + 1 } else t
  let (t,sent) := TftpSend cfg t
  (t,[sent])

/-- A block that is not the last one received: it is stored and acknowledged. -/
def acceptBlock (cfg : Config) (t : Client) (data : List UInt8) : Client × List Datagram :=
  if t.TftpBlock = t.TftpLastBlock then (t,[])
  else
    let t := { t with TftpLastBlock := t.TftpBlock, TftpTimeoutCountMax := cfg.TIMEOUT_COUNT }
    let t := store_block t (t.TftpBlock - 1) data
    let (t,sent) := TftpSend cfg t
    (if data.length < t.TftpBlkSize.toNat then tftp_complete t else t,[sent])

def handleData (cfg : Config) (t : Client) (src : Nat) (pkt : List UInt8) : Client × List Datagram :=
  if pkt.length < 2 then (t,[])
  else
    let t := update_block_number { t with TftpBlock := BitVec.ofNat 32 (ntohs pkt) }
    if t.TftpState = .STATE_SEND_RRQ ∨ t.TftpState = .STATE_OACK ∨ t.TftpState = .STATE_RECV_WRQ then
      -- the first block
      let t := new_transfer { t with TftpState := .STATE_DATA, TftpRemotePort := src }
      if t.TftpBlock ≠ 1 then (NetStartAgain cfg t,[]) else acceptBlock cfg t (pkt.drop 2)
    else acceptBlock cfg t (pkt.drop 2)

def handleError (cfg : Config) (t : Client) (pkt : List UInt8) : Client :=
  if ntohs pkt = 1 ∨ ntohs pkt = 2 then { t with net_state := .NETLOOP_FAIL } else NetStartAgain cfg t

def TftpHandler (cfg : Config) (t : Client) (d : Datagram) : Client × List Datagram :=
  if d.dest ≠ t.TftpOurPort then (t,[])
  else if t.TftpState ≠ .STATE_SEND_RRQ ∧ d.src ≠ t.TftpRemotePort ∧ t.TftpState ≠ .STATE_RECV_WRQ ∧
      t.TftpState ≠ .STATE_SEND_WRQ then (t,[])
  else if d.data.length < 2 then (t,[])
  else
    let pkt := d.data.drop 2
    let proto := ntohs d.data
    if proto = TFTP_ACK then handleAck cfg t pkt
    else if proto = TFTP_OACK then handleOack cfg t d.src pkt
    else if proto = TFTP_DATA then handleData cfg t d.src pkt
    else if proto = TFTP_ERROR then (handleError cfg t pkt,[])
    else (t,[])

def TftpTimeout (cfg : Config) (t : Client) : Client × List Datagram :=
  let t := { t with TftpTimeoutCount := t.TftpTimeoutCount + 1 }
  if t.TftpTimeoutCount > t.TftpTimeoutCountMax then (NetStartAgain cfg t,[])
  else if t.TftpState ≠ .STATE_RECV_WRQ then
    let (t,sent) := TftpSend cfg t
    (t,[sent])
  else (t,[])

def icmp_handler (cfg : Config) (t : Client) : Client := NetStartAgain cfg t

/-- The start of a transfer by `NetLoop`, which has cleared `NetBootFileXferSize`: `TftpRRQTimeoutCountMax`
    and the own port are given, and `writing` is the size to save. A download keeps the counters of the
    transfer before. -/
def TftpStart (cfg : Config) (t : Client) (writing : Option (BitVec 32)) (timeoutCountMax : Int) (ourPort : Nat) :
    Client × Datagram :=
  let t := { t with NetBootFileXferSize := 0, net_state := .NETLOOP_CONTINUE, TftpWriting := writing.isSome }
  let t :=
    match writing with
    | some save_size => new_transfer { t with NetBootFileXferSize := save_size, TftpState := .STATE_SEND_WRQ }
    | none => { t with TftpState := .STATE_SEND_RRQ }
  TftpSend cfg { t with
    TftpTimeoutCountMax := timeoutCountMax
    TftpRemotePort := WELL_KNOWN_PORT
    TftpTimeoutCount := 0
    TftpOurPort := ourPort
    TftpBlock := 0
    TftpBlkSize := TFTP_BLOCK_SIZE }

/-! ### Packets -/

def packet (opcode : Nat) (rest : List UInt8) : List UInt8 := htons opcode ++ rest

theorem htons_mod (n : Nat) : htons (n % 2 ^ 16) = htons n := by
  simp only [htons,List.cons.injEq,and_true,← UInt8.toNat_inj,UInt8.toNat_ofNat']
  omega

section
variable {cfg : Config} {t : Client} {src dest opcode : Nat} {rest : List UInt8}

theorem ntohs_packet (small : opcode < 2 ^ 16) : ntohs (packet opcode rest) = opcode := by
  rw [packet,ntohs_htons,Nat.mod_eq_of_lt small]

theorem packet_drop : (packet opcode rest).drop 2 = rest := rfl

theorem handler_packet (own : t.TftpOurPort = dest) (known : t.TftpState ≠ .STATE_SEND_RRQ →
      t.TftpState ≠ .STATE_SEND_WRQ → src = t.TftpRemotePort) (small : opcode < 2 ^ 16) :
    TftpHandler cfg t ⟨src,dest,packet opcode rest⟩ =
      if opcode = TFTP_ACK then handleAck cfg t rest
      else if opcode = TFTP_OACK then handleOack cfg t src rest
      else if opcode = TFTP_DATA then handleData cfg t src rest
      else if opcode = TFTP_ERROR then (handleError cfg t rest,[])
      else (t,[]) := by
  have long : ¬ (packet opcode rest).length < 2 := by
    rw [packet,List.length_append,htons_length]
    omega
  have open_ : ¬ (t.TftpState ≠ .STATE_SEND_RRQ ∧ src ≠ t.TftpRemotePort ∧ t.TftpState ≠ .STATE_RECV_WRQ ∧
      t.TftpState ≠ .STATE_SEND_WRQ) := fun ⟨rrq,other,_,wrq⟩ => other (known rrq wrq)
  rw [TftpHandler,if_neg (not_not_intro own.symm),if_neg open_,if_neg long]
  simp only [ntohs_packet small,packet_drop]

theorem oackBlkSize_again (pkt : List UInt8) (size : BitVec 16) :
    oackBlkSize pkt (oackBlkSize pkt size) = oackBlkSize pkt size := by
  have fold : ∀ is : List Nat, ∀ f : Nat → Option (BitVec 16), ∀ size : BitVec 16,
      is.foldl (fun size i => (f i).getD size) (is.foldl (fun size i => (f i).getD size) size) =
        is.foldl (fun size i => (f i).getD size) size := by
    intro is f
    -- either some option sets the size, whatever it was, or none does
    have either : (∃ v, ∀ size, is.foldl (fun size i => (f i).getD size) size = v) ∨
        ∀ size, is.foldl (fun size i => (f i).getD size) size = size := by
      induction is with
      | nil => exact .inr fun _ => rfl
      | cons i is ih =>
        simp only [List.foldl_cons]
        rcases ih with ⟨v,constant⟩ | same
        · exact .inl ⟨v,fun _ => constant _⟩
        simp only [same]
        cases f i with
        | none => exact .inr fun _ => rfl
        | some v => exact .inl ⟨v,fun _ => rfl⟩
    intro size
    rcases either with ⟨v,constant⟩ | same
    · rw [constant,constant]
    · rw [same]
  have shape : ∀ size, oackBlkSize pkt size = (List.range (pkt.length-8)).foldl (fun size i =>
      (if (pkt.drop i).take 8 = blksizeText then some ((simple_strtoul 32 (pkt.drop (i+8)) 10).setWidth 16)
        else none).getD size) size := by
    intro size
    rw [oackBlkSize]
    congr 1
    funext size i
    split_ifs <;> rfl
  simp only [shape,fold]
end

/-- What a timeout preserves: it counts, and then it gives up or sends the packet for the state once more. -/
theorem timeout_preserves {P : Client → Prop} {cfg : Config} {t : Client} {d : Datagram} (current : P t)
    (counted : ∀ t n, P t → P { t with TftpTimeoutCount := n }) (startAgain : ∀ t, P t → P (NetStartAgain cfg t))
    (send : ∀ t, P t → ∃ t', TftpSend cfg t = (t',d) ∧ P t') :
    ∃ t' sent, TftpTimeout cfg t = (t',sent) ∧ (sent = [] ∨ sent = [d]) ∧ P t' := by
  have next := counted t (t.TftpTimeoutCount+1) current
  rw [TftpTimeout]
  split_ifs
  · exact ⟨_,_,rfl,.inl rfl,startAgain _ next⟩
  · obtain ⟨t',sent,still⟩ := send _ next
    simp only [sent]
    exact ⟨_,_,rfl,.inr rfl,still⟩
  · exact ⟨_,_,rfl,.inl rfl,next⟩

def dataNumber (d : Datagram) : Option Nat := if ntohs d.data = TFTP_DATA then some (ntohs (d.data.drop 2)) else none

/-! ### Block numbers -/

theorem number_toNat (k : Nat) : (BitVec.ofNat 32 (k % 2 ^ 16)).toNat = k % 2 ^ 16 := by
  rw [toNat_ofNat]
  omega

theorem number_eq_zero {k : Nat} : BitVec.ofNat 32 (k % 2 ^ 16) = 0 ↔ k % 2 ^ 16 = 0 := by
  rw [← toNat_inj,number_toNat]
  rfl

theorem block_offset (r bs : Nat) : (BitVec.ofNat 32 ((r+1) % 2 ^ 16) - 1) * BitVec.ofNat 32 bs +
    BitVec.ofNat 32 ((r+1) / 2 ^ 16 * 2 ^ 16 * bs) = BitVec.ofNat 32 (r*bs) := by
  have split := Nat.div_add_mod (r+1) (2 ^ 16)
  have cast := congrArg (BitVec.ofNat 32) split
  generalize (r+1) / 2 ^ 16 = q at *
  generalize (r+1) % 2 ^ 16 = m at *
  simp only [ofNat_add,ofNat_mul] at cast ⊢
  have one : (1 : BitVec 32) = BitVec.ofNat 32 1 := rfl
  rw [one,show BitVec.ofNat 32 r = BitVec.ofNat 32 (2 ^ 16) * BitVec.ofNat 32 q + BitVec.ofNat 32 m - BitVec.ofNat 32 1 by
    rw [cast]; ring]
  ring

section
variable {t : Client}

theorem update_wrapOffset {r bs : Nat} (size : t.blkSize = BitVec.ofNat 32 bs)
    (block : t.TftpBlock = BitVec.ofNat 32 ((r+1) % 2 ^ 16))
    (wrap : t.TftpBlockWrapOffset = BitVec.ofNat 32 (r / 2 ^ 16 * 2 ^ 16 * bs)) :
    (update_block_number t).TftpBlockWrapOffset = BitVec.ofNat 32 ((r+1) / 2 ^ 16 * 2 ^ 16 * bs) := by
  have sequence : TFTP_SEQUENCE_SIZE = BitVec.ofNat 32 (2 ^ 16) := rfl
  rw [update_block_number,block]
  simp only [number_eq_zero]
  split_ifs with zero
  · have wrapped : (r+1) / 2 ^ 16 * 2 ^ 16 * bs = r / 2 ^ 16 * 2 ^ 16 * bs + bs * 2 ^ 16 := by
      rw [show (r+1) / 2 ^ 16 = r / 2 ^ 16 + 1 by omega]
      ring
    simp only [wrapped,wrap,size,sequence,ofNat_mul,ofNat_add]
  · rw [wrap,show (r+1) / 2 ^ 16 = r / 2 ^ 16 by omega]

theorem update_eq (t : Client) : ∃ wrap count, update_block_number t = { t with
    TftpBlockWrap := wrap
    TftpBlockWrapOffset := (update_block_number t).TftpBlockWrapOffset
    TftpTimeoutCount := count } := by
  rw [update_block_number]
  split_ifs
  · exact ⟨_,_,rfl⟩
  · exact ⟨_,_,rfl⟩
end

def idle : Client :=
  { TftpRemotePort := 0, TftpOurPort := 0, TftpTimeoutCount := 0, TftpTimeoutCountMax := 0, TftpBlock := 0
    TftpLastBlock := 0, TftpBlockWrap := 0, TftpBlockWrapOffset := 0, TftpState := .STATE_SEND_RRQ, TftpWriting := false
    TftpFinalBlock := false, TftpBlkSize := 0, NetBootFileXferSize := 0, net_state := .NETLOOP_CONTINUE, mem := fun _ => 0 }

end UBoot.Tftp
