import UBoot.Lockstep
import UBoot.Runs
import UBoot.Tftp

/-!
An upload to a server that stores the blocks in order and acknowledges them, over a network that may
lose and repeat packets. If the client gets only the acknowledgements that it can tell from repeated
ones, an upload that ends with success has been stored as a whole, and every block that was ever sent
holds the bytes that its number stands for (`successful_upload_is_stored`).
-/
namespace UBoot.TftpPut
open List Nat BitVec CStrings CNumbers Memory Lockstep Runs Tftp

/-! ### The server -/

/-- A transfer: the configuration of the client, what the transfer before has left of its state, the size to
    save, the options of the OACK that the server answers with, if it sends one, the block size both sides
    use then, and the ports. -/
structure Upload where
  cfg : Config
  before : Client
  save_size : BitVec 32
  timeoutCountMax : Int
  oack : Option (List UInt8)
  bs : BitVec 16
  port : Nat
  ourPort : Nat
  agreed : bs = match oack with
    | none => TFTP_BLOCK_SIZE
    | some options => oackBlkSize options TFTP_BLOCK_SIZE

variable {U : Upload}

def Upload.file (U : Upload) : List UInt8 := load U.before.mem 0 U.save_size.toNat

def Upload.block (U : Upload) (k : Nat) : List UInt8 := (U.file.drop ((k - 1) * U.bs.toNat)).take U.bs.toNat

def Upload.down (U : Upload) (i : Nat) : Datagram :=
  ⟨U.port,U.ourPort,
    match U.oack with
    | none => packet TFTP_ACK (htons i)
    | some options => if i = 0 then packet TFTP_OACK options else packet TFTP_ACK (htons i)⟩

/-- The server: the number of packets that it has taken (the request is the first of them), and what it
    has stored. -/
structure Server where
  b : Nat
  stored : List UInt8

/-- What the server does with a packet, and what it sends: the next block is stored and acknowledged, and
    the packet before it is answered again. -/
def Upload.server (U : Upload) (v : Server) (d : Datagram) : Server × List Datagram :=
  if ntohs d.data = TFTP_WRQ ∧ d.dest = WELL_KNOWN_PORT then
    if v.b ≤ 1 then ({ v with b := 1 },[U.down 0]) else (v,[])
  else if ntohs d.data = TFTP_DATA ∧ d.dest = U.port ∧ 0 < v.b then
    if ntohs (d.data.drop 2) = v.b % 2 ^ 16 then (⟨v.b + 1,v.stored ++ d.data.drop 4⟩,[U.down v.b])
    else if ntohs (d.data.drop 2) = (v.b - 1) % 2 ^ 16 ∧ 1 < v.b then (v,[U.down (v.b - 1)])
    else (v,[])
  else (v,[])

/-! ### Runs -/

/-- The client, the server, the packets on their way, and all that the client has sent. -/
structure System where
  client : Client
  server : Server
  ups : List Datagram
  downs : List Datagram
  sent : List Datagram

inductive Event where
  | disturbUps
  | disturbDowns
  | toServer (d : Datagram)
  | toClient (d : Datagram)
  | timeout
  | icmp

def System.act (s : System) (done : Client × List Datagram) : System :=
  { s with client := done.1, ups := s.ups ++ done.2, sent := s.sent ++ done.2 }

inductive Step (U : Upload) : System → Event → System → Prop
  | disturbUps {s : System} {queue : List Datagram} :
      Disturbed s.ups queue → Step U s .disturbUps { s with ups := queue }
  | disturbDowns {s : System} {queue : List Datagram} :
      Disturbed s.downs queue → Step U s .disturbDowns { s with downs := queue }
  | toServer {s : System} {d : Datagram} {rest : List Datagram} : s.ups = d :: rest →
      Step U s (.toServer d) { s with
        server := (U.server s.server d).1
        ups := rest
        downs := s.downs ++ (U.server s.server d).2 }
  | toClient {s : System} {d : Datagram} {rest : List Datagram} : s.downs = d :: rest →
      Step U s (.toClient d) (System.act { s with downs := rest } (TftpHandler U.cfg s.client d))
  | timeout {s : System} : Step U s .timeout (s.act (TftpTimeout U.cfg s.client))
  | icmp {s : System} : Step U s .icmp { s with client := icmp_handler U.cfg s.client }

def Upload.initial (U : Upload) : System :=
  let (client,request) := TftpStart U.cfg U.before (some U.save_size) U.timeoutCountMax U.ourPort
  ⟨client,⟨0,[]⟩,[request],[],[request]⟩

/-- The condition on a step: an OACK is received only before the first block is sent, an acknowledgement
    after the last block was sent is the one of the last block, and the acknowledgement of the block 65535
    is not received again after it was received. -/
def Expected (s : System) : Event → Prop
  | .toClient d =>
    (ntohs d.data = TFTP_OACK → s.client.TftpState = .STATE_SEND_WRQ) ∧
    (ntohs d.data = TFTP_ACK → s.client.TftpFinalBlock = true →
      BitVec.ofNat 32 (ntohs (d.data.drop 2)) = s.client.TftpBlock) ∧
    (ntohs d.data = TFTP_ACK → ntohs (d.data.drop 2) = 65535 → s.client.TftpBlock ≠ 0)
  | _ => True

/-! ### The client -/

def Upload.up (U : Upload) (i : Nat) : Datagram :=
  if i = 0 then ⟨U.ourPort,WELL_KNOWN_PORT,packet TFTP_WRQ U.cfg.request⟩
  else ⟨U.ourPort,U.port,packet TFTP_DATA (htons i ++ U.block i)⟩

structure Requesting (U : Upload) (t : Client) : Prop where
  own : t.TftpOurPort = U.ourPort
  remote : t.TftpRemotePort = WELL_KNOWN_PORT
  writing : t.TftpWriting = true
  state : t.TftpState = .STATE_SEND_WRQ
  final : t.TftpFinalBlock = false
  running : t.net_state ≠ .NETLOOP_SUCCESS

structure Asking (U : Upload) (t : Client) : Prop extends Requesting U t where
  blkSize : t.TftpBlkSize = TFTP_BLOCK_SIZE
  block : t.TftpBlock = 0
  wrapOffset : t.TftpBlockWrapOffset = 0
  xferSize : t.NetBootFileXferSize = U.save_size
  mem : t.mem = U.before.mem

/-- The client that is about to send block `k + 1`. -/
structure Ready (U : Upload) (k : Nat) (t : Client) : Prop where
  own : t.TftpOurPort = U.ourPort
  remote : t.TftpRemotePort = U.port
  writing : t.TftpWriting = true
  state : t.TftpState = .STATE_DATA
  blkSize : t.TftpBlkSize = U.bs
  block : t.TftpBlock = BitVec.ofNat 32 ((k + 1) % 2 ^ 16)
  wrapOffset : t.TftpBlockWrapOffset = BitVec.ofNat 32 ((k + 1) / 2 ^ 16 * 2 ^ 16 * U.bs.toNat)
  xferSize : t.NetBootFileXferSize = U.save_size
  mem : t.mem = U.before.mem
  within : k * U.bs.toNat ≤ U.save_size.toNat
  success : t.net_state = .NETLOOP_SUCCESS → U.save_size.toNat < (k + 1) * U.bs.toNat

structure Sending (U : Upload) (k : Nat) (t : Client) : Prop extends Ready U k t where
  final : t.TftpFinalBlock = decide (U.save_size.toNat < (k + 1) * U.bs.toNat)

theorem down_oack {options : List UInt8} (answer : U.oack = some options) :
    U.down 0 = ⟨U.port,U.ourPort,packet TFTP_OACK options⟩ := by
  rw [Upload.down,answer]
  rfl

theorem down_ack {i : Nat} (ack : i ≠ 0 ∨ U.oack = none) : U.down i = ⟨U.port,U.ourPort,packet TFTP_ACK (htons i)⟩ := by
  rw [Upload.down]
  cases answer : U.oack with
  | none => rfl
  | some options =>
    rcases ack with positive | none
    · simp only
      rw [if_neg positive]
    · exact absurd (answer.symm.trans none) (Option.some_ne_none options)

theorem up_data {i : Nat} (positive : i ≠ 0) : (U.up i).data.drop 4 = U.block i := by
  rw [Upload.up,if_neg positive]
  rfl

theorem dataNumber_up {i : Nat} : dataNumber (U.up i) = if i = 0 then none else some (i % 2 ^ 16) := by
  rw [dataNumber]
  by_cases zero : i = 0
  · have opcode : ntohs (U.up i).data = TFTP_WRQ := by
      rw [Upload.up,if_pos zero]
      exact ntohs_packet (by decide)
    rw [opcode,if_pos zero,if_neg (by decide)]
  have opcode : ntohs (U.up i).data = TFTP_DATA := by
    rw [Upload.up,if_neg zero]
    exact ntohs_packet (by decide)
  rw [opcode,if_neg zero,if_pos rfl,Upload.up,if_neg zero,packet_drop,ntohs_htons]

theorem file_length : U.file.length = U.save_size.toNat := load_length

section
variable {k : Nat} {t : Client}

theorem Ready.blkSize_eq (ready : Ready U k t) : t.blkSize = BitVec.ofNat 32 U.bs.toNat := by
  apply eq_of_toNat_eq
  rw [Client.blkSize,ready.blkSize,toNat_setWidth,toNat_ofNat]

theorem block_eq (within : k * U.bs.toNat ≤ U.save_size.toNat) : U.block (k+1) =
    load U.before.mem (k*U.bs.toNat) (min U.bs.toNat (U.save_size.toNat - k * U.bs.toNat)) := by
  rw [Upload.block,Nat.add_sub_cancel,Upload.file,load_drop within,Nat.zero_add]
  by_cases full : U.bs.toNat ≤ U.save_size.toNat - k * U.bs.toNat
  · rw [load_take full,Nat.min_eq_left full]
  · rw [take_of_length_le (by rw [load_length]; omega),Nat.min_eq_right (by omega)]

theorem block_length (within : k * U.bs.toNat ≤ U.save_size.toNat) :
    (U.block (k+1)).length = min U.bs.toNat (U.save_size.toNat - k * U.bs.toNat) := by
  rw [block_eq within,load_length]

theorem Ready.load_block_eq (ready : Ready U k t) : load_block t t.TftpBlock t.blkSize = U.block (k+1) := by
  have within := ready.within
  have offset : (t.TftpBlock-1) * t.blkSize + t.TftpBlockWrapOffset = BitVec.ofNat 32 (k*U.bs.toNat) := by
    rw [ready.blkSize_eq,ready.block,ready.wrapOffset,block_offset]
  have place : (BitVec.ofNat 32 (k*U.bs.toNat)).toNat = k * U.bs.toNat := by
    rw [toNat_ofNat,mod_eq_of_lt (by omega)]
  have rest : (U.save_size - BitVec.ofNat 32 (k*U.bs.toNat)).toNat = U.save_size.toNat - k * U.bs.toNat := by
    rw [toNat_sub_of_le (by rw [le_def,place]; exact within),place]
  have size : (BitVec.ofNat 32 U.bs.toNat).toNat = U.bs.toNat := by
    rw [toNat_ofNat,mod_eq_of_lt (by omega)]
  rw [load_block,block_eq within]
  simp only [offset,ready.xferSize,ready.mem,place]
  rw [ready.blkSize_eq]
  split_ifs with less
  · rw [lt_def,rest,size] at less
    rw [rest,min_eq_right (by omega)]
  · rw [lt_def,rest,size] at less
    rw [size,min_eq_left (by omega)]

theorem Ready.send (ready : Ready U k t) :
    ∃ t', TftpSend U.cfg t = (t',U.up (k+1)) ∧ Sending U k t' ∧ t'.net_state = t.net_state := by
  have within := ready.within
  have short : (BitVec.ofNat 32 (U.block (k+1)).length < t.blkSize) ↔ U.save_size.toNat < (k+1) * U.bs.toNat := by
    rw [ready.blkSize_eq,lt_def,toNat_ofNat,toNat_ofNat,block_length within,Nat.succ_mul,
      Nat.mod_eq_of_lt (by omega),Nat.mod_eq_of_lt (by omega)]
    omega
  have number : htons t.TftpBlock.toNat = htons (k+1) := by rw [ready.block,number_toNat,htons_mod]
  simp only [TftpSend,ready.state,ready.writing,if_true,ready.load_block_eq,number,ready.own,ready.remote,short]
  exact ⟨_,rfl,⟨⟨rfl,rfl,rfl,rfl,ready.blkSize,ready.block,ready.wrapOffset,ready.xferSize,ready.mem,within,ready.success⟩,rfl⟩,rfl⟩

theorem Asking.oack {options : List UInt8} (asking : Asking U t) (answer : U.oack = some options) :
    ∃ t', TftpHandler U.cfg t (U.down 0) = (t',[U.up 1]) ∧ Sending U 0 t' ∧ t'.net_state ≠ .NETLOOP_SUCCESS := by
  have agreed := U.agreed
  rw [answer] at agreed
  have known : t.TftpState ≠ .STATE_SEND_RRQ → t.TftpState ≠ .STATE_SEND_WRQ → U.port = t.TftpRemotePort :=
    fun _ other => absurd asking.state other
  rw [down_oack answer,handler_packet asking.own known (by decide),if_neg (by decide),if_pos rfl,handleOack]
  simp only [asking.writing,asking.blkSize,← agreed,if_true]
  have ready : Ready U 0 { t with
      TftpState := .STATE_DATA, TftpRemotePort := U.port, TftpBlkSize := U.bs, TftpBlock := t.TftpBlock + 1 } := by
    refine ⟨asking.own,rfl,asking.writing,rfl,rfl,?_,?_,asking.xferSize,asking.mem,?_,fun done => absurd done asking.running⟩
    · rw [asking.block]
      rfl
    · rw [show (0+1) / 2 ^ 16 = 0 from rfl,Nat.zero_mul,Nat.zero_mul]
      exact asking.wrapOffset
    · rw [Nat.zero_mul]
      exact Nat.zero_le _
  obtain ⟨t',sent,sending,net⟩ := ready.send
  rw [← asking.writing,sent]
  exact ⟨t',rfl,sending,net ▸ asking.running⟩

theorem Ready.ack (ready : Ready U k t) (n : Nat) :
    TftpHandler U.cfg t ⟨U.port,U.ourPort,packet TFTP_ACK (htons n)⟩ = handleAck U.cfg t (htons n) := by
  rw [handler_packet ready.own (fun _ _ => ready.remote.symm) (by decide),if_pos rfl]

theorem Sending.acked (sending : Sending U k t) (more : (k+1) * U.bs.toNat ≤ U.save_size.toNat) :
    ∃ t', handleAck U.cfg t (htons (k+1)) = (t',[U.up (k+2)]) ∧ Sending U (k+1) t' ∧
      t'.net_state ≠ .NETLOOP_SUCCESS := by
  have running : t.net_state ≠ .NETLOOP_SUCCESS := fun done => absurd (sending.success done) (by omega)
  have number : ntohs (htons (k+1)) = (k+1) % 2 ^ 16 := ntohs_htons (k+1) []
  have next : ((k+1) % 2 ^ 16 + 1) % 2 ^ 16 = (k+2) % 2 ^ 16 := by omega
  have open_ : ¬ t.TftpFinalBlock = true := by
    rw [sending.final,decide_eq_true_iff]
    omega
  rw [handleAck,if_pos sending.writing,if_neg open_]
  simp only [number,next,sending.block]
  have ready : Ready U (k+1) (update_block_number { t with TftpBlock := BitVec.ofNat 32 ((k+2) % 2 ^ 16) }) := by
    have wrap := update_wrapOffset (t := { t with TftpBlock := BitVec.ofNat 32 ((k+2) % 2 ^ 16) }) sending.blkSize_eq rfl
      sending.wrapOffset
    obtain ⟨w,count,same⟩ := update_eq { t with TftpBlock := BitVec.ofNat 32 ((k+2) % 2 ^ 16) }
    rw [same]
    exact ⟨sending.own,sending.remote,sending.writing,sending.state,sending.blkSize,rfl,wrap,sending.xferSize,sending.mem,more,
      fun done => absurd done running⟩
  obtain ⟨w,count,same⟩ := update_eq { t with TftpBlock := BitVec.ofNat 32 ((k+2) % 2 ^ 16) }
  obtain ⟨t',sent,sending',net⟩ := ready.send
  rw [sent]
  refine ⟨t',rfl,sending',?_⟩
  rw [net,same]
  exact running

theorem Sending.completed (sending : Sending U k t) (last : U.save_size.toNat < (k+1) * U.bs.toNat) (n : Nat) :
    handleAck U.cfg t (htons n) = (tftp_complete t,[]) := by
  rw [handleAck,if_pos sending.writing,if_pos (by rw [sending.final]; exact decide_eq_true last)]

/-- The acknowledgement before that: it is ignored, but it counts for the wrap. -/
theorem Sending.ackedAgain (sending : Sending U (k+1) t) (more : (k + 1 + 1) * U.bs.toNat ≤ U.save_size.toNat) :
    handleAck U.cfg t (htons (k+1)) = (update_block_number t,[]) := by
  have number : ntohs (htons (k+1)) = (k+1) % 2 ^ 16 := ntohs_htons (k+1) []
  have next : ((k+1) % 2 ^ 16 + 1) % 2 ^ 16 = (k+2) % 2 ^ 16 := by omega
  have open_ : ¬ t.TftpFinalBlock = true := by
    rw [sending.final,decide_eq_true_iff]
    omega
  have other : ¬ t.TftpBlock = BitVec.ofNat 32 ((k+1) % 2 ^ 16) := by
    rw [sending.block]
    intro same
    have := congrArg BitVec.toNat same
    rw [number_toNat,number_toNat] at this
    omega
  have same : { t with TftpBlock := BitVec.ofNat 32 ((k+2) % 2 ^ 16) } = t := by rw [← sending.block]
  rw [handleAck,if_pos sending.writing,if_neg open_]
  simp only [number,next]
  rw [if_neg other,same]
end

/-! ### One packet -/

theorem Requesting.send {t : Client} (requesting : Requesting U t) : TftpSend U.cfg t = (t,U.up 0) := by
  simp only [TftpSend,requesting.state,requesting.own,requesting.remote]
  rfl

/-- The client after `a` packets of the server. -/
def At (U : Upload) (a : Nat) (t : Client) : Prop :=
  match a with
  | 0 => Asking U t
  | k+1 => Sending U k t

section
variable {a b : Nat} {t : Client}

theorem At.send (current : At U a t) : ∃ t', TftpSend U.cfg t = (t',U.up a) ∧ At U a t' ∧ t'.net_state = t.net_state := by
  cases a with
  | zero =>
    exact ⟨t,(Asking.toRequesting current).send,current,rfl⟩
  | succ k => exact Ready.send (Sending.toReady current)

theorem At.within (current : At U a t) : (a-1) * U.bs.toNat ≤ U.save_size.toNat := by
  cases a with
  | zero =>
    rw [Nat.zero_sub,Nat.zero_mul]
    exact Nat.zero_le _
  | succ k => exact (Sending.toReady current).within

theorem At.counted {n : Int} (current : At U a t) : At U a { t with TftpTimeoutCount := n } := by
  cases a with
  | zero => exact { (current : Asking U t) with }
  | succ k => exact { (current : Sending U k t) with }

theorem At.startAgain (current : At U a t) : At U a (NetStartAgain U.cfg t) := by
  cases a with
  | zero => exact { (current : Asking U t) with running := U.cfg.again_ne }
  | succ k => exact { (current : Sending U k t) with success := fun done => absurd done U.cfg.again_ne }

theorem At.timeout (current : At U a t) :
    ∃ t' sent, TftpTimeout U.cfg t = (t',sent) ∧ (sent = [] ∨ sent = [U.up a]) ∧ At U a t' ∧
      (t'.net_state = .NETLOOP_SUCCESS → t.net_state = .NETLOOP_SUCCESS) := by
  apply timeout_preserves (P := fun t' => At U a t' ∧ (t'.net_state = .NETLOOP_SUCCESS → t.net_state = .NETLOOP_SUCCESS))
    ⟨current,id⟩
  · exact fun _ _ before => ⟨before.1.counted,before.2⟩
  · exact fun _ before => ⟨before.1.startAgain,fun done => absurd done U.cfg.again_ne⟩
  intro t₁ before
  obtain ⟨t',sent,still,net⟩ := before.1.send
  exact ⟨t',sent,still,fun done => before.2 (net.symm.trans done)⟩

/-- The next packet: the next block is sent, or all blocks are sent and the transfer is complete. -/
theorem At.next {options : List UInt8} (answer : U.oack = some options) (current : At U a t) :
    (∃ t', TftpHandler U.cfg t (U.down a) = (t',[U.up (a+1)]) ∧ At U (a+1) t' ∧ t'.net_state ≠ .NETLOOP_SUCCESS) ∨
    TftpHandler U.cfg t (U.down a) = (tftp_complete t,[]) ∧ At U a (tftp_complete t) ∧ U.save_size.toNat < a * U.bs.toNat := by
  cases a with
  | zero => exact .inl (Asking.oack current answer)
  | succ k =>
    have sending : Sending U k t := current
    rw [down_ack (.inl (succ_ne_zero k)),sending.ack]
    by_cases last : U.save_size.toNat < (k+1) * U.bs.toNat
    · exact .inr ⟨sending.completed last _,{ sending with success := fun _ => last },last⟩
    · exact .inl (sending.acked (by omega))

theorem At.again {options : List UInt8} {s : System} (answer : U.oack = some options) (current : At U (a+1) s.client)
    (expected : Expected s (.toClient (U.down a))) : TftpHandler U.cfg s.client (U.down a) = (s.client,[]) := by
  obtain ⟨early,last,fresh⟩ := expected
  have sending : Sending U a s.client := current
  cases a with
  | zero =>
    rw [down_oack answer] at early
    have := early (ntohs_packet (by decide))
    rw [sending.state] at this
    exact TftpState.noConfusion this
  | succ k =>
    have number : ntohs (htons (k+1)) = (k+1) % 2 ^ 16 := ntohs_htons (k+1) []
    rw [down_ack (.inl (succ_ne_zero k))] at last fresh ⊢
    simp only [packet_drop,number,sending.block] at last fresh
    have more : (k + 1 + 1) * U.bs.toNat ≤ U.save_size.toNat := by
      by_contra over_
      have same := last (ntohs_packet (by decide)) (by rw [sending.final]; exact decide_eq_true (by omega))
      have := congrArg BitVec.toNat same
      rw [number_toNat,number_toNat] at this
      omega
    have nonzero : s.client.TftpBlock ≠ 0 := by
      intro zero
      rw [sending.block] at zero
      exact fresh (ntohs_packet (by decide)) (by have := number_eq_zero.mp zero; omega) zero
    rw [sending.ack,sending.ackedAgain more,update_block_number,if_neg nonzero]

/-- What the server has stored when it has taken `b` packets. -/
def Upload.kept (U : Upload) (b : Nat) : List UInt8 := U.file.take ((b - 1) * U.bs.toNat)

theorem server_next : U.server ⟨b,U.kept b⟩ (U.up b) = (⟨b+1,U.kept (b+1)⟩,[U.down b]) := by
  rcases b with _ | b
  · have request : ntohs (U.up 0).data = TFTP_WRQ := ntohs_packet (by decide)
    rw [Upload.server,if_pos ⟨request,rfl⟩,if_pos (zero_le 1)]
    simp [Upload.kept]
  have opcode : ntohs (U.up (b+1)).data = TFTP_DATA := ntohs_packet (by decide)
  have number : ntohs ((U.up (b+1)).data.drop 2) = (b+1) % 2 ^ 16 := ntohs_htons (b+1) _
  have data : (U.up (b+1)).data.drop 4 = U.block (b+1) := rfl
  rw [Upload.server,if_neg fun request => absurd (opcode.symm.trans request.1) (by decide),
    if_pos ⟨opcode,rfl,Nat.succ_pos b⟩,if_pos number,data]
  rw [Upload.kept,Upload.kept,Upload.block,Nat.add_sub_cancel,Nat.add_sub_cancel,Nat.succ_mul,take_add]

theorem server_again {v : Server} (taken : v.b = b + 1) : U.server v (U.up b) = (v,[U.down b]) := by
  rcases b with _ | b
  · have request : ntohs (U.up 0).data = TFTP_WRQ := ntohs_packet (by decide)
    rw [Upload.server,if_pos ⟨request,rfl⟩,if_pos (by omega)]
    cases v
    cases taken
    rfl
  have opcode : ntohs (U.up (b+1)).data = TFTP_DATA := ntohs_packet (by decide)
  have number : ntohs ((U.up (b+1)).data.drop 2) = (b+1) % 2 ^ 16 := ntohs_htons (b+1) _
  rw [Upload.server,if_neg fun request => absurd (opcode.symm.trans request.1) (by decide),
    if_pos ⟨opcode,rfl,by omega⟩,number,taken,if_neg (by omega),Nat.add_sub_cancel,if_pos ⟨rfl,by omega⟩]

end

/-! ### All packets -/

structure Paired (U : Upload) (a : Nat) (s : System) : Prop where
  inStep : InStep U.up U.down a s.server.b s.ups s.downs
  current : At U a s.client
  kept : s.server.stored = U.kept s.server.b
  complete : s.client.net_state = .NETLOOP_SUCCESS → s.server.b = a + 1
  sent : ∀ d ∈ s.sent, ∃ n, d = U.up n ∧ (n - 1) * U.bs.toNat ≤ U.save_size.toNat

def Joined (U : Upload) (s : System) : Prop := ∃ a, Paired U a s

theorem sent_append {a : Nat} {before sent : List Datagram} {t : Client}
    (old : ∀ d ∈ before, ∃ n, d = U.up n ∧ (n-1) * U.bs.toNat ≤ U.save_size.toNat)
    (last : sent = [] ∨ sent = [U.up a]) (current : At U a t) :
    ∀ d ∈ before ++ sent, ∃ n, d = U.up n ∧ (n-1) * U.bs.toNat ≤ U.save_size.toNat := by
  intro d member
  rcases mem_append.mp member with member | member
  · exact old d member
  rcases last with rfl | rfl
  · simp at member
  · exact ⟨a,mem_singleton.mp member,current.within⟩

theorem Paired.step {options : List UInt8} {a : Nat} {s s' : System} {e : Event} (answer : U.oack = some options)
    (paired : Paired U a s) (step : Guarded Expected (Step U) s e s') : Joined U s' := by
  obtain ⟨inStep,current,kept,complete,sent⟩ := paired
  obtain ⟨expected,step⟩ := step
  cases step with
  | disturbUps disturbed => exact ⟨a,inStep.disturbUps disturbed,current,kept,complete,sent⟩
  | disturbDowns disturbed => exact ⟨a,inStep.disturbDowns disturbed,current,kept,complete,sent⟩
  | @toServer d rest arrived =>
    rw [arrived] at inStep
    obtain ⟨n,rfl,⟨rfl,ahead⟩ | last,same⟩ := inStep.takeUp
    · have stored : U.server s.server (U.up s.server.b) = (⟨s.server.b+1,U.kept (s.server.b+1)⟩,[U.down s.server.b]) := by
        rw [show s.server = ⟨s.server.b,U.kept s.server.b⟩ by rw [← kept]]
        exact server_next
      rw [stored]
      refine ⟨a,ahead.sendDown,current,rfl,fun done => ?_,sent⟩
      have := complete done
      have := ahead.ahead
      omega
    rw [server_again last.symm]
    rw [← last] at same
    exact ⟨a,last ▸ same.sendDown,current,kept,complete,sent⟩
  | @toClient d rest arrived =>
    rw [arrived] at inStep
    obtain ⟨n,rfl,⟨rfl,ahead⟩ | last,same⟩ := inStep.takeDown
    · rcases current.next answer with ⟨t',handled,next,running⟩ | ⟨handled,done,-⟩
      · rw [handled]
        exact ⟨n+1,ahead.sendUp,next,kept,fun done => absurd done running,sent_append sent (.inr rfl) next⟩
      rw [handled]
      refine ⟨n,same.answer (.inl rfl),done,kept,fun _ => ?_,sent_append sent (.inl rfl) done⟩
      have := ahead.behind
      have := same.ahead
      show s.server.b = n + 1
      omega
    subst last
    rw [current.again answer expected]
    exact ⟨n+1,same.answer (.inl rfl),current,kept,complete,sent_append sent (.inl rfl) current⟩
  | timeout =>
    obtain ⟨t',packets,handled,last,still,net⟩ := current.timeout
    rw [handled]
    exact ⟨a,inStep.answer last,still,kept,fun done => complete (net done),sent_append sent last still⟩
  | icmp => exact ⟨a,inStep,current.startAgain,kept,fun done => absurd done U.cfg.again_ne,sent⟩

theorem asking_initial : Asking U U.initial.client := ⟨⟨rfl,rfl,rfl,rfl,rfl,NetState.noConfusion⟩,rfl,rfl,rfl,rfl,rfl⟩

theorem paired_initial : Paired U 0 U.initial := by
  refine ⟨InStep.start.sendUp,asking_initial,?_,fun done => absurd done asking_initial.running,fun d member => ?_⟩
  · rw [Upload.kept]
    simp [Upload.initial]
  · exact ⟨0,mem_singleton.mp member,At.within (a := 0) asking_initial⟩

/-! ### A server without options -/

/-- The acknowledgement of the request is answered with the request, or not at all. -/
theorem Requesting.ack {t : Client} (requesting : Requesting U t) (answer : U.oack = none) :
    ∃ t' sent, TftpHandler U.cfg t (U.down 0) = (t',sent) ∧ (sent = [] ∨ sent = [U.up 0]) ∧ Requesting U t' := by
  have known : t.TftpState ≠ .STATE_SEND_RRQ → t.TftpState ≠ .STATE_SEND_WRQ → U.port = t.TftpRemotePort :=
    fun _ other => absurd requesting.state other
  have still : ∀ n : BitVec 32, Requesting U (update_block_number { t with TftpBlock := n }) := by
    intro n
    obtain ⟨wrap,count,same⟩ := update_eq { t with TftpBlock := n }
    rw [same]
    exact { requesting with }
  rw [down_ack (.inr answer),handler_packet requesting.own known (by decide),if_pos rfl,handleAck,if_pos requesting.writing,
    if_neg (by rw [requesting.final]; exact Bool.false_ne_true)]
  simp only
  split_ifs
  · rw [(still _).send]
    exact ⟨_,_,rfl,.inr rfl,still (BitVec.ofNat 32 ((ntohs (htons 0) + 1) % 2 ^ 16))⟩
  · exact ⟨_,_,rfl,.inl rfl,still _⟩

theorem Requesting.timeout {t : Client} (requesting : Requesting U t) :
    ∃ t' sent, TftpTimeout U.cfg t = (t',sent) ∧ (sent = [] ∨ sent = [U.up 0]) ∧ Requesting U t' :=
  timeout_preserves requesting (fun _ _ before => { before with }) (fun _ before => { before with running := U.cfg.again_ne })
    fun t before => ⟨t,before.send,before⟩

/-- The client and such a server never get beyond the request. -/
structure Refused (U : Upload) (s : System) : Prop where
  requesting : Requesting U s.client
  ups : ∀ d ∈ s.ups, d = U.up 0
  downs : ∀ d ∈ s.downs, d = U.down 0
  sent : ∀ d ∈ s.sent, d = U.up 0

theorem Refused.act {s : System} {done : Client × List Datagram} (refused : Refused U s)
    (packets : done.2 = [] ∨ done.2 = [U.up 0]) (requesting : Requesting U done.1) : Refused U (s.act done) := by
  have one : ∀ queue : List Datagram, (∀ d ∈ queue, d = U.up 0) → ∀ d ∈ queue ++ done.2, d = U.up 0 := by
    intro queue old d member
    rcases mem_append.mp member with member | member
    · exact old d member
    rcases packets with none | one
    · simp [none] at member
    · rw [one] at member
      exact mem_singleton.mp member
  exact ⟨requesting,one _ refused.ups,refused.downs,one _ refused.sent⟩

theorem Refused.step {s s' : System} {e : Event} (answer : U.oack = none) (refused : Refused U s) (step : Step U s e s') :
    Refused U s' := by
  cases step with
  | disturbUps disturbed => exact { refused with ups := fun d member => refused.ups d (disturbed.mem member) }
  | disturbDowns disturbed => exact { refused with downs := fun d member => refused.downs d (disturbed.mem member) }
  | @toServer d rest arrived =>
    have request : d = U.up 0 := refused.ups d (by rw [arrived]; exact mem_cons_self)
    refine { refused with ups := fun d member => refused.ups d (by rw [arrived]; exact mem_cons_of_mem _ member), downs := ?_ }
    intro d member
    rcases mem_append.mp member with member | member
    · exact refused.downs d member
    have opcode : ntohs (U.up 0).data = TFTP_WRQ := ntohs_packet (by decide)
    rw [request,Upload.server,if_pos ⟨opcode,rfl⟩] at member
    split_ifs at member
    · exact mem_singleton.mp member
    · simp at member
  | @toClient d rest arrived =>
    have ack : d = U.down 0 := refused.downs d (by rw [arrived]; exact mem_cons_self)
    obtain ⟨t',sent,handled,packets,requesting⟩ := refused.requesting.ack answer
    rw [ack,handled]
    have fewer : Refused U { s with downs := rest } :=
      { refused with downs := fun d member => refused.downs d (by rw [arrived]; exact mem_cons_of_mem _ member) }
    exact fewer.act packets requesting
  | timeout =>
    obtain ⟨t',sent,handled,packets,requesting⟩ := refused.requesting.timeout
    rw [handled]
    exact refused.act packets requesting
  | icmp => exact { refused with requesting := { refused.requesting with running := U.cfg.again_ne } }

theorem refused_initial : Refused U U.initial :=
  ⟨asking_initial.toRequesting,fun _ => mem_singleton.mp,fun _ none => by simp [Upload.initial] at none,
    fun _ => mem_singleton.mp⟩

/-- Whatever is lost, repeated or delayed: as long as the client gets only what it expects, a transfer that
    has ended with success is stored as a whole, and every block ever sent holds the bytes that its number
    stands for. -/
theorem successful_upload_is_stored {U : Upload} {events : List Event} {s : System}
    (run : Run (Guarded Expected (Step U)) U.initial events s) :
    (s.client.net_state = .NETLOOP_SUCCESS → s.server.stored = U.file) ∧
    ∀ d ∈ s.sent, ∀ n, dataNumber d = some n →
      ∃ k, 0 < k ∧ (k - 1) * U.bs.toNat ≤ U.save_size.toNat ∧ k % 2 ^ 16 = n ∧ d.data.drop 4 = U.block k := by
  cases answer : U.oack with
  | none =>
    have refused : Refused U s := run.invariant refused_initial fun _ _ _ before step => before.step answer step.2
    refine ⟨fun success => absurd success refused.requesting.running,fun d member n number => ?_⟩
    rw [refused.sent d member,dataNumber_up] at number
    cases number
  | some options =>
    have joined : Joined U s := run.invariant ⟨0,paired_initial⟩ fun _ _ _ ⟨_,before⟩ step => before.step answer step
    obtain ⟨a,paired⟩ := joined
    refine ⟨fun success => ?_,fun d member n number => ?_⟩
    · rw [paired.kept,paired.complete success,Upload.kept,Nat.add_sub_cancel]
      apply take_of_length_le
      cases a with
      | zero => exact absurd success (Asking.toRequesting paired.current).running
      | succ k =>
        rw [file_length]
        exact ((Sending.toReady paired.current).success success).le
    obtain ⟨k,rfl,within⟩ := paired.sent d member
    rw [dataNumber_up] at number
    split_ifs at number with zero
    exact ⟨k,pos_of_ne_zero zero,within,Option.some_inj.mp number,up_data zero⟩

/-! ### Transfers that end -/

theorem At.expected {options : List UInt8} {a : Nat} {s : System} (answer : U.oack = some options) (current : At U a s.client) :
    Expected s (.toClient (U.down a)) := by
  cases a with
  | zero =>
    have opcode : ntohs (U.down 0).data = TFTP_OACK := by
      rw [down_oack answer]
      exact ntohs_packet (by decide)
    have other : ntohs (U.down 0).data ≠ TFTP_ACK := by rw [opcode]; decide
    exact ⟨fun _ => (Asking.toRequesting current).state,fun ack => absurd ack other,fun ack => absurd ack other⟩
  | succ k =>
    have sending : Sending U k s.client := current
    have number : ntohs (htons (k+1)) = (k+1) % 2 ^ 16 := ntohs_htons (k+1) []
    rw [down_ack (.inl (succ_ne_zero k))]
    refine ⟨fun oack => ?_,fun _ _ => ?_,fun _ wraps zero => ?_⟩
    · rw [ntohs_packet (by decide)] at oack
      exact absurd oack (by decide)
    · rw [packet_drop,number,sending.block]
    rw [packet_drop,number] at wraps
    rw [sending.block,number_eq_zero] at zero
    omega

section
variable {a : Nat} {t : Client} {downs sent : List Datagram} {options : List UInt8}

theorem asked (a : Nat) (t : Client) (sent : List Datagram) : Guarded Expected (Step U) ⟨t,⟨a,U.kept a⟩,[U.up a],[],sent⟩
    (.toServer (U.up a)) ⟨t,⟨a+1,U.kept (a+1)⟩,[],[U.down a],sent⟩ := by
  have taken := Step.toServer (U := U) (s := ⟨t,⟨a,U.kept a⟩,[U.up a],[],sent⟩) rfl
  simp only [server_next] at taken
  exact ⟨trivial,taken⟩

theorem answered (answer : U.oack = some options) (current : At U a t) (more : a * U.bs.toNat ≤ U.save_size.toNat)
    (v : Server) (downs sent : List Datagram) : ∃ t', At U (a+1) t' ∧ Guarded Expected (Step U) ⟨t,v,[],U.down a :: downs,sent⟩
      (.toClient (U.down a)) ⟨t',v,[U.up (a+1)],downs,sent ++ [U.up (a+1)]⟩ := by
  have taken := Step.toClient (U := U) (s := ⟨t,v,[],U.down a :: downs,sent⟩) rfl
  rcases current.next answer with ⟨t',handled,next,-⟩ | ⟨-,-,last⟩
  · rw [handled] at taken
    exact ⟨t',next,current.expected answer,taken⟩
  · omega

theorem ended {k n : Nat} (sending : Sending U k t) (last : U.save_size.toNat < (k+1) * U.bs.toNat) (ack : n ≠ 0)
    (v : Server) (ups : List Datagram) : Step U ⟨t,v,ups,U.down n :: downs,sent⟩ (.toClient (U.down n))
      ⟨tftp_complete t,v,ups,downs,sent⟩ := by
  have taken := Step.toClient (U := U) (s := ⟨t,v,ups,U.down n :: downs,sent⟩) rfl
  rw [down_ack (.inl ack)] at taken ⊢
  rw [sending.ack,sending.completed last,System.act] at taken
  simpa using taken

theorem first_sent (answer : U.oack = some options) : ∃ events t sent, At U 1 t ∧
    Run (Guarded Expected (Step U)) U.initial events ⟨t,⟨1,U.kept 1⟩,[U.up 1],[],sent⟩ := by
  have start : U.initial = ⟨U.initial.client,⟨0,U.kept 0⟩,[U.up 0],[],[U.up 0]⟩ := by
    rw [Upload.kept]
    simp only [Nat.zero_sub,Nat.zero_mul,take_zero]
    rfl
  obtain ⟨t',next,taken⟩ := answered (a := 0) answer asking_initial (by omega) ⟨1,U.kept 1⟩ [] [U.up 0]
  have run : Run (Guarded Expected (Step U)) U.initial [] ⟨U.initial.client,⟨0,U.kept 0⟩,[U.up 0],[],[U.up 0]⟩ :=
    start ▸ Run.start
  exact ⟨_,t',_,next,(run.next (asked ..)).next taken⟩
end

/-- An upload in blocks of 512 bytes, to a server whose OACK sets no option. -/
def plain (size : BitVec 32) : Upload :=
  ⟨⟨[],10,.NETLOOP_RESTART,NetState.noConfusion⟩,idle,size,10,some [],TFTP_BLOCK_SIZE,2000,1024,by decide⟩

theorem one_byte_upload : ∃ events s, Run (Guarded Expected (Step (plain 1))) (plain 1).initial events s ∧
    s.client.net_state = .NETLOOP_SUCCESS ∧ s.server.stored = [0] := by
  obtain ⟨events,t,sent,current,run⟩ := first_sent (U := plain 1) rfl
  have expected := At.expected (s := ⟨t,⟨2,(plain 1).kept 2⟩,[],[(plain 1).down 1],sent⟩) rfl current
  have run := (run.next (asked ..)).next ⟨expected,ended (k := 0) current (by decide) (by decide) _ _⟩
  exact ⟨_,_,run,rfl,(successful_upload_is_stored run).1 rfl⟩

/-- The acknowledgement of the first of two blocks arrives twice: the second time it ends the transfer,
    while the second block is still on its way. -/
theorem repeated_ack_ends_upload : ∃ (U : Upload) (events : List Event) (s : System), Run (Step U) U.initial events s ∧
    s.client.net_state = .NETLOOP_SUCCESS ∧ U.file.length = 513 ∧ s.server.stored.length = 512 := by
  obtain ⟨events,t,sent,current,run⟩ := first_sent (U := plain 513) rfl
  obtain ⟨t',next,taken⟩ := answered (U := plain 513) (a := 1) rfl current (by decide) ⟨2,(plain 513).kept 2⟩
    [(plain 513).down 1] sent
  have twice : Step (plain 513) ⟨t,⟨2,(plain 513).kept 2⟩,[],[(plain 513).down 1],sent⟩ .disturbDowns
      ⟨t,⟨2,(plain 513).kept 2⟩,[],[(plain 513).down 1,(plain 513).down 1],sent⟩ := .disturbDowns (.twice [] [] _)
  have last : Sending (plain 513) 1 t' := next
  refine ⟨plain 513,_,_,(((run.unguarded.next (asked ..).2).next twice).next taken.2).next
    (ended (k := 1) last (by decide) (by decide) _ _),rfl,file_length,?_⟩
  rw [Upload.kept,length_take,file_length]
  rfl

end UBoot.TftpPut
