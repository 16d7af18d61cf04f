import UBoot.Lockstep
import UBoot.Runs
import UBoot.Tftp

/-!
A download from a server that sends the blocks of a file in lock-step, over a network that may lose and
repeat packets. If no packet with the number 0 is received again right after it was received, a
download that ends with success has the file in memory (`successful_download_holds_file`).
-/
namespace UBoot.TftpGet
open List Nat BitVec CStrings CNumbers Memory Lockstep Runs Tftp

/-! ### The server -/

/-- A transfer: the configuration of the client, the file, the options of the OACK that the server starts
    with, if it sends one, the block size both sides use then, and the ports. -/
structure Download where
  cfg : Config
  file : List UInt8
  oack : Option (List UInt8)
  bs : BitVec 16
  port : Nat
  ourPort : Nat
  agreed : bs = match oack with
    | none => TFTP_BLOCK_SIZE
    | some options => oackBlkSize options TFTP_BLOCK_SIZE
  bs_pos : 0 < bs.toNat
  small : file.length < 2 ^ 32

variable {D : Download}

/-- The number of the first packet of the server: an OACK counts as block 0. -/
def Download.first (D : Download) : Nat := if D.oack.isSome then 0 else 1

def Download.block (D : Download) (k : Nat) : List UInt8 := (D.file.drop ((k - 1) * D.bs.toNat)).take D.bs.toNat

/-- The last block is the first one that is not full. -/
def Download.last (D : Download) : Nat := D.file.length / D.bs.toNat + 1

def Download.down (D : Download) (i : Nat) : Datagram :=
  ⟨D.port,D.ourPort,
    if i + D.first = 0 then packet TFTP_OACK (D.oack.getD [])
    else packet TFTP_DATA (htons (i + D.first) ++ D.block (i + D.first))⟩

/-- The server after `b` packets were answered, and what it sends: it starts with a request, and goes on
    when the block that it sent last is acknowledged. -/
def Download.server (D : Download) (b : Nat) (d : Datagram) : Nat × List Datagram :=
  if b = 0 then
    if d.dest = WELL_KNOWN_PORT ∧ ntohs d.data = TFTP_RRQ then (1,[D.down 0]) else (0,[])
  else if d.dest = D.port ∧ ntohs d.data = TFTP_ACK ∧ ntohs (d.data.drop 2) = (b - 1 + D.first) % 2 ^ 16 ∧
      b - 1 + D.first < D.last then (b + 1,[D.down b])
  else (b,[])

/-! ### Runs -/

structure System where
  client : Client
  b : Nat
  ups : List Datagram
  downs : List Datagram

inductive Event where
  | disturbUps
  | disturbDowns
  | toServer (d : Datagram)
  | toClient (d : Datagram)
  | timeout
  | icmp
  | retransmit

inductive Step (D : Download) : System → Event → System → Prop
  | disturbUps {s : System} {queue : List Datagram} :
      Disturbed s.ups queue → Step D s .disturbUps { s with ups := queue }
  | disturbDowns {s : System} {queue : List Datagram} :
      Disturbed s.downs queue → Step D s .disturbDowns { s with downs := queue }
  | toServer {s : System} {d : Datagram} {rest : List Datagram} : s.ups = d :: rest →
      Step D s (.toServer d) { s with b := (D.server s.b d).1, ups := rest, downs := s.downs ++ (D.server s.b d).2 }
  | toClient {s : System} {d : Datagram} {rest : List Datagram} : s.downs = d :: rest →
      Step D s (.toClient d) { s with
        client := (TftpHandler D.cfg s.client d).1
        downs := rest
        ups := s.ups ++ (TftpHandler D.cfg s.client d).2 }
  | timeout {s : System} : Step D s .timeout { s with
      client := (TftpTimeout D.cfg s.client).1
      ups := s.ups ++ (TftpTimeout D.cfg s.client).2 }
  | icmp {s : System} : Step D s .icmp { s with client := icmp_handler D.cfg s.client }
  | retransmit {s : System} : 0 < s.b → Step D s .retransmit { s with downs := s.downs ++ [D.down (s.b - 1)] }

def Download.initial (D : Download) (before : Client) (timeoutCountMax : Int) : System :=
  let (client,request) := TftpStart D.cfg before none timeoutCountMax D.ourPort
  ⟨client,0,[request],[]⟩

/-- The condition on a step: a packet with the number 0 is not received again after it was received. -/
def NoZeroAgain (s : System) : Event → Prop
  | .toClient d => ¬ (dataNumber d = some 0 ∧ s.client.TftpState = .STATE_DATA ∧ s.client.TftpLastBlock = 0)
  | _ => True

/-! ### The client -/

def Download.up (D : Download) (i : Nat) : Datagram :=
  if i = 0 then ⟨D.ourPort,WELL_KNOWN_PORT,packet TFTP_RRQ D.cfg.request⟩
  else ⟨D.ourPort,D.port,packet TFTP_ACK (htons (i - 1 + D.first))⟩

structure Waiting (D : Download) (t : Client) : Prop where
  own : t.TftpOurPort = D.ourPort
  remote : t.TftpRemotePort = WELL_KNOWN_PORT
  reading : t.TftpWriting = false
  state : t.TftpState = .STATE_SEND_RRQ
  blkSize : t.TftpBlkSize = TFTP_BLOCK_SIZE
  block : t.TftpBlock = 0
  xferSize : t.NetBootFileXferSize = 0
  running : t.net_state ≠ .NETLOOP_SUCCESS

/-- The part of the file that the first `r` blocks make up. -/
def Download.got (D : Download) (r : Nat) : List UInt8 := D.file.take (r * D.bs.toNat)

/-- What a client that has got `r` blocks has in memory and reports as their size. -/
structure Held (D : Download) (r : Nat) (t : Client) : Prop where
  own : t.TftpOurPort = D.ourPort
  remote : t.TftpRemotePort = D.port
  reading : t.TftpWriting = false
  blkSize : t.TftpBlkSize = D.bs
  xferSize : t.NetBootFileXferSize.toNat = (D.got r).length
  mem : load t.mem 0 (D.got r).length = D.got r

/-- The client with `r` blocks; with none of them, it has got the OACK. -/
structure Got (D : Download) (r : Nat) (t : Client) : Prop extends Held D r t where
  state : t.TftpState = if r = 0 then .STATE_OACK else .STATE_DATA
  block : t.TftpBlock = BitVec.ofNat 32 (r % 2 ^ 16)
  lastBlock : r ≠ 0 → t.TftpLastBlock = BitVec.ofNat 32 (r % 2 ^ 16)
  wrapOffset : r ≠ 0 → t.TftpBlockWrapOffset = BitVec.ofNat 32 (r / 2 ^ 16 * 2 ^ 16 * D.bs.toNat)
  success : t.net_state = .NETLOOP_SUCCESS → r = D.last

/-- The client before it takes block `r + 1`. -/
structure Taking (D : Download) (r : Nat) (t : Client) : Prop extends Held D r t where
  state : t.TftpState = .STATE_DATA
  block : t.TftpBlock = BitVec.ofNat 32 ((r + 1) % 2 ^ 16)
  wrapOffset : t.TftpBlockWrapOffset = BitVec.ofNat 32 ((r + 1) / 2 ^ 16 * 2 ^ 16 * D.bs.toNat)
  running : t.net_state ≠ .NETLOOP_SUCCESS

theorem got_next (r : Nat) : D.got (r+1) = D.got r ++ D.block (r+1) := by
  rw [Download.got,Download.got,Download.block,Nat.add_sub_cancel,Nat.succ_mul,take_add]

theorem got_length {r : Nat} (more : r < D.last) : (D.got r).length = r * D.bs.toNat := by
  rw [Download.got,length_take]
  have : r * D.bs.toNat ≤ D.file.length := (Nat.le_div_iff_mul_le D.bs_pos).mp (by rw [Download.last] at more; omega)
  omega

theorem got_small (r : Nat) : (D.got r).length < 2 ^ 32 := by
  rw [Download.got,length_take]
  have := D.small
  omega

theorem last_pos : 0 < D.last := succ_pos _

theorem first_le_last : D.first ≤ D.last := by
  have := last_pos (D := D)
  rw [Download.first]
  split_ifs <;> omega

theorem got_last : D.got D.last = D.file := by
  apply take_of_length_le
  exact (div_lt_iff_lt_mul D.bs_pos).mp (lt_succ_self _) |>.le

theorem block_short {r : Nat} (more : r < D.last) : (D.block (r+1)).length < D.bs.toNat ↔ r + 1 = D.last := by
  rw [Download.block,Nat.add_sub_cancel,length_take,length_drop,Download.last] at *
  have split := Nat.div_add_mod D.file.length D.bs.toNat
  have remainder := Nat.mod_lt D.file.length D.bs_pos
  constructor
  · intro short
    have quotient : D.file.length / D.bs.toNat < r + 1 := (Nat.div_lt_iff_lt_mul D.bs_pos).mpr (by rw [Nat.succ_mul]; omega)
    omega
  intro final
  have same : r = D.file.length / D.bs.toNat := by omega
  rw [same,mul_comm]
  omega

section
variable {r : Nat} {t : Client}

theorem Held.blkSize_eq (held : Held D r t) : t.blkSize = BitVec.ofNat 32 D.bs.toNat := by
  apply eq_of_toNat_eq
  rw [Client.blkSize,held.blkSize,toNat_setWidth,toNat_ofNat]

theorem Taking.stored (taking : Taking D r t) (more : r < D.last) :
    Held D (r+1) (store_block t (t.TftpBlock-1) (D.block (r+1))) := by
  have length := got_length more
  have small := got_small (D := D) r
  have total : (D.got (r+1)).length = (D.got r).length + (D.block (r+1)).length := by
    rw [got_next,length_append]
  have fits := got_small (D := D) (r+1)
  have offset : (t.TftpBlock-1) * t.blkSize + t.TftpBlockWrapOffset = BitVec.ofNat 32 (D.got r).length := by
    rw [taking.blkSize_eq,taking.block,taking.wrapOffset,block_offset,length]
  have place : (BitVec.ofNat 32 (D.got r).length).toNat = (D.got r).length := by
    rw [toNat_ofNat,mod_eq_of_lt small]
  have newsize : (BitVec.ofNat 32 (D.got r).length + BitVec.ofNat 32 (D.block (r+1)).length).toNat =
      (D.got (r+1)).length := by
    rw [← ofNat_add,toNat_ofNat,← total,mod_eq_of_lt fits]
  refine ⟨taking.own,taking.remote,taking.reading,taking.blkSize,?_,?_⟩
  · simp only [store_block,offset]
    have before := taking.xferSize
    split_ifs with grows
    · exact newsize
    · rw [lt_def] at grows
      omega
  · simp only [store_block,offset,place]
    rw [total,load_add,load_store_apart (.inl (by omega)),taking.mem,zero_add,load_store,got_next]

theorem send_ack (held : Held D r t) (state : t.TftpState = .STATE_OACK ∨ t.TftpState = .STATE_DATA)
    (block : t.TftpBlock = BitVec.ofNat 32 (r % 2 ^ 16)) :
    TftpSend D.cfg t = (t,⟨D.ourPort,D.port,packet TFTP_ACK (htons r)⟩) := by
  rw [TftpSend,held.own,held.remote]
  rcases state with state | state
  all_goals
    simp only [state,held.reading,block,number_toNat,htons_mod]
    rfl

theorem store_block_xferSize {block offset : BitVec 32} {src : List UInt8}
    (place : block * t.blkSize + t.TftpBlockWrapOffset = offset)
    (grows : t.NetBootFileXferSize < offset + BitVec.ofNat 32 src.length) :
    (store_block t block src).NetBootFileXferSize = offset + BitVec.ofNat 32 src.length := by
  simp only [store_block,place]
  rw [if_pos grows]

/-- A block that is not the one before is stored and acknowledged, and a short one ends the transfer. -/
theorem acceptBlock_new {cfg : Config} {data : List UInt8} (new : t.TftpBlock ≠ t.TftpLastBlock)
    (state : t.TftpState = .STATE_DATA) (reading : t.TftpWriting = false) :
    acceptBlock cfg t data =
      let stored := store_block { t with TftpLastBlock := t.TftpBlock, TftpTimeoutCountMax := cfg.TIMEOUT_COUNT }
        (t.TftpBlock-1) data
      (if data.length < t.TftpBlkSize.toNat then tftp_complete stored else stored,
        [⟨t.TftpOurPort,t.TftpRemotePort,packet TFTP_ACK (htons t.TftpBlock.toNat)⟩]) := by
  rw [acceptBlock,if_neg new]
  simp only [store_block,TftpSend,state,reading]
  rfl

theorem Taking.accept (taking : Taking D r t) (new : t.TftpBlock ≠ t.TftpLastBlock) (more : r < D.last) :
    ∃ t', acceptBlock D.cfg t (D.block (r+1)) = (t',[⟨D.ourPort,D.port,packet TFTP_ACK (htons (r+1))⟩]) ∧
      Got D (r+1) t' := by
  have marked : Taking D r { t with TftpLastBlock := t.TftpBlock, TftpTimeoutCountMax := D.cfg.TIMEOUT_COUNT } :=
    ⟨⟨taking.own,taking.remote,taking.reading,taking.blkSize,taking.xferSize,taking.mem⟩,taking.state,taking.block,
      taking.wrapOffset,taking.running⟩
  have held := marked.stored more
  rw [acceptBlock_new new taking.state taking.reading]
  generalize after : store_block { t with TftpLastBlock := t.TftpBlock, TftpTimeoutCountMax := D.cfg.TIMEOUT_COUNT }
    (t.TftpBlock-1) (D.block (r+1)) = t₁ at held ⊢
  have block : t₁.TftpBlock = BitVec.ofNat 32 ((r+1) % 2 ^ 16) := after ▸ taking.block
  have state : t₁.TftpState = .STATE_DATA := after ▸ taking.state
  have last : t₁.TftpLastBlock = BitVec.ofNat 32 ((r+1) % 2 ^ 16) := after ▸ taking.block
  have wrap : t₁.TftpBlockWrapOffset = BitVec.ofNat 32 ((r+1) / 2 ^ 16 * 2 ^ 16 * D.bs.toNat) := after ▸ taking.wrapOffset
  have running : t₁.net_state ≠ .NETLOOP_SUCCESS := after ▸ taking.running
  rw [taking.own,taking.remote,taking.block,number_toNat,htons_mod,taking.blkSize]
  refine ⟨_,rfl,?_⟩
  split_ifs with short
  · exact ⟨⟨held.own,held.remote,held.reading,held.blkSize,held.xferSize,held.mem⟩,by exact state,block,
      fun _ => last,fun _ => wrap,fun _ => (block_short more).mp short⟩
  · exact ⟨held,by exact state,block,fun _ => last,fun _ => wrap,fun done => absurd done running⟩

/-- The client after `a` packets of the server. -/
def At (D : Download) (a : Nat) (t : Client) : Prop :=
  match a with
  | 0 => Waiting D t
  | a+1 => Got D (a + D.first) t

theorem Got.running (got : Got D r t) (more : r < D.last) : t.net_state ≠ .NETLOOP_SUCCESS :=
  fun done => absurd (got.success done) (Nat.ne_of_lt more)

theorem down_data {a k : Nat} (own : t.TftpOurPort = D.ourPort)
    (known : t.TftpState ≠ .STATE_SEND_RRQ → t.TftpState ≠ .STATE_SEND_WRQ → D.port = t.TftpRemotePort)
    (index : a + D.first = k) (positive : k ≠ 0) :
    TftpHandler D.cfg t (D.down a) =
      let t := update_block_number { t with TftpBlock := BitVec.ofNat 32 (k % 2 ^ 16) }
      if t.TftpState = .STATE_SEND_RRQ ∨ t.TftpState = .STATE_OACK ∨ t.TftpState = .STATE_RECV_WRQ then
        let t := new_transfer { t with TftpState := .STATE_DATA, TftpRemotePort := D.port }
        if t.TftpBlock ≠ 1 then (NetStartAgain D.cfg t,[]) else acceptBlock D.cfg t (D.block k)
      else acceptBlock D.cfg t (D.block k) := by
  have number : ntohs (htons k ++ D.block k) = k % 2 ^ 16 := ntohs_htons ..
  have long : ¬ (htons k ++ D.block k).length < 2 := by
    rw [length_append,htons_length]
    omega
  rw [Download.down,index,if_neg positive,handler_packet own known (by decide),handleData,number]
  rfl

theorem dataNumber_down {a : Nat} (positive : a + D.first ≠ 0) :
    dataNumber (D.down a) = some ((a+D.first) % 2 ^ 16) := by
  rw [dataNumber,Download.down,if_neg positive,ntohs_packet (by decide),if_pos rfl,packet_drop,ntohs_htons]

theorem Held.update (held : Held D r t) : Held D r (update_block_number t) := by
  obtain ⟨wrap,count,same⟩ := update_eq t
  rw [same]
  exact ⟨held.own,held.remote,held.reading,held.blkSize,held.xferSize,held.mem⟩

theorem update_fields (t : Client) : (update_block_number t).TftpState = t.TftpState ∧
    (update_block_number t).TftpBlock = t.TftpBlock ∧ (update_block_number t).TftpLastBlock = t.TftpLastBlock ∧
    (update_block_number t).net_state = t.net_state := by
  obtain ⟨wrap,count,same⟩ := update_eq t
  rw [same]
  exact ⟨rfl,rfl,rfl,rfl⟩

theorem first_block {a : Nat} (own : t.TftpOurPort = D.ourPort) (reading : t.TftpWriting = false)
    (blkSize : t.TftpBlkSize = D.bs) (xferSize : t.NetBootFileXferSize.toNat = 0)
    (state : t.TftpState = .STATE_SEND_RRQ ∨ t.TftpState = .STATE_OACK ∧ D.port = t.TftpRemotePort)
    (running : t.net_state ≠ .NETLOOP_SUCCESS) (index : a + D.first = 1) :
    ∃ t', TftpHandler D.cfg t (D.down a) = (t',[⟨D.ourPort,D.port,packet TFTP_ACK (htons 1)⟩]) ∧ Got D 1 t' := by
  have known : t.TftpState ≠ .STATE_SEND_RRQ → t.TftpState ≠ .STATE_SEND_WRQ → D.port = t.TftpRemotePort := by
    intro other _
    rcases state with state | ⟨-,same⟩
    · exact absurd state other
    · exact same
  have first : t.TftpState = .STATE_SEND_RRQ ∨ t.TftpState = .STATE_OACK ∨ t.TftpState = .STATE_RECV_WRQ := by
    rcases state with state | ⟨state,-⟩
    · exact .inl state
    · exact .inr (.inl state)
  have nonzero : BitVec.ofNat 32 (1 % 2 ^ 16) ≠ 0 := by decide
  have one : BitVec.ofNat 32 (1 % 2 ^ 16) = 1 := rfl
  rw [down_data own known index (by decide)]
  simp only [update_block_number,if_neg nonzero,if_pos first]
  have empty : D.got 0 = [] := by rw [Download.got,Nat.zero_mul,take_zero]
  rw [if_neg]
  swap
  · exact not_not_intro one
  refine Taking.accept ⟨⟨own,rfl,reading,blkSize,?_,?_⟩,rfl,rfl,?_,running⟩ ?_ (Nat.succ_pos _)
  · rw [empty]
    exact xferSize
  · rw [empty]
    rfl
  · rw [show (0+1) / 2 ^ 16 = 0 from rfl,Nat.zero_mul,Nat.zero_mul]
    rfl
  · show BitVec.ofNat 32 (1 % 2 ^ 16) ≠ 0
    decide

theorem next_block {a : Nat} (got : Got D r t) (positive : r ≠ 0) (more : r < D.last) (index : a + D.first = r + 1) :
    ∃ t', TftpHandler D.cfg t (D.down a) = (t',[⟨D.ourPort,D.port,packet TFTP_ACK (htons (r+1))⟩]) ∧ Got D (r+1) t' := by
  have state : t.TftpState = .STATE_DATA := by rw [got.state,if_neg positive]
  rw [down_data got.own (fun _ _ => got.remote.symm) index (by omega)]
  have numbered : Held D r { t with TftpBlock := BitVec.ofNat 32 ((r+1) % 2 ^ 16) } :=
    ⟨got.own,got.remote,got.reading,got.blkSize,got.xferSize,got.mem⟩
  have wrap := update_wrapOffset numbered.blkSize_eq rfl (got.wrapOffset positive)
  obtain ⟨state',block',last',net'⟩ := update_fields { t with TftpBlock := BitVec.ofNat 32 ((r+1) % 2 ^ 16) }
  have held := numbered.update
  generalize update_block_number { t with TftpBlock := BitVec.ofNat 32 ((r+1) % 2 ^ 16) } = t₁ at *
  have other : t₁.TftpBlock ≠ t₁.TftpLastBlock := by
    rw [block',last',got.lastBlock positive]
    intro same
    have := congrArg BitVec.toNat same
    rw [number_toNat,number_toNat] at this
    omega
  simp only [state'.trans state]
  exact Taking.accept ⟨held,state'.trans state,block',wrap,net' ▸ got.running more⟩ other more

/-- The last block again: it is ignored, but it counts for the wrap. -/
theorem again_block {a : Nat} (got : Got D r t) (positive : r ≠ 0) (index : a + D.first = r) :
    TftpHandler D.cfg t (D.down a) = (update_block_number t,[]) := by
  have state : t.TftpState = .STATE_DATA := by rw [got.state,if_neg positive]
  have same : { t with TftpBlock := BitVec.ofNat 32 (r % 2 ^ 16) } = t := by rw [← got.block]
  obtain ⟨state',block',last',-⟩ := update_fields t
  rw [down_data got.own (fun _ _ => got.remote.symm) index positive,same]
  simp only [state',state]
  rw [if_neg (by decide),acceptBlock,if_pos (by rw [block',last',got.block,got.lastBlock positive])]

theorem oack_taken (first : D.first = 0) (own : t.TftpOurPort = D.ourPort)
    (known : t.TftpState ≠ .STATE_SEND_RRQ → t.TftpState ≠ .STATE_SEND_WRQ → D.port = t.TftpRemotePort)
    (reading : t.TftpWriting = false) (blkSize : oackBlkSize (D.oack.getD []) t.TftpBlkSize = D.bs)
    (block : t.TftpBlock = 0) (xferSize : t.NetBootFileXferSize.toNat = 0) (running : t.net_state ≠ .NETLOOP_SUCCESS) :
    ∃ t', TftpHandler D.cfg t (D.down 0) = (t',[⟨D.ourPort,D.port,packet TFTP_ACK (htons 0)⟩]) ∧ Got D 0 t' := by
  have empty : D.got 0 = [] := by rw [Download.got,Nat.zero_mul,take_zero]
  rw [Download.down,first,if_pos rfl,handler_packet own known (by decide),if_neg (by decide),if_pos rfl,handleOack]
  simp only [reading,blkSize]
  rw [if_neg (by decide)]
  have got : Got D 0 { t with TftpState := .STATE_OACK, TftpRemotePort := D.port, TftpBlkSize := D.bs } := by
    refine ⟨⟨own,rfl,reading,rfl,?_,?_⟩,rfl,block,fun none => absurd rfl none,fun none => absurd rfl none,
      fun done => absurd done running⟩
    · rw [empty]
      exact xferSize
    · rw [empty]
      rfl
  rw [← reading,send_ack got.toHeld (.inl rfl) got.block]
  exact ⟨_,rfl,got⟩

/-! ### One packet -/

theorem At.send {a : Nat} (current : At D a t) : TftpSend D.cfg t = (t,D.up a) := by
  cases a with
  | zero =>
    have waiting : Waiting D t := current
    simp only [TftpSend,waiting.state,waiting.own,waiting.remote]
    rfl
  | succ a =>
    have got : Got D (a+D.first) t := current
    have state : t.TftpState = .STATE_OACK ∨ t.TftpState = .STATE_DATA := by
      rw [got.state]
      split_ifs
      · exact .inl rfl
      · exact .inr rfl
    rw [send_ack got.toHeld state got.block]
    rfl

theorem At.next {a : Nat} (current : At D a t) (more : a + D.first ≤ D.last) :
    ∃ t', TftpHandler D.cfg t (D.down a) = (t',[D.up (a+1)]) ∧ At D (a+1) t' := by
  have up : D.up (a+1) = ⟨D.ourPort,D.port,packet TFTP_ACK (htons (a+D.first))⟩ := rfl
  rw [up]
  cases a with
  | zero =>
    have waiting : Waiting D t := current
    have zero : t.NetBootFileXferSize.toNat = 0 := by rw [waiting.xferSize]; rfl
    have agreed := D.agreed
    cases options : D.oack with
    | none =>
      have first : D.first = 1 := by rw [Download.first,options]; rfl
      rw [options] at agreed
      obtain ⟨t',handled,got⟩ := first_block waiting.own waiting.reading (waiting.blkSize.trans agreed.symm) zero
        (.inl waiting.state) waiting.running (a := 0) (by rw [first])
      refine ⟨t',?_,?_⟩
      · rw [handled,first]
      show Got D (0+D.first) t'
      rw [first]
      exact got
    | some options_ =>
      have first : D.first = 0 := by rw [Download.first,options]; rfl
      rw [options] at agreed
      obtain ⟨t',handled,got⟩ := oack_taken first waiting.own (fun other => absurd waiting.state other) waiting.reading
        (by rw [options,waiting.blkSize]; exact agreed.symm) waiting.block zero waiting.running
      refine ⟨t',?_,?_⟩
      · rw [handled,first]
      show Got D (0+D.first) t'
      rw [first]
      exact got
  | succ a =>
    have got : Got D (a+D.first) t := current
    have index : a + 1 + D.first = a + D.first + 1 := by omega
    rw [index] at more ⊢
    show ∃ t', _ ∧ Got D (a + 1 + D.first) t'
    rw [index]
    by_cases none : a + D.first = 0
    · -- the first block behind an OACK
      rw [none] at got index ⊢
      have size := got.xferSize
      rw [Download.got,Nat.zero_mul] at size
      exact first_block got.own got.reading got.blkSize size (.inr ⟨by rw [got.state,if_pos rfl],got.remote.symm⟩)
        (got.running last_pos) index
    · exact next_block got none more index

theorem At.again {a : Nat} (current : At D (a+1) t)
    (fresh : ¬ (dataNumber (D.down a) = some 0 ∧ t.TftpState = .STATE_DATA ∧ t.TftpLastBlock = 0)) :
    ∃ t' sent, TftpHandler D.cfg t (D.down a) = (t',sent) ∧ (sent = [] ∨ sent = [D.up (a+1)]) ∧ At D (a+1) t' := by
  have got : Got D (a+D.first) t := current
  by_cases none : a + D.first = 0
  · obtain ⟨rfl,first⟩ : a = 0 ∧ D.first = 0 := by omega
    rw [none] at got
    have size := got.xferSize
    rw [Download.got,Nat.zero_mul] at size
    have blkSize : oackBlkSize (D.oack.getD []) t.TftpBlkSize = D.bs := by
      have agreed := D.agreed
      rw [got.blkSize]
      cases options : D.oack with
      | none =>
        rw [Download.first,options] at first
        simp at first
      | some options_ =>
        rw [options] at agreed
        rw [agreed]
        exact oackBlkSize_again ..
    obtain ⟨t',handled,got'⟩ := oack_taken first got.own (fun _ _ => got.remote.symm) got.reading blkSize got.block size
      (got.running last_pos)
    refine ⟨t',_,handled,.inr ?_,?_⟩
    · rw [Download.up,if_neg (by decide),first]
    show Got D (0+D.first) t'
    rw [first]
    exact got'
  have number : (a+D.first) % 2 ^ 16 ≠ 0 := by
    intro zero
    apply fresh
    refine ⟨?_,by rw [got.state,if_neg none],by rw [got.lastBlock none,zero]; rfl⟩
    rw [dataNumber_down none,zero]
  have nonzero : t.TftpBlock ≠ 0 := by
    rw [got.block]
    exact fun zero => number (number_eq_zero.mp zero)
  have handled := again_block got none rfl
  rw [update_block_number,if_neg nonzero] at handled
  exact ⟨t,[],handled,.inl rfl,current⟩

theorem At.counted {a : Nat} {n : Int} (current : At D a t) : At D a { t with TftpTimeoutCount := n } := by
  cases a with
  | zero => exact { (current : Waiting D t) with }
  | succ a => exact { (current : Got D (a+D.first) t) with }

theorem At.startAgain {a : Nat} (current : At D a t) : At D a (NetStartAgain D.cfg t) := by
  cases a with
  | zero => exact { (current : Waiting D t) with running := D.cfg.again_ne }
  | succ a => exact { (current : Got D (a+D.first) t) with success := fun done => absurd done D.cfg.again_ne }

theorem At.timeout {a : Nat} (current : At D a t) :
    ∃ t' sent, TftpTimeout D.cfg t = (t',sent) ∧ (sent = [] ∨ sent = [D.up a]) ∧ At D a t' :=
  timeout_preserves current (fun _ _ => At.counted) (fun _ => At.startAgain) fun t current => ⟨t,current.send,current⟩
end

section
variable {b : Nat}

theorem server_next : D.server b (D.up b) = if b + D.first ≤ D.last then (b+1,[D.down b]) else (b,[]) := by
  rcases b with _ | b
  · have request : ntohs (D.up 0).data = TFTP_RRQ := ntohs_packet (by decide)
    have first := first_le_last (D := D)
    rw [Download.server,if_pos rfl,if_pos ⟨rfl,request⟩,if_pos (by omega)]
  have number : ntohs ((packet TFTP_ACK (htons (b+D.first))).drop 2) = (b+D.first) % 2 ^ 16 :=
    ntohs_htons (b+D.first) []
  have up : D.up (b+1) = ⟨D.ourPort,D.port,packet TFTP_ACK (htons (b+D.first))⟩ := rfl
  rw [Download.server,if_neg (by omega)]
  by_cases more : b + D.first < D.last
  · rw [if_pos ⟨rfl,ntohs_packet (by decide),number,more⟩,if_pos (by omega)]
  · rw [if_neg fun matched => more matched.2.2.2,if_neg (by omega)]

theorem server_again : D.server (b+1) (D.up b) = (b+1,[]) := by
  rw [Download.server,if_neg (by omega),if_neg]
  rintro ⟨-,opcode,number,-⟩
  rcases b with _ | b
  · have request : ntohs (D.up 0).data = TFTP_RRQ := ntohs_packet (by decide)
    rw [request] at opcode
    exact absurd opcode (by decide)
  · have sent : ntohs ((D.up (b+1)).data.drop 2) = (b+D.first) % 2 ^ 16 := ntohs_htons (b+D.first) []
    omega
end

/-! ### All packets -/

def Paired (D : Download) (s : System) : Prop :=
  s.b + D.first ≤ D.last + 1 ∧ ∃ a, InStep D.up D.down a s.b s.ups s.downs ∧ At D a s.client

theorem Paired.step {s s' : System} {e : Event} (paired : Paired D s) (step : Guarded NoZeroAgain (Step D) s e s') :
    Paired D s' := by
  obtain ⟨limit,a,inStep,current⟩ := paired
  obtain ⟨fresh,step⟩ := step
  cases step with
  | disturbUps disturbed => exact ⟨limit,a,inStep.disturbUps disturbed,current⟩
  | disturbDowns disturbed => exact ⟨limit,a,inStep.disturbDowns disturbed,current⟩
  | @toServer d rest arrived =>
    rw [arrived] at inStep
    obtain ⟨n,rfl,⟨rfl,ahead⟩ | last,same⟩ := inStep.takeUp
    · rw [server_next]
      split_ifs with more
      · exact ⟨by simp only; omega,a,ahead.sendDown,current⟩
      · rw [append_nil]
        exact ⟨limit,a,same,current⟩
    · rw [← last,server_again,last,append_nil]
      exact ⟨limit,a,same,current⟩
  | @toClient d rest arrived =>
    rw [arrived] at inStep
    obtain ⟨n,rfl,⟨rfl,ahead⟩ | last,same⟩ := inStep.takeDown
    · obtain ⟨t',handled,next⟩ := current.next (by have := ahead.behind; omega)
      rw [handled]
      exact ⟨limit,n+1,ahead.sendUp,next⟩
    subst last
    obtain ⟨t',sent,handled,answer,still⟩ := current.again fresh
    rw [handled]
    exact ⟨limit,n+1,same.answer answer,still⟩
  | timeout =>
    obtain ⟨t',sent,handled,answer,still⟩ := current.timeout
    rw [handled]
    exact ⟨limit,a,inStep.answer answer,still⟩
  | icmp => exact ⟨limit,a,inStep,current.startAgain⟩
  | retransmit started =>
    obtain ⟨b,same⟩ : ∃ b, s.b = b + 1 := ⟨s.b-1,by omega⟩
    rw [same] at inStep limit ⊢
    exact ⟨limit,a,inStep.sendDown,current⟩

theorem waiting_initial (before : Client) (timeoutCountMax : Int) : Waiting D (D.initial before timeoutCountMax).client :=
  ⟨rfl,rfl,rfl,rfl,rfl,rfl,rfl,NetState.noConfusion⟩

theorem paired_initial (before : Client) (timeoutCountMax : Int) : Paired D (D.initial before timeoutCountMax) := by
  refine ⟨?_,0,InStep.start.sendUp,waiting_initial before timeoutCountMax⟩
  have := first_le_last (D := D)
  show 0 + D.first ≤ D.last + 1
  omega

/-- Whatever is lost, repeated or delayed: as long as no block with the number 0 is received twice in a row,
    a transfer that has ended with success has the file in memory, and reports its size. -/
theorem successful_download_holds_file {D : Download} {before : Client} {timeoutCountMax : Int} {events : List Event}
    {s : System} (run : Run (Guarded NoZeroAgain (Step D)) (D.initial before timeoutCountMax) events s)
    (success : s.client.net_state = .NETLOOP_SUCCESS) :
    s.client.NetBootFileXferSize.toNat = D.file.length ∧ load s.client.mem 0 D.file.length = D.file := by
  have paired : Paired D s := run.invariant (paired_initial before timeoutCountMax) fun _ _ _ => Paired.step
  obtain ⟨-,a,-,current⟩ := paired
  cases a with
  | zero => exact absurd success (Waiting.running current)
  | succ a =>
    have got : Got D (a+D.first) s.client := current
    have held := got.toHeld
    rw [got.success success] at held
    have size := held.xferSize
    have content := held.mem
    rw [got_last] at size content
    exact ⟨size,content⟩

/-! ### Transfers that end -/

theorem At.fresh {a : Nat} {t : Client} (current : At D a t) :
    ¬ (dataNumber (D.down a) = some 0 ∧ t.TftpState = .STATE_DATA ∧ t.TftpLastBlock = 0) := by
  rintro ⟨number,state,last⟩
  cases a with
  | zero => exact TftpState.noConfusion ((Waiting.state current).symm.trans state)
  | succ a =>
    have got : Got D (a+D.first) t := current
    by_cases none : a + D.first = 0
    · rw [got.state,if_pos none] at state
      exact TftpState.noConfusion state
    rw [dataNumber_down (by omega),Option.some_inj] at number
    rw [got.lastBlock none] at last
    have := number_eq_zero.mp last
    omega

theorem reaches (before : Client) (timeoutCountMax : Int) (a : Nat) (within : a + D.first ≤ D.last + 1) :
    ∃ events t, Run (Guarded NoZeroAgain (Step D)) (D.initial before timeoutCountMax) events ⟨t,a,[D.up a],[]⟩ ∧ At D a t := by
  induction a with
  | zero => exact ⟨[],_,.start,waiting_initial before timeoutCountMax⟩
  | succ a ih =>
    obtain ⟨events,t,run,current⟩ := ih (by omega)
    obtain ⟨t',handled,next⟩ := current.next (by omega)
    have asked : Guarded NoZeroAgain (Step D) ⟨t,a,[D.up a],[]⟩ (.toServer (D.up a)) ⟨t,a+1,[],[D.down a]⟩ := by
      have taken := Step.toServer (D := D) (s := ⟨t,a,[D.up a],[]⟩) rfl
      simp only [server_next,if_pos (show a + D.first ≤ D.last by omega)] at taken
      exact ⟨trivial,taken⟩
    have answered : Guarded NoZeroAgain (Step D) ⟨t,a+1,[],[D.down a]⟩ (.toClient (D.down a)) ⟨t',a+1,[D.up (a+1)],[]⟩ := by
      have taken := Step.toClient (D := D) (s := ⟨t,a+1,[],[D.down a]⟩) rfl
      simp only [handled] at taken
      exact ⟨current.fresh,taken⟩
    exact ⟨_,t',(run.next asked).next answered,next⟩

section
variable {r a : Nat} {t : Client}

/-- The block behind one with the number 0 that was received twice is stored 2 ^ 16 blocks too far. -/
theorem displaced_block (got : Got D r t) (positive : r ≠ 0) (zero : r % 2 ^ 16 = 0) (more : r < D.last)
    (fits : (r + 2 ^ 16) * D.bs.toNat + D.bs.toNat < 2 ^ 32) (index : a + D.first = r + 1) :
    ∃ t' sent, TftpHandler D.cfg (update_block_number t) (D.down a) = (t',sent) ∧
      t'.NetBootFileXferSize.toNat = (r + 2 ^ 16) * D.bs.toNat + (D.block (r+1)).length ∧
      (r + 1 = D.last → t'.net_state = .NETLOOP_SUCCESS) := by
  have state : t.TftpState = .STATE_DATA := by rw [got.state,if_neg positive]
  have held := got.toHeld.update
  obtain ⟨state',block',last',-⟩ := update_fields t
  have wrap : (update_block_number t).TftpBlockWrapOffset = BitVec.ofNat 32 ((r + 2 ^ 16 - 1 + 1) / 2 ^ 16 * 2 ^ 16 * D.bs.toNat) := by
    apply update_wrapOffset got.blkSize_eq
    · rw [got.block,show (r + 2 ^ 16 - 1 + 1) % 2 ^ 16 = r % 2 ^ 16 by omega]
    · rw [got.wrapOffset positive,show (r + 2 ^ 16 - 1) / 2 ^ 16 = r / 2 ^ 16 by omega]
  generalize update_block_number t = t₁ at *
  have nonzero : BitVec.ofNat 32 ((r+1) % 2 ^ 16) ≠ 0 := fun none => by
    have := number_eq_zero.mp none
    omega
  have new : BitVec.ofNat 32 ((r+1) % 2 ^ 16) ≠ t₁.TftpLastBlock := by
    rw [last',got.lastBlock positive,zero]
    exact nonzero
  have offset : (BitVec.ofNat 32 ((r+1) % 2 ^ 16) - 1) * t₁.blkSize + t₁.TftpBlockWrapOffset =
      BitVec.ofNat 32 ((r + 2 ^ 16) * D.bs.toNat) := by
    rw [held.blkSize_eq,wrap,← block_offset (r + 2 ^ 16),show (r + 2 ^ 16 + 1) % 2 ^ 16 = (r+1) % 2 ^ 16 by omega,
      show (r + 2 ^ 16 - 1 + 1) / 2 ^ 16 = (r + 2 ^ 16 + 1) / 2 ^ 16 by omega]
  have newsize : (BitVec.ofNat 32 ((r + 2 ^ 16) * D.bs.toNat) + BitVec.ofNat 32 (D.block (r+1)).length).toNat =
      (r + 2 ^ 16) * D.bs.toNat + (D.block (r+1)).length := by
    have short : (D.block (r+1)).length ≤ D.bs.toNat := length_take_le ..
    rw [← ofNat_add,toNat_ofNat,Nat.mod_eq_of_lt (by omega)]
  have grows : t₁.NetBootFileXferSize <
      BitVec.ofNat 32 ((r + 2 ^ 16) * D.bs.toNat) + BitVec.ofNat 32 (D.block (r+1)).length := by
    rw [lt_def,newsize,held.xferSize,got_length more,Nat.add_mul]
    have := D.bs_pos
    omega
  rw [down_data held.own (fun _ _ => held.remote.symm) index (by omega)]
  simp only [update_block_number,if_neg nonzero,state'.trans state]
  rw [if_neg (by decide),acceptBlock_new]
  rotate_left
  · exact new
  · rfl
  · exact held.reading
  generalize stored : store_block _ _ _ = t₂
  have size : t₂.NetBootFileXferSize =
      BitVec.ofNat 32 ((r + 2 ^ 16) * D.bs.toNat) + BitVec.ofNat 32 (D.block (r+1)).length := by
    rw [← stored]
    exact store_block_xferSize offset grows
  refine ⟨_,_,rfl,?_,?_⟩
  · split_ifs
    · exact size ▸ newsize
    · exact size ▸ newsize
  intro final
  rw [if_pos (held.blkSize ▸ (block_short more).mpr final)]
  rfl

end

def plain (file : List UInt8) (small : file.length < 2 ^ 32) : Download :=
  ⟨⟨[],10,.NETLOOP_RESTART,NetState.noConfusion⟩,file,none,TFTP_BLOCK_SIZE,2000,1024,rfl,by decide,small⟩

def oneByte : Download := plain [7] (by decide)

theorem one_byte_download : ∃ events s, Run (Guarded NoZeroAgain (Step oneByte)) (oneByte.initial idle 10) events s ∧
    s.client.net_state = .NETLOOP_SUCCESS ∧ s.client.NetBootFileXferSize.toNat = 1 ∧ load s.client.mem 0 1 = [7] := by
  have fresh := At.fresh (D := oneByte) (a := 0) (waiting_initial idle 10)
  have asked : Guarded NoZeroAgain (Step oneByte) (oneByte.initial idle 10) (.toServer (oneByte.up 0)) _ :=
    ⟨trivial,Step.toServer rfl⟩
  have answered : Guarded NoZeroAgain (Step oneByte) ⟨(oneByte.initial idle 10).client,1,[],[oneByte.down 0]⟩
    (.toClient (oneByte.down 0)) _ := ⟨fresh,Step.toClient rfl⟩
  have run := (Run.start.next asked).next answered
  have success : (TftpHandler oneByte.cfg (oneByte.initial idle 10).client (oneByte.down 0)).1.net_state = .NETLOOP_SUCCESS := rfl
  exact ⟨_,_,run,success,successful_download_holds_file run success⟩

/-- A file of 65536 full blocks: the last of them has the number 0, and an empty block ends the transfer. -/
theorem block_zero_twice_displaces : ∃ (D : Download) (before : Client) (timeoutCountMax : Int) (events : List Event) (s : System),
    Run (Step D) (D.initial before timeoutCountMax) events s ∧ s.client.net_state = .NETLOOP_SUCCESS ∧
    D.file.length = 2 ^ 25 ∧ s.client.NetBootFileXferSize.toNat = 2 ^ 26 := by
  have length : (List.replicate (2 ^ 25) (0 : UInt8)).length = 2 ^ 25 := length_replicate
  generalize List.replicate (2 ^ 25) (0 : UInt8) = file at length
  generalize whole : plain file (by rw [length]; decide) = D
  have first : D.first = 1 := by rw [← whole]; rfl
  have size : D.bs.toNat = 512 := by rw [← whole]; rfl
  have same : D.file.length = 2 ^ 25 := by rw [← whole]; exact length
  have last : D.last = 2 ^ 16 + 1 := by rw [Download.last,same,size]; rfl
  have empty : (D.block (2 ^ 16 + 1)).length = 0 := by
    rw [Download.block,size,length_take,length_drop,same]
    rfl
  obtain ⟨events,t,run,current⟩ := reaches (D := D) idle 10 (2 ^ 16) (by omega)
  have got : Got D (2 ^ 16) t := by
    have got : Got D (2 ^ 16 - 1 + D.first) t := current
    rwa [first] at got
  have ignored := again_block (a := 2 ^ 16 - 1) got (by decide) (by omega)
  obtain ⟨t',sent,handled,xferSize,success⟩ := displaced_block (a := 2 ^ 16) got (by decide) rfl (by omega)
    (by rw [size]; decide) (by omega)
  have again := Step.retransmit (D := D) (s := ⟨t,2 ^ 16,[D.up (2 ^ 16)],[]⟩) (Nat.two_pow_pos 16)
  have taken := Step.toClient (D := D) (s := ⟨t,2 ^ 16,[D.up (2 ^ 16)],[D.down (2 ^ 16 - 1)]⟩) rfl
  have asked := Step.toServer (D := D) (s := ⟨update_block_number t,2 ^ 16,[D.up (2 ^ 16)],[]⟩) rfl
  have ended := Step.toClient (D := D) (s := ⟨update_block_number t,2 ^ 16 + 1,[],[D.down (2 ^ 16)]⟩) rfl
  simp only [ignored] at taken
  simp only [server_next,if_pos (show 2 ^ 16 + D.first ≤ D.last by omega)] at asked
  simp only [handled] at ended
  refine ⟨D,idle,10,_,_,(((run.unguarded.next again).next taken).next asked).next ended,success (by omega),same,?_⟩
  rw [xferSize,size,empty]
  rfl

end UBoot.TftpGet
