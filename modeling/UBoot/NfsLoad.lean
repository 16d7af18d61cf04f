import UBoot.NfsSafe
import UBoot.NfsServer

/-!
Loading a file over NFS. The network keeps every call that was sent, and any reply to any of them may arrive
at any time, so that replies are lost, delayed, repeated and reordered. If the data replies come with the
verifier `AUTH_NULL`, a load that ends with success has the file in memory; a reply to an earlier request
is without effect in every state but `STATE_READ_REQ` (`load_holds_file`).
-/
namespace UBoot.NfsLoad
open List Memory Nfs NfsPath NfsSafe NfsServer Runs
open Tftp (NetState)

variable {c : Client} {accesses : List Access} {dir name : List UInt8} {mem : Nat → UInt8} {ret : Int}

structure Sys where
  client : Client
  sent : List Call

inductive Step (server : Server) : Sys → Event → Sys → Prop
  | deliver {s : Sys} {p : Received} {call : Call} : call ∈ s.sent → Answers server call p.data →
      Step server s (.packet p) ⟨(NfsHandler s.client p).client,s.sent ++ (NfsHandler s.client p).sent⟩
  | timeout {s : Sys} {again : NetState} : again ≠ .NETLOOP_SUCCESS →
      Step server s (.timeout again) ⟨(NfsTimeout again s.client).1,s.sent ++ (NfsTimeout again s.client).2⟩

/-- There is a number for the next request, and a data reply that was accepted has the verifier `AUTH_NULL`. -/
def Sound (s : Sys) : Event → Prop
  | .packet p => s.client.rpc_id.toNat + 1 < 2 ^ 32 ∧
      (s.client.NfsState = .STATE_READ_REQ → p.word 8 = 0 → p.word 12 = 0)
  | .timeout _ => s.client.rpc_id.toNat + 1 < 2 ^ 32

/-! ### The invariant -/

variable {server : Server} {file : List UInt8}

def Complete (file : List UInt8) (c : Client) : Prop :=
  load c.mem 0 file.length = file ∧ c.NetBootFileXferSize.toNat = file.length

structure At (buf : List UInt8) (filename : Int) (dir name : List UInt8) : Prop where
  holds : Holds buf
  dir : text buf = dir
  name : text (buf.drop filename.toNat) = name

def OnTheWay (server : Server) (file : List UInt8) (c : Client) (dir name : List UInt8) : Prop :=
  At c.nfs_path_buff c.nfs_filename dir name ∧ Leads server file dir name

/-- `filefh` stands for the name. -/
def Found (server : Server) (file : List UInt8) (c : Client) : Prop :=
  ∃ dir name dirfh, OnTheWay server file c dir name ∧ server.mount dir = some dirfh ∧ server.lookup dirfh name = some c.filefh

/-- The beginning of the file is in memory; nothing has been stored for a link. -/
structure Progress (server : Server) (file filefh : List UInt8) (offset size : BitVec 32) (mem : Nat → UInt8) : Prop where
  inside : server.node filefh = some (.file file) → offset.toNat ≤ file.length ∧
    load mem 0 offset.toNat = file.take offset.toNat ∧ size = offset
  link : ∀ target, server.node filefh = some (.link target) → size = 0

def InProgress (server : Server) (file : List UInt8) (c : Client) : Prop :=
  Progress server file c.filefh c.nfs_offset c.NetBootFileXferSize c.mem

def Phase (server : Server) (file : List UInt8) (c : Client) : Prop :=
  match c.NfsState with
  | .STATE_PRCLOOKUP_PROG_MOUNT_REQ | .STATE_PRCLOOKUP_PROG_NFS_REQ | .STATE_MOUNT_REQ =>
    c.NetBootFileXferSize = 0 ∧ ∃ dir name, OnTheWay server file c dir name
  | .STATE_LOOKUP_REQ =>
    c.NetBootFileXferSize = 0 ∧ ∃ dir name, OnTheWay server file c dir name ∧ server.mount dir = some c.dirfh
  | .STATE_READ_REQ => c.nfs_len = NFS_READ_SIZE ∧ Found server file c ∧ InProgress server file c
  | .STATE_READLINK_REQ => Found server file c ∧ InProgress server file c
  | .STATE_UMOUNT_REQ => True

def asked (c : Client) : Procedure :=
  match c.NfsState with
  | .STATE_PRCLOOKUP_PROG_MOUNT_REQ => .getport PROG_MOUNT 1
  | .STATE_PRCLOOKUP_PROG_NFS_REQ => .getport PROG_NFS 2
  | .STATE_MOUNT_REQ => .mount (text c.nfs_path_buff)
  | .STATE_UMOUNT_REQ => .umountall
  | .STATE_LOOKUP_REQ => .lookup c.dirfh (text (c.nfs_path_buff.drop c.nfs_filename.toNat))
  | .STATE_READ_REQ => .read c.filefh c.nfs_offset c.nfs_len
  | .STATE_READLINK_REQ => .readlink c.filefh

/-- Success is only noted with the file in memory, when nothing is stored any more. -/
structure Honest (file : List UInt8) (c : Client) : Prop where
  download : c.nfs_download_state = .NETLOOP_SUCCESS → c.NfsState = .STATE_UMOUNT_REQ ∧ Complete file c
  result : c.net_state = .NETLOOP_SUCCESS → c.NfsState = .STATE_UMOUNT_REQ ∧ Complete file c

structure Inv (server : Server) (file : List UInt8) (s : Sys) : Prop where
  phase : Phase server file s.client
  honest : Honest file s.client
  older : ∀ call ∈ s.sent, call.id.toNat ≤ s.client.rpc_id.toNat
  current : s.client.NfsState ≠ .STATE_UMOUNT_REQ → ∀ call ∈ s.sent, call.id = s.client.rpc_id → call.procedure = asked s.client

/-! ### Sending -/

theorem send_asked (c : Client) : NfsSend c = rpc_req c (asked c) ∨ (c.NfsState = .STATE_UMOUNT_REQ ∧ NfsSend c = (c,[])) := by
  rw [NfsSend,asked]
  cases c.NfsState with
  | STATE_UMOUNT_REQ =>
    simp only [nfs_umountall_req]
    split_ifs
    · exact .inr ⟨trivial,rfl⟩
    · exact .inl rfl
  | _ => exact .inl rfl

theorem send_eq (c : Client) (room : c.rpc_id.toNat + 1 < 2 ^ 32) :
    (c.NfsState = .STATE_UMOUNT_REQ ∧ NfsSend c = (c,[])) ∨
    ∃ id sport, id.toNat = c.rpc_id.toNat + 1 ∧ NfsSend c = ({ c with rpc_id := id },[⟨id,sport,asked c⟩]) := by
  have next : (c.rpc_id+1).toNat = c.rpc_id.toNat + 1 := Nat.mod_eq_of_lt room
  rcases send_asked c with equal | ended
  · exact .inr ⟨_,_,next,equal⟩
  · exact .inl ended

theorem Inv.send {sent : List Call} (phase : Phase server file c) (honest : Honest file c)
    (older : ∀ call ∈ sent, call.id.toNat ≤ c.rpc_id.toNat) (room : c.rpc_id.toNat + 1 < 2 ^ 32) :
    Inv server file ⟨(NfsSend c).1,sent ++ (NfsSend c).2⟩ := by
  rcases send_eq c room with ⟨ended,equal⟩ | ⟨id,sport,next,equal⟩
  · rw [equal,append_nil]
    exact ⟨phase,honest,older,fun other => absurd ended other⟩
  rw [equal]
  refine ⟨phase,⟨honest.download,honest.result⟩,fun call inside => ?_,fun _ call inside own => ?_⟩
  · rcases mem_append.mp inside with old | new
    · have := older call old
      simp only
      omega
    · rw [mem_singleton.mp new]
  rcases mem_append.mp inside with old | new
  · have := older call old
    rw [own] at this
    simp only at this
    omega
  · rw [mem_singleton.mp new]
    rfl

/-- Before `STATE_UMOUNT_REQ` no success is noted. -/
theorem Honest.quiet (honest : Honest file c) (pending : c.NfsState ≠ .STATE_UMOUNT_REQ) :
    c.nfs_download_state ≠ .NETLOOP_SUCCESS ∧ c.net_state ≠ .NETLOOP_SUCCESS :=
  ⟨fun noted => pending (honest.download noted).1,fun noted => pending (honest.result noted).1⟩

section
variable {s : Sys} (inv : Inv server file s)
include inv

theorem Inv.unchanged : Inv server file ⟨s.client,s.sent ++ []⟩ := by
  rw [append_nil]
  exact inv

theorem Inv.goTo (pending : s.client.NfsState ≠ .STATE_UMOUNT_REQ) (room : s.client.rpc_id.toNat + 1 < 2 ^ 32) {r : Reply}
    {state : NfsState} (id : r.client.rpc_id = s.client.rpc_id)
    (download : r.client.nfs_download_state = s.client.nfs_download_state) (result : r.client.net_state = s.client.net_state)
    (phase : Phase server file { r.client with NfsState := state }) :
    Inv server file ⟨(r.goTo state).client,s.sent ++ (r.goTo state).sent⟩ := by
  obtain ⟨quiet,open_⟩ := inv.honest.quiet pending
  refine Inv.send phase ⟨fun noted => ?_,fun noted => ?_⟩ (fun call inside => ?_) ?_
  · exact absurd (download.symm.trans noted) quiet
  · exact absurd (result.symm.trans noted) open_
  · have := inv.older call inside
    rwa [← id] at this
  · rw [← id] at room
    exact room

variable {p : Received} {call : Call} (inside : call ∈ s.sent) (answers : Answers server call p.data)
include inside answers

/-- A reply with the number of the last request answers what was asked in this state. -/
theorem Inv.own (pending : s.client.NfsState ≠ .STATE_UMOUNT_REQ) (own : p.word 0 = s.client.rpc_id) :
    call.procedure = asked s.client :=
  inv.current pending call inside ((answers_id answers).symm.trans own)

theorem Inv.results (pending : s.client.NfsState ≠ .STATE_UMOUNT_REQ) (own : p.word 0 = s.client.rpc_id)
    (zero : ∀ i ∈ [8,12,20], p.word i = 0) :
    ∃ results, Results server (asked s.client) results ∧ p.data = words [call.id,1,0,0,0,0] ++ results := by
  rcases answers_accepted answers (zero 8 (by simp)) (zero 12 (by simp)) with set | ⟨results,found,data⟩
  · exact absurd (zero 20 (by simp)) set
  · rw [inv.own inside answers pending own] at found
    exact ⟨results,found,data⟩

end

/-! ### The states -/

theorem storePort_eq (prog : BitVec 32) (c : Client) (p : Received) :
    ∃ mount nfs, (storePort prog c p).1 = { c with NfsSrvMountPort := mount, NfsSrvNfsPort := nfs } := by
  rw [storePort]
  split_ifs
  · exact ⟨_,_,rfl⟩
  · exact ⟨_,_,rfl⟩
  · exact ⟨_,_,rfl⟩

theorem NfsState.pending {state st : NfsState} (is : state = st) (other : st ≠ .STATE_UMOUNT_REQ) : state ≠ .STATE_UMOUNT_REQ :=
  is ▸ other

theorem header_fields : ∀ i ∈ [8,12,20], i ∈ [8,12,20,24] := by decide

theorem followLink_eq (c : Client) (p : Received) : ∃ buf, (followLink c p).1 = { c with nfs_path_buff := buf } := by
  rw [followLink]
  split_ifs
  · exact ⟨_,rfl⟩
  · exact ⟨_,rfl⟩

theorem At.split {buf : List UInt8} (holds : Holds buf) (equal : text buf = dir ++ 47 :: name) (last : 47 ∉ name) :
    At (dirname buf) (basename buf) dir name := by
  obtain ⟨shown,behind,again⟩ := dirname_eq holds equal last
  refine ⟨again,shown,?_⟩
  rw [basename_eq equal last]
  exact behind

theorem leads_short (leads : Leads server file dir name) : dir.length + 1 + name.length < 2048 := by
  have lengths : ∀ dirfh fh, server.mount dir = some dirfh → server.lookup dirfh name = some fh → dir.length + 1 + name.length < 2048 := by
    intro dirfh fh mounted known
    have := (server.mount_ok _ _ mounted).1
    have := (server.lookup_ok _ _ _ known).1
    omega
  cases leads with
  | file mounted known _ => exact lengths _ _ mounted known
  | link mounted known _ _ _ _ => exact lengths _ _ mounted known

theorem Found.next {c : Client} {target : List UInt8} {dir name dirfh : List UInt8} (leads : Leads server file dir name)
    (mounted : server.mount dir = some dirfh) (known : server.lookup dirfh name = some c.filefh)
    (linked : server.node c.filefh = some (.link target)) :
    ∃ dir' name', linkPath dir target = dir' ++ 47 :: name' ∧ 47 ∉ name' ∧ Leads server file dir' name' := by
  cases leads with
  | file mounted' known' regular =>
    cases mounted.symm.trans mounted'
    cases known.symm.trans known'
    cases linked.symm.trans regular
  | link mounted' known' linked' path last onward =>
    cases mounted.symm.trans mounted'
    cases known.symm.trans known'
    cases linked.symm.trans linked'
    exact ⟨_,_,path,last,onward⟩

theorem follow {p : Received} {target : List UInt8} (found : Found server file c)
    (linked : server.node c.filefh = some (.link target)) (length : (p.word 28).toNat = target.length)
    (taken : p.bytes 32 target.length = target) (absolute : p.byte 32 = 47 ↔ target.head? = some 47) :
    ∃ dir name, OnTheWay server file (splitPath (followLink c p).1) dir name := by
  obtain ⟨dir,name,dirfh,⟨place,leads⟩,mounted,known⟩ := found
  obtain ⟨-,nulFree,short⟩ := server.link_ok _ _ linked
  obtain ⟨dir',name',path,last,onward⟩ := Found.next leads mounted known linked
  have room := leads_short onward
  have whole := congrArg List.length path
  rw [length_append,length_cons] at whole
  have new : text (followLink c p).1.nfs_path_buff = dir' ++ 47 :: name' ∧ Holds (followLink c p).1.nfs_path_buff := by
    rw [linkPath] at path whole
    by_cases start : target.head? = some 47
    · rw [if_pos start] at path
      obtain ⟨shown,holds⟩ := followLink_absolute place.holds (absolute.mpr start) (by omega)
      rw [length,taken,text_of_nulFree nulFree,path] at shown
      exact ⟨shown,holds⟩
    rw [if_neg start] at path whole
    rw [length_append,length_cons,← place.dir,← strlen] at whole
    obtain ⟨shown,holds⟩ := followLink_relative place.holds (fun slash => start (absolute.mp slash)) (by omega)
    rw [length,taken,text_of_nulFree nulFree,place.dir,path] at shown
    exact ⟨shown,holds⟩
  exact ⟨dir',name',At.split new.2 new.1 last,onward⟩

/-! ### Data -/

theorem Found.regular {bytes : List UInt8} (found : Found server file c)
    (regular : server.node c.filefh = some (.file bytes)) : bytes = file := by
  obtain ⟨dir,name,dirfh,⟨-,leads⟩,mounted,known⟩ := found
  cases leads with
  | file mounted' known' regular' =>
    cases mounted.symm.trans mounted'
    cases known.symm.trans known'
    cases regular.symm.trans regular'
    rfl
  | link mounted' known' linked _ _ _ =>
    cases mounted.symm.trans mounted'
    cases known.symm.trans known'
    cases regular.symm.trans linked

/-- What `nfs_read_reply` returns: a reply to another request, an error, or data. -/
theorem read_cases (c : Client) (p : Received) : ∃ accesses,
    (∃ ret < 0, nfs_read_reply c p = ⟨c,ret,accesses⟩ ∧ p.word 0 ≠ c.rpc_id) ∨
    (p.word 0 = c.rpc_id ∧ (∃ i ∈ [8,12,20,24], p.word i ≠ 0) ∧ nfs_read_reply c p = ⟨c,(readError p).1,accesses⟩) ∨
    (p.word 0 = c.rpc_id ∧ (∀ i ∈ [8,12,20,24], p.word i = 0) ∧
      nfs_read_reply c p = ⟨store_block c (p.bytes 100 (p.word 96).toNat),(p.word 96).toInt,accesses⟩) := by
  rw [nfs_read_reply]
  split_ifs with above below set
  · exact ⟨_,.inl ⟨_,by decide,rfl,not_answer (.inr above)⟩⟩
  · exact ⟨_,.inl ⟨_,by decide,rfl,not_answer (.inl below)⟩⟩
  all_goals
    have own : p.word 0 = c.rpc_id := BitVec.le_antisymm (BitVec.not_lt.mp above) (BitVec.not_lt.mp below)
  · refine ⟨_,.inr (.inl ⟨own,?_,rfl⟩)⟩
    by_contra none_
    push Not at none_
    rw [(anySet_false [8,12,20,24]).mpr none_] at set
    cases set
  · exact ⟨_,.inr (.inr ⟨own,(anySet_false _).mp (Bool.not_eq_true _ ▸ set),rfl⟩)⟩

theorem readError_neg {p : Received} (null : p.word 8 = 0 → p.word 12 = 0) (set : ∃ i ∈ [8,12,20,24], p.word i ≠ 0)
    (small : p.word 8 = 0 → p.word 20 = 0 → p.word 24 ≠ 0 → (p.word 24).toNat < 2 ^ 31) : (readError p).1 < 0 := by
  rw [readError]
  split_ifs with denied failed
  · decide
  · decide
  obtain ⟨i,inside,nonzero⟩ := set
  have first := not_not.mp denied
  have second := null first
  have third := not_not.mp failed
  have status : p.word 24 ≠ 0 := by
    simp only [mem_cons,not_mem_nil,or_false] at inside
    rcases inside with rfl | rfl | rfl | rfl
    · exact absurd first nonzero
    · exact absurd second nonzero
    · exact absurd third nonzero
    · exact nonzero
  have bound := small first third status
  have positive : 0 < (p.word 24).toNat := Nat.pos_of_ne_zero fun zero => status (BitVec.eq_of_toNat_eq zero)
  rw [BitVec.toInt_eq_toNat_cond,BitVec.toNat_neg]
  omega

theorem afterRead_error (negative : ret < 0) :
    afterRead ⟨c,ret,accesses⟩ = Reply.goTo ⟨c,ret,accesses⟩ .STATE_READLINK_REQ ∨
    afterRead ⟨c,ret,accesses⟩ = Reply.goTo ⟨c,ret,accesses⟩ .STATE_UMOUNT_REQ := by
  rw [afterRead,if_neg (not_lt_of_gt negative)]
  split_ifs with link zero
  · exact .inl rfl
  · exact absurd zero (ne_of_lt negative)
  · exact .inr rfl

theorem afterRead_data (positive : 0 < ret) : afterRead ⟨c,ret,accesses⟩ =
    ⟨(NfsSend { c with nfs_offset := c.nfs_offset + BitVec.ofInt 32 ret }).1,
      (NfsSend { c with nfs_offset := c.nfs_offset + BitVec.ofInt 32 ret }).2,accesses⟩ := by
  rw [afterRead,if_pos positive]

theorem store_eq (c : Client) (src : List UInt8) : ∃ mem size, store_block c src = { c with mem := mem, NetBootFileXferSize := size } ∧
    mem = store c.mem c.nfs_offset.toNat src ∧
    size = if c.NetBootFileXferSize < c.nfs_offset + BitVec.ofNat 32 src.length then c.nfs_offset + BitVec.ofNat 32 src.length
      else c.NetBootFileXferSize :=
  ⟨_,_,rfl,rfl,rfl⟩

theorem data_stored {offset count : BitVec 32} (small : file.length < 2 ^ 32)
    (loaded : load mem 0 offset.toNat = file.take offset.toNat) (fits : offset.toNat + count.toNat ≤ file.length) :
    (offset+count).toNat = offset.toNat + count.toNat ∧
    load (store mem offset.toNat ((file.drop offset.toNat).take count.toNat)) 0 (offset+count).toNat = file.take (offset+count).toNat ∧
    (if offset < offset + count then offset + count else offset) = offset + count := by
  have sum : (offset+count).toNat = offset.toNat + count.toNat := Nat.mod_eq_of_lt (by omega)
  have length : ((file.drop offset.toNat).take count.toNat).length = count.toNat := by
    rw [length_take,length_drop]
    omega
  refine ⟨sum,?_,?_⟩
  · rw [sum,load_add,load_store_apart (.inl (by omega)),loaded,Nat.zero_add,load_store_of_length length,take_add]
  split_ifs with grows
  · rfl
  apply BitVec.eq_of_toNat_eq
  have := BitVec.le_def.mp (BitVec.not_lt.mp grows)
  omega

section
variable {s : Sys} (inv : Inv server file s) (room : s.client.rpc_id.toNat + 1 < 2 ^ 32) {p : Received} {call : Call}
  (inside : call ∈ s.sent) (answers : Answers server call p.data)
include inv room

theorem Inv.lookup {prog : BitVec 32} {next : NfsState} (pending : s.client.NfsState ≠ .STATE_UMOUNT_REQ)
    (phase : ∀ mount nfs, Phase server file { s.client with NfsSrvMountPort := mount, NfsSrvNfsPort := nfs, NfsState := next }) :
    Inv server file ⟨(afterLookup next (rpc_lookup_reply prog s.client p)).client,
      s.sent ++ (afterLookup next (rpc_lookup_reply prog s.client p)).sent⟩ := by
  rw [rpc_lookup_reply]
  obtain ⟨_,⟨-,equal⟩ | ⟨-,equal⟩ | ⟨-,-,equal⟩⟩ := replyWith_cases [8,12,20] s.client p
  · rw [equal]
    exact inv.unchanged
  · rw [equal]
    exact inv.goTo pending room rfl rfl rfl (phase _ _)
  obtain ⟨mount,nfs,stored⟩ := storePort_eq prog s.client p
  rw [equal]
  simp only [stored]
  exact inv.goTo pending room rfl rfl rfl (phase mount nfs)

theorem Inv.endOfFile (pending : s.client.NfsState ≠ .STATE_UMOUNT_REQ) {total : BitVec 32}
    (complete : Complete file { s.client with mem := mem, NetBootFileXferSize := total }) :
    Inv server file ⟨(afterRead ⟨{ s.client with mem := mem, NetBootFileXferSize := total },0,accesses⟩).client,
      s.sent ++ (afterRead ⟨{ s.client with mem := mem, NetBootFileXferSize := total },0,accesses⟩).sent⟩ := by
  obtain ⟨-,open_⟩ := inv.honest.quiet pending
  exact Inv.send trivial ⟨fun _ => ⟨rfl,complete⟩,fun noted => absurd noted open_⟩ inv.older room

theorem Inv.moreData (state : s.client.NfsState = .STATE_READ_REQ) (length : s.client.nfs_len = NFS_READ_SIZE)
    (reached : Found server file s.client) {total : BitVec 32}
    (positive : 0 < ret) (next : s.client.nfs_offset + BitVec.ofInt 32 ret = total)
    (progress : Progress server file s.client.filefh total total mem) :
    Inv server file ⟨(afterRead ⟨{ s.client with mem := mem, NetBootFileXferSize := total },ret,accesses⟩).client,
      s.sent ++ (afterRead ⟨{ s.client with mem := mem, NetBootFileXferSize := total },ret,accesses⟩).sent⟩ := by
  have pending := NfsState.pending state (by decide)
  obtain ⟨quiet,open_⟩ := inv.honest.quiet pending
  rw [afterRead_data positive,next]
  refine Inv.send ?_ ⟨fun noted => absurd noted quiet,fun noted => absurd noted open_⟩ inv.older room
  simp only [Phase,state]
  exact ⟨length,reached,progress⟩

include inside answers

/-- A reply is dropped, ends the session, or gives the results of what was asked. -/
theorem Inv.reply {ok : Client → Received → Client × List Access} {next : Reply → Outcome}
    (pending : s.client.NfsState ≠ .STATE_UMOUNT_REQ)
    (taken : ∀ results accesses, Results server (asked s.client) results →
      p.data = words [call.id,1,0,0,0,0] ++ results → p.word 24 = 0 →
      Inv server file ⟨(next ⟨(ok s.client p).1,0,accesses⟩).client,s.sent ++ (next ⟨(ok s.client p).1,0,accesses⟩).sent⟩) :
    Inv server file ⟨(afterReply next (replyWith [8,12,20,24] ok s.client p)).client,
      s.sent ++ (afterReply next (replyWith [8,12,20,24] ok s.client p)).sent⟩ := by
  obtain ⟨_,⟨-,equal⟩ | ⟨-,equal⟩ | ⟨own,zero,equal⟩⟩ := replyWith_cases [8,12,20,24] s.client p
  · rw [equal]
    exact inv.unchanged
  · rw [equal]
    exact inv.goTo pending room rfl rfl rfl trivial
  obtain ⟨results,found,data⟩ := inv.results inside answers pending own fun i status => zero i (header_fields i status)
  rw [equal]
  exact taken results _ found data (zero 24 (by simp))

theorem Inv.mount (state : s.client.NfsState = .STATE_MOUNT_REQ) :
    Inv server file ⟨(afterReply (·.goTo .STATE_LOOKUP_REQ) (nfs_mount_reply s.client p)).client,
      s.sent ++ (afterReply (·.goTo .STATE_LOOKUP_REQ) (nfs_mount_reply s.client p)).sent⟩ := by
  have pending := NfsState.pending state (by decide)
  refine inv.reply room inside answers pending fun results accesses found data status => ?_
  have phase := inv.phase
  simp only [Phase,state] at phase
  obtain ⟨size,dir,name,way⟩ := phase
  rw [asked,state] at found
  simp only [way.1.dir] at found
  exact inv.goTo pending room rfl rfl rfl ⟨size,dir,name,way,mount_results data found status⟩

theorem Inv.lookupFile (state : s.client.NfsState = .STATE_LOOKUP_REQ) :
    Inv server file ⟨(afterReply startRead (nfs_lookup_reply s.client p)).client,
      s.sent ++ (afterReply startRead (nfs_lookup_reply s.client p)).sent⟩ := by
  have pending := NfsState.pending state (by decide)
  refine inv.reply room inside answers pending fun results accesses found data status => ?_
  have phase := inv.phase
  simp only [Phase,state] at phase
  obtain ⟨size,dir,name,way,mounted⟩ := phase
  rw [asked,state] at found
  simp only [way.1.name] at found
  have known := lookup_results data found status
  exact inv.goTo pending room rfl rfl rfl ⟨rfl,⟨dir,name,_,way,mounted,known⟩,fun _ => ⟨Nat.zero_le _,rfl,size⟩,fun _ _ => size⟩

theorem Inv.readlink (state : s.client.NfsState = .STATE_READLINK_REQ) :
    Inv server file ⟨(afterReply mountAgain (nfs_readlink_reply s.client p)).client,
      s.sent ++ (afterReply mountAgain (nfs_readlink_reply s.client p)).sent⟩ := by
  have pending := NfsState.pending state (by decide)
  refine inv.reply room inside answers pending fun results accesses found data status => ?_
  have phase := inv.phase
  simp only [Phase,state] at phase
  obtain ⟨reached,progress⟩ := phase
  rw [asked,state] at found
  obtain ⟨target,linked,length,taken,absolute⟩ := readlink_results data found status
  obtain ⟨dir,name,way⟩ := follow reached linked length taken absolute
  obtain ⟨buf,followed⟩ := followLink_eq s.client p
  simp only [followed] at way ⊢
  exact inv.goTo pending room rfl rfl rfl ⟨progress.link target linked,dir,name,way⟩

theorem Inv.read (state : s.client.NfsState = .STATE_READ_REQ) (null : p.word 8 = 0 → p.word 12 = 0) :
    Inv server file ⟨(afterRead (nfs_read_reply s.client p)).client,s.sent ++ (afterRead (nfs_read_reply s.client p)).sent⟩ := by
  have pending := NfsState.pending state (by decide)
  have phase := inv.phase
  simp only [Phase,state] at phase
  obtain ⟨length,reached,progress⟩ := phase
  have failed : ∀ (ret : Int) (accesses : List Access), ret < 0 → Inv server file
      ⟨(afterRead ⟨s.client,ret,accesses⟩).client,s.sent ++ (afterRead ⟨s.client,ret,accesses⟩).sent⟩ := by
    intro ret accesses negative
    rcases afterRead_error negative with equal | equal
    · rw [equal]
      exact inv.goTo pending room rfl rfl rfl ⟨reached,progress⟩
    · rw [equal]
      exact inv.goTo pending room rfl rfl rfl trivial
  obtain ⟨accesses,⟨ret,negative,equal,-⟩ | ⟨own,set,equal⟩ | ⟨own,zero,equal⟩⟩ := read_cases s.client p
  · rw [equal]
    exact failed ret accesses negative
  · rw [equal]
    refine failed _ accesses (readError_neg null set fun accepted ended status => ?_)
    obtain ⟨results,found,data⟩ := inv.results inside answers pending own (by simp [accepted,null accepted,ended])
    rw [asked,state] at found
    exact read_error data found status
  obtain ⟨results,found,data⟩ := inv.results inside answers pending own fun i status => zero i (header_fields i status)
  rw [asked,state] at found
  obtain ⟨bytes,regular,short,fits,ended,taken⟩ := read_results data found (zero 24 (by simp))
  obtain rfl := reached.regular regular
  obtain ⟨-,loaded,size⟩ := progress.inside regular
  obtain ⟨mem,total,stored,memory,grown⟩ := store_eq s.client (p.bytes 100 (p.word 96).toNat)
  rw [bytes_length,BitVec.ofNat_toNat,BitVec.setWidth_eq,size] at grown
  rw [taken] at memory
  obtain ⟨sum,new,larger⟩ := data_stored (server.file_ok _ _ regular) loaded fits
  rw [larger] at grown
  rw [← memory] at new
  have positive : (p.word 96).toInt = (p.word 96).toNat := toInt_small (by
    rw [length] at short
    have : NFS_READ_SIZE.toNat = 1024 := rfl
    omega)
  rw [equal,stored]
  by_cases nothing : p.word 96 = 0
  · have whole : (s.client.nfs_offset + p.word 96).toNat = bytes.length := by
      have := ended nothing
      omega
    rw [whole,take_length] at new
    rw [nothing]
    exact inv.endOfFile room pending ⟨new,by rw [← whole,← grown]⟩
  have some_ : 0 < (p.word 96).toInt := by
    have : (p.word 96).toNat ≠ 0 := fun zero => nothing (BitVec.eq_of_toNat_eq zero)
    omega
  refine inv.moreData room state length reached some_ (BitVec.ofInt_toInt ▸ grown.symm) ?_
  rw [← grown] at sum new
  exact ⟨fun _ => ⟨by omega,new,rfl⟩,fun target linked => by cases regular.symm.trans linked⟩

end

/-! ### Whole runs -/

section
variable {s : Sys} (inv : Inv server file s)
include inv

theorem Inv.umount (state : s.client.NfsState = .STATE_UMOUNT_REQ) (p : Received) :
    Inv server file ⟨(afterUmount (nfs_umountall_reply s.client p)).client,
      s.sent ++ (afterUmount (nfs_umountall_reply s.client p)).sent⟩ := by
  have ended : ∀ c : Client, c.NfsState = .STATE_UMOUNT_REQ → Phase server file c := by
    intro c here
    rw [Phase,here]
    trivial
  rw [nfs_umountall_reply]
  obtain ⟨_,⟨-,equal⟩ | ⟨-,equal⟩ | ⟨-,-,equal⟩⟩ := replyWith_cases [8,12,20] s.client p
  · rw [equal]
    exact inv.unchanged
  · rw [equal,afterUmount_error,append_nil]
    exact ⟨ended _ state,⟨inv.honest.download,NetState.noConfusion⟩,inv.older,fun other => absurd state other⟩
  · rw [equal,afterUmount_ok,append_nil]
    exact ⟨ended _ state,⟨inv.honest.download,inv.honest.download⟩,inv.older,fun other => absurd state other⟩

theorem Inv.timeout {again : NetState} (other : again ≠ .NETLOOP_SUCCESS) (room : s.client.rpc_id.toNat + 1 < 2 ^ 32) :
    Inv server file ⟨(NfsTimeout again s.client).1,s.sent ++ (NfsTimeout again s.client).2⟩ := by
  rw [NfsTimeout]
  split_ifs
  · rw [append_nil]
    exact ⟨inv.phase,⟨inv.honest.download,fun noted => absurd noted other⟩,inv.older,inv.current⟩
  · exact Inv.send inv.phase ⟨inv.honest.download,inv.honest.result⟩ inv.older room

theorem Inv.deliver {p : Received} {call : Call} (inside : call ∈ s.sent) (answers : Answers server call p.data)
    (sound : Sound s (.packet p)) :
    Inv server file ⟨(NfsHandler s.client p).client,s.sent ++ (NfsHandler s.client p).sent⟩ := by
  obtain ⟨room,null⟩ := sound
  have phase := inv.phase
  rw [NfsHandler]
  by_cases own : p.dest = s.client.NfsOurPort
  swap
  · rw [if_pos own]
    exact inv.unchanged
  rw [if_neg (not_not_intro own)]
  cases state : s.client.NfsState with
  | STATE_PRCLOOKUP_PROG_MOUNT_REQ =>
    simp only [Phase,state] at phase
    exact inv.lookup room (by rw [state]; exact NfsState.noConfusion) fun _ _ => phase
  | STATE_PRCLOOKUP_PROG_NFS_REQ =>
    simp only [Phase,state] at phase
    exact inv.lookup room (by rw [state]; exact NfsState.noConfusion) fun _ _ => phase
  | STATE_MOUNT_REQ => exact inv.mount room inside answers state
  | STATE_UMOUNT_REQ => exact inv.umount state p
  | STATE_LOOKUP_REQ => exact inv.lookupFile room inside answers state
  | STATE_READLINK_REQ => exact inv.readlink room inside answers state
  | STATE_READ_REQ => exact inv.read room inside answers state (null state)

end

/-- The system when the load is started; replies to the calls of earlier loads may still be under way. -/
def start (c : Client) (old : List Call) (path : List UInt8) : Sys := ⟨(NfsStart c path).1,old ++ (NfsStart c path).2⟩

theorem patch_text {buf path : List UInt8} (room : path.length < buf.length) :
    ∃ rest, patch buf 0 (path ++ [0]) = path ++ 0 :: rest := by
  have copied := @patch_eq buf (path ++ [0]) 0 (by rw [length_append,length_singleton]; omega)
  rw [append_assoc] at copied
  exact ⟨_,copied⟩

theorem start_inv {old : List Call} (leads : Leads server file dir name)
    (last : 47 ∉ name) (nulFree : 0 ∉ dir ++ 47 :: name) (buffer : c.nfs_path_buff.length = 2048)
    (older : ∀ call ∈ old, call.id.toNat ≤ c.rpc_id.toNat) (room : c.rpc_id.toNat + 1 < 2 ^ 32) :
    Inv server file (start c old (dir ++ 47 :: name)) := by
  have short := leads_short leads
  obtain ⟨rest,copied⟩ := @patch_text c.nfs_path_buff (dir ++ 47 :: name) (by
    rw [length_append,length_cons]
    omega)
  have holds : Holds (patch c.nfs_path_buff 0 (dir ++ 47 :: name ++ [0])) :=
    ⟨by rw [patch_length,buffer],by rw [copied]; exact mem_append_right _ mem_cons_self⟩
  have shown : text (patch c.nfs_path_buff 0 (dir ++ 47 :: name ++ [0])) = dir ++ 47 :: name := by
    rw [copied,text_append,text_of_nulFree nulFree]
  have way := At.split holds shown last
  exact Inv.send ⟨rfl,dir,name,way,leads⟩ ⟨NetState.noConfusion,NetState.noConfusion⟩ older room

theorem run_inv {s t : Sys} {events : List Event} (run : Run (Guarded Sound (Step server)) s events t) (initial : Inv server file s) :
    Inv server file t := by
  refine run.invariant initial fun t e u inv taken => ?_
  obtain ⟨sound,step⟩ := taken
  cases step with
  | deliver inside answers => exact inv.deliver inside answers sound
  | timeout other => exact inv.timeout other sound

/-! ### Replies to earlier requests -/

theorem stale_dropped {p : Received} (own : p.dest = c.NfsOurPort) (earlier : p.word 0 < c.rpc_id)
    (state : c.NfsState ≠ .STATE_READ_REQ) : (NfsHandler c p).client = c := by
  have dropped : ∀ fields, ∃ accesses, ∀ ok, replyWith fields ok c p = ⟨c,-NFS_RPC_DROP,accesses⟩ := by
    intro fields
    obtain ⟨accesses,⟨-,equal⟩ | ⟨later,-⟩ | ⟨same,-,-⟩⟩ := replyWith_cases fields c p
    · exact ⟨accesses,equal⟩
    · exact absurd earlier later
    · exact absurd earlier (same ▸ BitVec.lt_irrefl _)
  obtain ⟨_,three⟩ := dropped [8,12,20]
  obtain ⟨_,four⟩ := dropped [8,12,20,24]
  rw [NfsHandler,if_neg (not_not_intro own)]
  cases here : c.NfsState with
  | STATE_READ_REQ => exact absurd here state
  | STATE_PRCLOOKUP_PROG_MOUNT_REQ => simp only [rpc_lookup_reply,three,afterLookup_drop]
  | STATE_PRCLOOKUP_PROG_NFS_REQ => simp only [rpc_lookup_reply,three,afterLookup_drop]
  | STATE_MOUNT_REQ => simp only [nfs_mount_reply,four,afterReply_drop]
  | STATE_UMOUNT_REQ => simp only [nfs_umountall_reply,three,afterUmount_drop]
  | STATE_LOOKUP_REQ => simp only [nfs_lookup_reply,four,afterReply_drop]
  | STATE_READLINK_REQ => simp only [nfs_readlink_reply,four,afterReply_drop]

theorem send_state (c : Client) : (NfsSend c).1.NfsState = c.NfsState := by
  rcases send_asked c with equal | ⟨-,equal⟩
  · rw [equal]
    rfl
  · rw [equal]

theorem stale_ends_read {p : Received} (own : p.dest = c.NfsOurPort) (earlier : p.word 0 < c.rpc_id)
    (state : c.NfsState = .STATE_READ_REQ) : (NfsHandler c p).client.NfsState = .STATE_UMOUNT_REQ := by
  have returned : nfs_read_reply c p = ⟨c,-NFS_RPC_DROP,copied replySize ++ [field 0]⟩ := by
    rw [nfs_read_reply,if_neg (BitVec.not_lt.mpr (BitVec.le_of_lt earlier)),if_pos earlier]
  rw [NfsHandler,if_neg (not_not_intro own),state]
  simp only [returned]
  exact send_state _

/-! ### The load -/

/-- A load that succeeds has the file in memory, and a reply to an earlier request is without effect exactly
    outside of `STATE_READ_REQ`. -/
theorem load_holds_file (c : Client) :
    (∀ (server : Server) (file dir name : List UInt8), Leads server file dir name → 47 ∉ name → 0 ∉ dir ++ 47 :: name →
      ∀ old : List Call, c.nfs_path_buff.length = 2048 → (∀ call ∈ old, call.id.toNat ≤ c.rpc_id.toNat) →
      c.rpc_id.toNat + 1 < 2 ^ 32 → ∀ (events : List Event) (s : Sys),
      Run (Guarded Sound (Step server)) (start c old (dir ++ 47 :: name)) events s →
      s.client.net_state = .NETLOOP_SUCCESS → Complete file s.client) ∧
    (∀ p : Received, p.dest = c.NfsOurPort → p.word 0 < c.rpc_id →
      ((NfsHandler c p).client = c ↔ c.NfsState ≠ .STATE_READ_REQ)) := by
  constructor
  · intro server file dir name leads last nulFree old buffer older room events s run success
    exact ((run_inv run (start_inv leads last nulFree buffer older room)).honest.result success).2
  intro p own earlier
  refine ⟨fun same state => ?_,stale_dropped own earlier⟩
  have ended := stale_ends_read own earlier state
  rw [same,state] at ended
  exact NfsState.noConfusion ended

/-- A server with one file of one byte, `/a`. -/
def oneFile : Server where
  mount path := if path = [] then some (List.replicate NFS_FHSIZE 0) else none
  lookup dirfh name := if dirfh = List.replicate NFS_FHSIZE 0 ∧ name = [97] then some (List.replicate NFS_FHSIZE 1) else none
  node fh := if fh = List.replicate NFS_FHSIZE 1 then some (.file [5]) else none
  mount_ok path fh mounted := by
    split_ifs at mounted with root
    cases mounted
    exact ⟨by rw [root]; decide,length_replicate⟩
  lookup_ok dirfh name fh known := by
    split_ifs at known with found
    cases known
    exact ⟨by rw [found.2]; decide,length_replicate⟩
  link_ok fh target linked := by
    split_ifs at linked
    cases linked
  file_ok fh file regular := by
    split_ifs at regular
    cases regular
    decide

theorem oneFile_leads : Leads oneFile [5] [] [97] := .file rfl rfl rfl

def reply (id : BitVec 32) (v : Verifier) (results : List UInt8) : Received :=
  ⟨1000,words [id,1,0] ++ (v.bytes ++ (htonl 0 ++ results)),fun _ => 0⟩

def authNull : Verifier := ⟨0,[],fun _ => rfl⟩

/-- A verifier that a server may use for a client with `AUTH_UNIX`. -/
def authShort : Verifier := ⟨2,List.replicate 8 0,fun null => absurd null (by decide)⟩

def readResults (offset : BitVec 32) : List UInt8 :=
  htonl 0 ++ (List.replicate 68 0 ++ (htonl (1 - offset) ++ (([5] : List UInt8).drop offset.toNat ++ [])))

def delivered (s : Sys) (p : Received) : Sys := ⟨(NfsHandler s.client p).client,s.sent ++ (NfsHandler s.client p).sent⟩

def started : Sys := start (waiting .STATE_UMOUNT_REQ) [] [47,97]

def reading : Sys :=
  [reply 2 authNull (htonl 635),reply 3 authNull (htonl 2049),reply 4 authNull (htonl 0 ++ List.replicate NFS_FHSIZE 0),
    reply 5 authNull (htonl 0 ++ (List.replicate NFS_FHSIZE 1 ++ []))].foldl delivered started

/-- A reply with the verifier `AUTH_NULL` to one of the calls that were sent. -/
theorem run_delivered {s t : Sys} {events : List Event} {results : List UInt8} (run : Run (Guarded Sound (Step oneFile)) s events t)
    (call : Call) (room : t.client.rpc_id.toNat + 1 < 2 ^ 32) (inside : call ∈ t.sent)
    (found : Results oneFile call.procedure results) :
    Run (Guarded Sound (Step oneFile)) s (events ++ [.packet (reply call.id authNull results)])
      (delivered t (reply call.id authNull results)) := by
  have null : (reply call.id authNull results).word 12 = 0 :=
    @word_at _ (words [call.id,1,0]) (htonl 0 ++ (htonl 0 ++ results)) 12 0 rfl rfl
  exact run.next ⟨⟨room,fun _ _ => null⟩,.deliver inside (.success authNull found)⟩

theorem reading_run : ∃ events, Run (Guarded Sound (Step oneFile)) started events reading := by
  have first := run_delivered .start ⟨2,111,.getport PROG_MOUNT 1⟩ (by decide +kernel : started.client.rpc_id.toNat + 1 < 2 ^ 32)
    (by decide +kernel) (.getport PROG_MOUNT 1 635)
  have second := run_delivered first ⟨3,111,.getport PROG_NFS 2⟩ (by decide +kernel) (by decide +kernel) (.getport PROG_NFS 2 2049)
  have third := run_delivered second ⟨4,635,.mount []⟩ (by decide +kernel) (by decide +kernel) (.mount rfl)
  have fourth := run_delivered third ⟨5,2049,.lookup (List.replicate NFS_FHSIZE 0) [97]⟩ (by decide +kernel) (by decide +kernel)
    (@Results.lookup oneFile _ _ _ [] rfl)
  exact ⟨_,fourth⟩

def finished : Sys := [reply 6 authNull (readResults 0),reply 7 authNull (readResults 1),reply 8 authNull []].foldl delivered reading

theorem finished_run : ∃ events, Run (Guarded Sound (Step oneFile)) started events finished := by
  obtain ⟨events,run⟩ := reading_run
  have data := run_delivered run ⟨6,2049,.read (List.replicate NFS_FHSIZE 1) 0 1024⟩ (by decide +kernel) (by decide +kernel)
    (@Results.read oneFile _ [5] (List.replicate 68 0) [] 0 1024 1 rfl rfl (by decide) (by decide) (by decide))
  have end_ := run_delivered data ⟨7,2049,.read (List.replicate NFS_FHSIZE 1) 1 1024⟩ (by decide +kernel) (by decide +kernel)
    (@Results.read oneFile _ [5] (List.replicate 68 0) [] 1 1024 0 rfl rfl (by decide) (by decide) (by decide))
  have closed := run_delivered end_ ⟨8,635,.umountall⟩ (by decide +kernel) (by decide +kernel) .umountall
  exact ⟨_,closed⟩

/-- The load of the file ends with success, and a reply to request 1 is without effect when request 2 has been sent. -/
theorem one_byte_loaded :
    (finished.client.net_state = .NETLOOP_SUCCESS ∧ Complete [5] finished.client) ∧
    (NfsHandler started.client (reply 1 authNull [])).client = started.client := by
  obtain ⟨events,run⟩ := finished_run
  have success : finished.client.net_state = .NETLOOP_SUCCESS := by decide +kernel
  refine ⟨⟨success,?_⟩,((load_holds_file _).2 _ (by decide +kernel) (by decide +kernel)).mpr (by decide +kernel)⟩
  exact (load_holds_file (waiting .STATE_UMOUNT_REQ)).1 oneFile [5] [] [97] oneFile_leads (by decide) (by decide) []
    length_replicate (by simp) (by decide) events finished run success

/-- The first data reply comes with the verifier `AUTH_SHORT`. -/
def cutShort : Sys := [reply 6 authShort (readResults 0),reply 7 authNull []].foldl delivered reading

/-- The first data reply has been stored, and request 7 has been sent. -/
def halfway : Sys := delivered reading (reply 6 authNull (readResults 0))

/-- Success without the file; and the first data reply again, when the second request for data has been sent. -/
theorem load_without_file :
    ((∃ events, Run (Step oneFile) started events cutShort) ∧ cutShort.client.net_state = .NETLOOP_SUCCESS ∧
      ¬ Complete [5] cutShort.client) ∧
    (halfway.client.NfsState = .STATE_READ_REQ ∧ halfway.client.rpc_id = 7 ∧
      (NfsHandler halfway.client (reply 6 authNull (readResults 0))).client.NfsState = .STATE_UMOUNT_REQ) := by
  refine ⟨⟨?_,by decide +kernel,fun complete => absurd complete.1 (by decide +kernel)⟩,by decide +kernel,by decide +kernel,
    by decide +kernel⟩
  obtain ⟨events,run⟩ := reading_run
  have data : Step oneFile reading _ (delivered reading (reply 6 authShort (readResults 0))) :=
    @Step.deliver oneFile reading _ ⟨6,2049,.read (List.replicate NFS_FHSIZE 1) 0 1024⟩ (by decide +kernel)
      (.success authShort (@Results.read oneFile _ [5] (List.replicate 68 0) [] 0 1024 1 rfl rfl (by decide) (by decide) (by decide)))
  have closed : Step oneFile (delivered reading (reply 6 authShort (readResults 0))) _ cutShort :=
    @Step.deliver oneFile _ (reply 7 authNull []) ⟨7,635,.umountall⟩ (by decide +kernel) (.success authNull .umountall)
  exact ⟨_,(run.unguarded.next data).next closed⟩

/-! ### Links -/

/-- How often the client goes from a link back to the mount. -/
def linksFollowed (c : Client) : List Event → Nat
  | [] => 0
  | e :: events => linksFollowed (next c e) events +
      if c.NfsState = .STATE_READLINK_REQ ∧ (next c e).NfsState = .STATE_MOUNT_REQ then 1 else 0

/-- What a server with the link `/a` to itself replies to the last request. -/
def cyclic (c : Client) : Received :=
  let status : BitVec 32 := if c.NfsState = .STATE_READ_REQ then 22 else 0
  reply c.rpc_id authNull (htonl status ++ (htonl 2 ++ ([47,97] ++ List.replicate 66 0)))

/-- The first replies of that server. -/
def replies (c : Client) : Nat → List Event
  | 0 => []
  | k+1 => .packet (cyclic c) :: replies (next c (.packet (cyclic c))) k

def NfsState.following : NfsState → NfsState
  | .STATE_PRCLOOKUP_PROG_MOUNT_REQ => .STATE_PRCLOOKUP_PROG_NFS_REQ
  | .STATE_PRCLOOKUP_PROG_NFS_REQ => .STATE_MOUNT_REQ
  | .STATE_MOUNT_REQ => .STATE_LOOKUP_REQ
  | .STATE_LOOKUP_REQ => .STATE_READ_REQ
  | .STATE_READ_REQ => .STATE_READLINK_REQ
  | .STATE_READLINK_REQ => .STATE_MOUNT_REQ
  | .STATE_UMOUNT_REQ => .STATE_UMOUNT_REQ

theorem goTo_kept (r : Reply) (state : NfsState) :
    (r.goTo state).client.NfsOurPort = r.client.NfsOurPort ∧ (r.goTo state).client.NfsState = state := by
  refine ⟨?_,send_state _⟩
  rcases send_asked { r.client with NfsState := state } with equal | ⟨-,equal⟩
  · rw [Reply.goTo,equal]
    rfl
  · rw [Reply.goTo,equal]

theorem replyWith_own {p : Received} (own : p.word 0 = c.rpc_id) {fields : List Nat} (zero : ∀ i ∈ fields, p.word i = 0) :
    ∃ accesses, ∀ ok, replyWith fields ok c p = ⟨(ok c p).1,0,accesses ++ (ok c p).2⟩ :=
  ⟨copied p.data.length ++ field 0 :: (anySet p fields).2,fun ok => by
    simp [replyWith,checks,own,(anySet_false fields).mpr zero]⟩

theorem cyclic_next (port : c.NfsOurPort = 1000) : (next c (.packet (cyclic c))).NfsOurPort = 1000 ∧
    (next c (.packet (cyclic c))).NfsState = NfsState.following c.NfsState := by
  have own : (cyclic c).word 0 = c.rpc_id := @word_at _ [] _ 0 c.rpc_id rfl rfl
  have header : ∀ i ∈ [8,12,20], (cyclic c).word i = 0 := by
    intro i inside
    simp only [mem_cons,not_mem_nil,or_false] at inside
    rcases inside with rfl | rfl | rfl
    · exact @word_at _ (words [c.rpc_id,1]) _ 8 0 rfl rfl
    · exact @word_at _ (words [c.rpc_id,1,0]) _ 12 0 rfl rfl
    · exact @word_at _ (words [c.rpc_id,1,0,0,0]) _ 20 0 rfl rfl
  have status : (cyclic c).word 24 = if c.NfsState = .STATE_READ_REQ then 22 else 0 :=
    @word_at _ (words [c.rpc_id,1,0,0,0,0]) _ 24 _ rfl rfl
  change (NfsHandler c (cyclic c)).client.NfsOurPort = 1000 ∧ (NfsHandler c (cyclic c)).client.NfsState = _
  rw [NfsHandler,if_neg (show ¬ (cyclic c).dest ≠ c.NfsOurPort from not_not_intro port.symm)]
  obtain ⟨_,three⟩ := replyWith_own own header
  have fine (other : c.NfsState ≠ .STATE_READ_REQ) : ∃ accesses, ∀ ok, replyWith [8,12,20,24] ok c (cyclic c) =
      ⟨(ok c (cyclic c)).1,0,accesses ++ (ok c (cyclic c)).2⟩ := by
    rw [if_neg other] at status
    refine replyWith_own own fun i inside => ?_
    rcases mem_append.mp (show i ∈ [8,12,20] ++ [24] from inside) with first | last
    · exact header i first
    · rw [mem_singleton.mp last,status]
  have lookup (prog : BitVec 32) (state : NfsState) : (afterLookup state (rpc_lookup_reply prog c (cyclic c))).client.NfsOurPort = 1000 ∧
      (afterLookup state (rpc_lookup_reply prog c (cyclic c))).client.NfsState = state := by
    obtain ⟨_,_,ports⟩ := storePort_eq prog c (cyclic c)
    simp only [rpc_lookup_reply,three,ports]
    rw [afterLookup_next (by decide),(goTo_kept _ _).1,(goTo_kept _ _).2]
    exact ⟨port,rfl⟩
  cases state : c.NfsState with
  | STATE_PRCLOOKUP_PROG_MOUNT_REQ => exact lookup _ _
  | STATE_PRCLOOKUP_PROG_NFS_REQ => exact lookup _ _
  | STATE_MOUNT_REQ =>
    obtain ⟨_,four⟩ := fine (by simp [state])
    simp only [nfs_mount_reply,four,afterReply_ok,goTo_kept]
    exact ⟨port,rfl⟩
  | STATE_UMOUNT_REQ =>
    simp only [nfs_umountall_reply,three,afterUmount_ok]
    exact ⟨port,state⟩
  | STATE_LOOKUP_REQ =>
    obtain ⟨_,four⟩ := fine (by simp [state])
    simp only [nfs_lookup_reply,four,afterReply_ok,startRead,goTo_kept]
    exact ⟨port,rfl⟩
  | STATE_READLINK_REQ =>
    obtain ⟨_,four⟩ := fine (by simp [state])
    obtain ⟨_,path⟩ := followLink_eq c (cyclic c)
    simp only [nfs_readlink_reply,four,afterReply_ok,mountAgain,goTo_kept,path]
    exact ⟨port,rfl⟩
  | STATE_READ_REQ =>
    simp only [mem_cons,not_mem_nil,or_false,forall_eq_or_imp,forall_eq] at header
    simp only [state,if_true] at status
    simp only [nfs_read_reply,own,BitVec.lt_irrefl,if_false,anySet,readError,header,status,afterRead]
    exact goTo_kept ⟨c,_,_⟩ _ |>.imp_left (·.trans port)

/-- Every four replies lead once around. -/
theorem cyclic_links (port : c.NfsOurPort = 1000) (state : c.NfsState = .STATE_MOUNT_REQ) (n : Nat) :
    linksFollowed c (replies c (4*n)) = n := by
  induction n generalizing c with
  | zero => rfl
  | succ n ih =>
    obtain ⟨port1,state1⟩ := cyclic_next port
    obtain ⟨port2,state2⟩ := cyclic_next port1
    obtain ⟨port3,state3⟩ := cyclic_next port2
    obtain ⟨port4,state4⟩ := cyclic_next port3
    rw [state] at state1
    rw [state1] at state2
    rw [state2] at state3
    rw [state3] at state4
    rw [show 4 * (n+1) = 4 * n + 1 + 1 + 1 + 1 by ring]
    simp only [replies,linksFollowed,ih port4 state4,state,state1,state2,state3,state4,NfsState.following]
    simp

/-- Whatever is loaded, the replies lead over any number of links. -/
theorem links_without_bound (c : Client) (path : List UInt8) (n : Nat) :
    linksFollowed (NfsStart c path).1 (replies (NfsStart c path).1 (4 * n + 1 + 1)) = n := by
  have started : (NfsStart c path).1.NfsOurPort = 1000 ∧ (NfsStart c path).1.NfsState = .STATE_PRCLOOKUP_PROG_MOUNT_REQ := ⟨rfl,rfl⟩
  obtain ⟨port1,state1⟩ := cyclic_next started.1
  obtain ⟨port2,state2⟩ := cyclic_next port1
  rw [state1] at state2
  simp only [replies,linksFollowed,cyclic_links port2 state2,started.2,state1,state2,NfsState.following]
  simp

theorem seventeen_links : linksFollowed started.client (replies started.client 70) = 17 := by decide +kernel

end UBoot.NfsLoad
