import UBoot.Tftp

/-!
The NFS client of `net/nfs.c`: what is sent in each state, what the handler does with a reply and with a
timeout, and which memory it accesses on the way. `int` and `ulong` have 32 bits. The memory is the one
from `load_addr` on. `nfs_path` never moves away from the start of `nfs_path_buff`.
-/
namespace UBoot.Nfs
open Memory
open Tftp (NetState)

def NFS_RETRY_COUNT : Nat := 30
def NFS_RPC_ERR : Int := 1
def NFS_RPC_DROP : Int := 124
def PROG_PORTMAP : BitVec 32 := 100000
def PROG_NFS : BitVec 32 := 100003
def PROG_MOUNT : BitVec 32 := 100005
def PORTMAP_GETPORT : BitVec 32 := 3
def MOUNT_ADDENTRY : BitVec 32 := 1
def MOUNT_UMOUNTALL : BitVec 32 := 4
def NFS_LOOKUP : BitVec 32 := 4
def NFS_READLINK : BitVec 32 := 5
def NFS_READ : BitVec 32 := 6
def SUNRPC_PORT : BitVec 32 := 111
def NFS_FHSIZE : Nat := 32
def NFSERR_ISDIR : Int := 21
def NFSERR_INVAL : Int := 22
def NFS_READ_SIZE : BitVec 32 := 1024

inductive NfsState where
  | STATE_PRCLOOKUP_PROG_MOUNT_REQ
  | STATE_PRCLOOKUP_PROG_NFS_REQ
  | STATE_MOUNT_REQ
  | STATE_UMOUNT_REQ
  | STATE_LOOKUP_REQ
  | STATE_READ_REQ
  | STATE_READLINK_REQ
deriving DecidableEq

structure Client where
  fs_mounted : Bool
  rpc_id : BitVec 32
  nfs_offset : BitVec 32
  nfs_len : BitVec 32
  dirfh : List UInt8
  filefh : List UInt8
  nfs_download_state : NetState
  NfsSrvMountPort : BitVec 32
  NfsSrvNfsPort : BitVec 32
  NfsOurPort : Nat
  NfsTimeoutCount : Nat
  NfsState : NfsState
  /-- The index in `nfs_path_buff`. -/
  nfs_filename : Int
  nfs_path_buff : List UInt8
  NetBootFileXferSize : BitVec 32
  net_state : NetState
  mem : Nat → UInt8

/-! ### Numbers in packets -/

def htonl (n : BitVec 32) : List UInt8 :=
  [UInt8.ofNat (n.toNat / 2 ^ 24),UInt8.ofNat (n.toNat / 2 ^ 16),UInt8.ofNat (n.toNat / 2 ^ 8),UInt8.ofNat n.toNat]

/-- A packet for the handler, with the bytes that stand behind its data: those that were in `rpc_pkt`
    before the copy, and those in the receive buffer. -/
structure Received where
  dest : Nat
  data : List UInt8
  behind : Nat → UInt8

def Received.byte (p : Received) (i : Nat) : UInt8 := p.data.getD i (p.behind i)

def Received.bytes (p : Received) (i n : Nat) : List UInt8 := (List.range n).map fun k => p.byte (i + k)

/-- `ntohl` of the four bytes at `i`. -/
def Received.word (p : Received) (i : Nat) : BitVec 32 :=
  BitVec.ofNat 32 ((p.byte i).toNat * 2 ^ 24 + (p.byte (i + 1)).toNat * 2 ^ 16 + (p.byte (i + 2)).toNat * 2 ^ 8 +
    (p.byte (i + 3)).toNat)

/-! ### Memory accesses -/

inductive Area where
  | packet
  | rpc_pkt
  | dirfh
  | filefh
  | nfs_path_buff
  | load
deriving DecidableEq

structure Access where
  area : Area
  writes : Bool
  start : Int
  length : Nat
deriving DecidableEq

def reads (area : Area) (start : Int) (length : Nat) : Access := ⟨area,false,start,length⟩
def writes (area : Area) (start : Int) (length : Nat) : Access := ⟨area,true,start,length⟩

/-- A buffer after `bytes` have been copied to `start`; what falls outside of it is lost. -/
def patch (buf : List UInt8) (start : Int) (bytes : List UInt8) : List UInt8 :=
  match start with
  | .ofNat i => (buf.take i ++ (bytes ++ buf.drop (i + bytes.length))).take buf.length
  | .negSucc k => (bytes.drop (k + 1) ++ buf.drop (bytes.length - (k + 1))).take buf.length

def text (buf : List UInt8) : List UInt8 := buf.takeWhile (· ≠ 0)

def strlen (buf : List UInt8) : Nat := (text buf).length

/-- The loop of `basename`, from the end: one behind the last `/`, or in front of the buffer. -/
def basenameLoop (path : List UInt8) : Nat → Int
  | 0 => -1
  | n+1 => if path.getD n 0 = 47 then n + 1 else basenameLoop path n

def basename (path : List UInt8) : Int := basenameLoop path (strlen path)

def dirname (path : List UInt8) : List UInt8 := patch path (basename path - 1) [0]

/-! ### Requests -/

inductive Procedure where
  | getport (prog ver : BitVec 32)
  | mount (path : List UInt8)
  | umountall
  | lookup (dirfh fname : List UInt8)
  | read (filefh : List UInt8) (offset readlen : BitVec 32)
  | readlink (filefh : List UInt8)
deriving DecidableEq

structure Call where
  id : BitVec 32
  sport : BitVec 32
  procedure : Procedure
deriving DecidableEq

/-- `prog` and `proc` of a call. -/
def Procedure.number : Procedure → BitVec 32 × BitVec 32
  | .getport .. => (PROG_PORTMAP,PORTMAP_GETPORT)
  | .mount _ => (PROG_MOUNT,MOUNT_ADDENTRY)
  | .umountall => (PROG_MOUNT,MOUNT_UMOUNTALL)
  | .lookup .. => (PROG_NFS,NFS_LOOKUP)
  | .read .. => (PROG_NFS,NFS_READ)
  | .readlink _ => (PROG_NFS,NFS_READLINK)

/-- `AUTH_UNIX` without a host name, and the verifier `AUTH_NONE`. -/
def rpc_add_credentials : List UInt8 := ([1,20,0,0,0,0,0,0,0] : List (BitVec 32)).flatMap htonl

def opaqueText (s : List UInt8) : List UInt8 :=
  htonl (BitVec.ofNat 32 s.length) ++ s ++ List.replicate ((s.length + 3) / 4 * 4 - s.length) 0

def Procedure.data : Procedure → List UInt8
  | .getport prog ver => ([0,0,0,0,prog,ver,17,0] : List (BitVec 32)).flatMap htonl
  | .mount path => rpc_add_credentials ++ opaqueText path
  | .umountall => rpc_add_credentials
  | .lookup dirfh fname => rpc_add_credentials ++ dirfh ++ opaqueText fname
  | .read filefh offset readlen => rpc_add_credentials ++ filefh ++ htonl offset ++ htonl readlen ++ htonl 0
  | .readlink filefh => rpc_add_credentials ++ filefh

def Call.packet (call : Call) : List UInt8 :=
  ([call.id,0,2,call.procedure.number.1,2,call.procedure.number.2] : List (BitVec 32)).flatMap htonl ++ call.procedure.data

def rpc_req (c : Client) (procedure : Procedure) : Client × List Call :=
  let c := { c with rpc_id := c.rpc_id + 1 }
  let sport :=
    if procedure.number.1 = PROG_PORTMAP then SUNRPC_PORT
    else if procedure.number.1 = PROG_MOUNT then c.NfsSrvMountPort
    else c.NfsSrvNfsPort
  (c,[⟨c.rpc_id,sport,procedure⟩])

def nfs_umountall_req (c : Client) : Client × List Call :=
  if c.NfsSrvMountPort = -1 ∨ c.fs_mounted = false then (c,[]) else rpc_req c .umountall

def NfsSend (c : Client) : Client × List Call :=
  match c.NfsState with
  | .STATE_PRCLOOKUP_PROG_MOUNT_REQ => rpc_req c (.getport PROG_MOUNT 1)
  | .STATE_PRCLOOKUP_PROG_NFS_REQ => rpc_req c (.getport PROG_NFS 2)
  | .STATE_MOUNT_REQ => rpc_req c (.mount (text c.nfs_path_buff))
  | .STATE_UMOUNT_REQ => nfs_umountall_req c
  | .STATE_LOOKUP_REQ => rpc_req c (.lookup c.dirfh (text (c.nfs_path_buff.drop c.nfs_filename.toNat)))
  | .STATE_READ_REQ => rpc_req c (.read c.filefh c.nfs_offset c.nfs_len)
  | .STATE_READLINK_REQ => rpc_req c (.readlink c.filefh)

/-! ### Replies

The fields of a reply are at `id` 0, `rstatus` 8, `verifier` 12, `astatus` 20 and `data[k]` 24 + 4k. -/

structure Reply where
  client : Client
  ret : Int
  accesses : List Access

def field (i : Nat) : Access := reads .rpc_pkt i 4

/-- `a || b || ...` over fields: whether one is not zero, and the fields that are looked at. -/
def anySet (p : Received) : List Nat → Bool × List Access
  | [] => (false,[])
  | i :: fields => if p.word i ≠ 0 then (true,[field i]) else ((anySet p fields).1,field i :: (anySet p fields).2)

/-- The checks at the start of a reply function: 0, or what it returns. -/
def checks (c : Client) (p : Received) (fields : List Nat) : Int × List Access :=
  if c.rpc_id < p.word 0 then (-NFS_RPC_ERR,[field 0])
  else if p.word 0 < c.rpc_id then (-NFS_RPC_DROP,[field 0])
  else if (anySet p fields).1 then (-1,field 0 :: (anySet p fields).2)
  else (0,field 0 :: (anySet p fields).2)

/-- `memcpy(&rpc_pkt, pkt, len)` -/
def copied (len : Nat) : List Access := [reads .packet 0 len,writes .rpc_pkt 0 len]

/-- A reply function that copies the whole packet and checks the fields; `ok` is the rest of it. -/
def replyWith (fields : List Nat) (ok : Client → Received → Client × List Access) (c : Client) (p : Received) : Reply :=
  if (checks c p fields).1 = 0 then ⟨(ok c p).1,0,copied p.data.length ++ (checks c p fields).2 ++ (ok c p).2⟩
  else ⟨c,(checks c p fields).1,copied p.data.length ++ (checks c p fields).2⟩

def storePort (prog : BitVec 32) (c : Client) (p : Received) : Client × List Access :=
  if prog = PROG_MOUNT then ({ c with NfsSrvMountPort := p.word 24 },[field 24])
  else if prog = PROG_NFS then ({ c with NfsSrvNfsPort := p.word 24 },[field 24])
  else (c,[])

def rpc_lookup_reply (prog : BitVec 32) : Client → Received → Reply := replyWith [8,12,20] (storePort prog)

def nfs_mount_reply : Client → Received → Reply :=
  replyWith [8,12,20,24] fun c p =>
    ({ c with fs_mounted := true, dirfh := p.bytes 28 NFS_FHSIZE },
      [reads .rpc_pkt 28 NFS_FHSIZE,writes .dirfh 0 NFS_FHSIZE])

def nfs_umountall_reply : Client → Received → Reply :=
  replyWith [8,12,20] fun c _ =>
    ({ c with fs_mounted := false, dirfh := List.replicate NFS_FHSIZE 0 },[writes .dirfh 0 NFS_FHSIZE])

def nfs_lookup_reply : Client → Received → Reply :=
  replyWith [8,12,20,24] fun c p =>
    ({ c with filefh := p.bytes 28 NFS_FHSIZE },[reads .rpc_pkt 28 NFS_FHSIZE,writes .filefh 0 NFS_FHSIZE])

/-- The new path is put together in `nfs_path`: behind the old one if it does not start with `/`. -/
def followLink (c : Client) (p : Received) : Client × List Access :=
  let rlen := p.word 28
  let target := p.bytes 32 rlen.toNat
  if p.byte 32 ≠ 47 then
    let slashed := patch c.nfs_path_buff (strlen c.nfs_path_buff) [47,0]
    let pathlen := strlen slashed
    ({ c with nfs_path_buff := patch (patch slashed pathlen target) (pathlen + rlen.toInt) [0] },
      [field 28,reads .rpc_pkt 32 1,
        reads .nfs_path_buff 0 (strlen c.nfs_path_buff + 1),writes .nfs_path_buff (strlen c.nfs_path_buff) 2,
        reads .nfs_path_buff 0 (pathlen + 1),
        reads .rpc_pkt 32 rlen.toNat,writes .nfs_path_buff pathlen rlen.toNat,writes .nfs_path_buff (pathlen + rlen.toInt) 1])
  else
    ({ c with nfs_path_buff := patch (patch c.nfs_path_buff 0 target) rlen.toInt [0] },
      [field 28,reads .rpc_pkt 32 1,
        reads .rpc_pkt 32 rlen.toNat,writes .nfs_path_buff 0 rlen.toNat,writes .nfs_path_buff rlen.toInt 1])

def nfs_readlink_reply : Client → Received → Reply := replyWith [8,12,20,24] followLink

def store_block (c : Client) (src : List UInt8) : Client :=
  let newsize := c.nfs_offset + BitVec.ofNat 32 src.length
  { c with
    mem := store c.mem c.nfs_offset.toNat src
    NetBootFileXferSize := if c.NetBootFileXferSize < newsize then newsize else c.NetBootFileXferSize }

/-- `sizeof(rpc_pkt.u.reply)` -/
def replySize : Nat := 100

/-- The value that is returned when a field of the status is set. -/
def readError (p : Received) : Int × List Access :=
  if p.word 8 ≠ 0 then (-9999,[field 8])
  else if p.word 20 ≠ 0 then (-9999,[field 8,field 20])
  else ((-p.word 24).toInt,[field 8,field 20,field 24])

def nfs_read_reply (c : Client) (p : Received) : Reply :=
  if c.rpc_id < p.word 0 then ⟨c,-NFS_RPC_ERR,copied replySize ++ [field 0]⟩
  else if p.word 0 < c.rpc_id then ⟨c,-NFS_RPC_DROP,copied replySize ++ [field 0]⟩
  else if (anySet p [8,12,20,24]).1 then
    ⟨c,(readError p).1,copied replySize ++ field 0 :: (anySet p [8,12,20,24]).2 ++ (readError p).2⟩
  else
    let rlen := p.word 96
    ⟨store_block c (p.bytes replySize rlen.toNat),rlen.toInt,
      copied replySize ++ field 0 :: (anySet p [8,12,20,24]).2 ++
        [field 96,reads .packet replySize rlen.toNat,writes .load c.nfs_offset.toNat rlen.toNat]⟩

/-! ### The handlers -/

structure Outcome where
  client : Client
  sent : List Call
  accesses : List Access

/-- `NfsState = state; NfsSend();` -/
def Reply.goTo (r : Reply) (state : NfsState) : Outcome :=
  let next := NfsSend { r.client with NfsState := state }
  ⟨next.1,next.2,r.accesses⟩

def Reply.stay (r : Reply) : Outcome := ⟨r.client,[],r.accesses⟩

/-- `nfs_filename = basename(nfs_path); nfs_path = dirname(nfs_path);` -/
def splitPath (c : Client) : Client :=
  { c with nfs_filename := basename c.nfs_path_buff, nfs_path_buff := dirname c.nfs_path_buff }

def splitAccesses (c : Client) : List Access :=
  [reads .nfs_path_buff 0 (strlen c.nfs_path_buff + 1),writes .nfs_path_buff (basename c.nfs_path_buff - 1) 1]

/-- The two requests for a port: any answer leads to the next state. -/
def afterLookup (next : NfsState) (r : Reply) : Outcome := if r.ret = -NFS_RPC_DROP then r.stay else r.goTo next

/-- A request that has to succeed; `ok` is what follows. -/
def afterReply (ok : Reply → Outcome) (r : Reply) : Outcome :=
  if r.ret = -NFS_RPC_DROP then r.stay else if r.ret = -NFS_RPC_ERR then r.goTo .STATE_UMOUNT_REQ else ok r

def afterUmount (r : Reply) : Outcome :=
  if r.ret = -NFS_RPC_DROP then r.stay
  else if r.ret = -NFS_RPC_ERR then Reply.stay { r with client := { r.client with net_state := .NETLOOP_FAIL } }
  else Reply.stay { r with client := { r.client with net_state := r.client.nfs_download_state } }

def startRead (r : Reply) : Outcome :=
  Reply.goTo { r with client := { r.client with nfs_offset := 0, nfs_len := NFS_READ_SIZE } } .STATE_READ_REQ

def mountAgain (r : Reply) : Outcome :=
  Reply.goTo { r with client := splitPath r.client, accesses := r.accesses ++ splitAccesses r.client } .STATE_MOUNT_REQ

section
variable {c : Client} {accesses : List Access} {next : NfsState} {ok : Reply → Outcome}

theorem afterLookup_drop : afterLookup next ⟨c,-NFS_RPC_DROP,accesses⟩ = ⟨c,[],accesses⟩ := if_pos rfl

theorem afterLookup_next {ret : Int} (other : ret ≠ -NFS_RPC_DROP) :
    afterLookup next ⟨c,ret,accesses⟩ = Reply.goTo ⟨c,ret,accesses⟩ next := if_neg other

theorem afterReply_drop : afterReply ok ⟨c,-NFS_RPC_DROP,accesses⟩ = ⟨c,[],accesses⟩ := if_pos rfl

theorem afterReply_error : afterReply ok ⟨c,-NFS_RPC_ERR,accesses⟩ = Reply.goTo ⟨c,-NFS_RPC_ERR,accesses⟩ .STATE_UMOUNT_REQ := by
  rw [afterReply,if_neg (show ¬ -NFS_RPC_ERR = -NFS_RPC_DROP by decide),if_pos rfl]

theorem afterReply_ok : afterReply ok ⟨c,0,accesses⟩ = ok ⟨c,0,accesses⟩ := by
  rw [afterReply,if_neg (show ¬ 0 = -NFS_RPC_DROP by decide),if_neg (show ¬ 0 = -NFS_RPC_ERR by decide)]

theorem afterUmount_drop : afterUmount ⟨c,-NFS_RPC_DROP,accesses⟩ = ⟨c,[],accesses⟩ := if_pos rfl

theorem afterUmount_error : afterUmount ⟨c,-NFS_RPC_ERR,accesses⟩ = ⟨{ c with net_state := .NETLOOP_FAIL },[],accesses⟩ := by
  rw [afterUmount,if_neg (show ¬ -NFS_RPC_ERR = -NFS_RPC_DROP by decide),if_pos rfl]
  rfl

theorem afterUmount_ok : afterUmount ⟨c,0,accesses⟩ = ⟨{ c with net_state := c.nfs_download_state },[],accesses⟩ := by
  rw [afterUmount,if_neg (show ¬ 0 = -NFS_RPC_DROP by decide),if_neg (show ¬ 0 = -NFS_RPC_ERR by decide)]
  rfl

end

def afterRead (r : Reply) : Outcome :=
  if 0 < r.ret then
    let next := NfsSend { r.client with nfs_offset := r.client.nfs_offset + BitVec.ofInt 32 r.ret }
    ⟨next.1,next.2,r.accesses⟩
  else if r.ret = -NFSERR_ISDIR ∨ r.ret = -NFSERR_INVAL then r.goTo .STATE_READLINK_REQ
  else
    let c := if r.ret = 0 then { r.client with nfs_download_state := .NETLOOP_SUCCESS } else r.client
    Reply.goTo { r with client := c } .STATE_UMOUNT_REQ

def NfsHandler (c : Client) (p : Received) : Outcome :=
  if p.dest ≠ c.NfsOurPort then ⟨c,[],[]⟩
  else
    match c.NfsState with
    | .STATE_PRCLOOKUP_PROG_MOUNT_REQ => afterLookup .STATE_PRCLOOKUP_PROG_NFS_REQ (rpc_lookup_reply PROG_MOUNT c p)
    | .STATE_PRCLOOKUP_PROG_NFS_REQ => afterLookup .STATE_MOUNT_REQ (rpc_lookup_reply PROG_NFS c p)
    | .STATE_MOUNT_REQ => afterReply (·.goTo .STATE_LOOKUP_REQ) (nfs_mount_reply c p)
    | .STATE_UMOUNT_REQ => afterUmount (nfs_umountall_reply c p)
    | .STATE_LOOKUP_REQ => afterReply startRead (nfs_lookup_reply c p)
    | .STATE_READLINK_REQ => afterReply mountAgain (nfs_readlink_reply c p)
    | .STATE_READ_REQ => afterRead (nfs_read_reply c p)

/-- `again` is the state that `NetStartAgain` leaves. -/
def NfsTimeout (again : NetState) (c : Client) : Client × List Call :=
  let c := { c with NfsTimeoutCount := c.NfsTimeoutCount + 1 }
  if c.NfsTimeoutCount > NFS_RETRY_COUNT then ({ c with net_state := again },[]) else NfsSend c

/-- The start of a load by `NetLoop`, which has cleared `NetBootFileXferSize`; `path` is the name of the boot
    file behind the address of the server, or the default one. -/
def NfsStart (c : Client) (path : List UInt8) : Client × List Call :=
  let c := { c with
    NetBootFileXferSize := 0
    net_state := .NETLOOP_CONTINUE
    nfs_download_state := .NETLOOP_FAIL
    nfs_path_buff := patch c.nfs_path_buff 0 (path ++ [0]) }
  NfsSend { splitPath c with NfsTimeoutCount := 0, NfsState := .STATE_PRCLOOKUP_PROG_MOUNT_REQ, NfsOurPort := 1000 }

end UBoot.Nfs
