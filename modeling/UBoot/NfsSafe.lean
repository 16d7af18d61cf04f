import UBoot.NfsPath
import UBoot.Runs

/-!
The memory that the NFS client accesses while it handles packets. Handling a packet is safe exactly if all
fields that are looked at are part of it, the lengths in it stay inside of it, and a path that it brings
fits into its buffer (`replies_safe_iff`); the path buffer stays in order over any number of packets and
timeouts that meet this.
-/
namespace UBoot.NfsSafe
open List Nfs NfsPath Runs
open Tftp (NetState)

/-- The size of `struct rpc_t`. -/
def rpcSize : Nat := 2048

/-- From `packet`, and from its copy in `rpc_pkt`, only bytes of the payload are read; `load` is written at
    `nfs_offset` and with bytes of the payload. -/
def Allowed (c : Client) (p : Received) (a : Access) : Prop :=
  match a.area, a.writes with
  | .packet, false => 0 ≤ a.start ∧ a.start + a.length ≤ p.data.length
  | .packet, true => False
  | .rpc_pkt, false => 0 ≤ a.start ∧ a.start + a.length ≤ p.data.length ∧ a.start + a.length ≤ rpcSize
  | .rpc_pkt, true => 0 ≤ a.start ∧ a.start + a.length ≤ rpcSize
  | .dirfh, _ => 0 ≤ a.start ∧ a.start + a.length ≤ NFS_FHSIZE
  | .filefh, _ => 0 ≤ a.start ∧ a.start + a.length ≤ NFS_FHSIZE
  | .nfs_path_buff, _ => 0 ≤ a.start ∧ a.start + a.length ≤ 2048
  | .load, false => False
  | .load, true => a.start = c.nfs_offset.toNat ∧ replySize + a.length ≤ p.data.length

/-! ### What a packet has to bring -/

/-- The fields up to the first one that is set. -/
def FieldsInside (p : Received) : List Nat → Prop
  | [] => True
  | i :: fields => i + 4 ≤ p.data.length ∧ (p.word i = 0 → FieldsInside p fields)

/-- A reply that is copied as a whole; `rest` is asked of one that answers the last request with success. -/
def ReplyFits (c : Client) (p : Received) (fields : List Nat) (rest : Prop) : Prop :=
  4 ≤ p.data.length ∧ p.data.length ≤ rpcSize ∧
    (p.word 0 = c.rpc_id → FieldsInside p fields ∧ ((∀ i ∈ fields, p.word i = 0) → rest))

/-- The text of a link is in the packet; a relative one fits behind the path, an absolute one is not empty. -/
def LinkFits (c : Client) (p : Received) : Prop :=
  33 ≤ p.data.length ∧ 32 + (p.word 28).toNat ≤ p.data.length ∧
    if p.byte 32 = 47 then 0 < (p.word 28).toNat else strlen c.nfs_path_buff + 1 + (p.word 28).toNat < 2048

/-- The condition on a packet in the state in which it is received. -/
def Fits (c : Client) (p : Received) : Prop :=
  p.dest = c.NfsOurPort →
    match c.NfsState with
    | .STATE_PRCLOOKUP_PROG_MOUNT_REQ | .STATE_PRCLOOKUP_PROG_NFS_REQ => ReplyFits c p [8,12,20] (28 ≤ p.data.length)
    | .STATE_MOUNT_REQ | .STATE_LOOKUP_REQ => ReplyFits c p [8,12,20,24] (60 ≤ p.data.length)
    | .STATE_UMOUNT_REQ => ReplyFits c p [8,12,20] True
    | .STATE_READLINK_REQ => ReplyFits c p [8,12,20,24] (LinkFits c p)
    | .STATE_READ_REQ => replySize ≤ p.data.length ∧
        (p.word 0 = c.rpc_id → (∀ i ∈ [8,12,20,24], p.word i = 0) → replySize + (p.word 96).toNat ≤ p.data.length)

/-! ### Fields -/

variable {c : Client} {p : Received}

/-- All accesses of a list are allowed. -/
def AllAllowed (c : Client) (p : Received) (accesses : List Access) : Prop := ∀ a ∈ accesses, Allowed c p a

theorem allAllowed_nil : AllAllowed c p [] ↔ True := by simp [AllAllowed]

theorem allAllowed_cons {a : Access} {accesses : List Access} :
    AllAllowed c p (a :: accesses) ↔ Allowed c p a ∧ AllAllowed c p accesses := forall_mem_cons

theorem allAllowed_append {first second : List Access} :
    AllAllowed c p (first ++ second) ↔ AllAllowed c p first ∧ AllAllowed c p second := forall_mem_append

theorem allowed_field (i : Nat) : Allowed c p (field i) ↔ i + 4 ≤ p.data.length ∧ i + 4 ≤ rpcSize := by
  simp only [Allowed,field,reads]
  omega

theorem anySet_false (fields : List Nat) : (anySet p fields).1 = false ↔ ∀ i ∈ fields, p.word i = 0 := by
  induction fields with
  | nil => simp [anySet]
  | cons i fields ih =>
    rw [anySet,forall_mem_cons]
    split_ifs with set
    · exact ⟨False.elim,fun all => absurd all.1 set⟩
    · rw [ih]
      exact ⟨fun all => ⟨not_not.mp set,all⟩,And.right⟩

theorem anySet_allowed {fields : List Nat} (small : ∀ i ∈ fields, i + 4 ≤ rpcSize) :
    AllAllowed c p (anySet p fields).2 ↔ FieldsInside p fields := by
  induction fields with
  | nil => simp [anySet,FieldsInside,allAllowed_nil]
  | cons i fields ih =>
    obtain ⟨first,later⟩ := forall_mem_cons.mp small
    rw [anySet]
    split_ifs with set
    · rw [allAllowed_cons,allowed_field,allAllowed_nil]
      exact ⟨fun all => ⟨all.1.1,fun zero => absurd zero set⟩,fun inside => ⟨⟨inside.1,first⟩,trivial⟩⟩
    · rw [allAllowed_cons,allowed_field,ih later]
      exact ⟨fun all => ⟨all.1.1,fun _ => all.2⟩,fun inside => ⟨⟨inside.1,first⟩,inside.2 (not_not.mp set)⟩⟩

theorem checks_cases (c : Client) (p : Received) (fields : List Nat) :
    (c.rpc_id < p.word 0 ∧ checks c p fields = (-1,[field 0])) ∨ (p.word 0 < c.rpc_id ∧ checks c p fields = (-124,[field 0])) ∨
    (p.word 0 = c.rpc_id ∧ ((∃ i ∈ fields, p.word i ≠ 0) ∧ checks c p fields = (-1,field 0 :: (anySet p fields).2) ∨
      (∀ i ∈ fields, p.word i = 0) ∧ checks c p fields = (0,field 0 :: (anySet p fields).2))) := by
  rw [checks]
  split_ifs with above below set
  · exact .inl ⟨above,rfl⟩
  · exact .inr (.inl ⟨below,rfl⟩)
  all_goals
    have answer : p.word 0 = c.rpc_id := BitVec.le_antisymm (BitVec.not_lt.mp above) (BitVec.not_lt.mp below)
  · refine .inr (.inr ⟨answer,.inl ⟨?_,rfl⟩⟩)
    by_contra none_
    push Not at none_
    rw [(anySet_false fields).mpr none_] at set
    cases set
  · exact .inr (.inr ⟨answer,.inr ⟨(anySet_false fields).mp (Bool.not_eq_true _ ▸ set),rfl⟩⟩)

theorem not_answer {a b : BitVec 32} (less : a < b ∨ b < a) : a ≠ b := by
  rintro rfl
  rcases less with less | less <;> exact absurd less (BitVec.lt_irrefl a)

theorem replyWith_allowed {fields : List Nat} (small : ∀ i ∈ fields, i + 4 ≤ rpcSize)
    (ok : Client → Received → Client × List Access) :
    AllAllowed c p (replyWith fields ok c p).accesses ↔ ReplyFits c p fields (AllAllowed c p (ok c p).2) := by
  have copy : AllAllowed c p (copied p.data.length) ↔ p.data.length ≤ rpcSize := by
    rw [copied,allAllowed_cons,allAllowed_cons,allAllowed_nil]
    simp only [Allowed,reads,writes,and_true]
    omega
  have first : Allowed c p (field 0) ↔ 4 ≤ p.data.length := by
    rw [allowed_field]
    have : rpcSize = 2048 := rfl
    omega
  rw [replyWith,ReplyFits]
  rcases checks_cases c p fields with ⟨other,equal⟩ | ⟨other,equal⟩ | ⟨answer,⟨⟨i,inside,set⟩,equal⟩ | ⟨zero,equal⟩⟩
  · have apart : p.word 0 ≠ c.rpc_id := not_answer (.inr other)
    rw [equal,if_neg (by simp)]
    simp only [allAllowed_append,copy,allAllowed_cons,first,allAllowed_nil,apart,false_imp_iff,and_true]
    exact and_comm
  · have apart : p.word 0 ≠ c.rpc_id := not_answer (.inl other)
    rw [equal,if_neg (by simp)]
    simp only [allAllowed_append,copy,allAllowed_cons,first,allAllowed_nil,apart,false_imp_iff,and_true]
    exact and_comm
  · have some_ : ¬ ∀ i ∈ fields, p.word i = 0 := fun all => set (all i inside)
    rw [equal,if_neg (by simp)]
    simp only [allAllowed_append,copy,allAllowed_cons,first,anySet_allowed small,answer,some_,forall_const,false_imp_iff,and_true]
    exact and_left_comm
  rw [equal,if_pos rfl]
  simp only [allAllowed_append,copy,allAllowed_cons,first,anySet_allowed small,answer,forall_const]
  exact ⟨fun ⟨⟨short,long,inside⟩,rest⟩ => ⟨long,short,inside,fun _ => rest⟩,
    fun ⟨long,short,inside,rest⟩ => ⟨⟨short,long,inside⟩,rest zero⟩⟩

theorem replyFits_congr {fields : List Nat} {rest other : Prop} (same : p.data.length ≤ rpcSize → (rest ↔ other)) :
    ReplyFits c p fields rest ↔ ReplyFits c p fields other := by
  constructor
  · rintro ⟨long,short,answer⟩
    exact ⟨long,short,fun own => ⟨(answer own).1,fun zero => (same short).mp ((answer own).2 zero)⟩⟩
  · rintro ⟨long,short,answer⟩
    exact ⟨long,short,fun own => ⟨(answer own).1,fun zero => (same short).mpr ((answer own).2 zero)⟩⟩

/-! ### Links -/

theorem split_allowed {d : Client} (holds : Holds d.nfs_path_buff) :
    AllAllowed c p (splitAccesses d) ↔ 47 ∈ text d.nfs_path_buff := by
  have short := holds.strlen_lt
  rw [splitAccesses,allAllowed_cons,allAllowed_cons,allAllowed_nil]
  simp only [Allowed,reads,writes,and_true]
  by_cases slash : 47 ∈ text d.nfs_path_buff
  · obtain ⟨dir,name,equal,last⟩ := last_slash slash
    have inside : dir.length < strlen d.nfs_path_buff := by
      rw [strlen,equal]
      simp
    rw [basename_eq equal last]
    exact ⟨fun _ => slash,fun _ => ⟨by omega,by omega,by omega⟩⟩
  · rw [basename_none slash]
    exact ⟨fun all => absurd all.2.1 (by decide),fun inside => absurd inside slash⟩

/-- What is done with the text of a link, up to the new path. -/
def followAccesses (c : Client) (p : Received) : List Access := (followLink c p).2 ++ splitAccesses (followLink c p).1

theorem bytes_cons (p : Received) (i n : Nat) : p.bytes i (n+1) = p.byte i :: p.bytes (i+1) n := by
  rw [Received.bytes,range_succ_eq_map,map_cons,map_map]
  congr 1
  refine map_congr_left fun k _ => ?_
  simp only [Function.comp_apply]
  congr 1
  omega

theorem relative_allowed (holds : Holds c.nfs_path_buff) (relative : p.byte 32 ≠ 47) (short : p.data.length ≤ rpcSize) :
    AllAllowed c p (followAccesses c p) ↔ 33 ≤ p.data.length ∧ 32 + (p.word 28).toNat ≤ p.data.length ∧
      strlen c.nfs_path_buff + 1 + (p.word 28).toNat < 2048 := by
  have size : rpcSize = 2048 := rfl
  have pathlen : strlen c.nfs_path_buff + 2 ≤ 2048 →
      strlen (patch c.nfs_path_buff (strlen c.nfs_path_buff) [47,0]) = strlen c.nfs_path_buff + 1 := by
    intro room
    rw [strlen,(slashed holds room).1,length_append]
    rfl
  rw [followAccesses,allAllowed_append]
  constructor
  · rintro ⟨all,-⟩
    rw [followLink,if_pos relative] at all
    simp only [allAllowed_cons,allAllowed_nil,Allowed,field,reads,writes,and_true] at all
    obtain ⟨-,byte,-,slash,-,target,-,nul⟩ := all
    rw [toInt_small (by omega)] at nul
    omega
  rintro ⟨byte,target,room⟩
  obtain ⟨shown,again⟩ := followLink_relative holds relative room
  refine ⟨?_,(split_allowed again).mpr (by rw [shown]; simp)⟩
  rw [followLink,if_pos relative]
  simp only [allAllowed_cons,allAllowed_nil,Allowed,field,reads,writes,and_true,pathlen (by omega),
    toInt_small (show (p.word 28).toNat < 2048 by omega)]
  omega

theorem absolute_allowed (holds : Holds c.nfs_path_buff) (absolute : p.byte 32 = 47) (short : p.data.length ≤ rpcSize) :
    AllAllowed c p (followAccesses c p) ↔ 33 ≤ p.data.length ∧ 32 + (p.word 28).toNat ≤ p.data.length ∧ 0 < (p.word 28).toNat := by
  have size : rpcSize = 2048 := rfl
  rw [followAccesses,allAllowed_append]
  constructor
  · rintro ⟨all,cut⟩
    rw [followLink,if_neg (not_not_intro absolute)] at all
    simp only [allAllowed_cons,allAllowed_nil,Allowed,field,reads,writes,and_true] at all
    refine ⟨by omega,by omega,Nat.pos_of_ne_zero fun empty => ?_⟩
    obtain ⟨shown,again⟩ := followLink_absolute holds absolute (by omega)
    have slash := (split_allowed again).mp cut
    rw [shown,empty] at slash
    exact absurd slash not_mem_nil
  rintro ⟨byte,target,some_⟩
  obtain ⟨shown,again⟩ := followLink_absolute holds absolute (by omega)
  refine ⟨?_,(split_allowed again).mpr ?_⟩
  · rw [followLink,if_neg (not_not_intro absolute)]
    simp only [allAllowed_cons,allAllowed_nil,Allowed,field,reads,writes,and_true,
      toInt_small (show (p.word 28).toNat < 2048 by omega)]
    omega
  obtain ⟨n,count⟩ := Nat.exists_eq_succ_of_ne_zero (Nat.ne_of_gt some_)
  rw [shown,count,bytes_cons,absolute]
  exact mem_cons_self

theorem follow_allowed (holds : Holds c.nfs_path_buff) (short : p.data.length ≤ rpcSize) :
    AllAllowed c p (followAccesses c p) ↔ LinkFits c p := by
  rw [LinkFits]
  by_cases absolute : p.byte 32 = 47
  · rw [if_pos absolute]
    exact absolute_allowed holds absolute short
  · rw [if_neg absolute]
    exact relative_allowed holds absolute short

/-! ### Data -/

theorem readError_fields (p : Received) : ∀ a ∈ (readError p).2, a = field 8 ∨ a = field 20 ∨ a = field 24 := by
  rw [readError]
  split_ifs <;> simp

theorem read_allowed : AllAllowed c p (nfs_read_reply c p).accesses ↔ replySize ≤ p.data.length ∧
    (p.word 0 = c.rpc_id → (∀ i ∈ [8,12,20,24], p.word i = 0) → replySize + (p.word 96).toNat ≤ p.data.length) := by
  have sizes : replySize = 100 ∧ rpcSize = 2048 := ⟨rfl,rfl⟩
  have copy : AllAllowed c p (copied replySize) ↔ replySize ≤ p.data.length := by
    rw [copied,allAllowed_cons,allAllowed_cons,allAllowed_nil]
    simp only [Allowed,reads,writes,and_true]
    omega
  have fields : replySize ≤ p.data.length → ∀ i, i + 4 ≤ replySize → Allowed c p (field i) := by
    intro long i inside
    rw [allowed_field]
    omega
  have status : replySize ≤ p.data.length → AllAllowed c p (anySet p [8,12,20,24]).2 := by
    intro long
    rw [anySet_allowed (by simp [sizes])]
    exact ⟨by omega,fun _ => ⟨by omega,fun _ => ⟨by omega,fun _ => ⟨by omega,fun _ => trivial⟩⟩⟩⟩
  rw [nfs_read_reply]
  split_ifs with above below set
  · have apart : p.word 0 ≠ c.rpc_id := not_answer (.inr above)
    rw [allAllowed_append,copy,allAllowed_cons,allAllowed_nil]
    exact ⟨fun all => ⟨all.1,fun own => absurd own apart⟩,fun all => ⟨all.1,fields all.1 0 (by omega),trivial⟩⟩
  · have apart : p.word 0 ≠ c.rpc_id := not_answer (.inl below)
    rw [allAllowed_append,copy,allAllowed_cons,allAllowed_nil]
    exact ⟨fun all => ⟨all.1,fun own => absurd own apart⟩,fun all => ⟨all.1,fields all.1 0 (by omega),trivial⟩⟩
  · have some_ : ¬ ∀ i ∈ [8,12,20,24], p.word i = 0 := by
      rw [← anySet_false,set]
      exact Bool.noConfusion
    rw [allAllowed_append,allAllowed_append,copy,allAllowed_cons]
    refine ⟨fun all => ⟨all.1.1,fun _ zero => absurd zero some_⟩,fun all =>
      ⟨⟨all.1,fields all.1 0 (by omega),status all.1⟩,fun a inside => ?_⟩⟩
    rcases readError_fields p a inside with rfl | rfl | rfl
    all_goals exact fields all.1 _ (by omega)
  have zero : ∀ i ∈ [8,12,20,24], p.word i = 0 := (anySet_false _).mp (Bool.not_eq_true _ ▸ set)
  have own : p.word 0 = c.rpc_id := BitVec.le_antisymm (BitVec.not_lt.mp above) (BitVec.not_lt.mp below)
  simp only [allAllowed_append,copy,allAllowed_cons,allAllowed_nil,and_true]
  constructor
  · rintro ⟨⟨long,-⟩,-,-,stored⟩
    exact ⟨long,fun _ _ => stored.2⟩
  rintro ⟨long,data⟩
  have stored := data own zero
  refine ⟨⟨long,fields long 0 (by omega),status long⟩,fields long 96 (by omega),?_,rfl,stored⟩
  simp only [Allowed,reads]
  omega

/-! ### The handler -/

@[simp] theorem goTo_accesses (r : Reply) (state : NfsState) : (r.goTo state).accesses = r.accesses := rfl

@[simp] theorem stay_accesses (r : Reply) : r.stay.accesses = r.accesses := rfl

theorem afterLookup_accesses (next : NfsState) (r : Reply) : (afterLookup next r).accesses = r.accesses := by
  simp only [afterLookup,apply_ite Outcome.accesses,goTo_accesses,stay_accesses,ite_self]

theorem afterReply_accesses {ok : Reply → Outcome} (same : ∀ r, (ok r).accesses = r.accesses) (r : Reply) :
    (afterReply ok r).accesses = r.accesses := by
  simp only [afterReply,apply_ite Outcome.accesses,goTo_accesses,stay_accesses,same,ite_self]

theorem afterUmount_accesses (r : Reply) : (afterUmount r).accesses = r.accesses := by
  simp only [afterUmount,apply_ite Outcome.accesses,stay_accesses,ite_self]

theorem afterRead_accesses (r : Reply) : (afterRead r).accesses = r.accesses := by
  simp only [afterRead,apply_ite Outcome.accesses,goTo_accesses,ite_self]

theorem replyWith_cases (fields : List Nat) (c : Client) (p : Received) : ∃ accesses,
    (p.word 0 < c.rpc_id ∧ ∀ ok, replyWith fields ok c p = ⟨c,-NFS_RPC_DROP,accesses⟩) ∨
    (¬ p.word 0 < c.rpc_id ∧ ∀ ok, replyWith fields ok c p = ⟨c,-NFS_RPC_ERR,accesses⟩) ∨
    (p.word 0 = c.rpc_id ∧ (∀ i ∈ fields, p.word i = 0) ∧
      ∀ ok, replyWith fields ok c p = ⟨(ok c p).1,0,accesses ++ (ok c p).2⟩) := by
  simp only [replyWith]
  rcases checks_cases c p fields with ⟨above,equal⟩ | ⟨below,equal⟩ | ⟨own,⟨-,equal⟩ | ⟨zero,equal⟩⟩
  · exact ⟨_,.inr (.inl ⟨BitVec.not_lt.mpr (BitVec.le_of_lt above),fun ok => by rw [equal]; rfl⟩)⟩
  · exact ⟨_,.inl ⟨below,fun ok => by rw [equal]; rfl⟩⟩
  · exact ⟨_,.inr (.inl ⟨own ▸ BitVec.lt_irrefl _,fun ok => by rw [equal]; rfl⟩)⟩
  · exact ⟨_,.inr (.inr ⟨own,zero,fun ok => by rw [equal,if_pos rfl]⟩)⟩

theorem readlink_accesses (c : Client) (p : Received) : (afterReply mountAgain (nfs_readlink_reply c p)).accesses =
    (replyWith [8,12,20,24] (fun c p => ((followLink c p).1,followAccesses c p)) c p).accesses := by
  rw [nfs_readlink_reply]
  obtain ⟨accesses,⟨-,equal⟩ | ⟨-,equal⟩ | ⟨-,-,equal⟩⟩ := replyWith_cases [8,12,20,24] c p
  · rw [equal,equal,afterReply_drop]
  · rw [equal,equal,afterReply_error,goTo_accesses]
  · rw [equal,equal,afterReply_ok,mountAgain,goTo_accesses,followAccesses,append_assoc]

theorem lookup_allowed {prog : BitVec 32} (known : prog = PROG_MOUNT ∨ prog = PROG_NFS) :
    AllAllowed c p (rpc_lookup_reply prog c p).accesses ↔ ReplyFits c p [8,12,20] (28 ≤ p.data.length) := by
  have stored : (storePort prog c p).2 = [field 24] := by
    rcases known with rfl | rfl
    · rw [storePort,if_pos rfl]
    · rw [storePort,if_neg (by decide),if_pos rfl]
  rw [rpc_lookup_reply,replyWith_allowed (by decide)]
  refine replyFits_congr fun short => ?_
  rw [stored,allAllowed_cons,allAllowed_nil,allowed_field,and_true]
  omega

theorem startRead_accesses (r : Reply) : (startRead r).accesses = r.accesses := rfl

theorem handle_allowed {fh : Area} (handle : fh = .dirfh ∨ fh = .filefh) (short : p.data.length ≤ rpcSize) :
    AllAllowed c p [reads .rpc_pkt 28 NFS_FHSIZE,writes fh 0 NFS_FHSIZE] ↔ 60 ≤ p.data.length := by
  have sizes : rpcSize = 2048 ∧ NFS_FHSIZE = 32 := ⟨rfl,rfl⟩
  rw [allAllowed_cons,allAllowed_cons,allAllowed_nil,and_true]
  rcases handle with rfl | rfl
  all_goals
    simp only [Allowed,reads,writes]
    omega

theorem handler_allowed (holds : Holds c.nfs_path_buff) : AllAllowed c p (NfsHandler c p).accesses ↔ Fits c p := by
  rw [Fits,NfsHandler]
  by_cases own : p.dest = c.NfsOurPort
  swap
  · rw [if_pos own]
    exact ⟨fun _ here => absurd here own,fun _ => allAllowed_nil.mpr trivial⟩
  rw [imp_iff_right own,if_neg (not_not_intro own)]
  cases c.NfsState with
  | STATE_READLINK_REQ =>
    simp only [readlink_accesses,replyWith_allowed (show ∀ i ∈ [8,12,20,24], i + 4 ≤ rpcSize by decide)]
    exact replyFits_congr fun short => follow_allowed holds short
  | STATE_READ_REQ =>
    simp only [afterRead_accesses]
    exact read_allowed
  | STATE_PRCLOOKUP_PROG_MOUNT_REQ =>
    simp only [afterLookup_accesses]
    exact lookup_allowed (.inl rfl)
  | STATE_PRCLOOKUP_PROG_NFS_REQ =>
    simp only [afterLookup_accesses]
    exact lookup_allowed (.inr rfl)
  | STATE_MOUNT_REQ =>
    simp only [afterReply_accesses fun r => goTo_accesses r .STATE_LOOKUP_REQ,nfs_mount_reply,
      replyWith_allowed (show ∀ i ∈ [8,12,20,24], i + 4 ≤ rpcSize by decide)]
    exact replyFits_congr fun short => handle_allowed (.inl rfl) short
  | STATE_LOOKUP_REQ =>
    simp only [afterReply_accesses startRead_accesses,nfs_lookup_reply,
      replyWith_allowed (show ∀ i ∈ [8,12,20,24], i + 4 ≤ rpcSize by decide)]
    exact replyFits_congr fun short => handle_allowed (.inr rfl) short
  | STATE_UMOUNT_REQ =>
    simp only [afterUmount_accesses,nfs_umountall_reply,replyWith_allowed (show ∀ i ∈ [8,12,20], i + 4 ≤ rpcSize by decide)]
    exact replyFits_congr fun short => ⟨fun _ => trivial,fun _ => by simp [allAllowed_cons,allAllowed_nil,Allowed,writes]⟩

/-! ### The path over whole runs -/

def Outcome.path (o : Outcome) : List UInt8 := o.client.nfs_path_buff

theorem send_path (c : Client) : (NfsSend c).1.nfs_path_buff = c.nfs_path_buff := by
  rw [NfsSend]
  cases c.NfsState with
  | STATE_UMOUNT_REQ =>
    simp only [nfs_umountall_req]
    split_ifs <;> rfl
  | _ => rfl

theorem goTo_path (r : Reply) (state : NfsState) : Outcome.path (r.goTo state) = r.client.nfs_path_buff := send_path _

theorem stay_path (r : Reply) : Outcome.path r.stay = r.client.nfs_path_buff := rfl

theorem afterLookup_path (next : NfsState) (r : Reply) : Outcome.path (afterLookup next r) = r.client.nfs_path_buff := by
  simp only [afterLookup,apply_ite Outcome.path,goTo_path,stay_path,ite_self]

theorem afterReply_path {ok : Reply → Outcome} (same : ∀ r, Outcome.path (ok r) = r.client.nfs_path_buff) (r : Reply) :
    Outcome.path (afterReply ok r) = r.client.nfs_path_buff := by
  simp only [afterReply,apply_ite Outcome.path,goTo_path,stay_path,same,ite_self]

theorem afterUmount_path (r : Reply) : Outcome.path (afterUmount r) = r.client.nfs_path_buff := by
  simp only [afterUmount,apply_ite Outcome.path,stay_path,ite_self]

theorem afterRead_path (r : Reply) : Outcome.path (afterRead r) = r.client.nfs_path_buff := by
  rw [afterRead]
  split_ifs
  · exact send_path _
  · exact goTo_path ..
  · rw [goTo_path]
  · rw [goTo_path]

theorem startRead_path (r : Reply) : Outcome.path (startRead r) = r.client.nfs_path_buff := by
  rw [startRead,goTo_path]

theorem replyWith_path {fields : List Nat} {ok : Client → Received → Client × List Access}
    (keeps : (ok c p).1.nfs_path_buff = c.nfs_path_buff) : (replyWith fields ok c p).client.nfs_path_buff = c.nfs_path_buff := by
  obtain ⟨_,⟨-,equal⟩ | ⟨-,equal⟩ | ⟨-,-,equal⟩⟩ := replyWith_cases fields c p
  · rw [equal]
  · rw [equal]
  · rw [equal]
    exact keeps

-- The new numbers are bound first: otherwise the kernel compares them with the old ones.
theorem storePort_path (prog : BitVec 32) : (storePort prog c p).1.nfs_path_buff = c.nfs_path_buff := by
  have mount : ∀ port, ({ c with NfsSrvMountPort := port } : Client).nfs_path_buff = c.nfs_path_buff := fun _ => rfl
  have nfs : ∀ port, ({ c with NfsSrvNfsPort := port } : Client).nfs_path_buff = c.nfs_path_buff := fun _ => rfl
  unfold storePort
  by_cases first : prog = PROG_MOUNT
  · rw [if_pos first,mount]
  rw [if_neg first]
  by_cases second : prog = PROG_NFS
  · rw [if_pos second,nfs]
  · rw [if_neg second]

theorem store_path (src : List UInt8) : (store_block c src).nfs_path_buff = c.nfs_path_buff :=
  have stored : ∀ mem size, ({ c with mem := mem, NetBootFileXferSize := size } : Client).nfs_path_buff = c.nfs_path_buff :=
    fun _ _ => rfl
  stored _ _

theorem read_path : (nfs_read_reply c p).client.nfs_path_buff = c.nfs_path_buff := by
  rw [nfs_read_reply]
  split_ifs
  · rfl
  · rfl
  · rfl
  · exact store_path _

theorem readlink_holds (holds : Holds c.nfs_path_buff) (fits : ReplyFits c p [8,12,20,24] (LinkFits c p)) :
    Holds (Outcome.path (afterReply mountAgain (nfs_readlink_reply c p))) := by
  have size : rpcSize = 2048 := rfl
  rw [nfs_readlink_reply]
  obtain ⟨_,⟨-,equal⟩ | ⟨-,equal⟩ | ⟨own,zero,equal⟩⟩ := replyWith_cases [8,12,20,24] c p
  · rw [equal]
    exact holds
  · rw [equal,afterReply_error,goTo_path]
    exact holds
  obtain ⟨-,short,answer⟩ := fits
  have allowed := (follow_allowed holds short).mpr ((answer own).2 zero)
  obtain ⟨-,inside,link⟩ := (answer own).2 zero
  have again : Holds (followLink c p).1.nfs_path_buff := by
    by_cases absolute : p.byte 32 = 47
    · exact (followLink_absolute holds absolute (by omega)).2
    · rw [if_neg absolute] at link
      exact (followLink_relative holds absolute link).2
  have slash := (split_allowed again).mp (allAllowed_append.mp allowed).2
  obtain ⟨dir,name,path,last⟩ := last_slash slash
  rw [equal]
  exact (dirname_eq again path last).2.2

theorem handler_holds (holds : Holds c.nfs_path_buff) (fits : Fits c p) : Holds (Outcome.path (NfsHandler c p)) := by
  rw [Fits] at fits
  rw [NfsHandler]
  by_cases own : p.dest = c.NfsOurPort
  swap
  · rw [if_pos own]
    exact holds
  rw [imp_iff_right own] at fits
  rw [if_neg (not_not_intro own)]
  revert fits
  cases c.NfsState with
  | STATE_READLINK_REQ => exact fun fits => readlink_holds holds fits
  | STATE_PRCLOOKUP_PROG_MOUNT_REQ =>
    intro _
    rw [afterLookup_path,rpc_lookup_reply,replyWith_path (storePort_path _)]
    exact holds
  | STATE_PRCLOOKUP_PROG_NFS_REQ =>
    intro _
    rw [afterLookup_path,rpc_lookup_reply,replyWith_path (storePort_path _)]
    exact holds
  | STATE_MOUNT_REQ =>
    intro _
    rw [afterReply_path fun r => goTo_path r _,nfs_mount_reply,replyWith_path rfl]
    exact holds
  | STATE_LOOKUP_REQ =>
    intro _
    rw [afterReply_path startRead_path,nfs_lookup_reply,replyWith_path rfl]
    exact holds
  | STATE_UMOUNT_REQ =>
    intro _
    rw [afterUmount_path,nfs_umountall_reply,replyWith_path rfl]
    exact holds
  | STATE_READ_REQ =>
    intro _
    rw [afterRead_path,read_path]
    exact holds

inductive Event where
  | packet (p : Received)
  | timeout (again : NetState)

def next (c : Client) : Event → Client
  | .packet p => (NfsHandler c p).client
  | .timeout again => (NfsTimeout again c).1

/-- Every packet fits. -/
def Meets (c : Client) : Event → Prop
  | .packet p => Fits c p
  | .timeout _ => True

theorem next_holds {e : Event} (holds : Holds c.nfs_path_buff) (meets : Meets c e) : Holds (next c e).nfs_path_buff := by
  cases e with
  | packet p => exact handler_holds holds meets
  | timeout again =>
    rw [next,NfsTimeout]
    split_ifs
    · exact holds
    · rw [send_path]
      exact holds

/-- After any packets that fit and any timeouts, handling a packet is safe exactly if it fits. -/
theorem replies_safe_iff {t : Client} {events : List Event} (start : Holds c.nfs_path_buff)
    (run : Run (Guarded Meets fun c e d => d = next c e) c events t) (p : Received) :
    (∀ a ∈ (NfsHandler t p).accesses, Allowed t p a) ↔ Fits t p := by
  have holds : Holds t.nfs_path_buff := by
    refine @Run.invariant _ _ _ _ _ _ (fun t => Holds t.nfs_path_buff) run start fun t e u holds taken => ?_
    obtain ⟨meets,rfl⟩ := taken
    exact next_holds holds meets
  exact handler_allowed holds

/-- A link without a text that is taken for an absolute one: `dirname` writes in front of the buffer. -/
theorem empty_link_outside (holds : Holds c.nfs_path_buff) (state : c.NfsState = .STATE_READLINK_REQ) (own : p.dest = c.NfsOurPort)
    (answer : p.word 0 = c.rpc_id) (zero : ∀ i ∈ [8,12,20,24], p.word i = 0) (absolute : p.byte 32 = 47)
    (empty : (p.word 28).toNat = 0) : writes .nfs_path_buff (-2) 1 ∈ (NfsHandler c p).accesses := by
  obtain ⟨shown,-⟩ := followLink_absolute holds absolute (by omega)
  rw [empty] at shown
  have slash : 47 ∉ text (followLink c p).1.nfs_path_buff := by
    rw [shown]
    exact not_mem_nil
  have cut : writes .nfs_path_buff (-2) 1 ∈ followAccesses c p := by
    refine mem_append_right _ ?_
    rw [splitAccesses,basename_none slash]
    exact mem_cons_of_mem _ mem_cons_self
  rw [NfsHandler,if_neg (not_not_intro own),state]
  simp only [readlink_accesses,replyWith]
  rw [if_pos]
  · exact mem_append_right _ cut
  rcases checks_cases c p [8,12,20,24] with ⟨other,-⟩ | ⟨other,-⟩ | ⟨-,⟨⟨i,inside,set⟩,-⟩ | ⟨-,equal⟩⟩
  · exact absurd answer (not_answer (.inr other))
  · exact absurd answer (not_answer (.inl other))
  · exact absurd (zero i inside) set
  · rw [equal]

def waiting (state : NfsState) : Client where
  fs_mounted := true
  rpc_id := 1
  nfs_offset := 0
  nfs_len := NFS_READ_SIZE
  dirfh := List.replicate NFS_FHSIZE 0
  filefh := List.replicate NFS_FHSIZE 0
  nfs_download_state := .NETLOOP_FAIL
  NfsSrvMountPort := 635
  NfsSrvNfsPort := 2049
  NfsOurPort := 1000
  NfsTimeoutCount := 0
  NfsState := state
  nfs_filename := 1
  nfs_path_buff := List.replicate 2048 0
  NetBootFileXferSize := 0
  net_state := .NETLOOP_CONTINUE
  mem := fun _ => 0

/-- The reply to request 1 that was accepted: the status of the procedure, and what comes behind it. -/
def accepted (status : BitVec 32) (results : List UInt8) : Received :=
  ⟨1000,([1,1,0,0,0,0,status] : List (BitVec 32)).flatMap htonl ++ results,fun _ => 0⟩

/-- Four bytes of a file. -/
theorem four_bytes_safe :
    let p := accepted 0 (List.replicate 68 0 ++ htonl 4 ++ [1,2,3,4])
    ∀ a ∈ (NfsHandler (waiting .STATE_READ_REQ) p).accesses, Allowed (waiting .STATE_READ_REQ) p a := by
  intro p
  have holds : Holds (waiting .STATE_READ_REQ).nfs_path_buff := ⟨length_replicate,mem_replicate.mpr ⟨by decide,rfl⟩⟩
  refine (replies_safe_iff holds .start p).mpr fun _ => ⟨by decide,fun _ _ => ?_⟩
  decide

/-- A packet of 2049 bytes; the error for a directory or a link (28 bytes), of which 100 are copied; a
    length of 4096 in a packet of 100 bytes; and a link of length 0 with `/` behind it. -/
theorem replies_corrupt :
    let long : Received := ⟨1000,List.replicate 2049 0,fun _ => 0⟩
    let isdir := accepted 21 []
    let short := accepted 0 (List.replicate 68 0 ++ htonl 4096)
    let empty := accepted 0 (htonl 0 ++ [47,0,0,0])
    (writes .rpc_pkt 0 2049 ∈ (NfsHandler (waiting .STATE_MOUNT_REQ) long).accesses ∧
      ¬ Allowed (waiting .STATE_MOUNT_REQ) long (writes .rpc_pkt 0 2049)) ∧
    (reads .packet 0 100 ∈ (NfsHandler (waiting .STATE_READ_REQ) isdir).accesses ∧
      ¬ Allowed (waiting .STATE_READ_REQ) isdir (reads .packet 0 100)) ∧
    (writes .load 0 4096 ∈ (NfsHandler (waiting .STATE_READ_REQ) short).accesses ∧
      ¬ Allowed (waiting .STATE_READ_REQ) short (writes .load 0 4096)) ∧
    (writes .nfs_path_buff (-2) 1 ∈ (NfsHandler (waiting .STATE_READLINK_REQ) empty).accesses ∧
      ¬ Allowed (waiting .STATE_READLINK_REQ) empty (writes .nfs_path_buff (-2) 1)) := by
  intro long isdir short empty
  have holds : Holds (waiting .STATE_READLINK_REQ).nfs_path_buff := ⟨length_replicate,mem_replicate.mpr ⟨by decide,rfl⟩⟩
  have outside := empty_link_outside holds rfl rfl (by decide)
    (show ∀ i ∈ [8,12,20,24], empty.word i = 0 by decide) (by decide) (by decide)
  refine ⟨⟨by decide +kernel,?_⟩,⟨by decide +kernel,?_⟩,⟨by decide +kernel,?_⟩,outside,?_⟩
  all_goals simp only [Allowed,reads,writes]
  · decide
  · decide
  · decide
  · decide

end UBoot.NfsSafe
