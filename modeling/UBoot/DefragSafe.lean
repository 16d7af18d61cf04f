import UBoot.DefragStep
import UBoot.Runs

/-!
Reassembly over whole runs of received packets: which packets keep every access inside
`pkt_buff` and inside the packet. The code does not check that the packet is as long as
its header, that a fragment with more to come ends on a block boundary before the end of
the buffer, that it reaches into one hole only, or that the packet in progress was not
handed on before; each of these can turn payload into links.
-/
namespace UBoot.DefragSafe
open Option Chains NetDefrag HoleList DefragStep Runs

/-- The static state, and whether the packet in progress has been handed on. -/
structure Machine where
  net : Defrag
  assembled : Bool

/-- The packet passes the checks of `NetReceive`, for some address of ours. -/
def Received (ip : List UInt8) : Prop := ∃ NetOurIP, passesNetReceive NetOurIP ip = true

/-- The packet is not a fragment, or extends too far. -/
def Unused (ip : List UInt8) : Prop := (offset8 ip = 0 ∧ moreFragments ip = false) ∨ extendsTooFar ip

instance (ip : List UInt8) : Decidable (Unused ip) := inferInstanceAs (Decidable (_ ∨ _))

def Machine.receive (m : Machine) (ip : List UInt8) : Option Machine :=
  (NetDefragment m.net ip).map fun result =>
    ⟨result.1,if Unused ip then m.assembled else result.2.isSome || (m.assembled && !decide (startsNew m.net ip))⟩

def Step (m : Machine) (ip : List UInt8) (after : Machine) : Prop := Received ip ∧ m.receive ip = some after

/-! ### The condition on a packet -/

/-- The packet in progress when the walk over the holes begins. -/
def opened (s : Defrag) (ip : List UInt8) : Option Defrag := if startsNew s ip then s.reset ip else some s

/-- The walk for a fragment at `start` comes by hole `k`. -/
inductive Visited (s : Defrag) (start : Nat) : Nat → Prop
  | first : Visited s start s.first_hole
  | next {k : Nat} : Visited s start k → (readHole s.payload k).last_byte < start →
      (readHole s.payload k).next_hole ≠ 0 → Visited s start (readHole s.payload k).next_hole

def fragmentEnd (ip : List UInt8) : Nat := 8 * offset8 ip + (ip_len ip - IP_HDR_SIZE)

/-- The fragment is as long as its header at least; if it leaves an end of the hole, that
    end begins at a block of the buffer; and it does not reach the hole behind. -/
structure FitsHole (ip : List UInt8) (h : Hole) : Prop where
  header : IP_HDR_SIZE ≤ ip_len ip
  blocks : moreFragments ip = true → fragmentEnd ip < h.last_byte →
    (ip_len ip - IP_HDR_SIZE) % 8 = 0 ∧ fragmentEnd ip < IP_MAXUDP
  oneHole : h.next_hole ≠ 0 → fragmentEnd ip ≤ 8 * h.next_hole

/-- The condition: a fragment of a packet in progress that was not handed on, and which
    fits the first hole that does not end before it, unless that hole begins behind it. -/
def Benign (m : Machine) (ip : List UInt8) : Prop :=
  Unused ip ∨ ((startsNew m.net ip ∨ m.assembled = false) ∧
    ∀ s k, opened m.net ip = some s → Visited s (8 * offset8 ip) k → 8 * offset8 ip ≤ (readHole s.payload k).last_byte →
      (k : Int) < lastBlock ip → FitsHole ip (readHole s.payload k))

/-! ### One packet -/

variable {s : Defrag} {ip : List UInt8} {pre post T : List (Nat × Nat)} {k v start : Nat} {m : Machine}

theorem Received.lengths (received : Received ip) : IP_UDP_HDR_SIZE ≤ ip.length ∧ ip_len ip ≤ ip.length := by
  obtain ⟨NetOurIP,passes⟩ := received
  simp only [passesNetReceive,Bool.and_eq_true,decide_eq_true_eq] at passes
  exact ⟨passes.1.1.1.1.1,passes.1.1.1.1.2⟩

theorem Received.piece (received : Received ip) (inside : ¬ extendsTooFar ip) (header : IP_HDR_SIZE ≤ ip_len ip) :
    Piece ip (offset8 ip) (ip_len ip - IP_HDR_SIZE) := by
  have lengths := received.lengths
  unfold extendsTooFar at inside
  exact ⟨rfl,by omega,by omega,by omega⟩

theorem visited_of_before (holes : Holes s (pre ++ (k,v) :: post)) (before : ∀ h ∈ pre, h.2 < start) : Visited s start k := by
  induction pre using List.reverseRecOn generalizing k v post with
  | nil =>
    have first : s.first_hole = k := holes.first
    exact first ▸ Visited.first
  | append_singleton pre h ih =>
    obtain ⟨j,w⟩ := h
    rw [List.append_assoc,List.singleton_append] at holes
    have here : nodes s.payload j = ⟨w,k,lastOr 0 pre⟩ := holes.seg.middle
    have last : (readHole s.payload j).last_byte = w := congrArg Node.value here
    have next : (readHole s.payload j).next_hole = k := congrArg Node.next here
    have ended : w < start := before (j,w) (by simp)
    have less : j < k := holes.behind (by simp)
    have visited := ih holes fun h member => before h (by simp [member])
    rw [← next]
    exact visited.next (by omega) (by omega)

theorem collect_safe (holes : Holes s T) (listed : T ≠ []) (ordered : Ordered T) (received : Received ip)
    (inside : ¬ extendsTooFar ip)
    (fits : ∀ k, Visited s (8 * offset8 ip) k → 8 * offset8 ip ≤ (readHole s.payload k).last_byte →
      (k : Int) < lastBlock ip → FitsHole ip (readHole s.payload k)) :
    ∃ s' r, collect s ip = some (s',r) ∧ (r.isSome = true ∨ ∃ T', T' ≠ [] ∧ Holes s' T' ∧ Ordered T') := by
  rcases collect_cases holes listed ip with ⟨dropped,_⟩ | ⟨pre,k,v,post,rfl,before,reaches,overlaps,accepted⟩
  · exact ⟨s,none,dropped,.inr ⟨T,listed,holes,ordered⟩⟩
  have here : nodes s.payload k = ⟨v,firstOr 0 post,lastOr 0 pre⟩ := holes.seg.middle
  have last : (readHole s.payload k).last_byte = v := congrArg Node.value here
  have next : (readHole s.payload k).next_hole = firstOr 0 post := congrArg Node.next here
  have fit := fits k (visited_of_before holes before) (by omega) overlaps
  have piece := received.piece inside fit.header
  have blocks := fit.blocks
  rw [last,fragmentEnd] at blocks
  -- the first hole behind is the nearest
  have oneHole : ∀ j ∈ keys post, 8 * offset8 ip + (ip_len ip - IP_HDR_SIZE) ≤ 8 * j := by
    intro j member
    have linked : firstOr 0 post ≠ 0 := by
      intro zero
      rw [holes.next_zero.mp zero] at member
      exact absurd member List.not_mem_nil
    have reach := fit.oneHole (by rw [next]; exact linked)
    have nearest := firstOr_le holes member
    rw [next,fragmentEnd] at reach
    omega
  rw [piece.lastBlock] at overlaps
  obtain ⟨s',r,done,_,_,outcome⟩ := accept_spec holes ordered piece before (by omega) oneHole blocks
  refine ⟨s',r,accepted.trans done,?_⟩
  rcases outcome with ⟨_,rfl⟩ | ⟨incomplete,_,_,list,sorted⟩
  · exact .inl rfl
  · exact .inr ⟨_,fixedList_nonempty incomplete,list,sorted⟩

/-- What holds between packets. -/
def Inv (m : Machine) : Prop :=
  m.net.total_len = 0 ∨ m.assembled = true ∨ ∃ T, T ≠ [] ∧ Holes m.net T ∧ Ordered T

theorem opened_listed (inv : Inv m) (received : Received ip) (inProgress : startsNew m.net ip ∨ m.assembled = false) :
    ∃ s T, opened m.net ip = some s ∧ T ≠ [] ∧ Holes s T ∧ Ordered T := by
  have lengths := received.lengths
  have sizes : IP_HDR_SIZE ≤ IP_UDP_HDR_SIZE := by decide
  unfold opened
  by_cases fresh : startsNew m.net ip
  · obtain ⟨s,done,list,_⟩ := reset_spec m.net (show IP_HDR_SIZE ≤ ip.length by omega)
    exact ⟨s,_,by rw [if_pos fresh,done],by simp,list,single_ordered⟩
  have running := inProgress.resolve_left fresh
  rcases inv with none | handedOn | ⟨T,listed,holes,ordered⟩
  · exact absurd (.inl none) fresh
  · rw [handedOn] at running
    cases running
  · exact ⟨m.net,T,if_neg fresh,listed,holes,ordered⟩

theorem receive_benign (inv : Inv m) (received : Received ip) (benign : Benign m ip) :
    ∃ after, m.receive ip = some after ∧ Inv after := by
  by_cases unused : Unused ip
  · have same : ∃ r, NetDefragment m.net ip = some (m.net,r) := by
      unfold NetDefragment __NetDefragment
      rcases unused with whole | far
      · exact ⟨_,if_pos whole⟩
      split_ifs
      · exact ⟨_,rfl⟩
      · exact ⟨_,rfl⟩
    obtain ⟨r,done⟩ := same
    refine ⟨m,?_,inv⟩
    rw [Machine.receive,done,map_some,if_pos unused]
  obtain ⟨inProgress,fits⟩ := benign.resolve_left unused
  obtain ⟨s,T,done,listed,holes,ordered⟩ := opened_listed inv received inProgress
  have inside : ¬ extendsTooFar ip := fun far => unused (.inr far)
  obtain ⟨s',r,collected,outcome⟩ := collect_safe holes listed ordered received inside fun k => fits s k done
  have result : NetDefragment m.net ip = some (s',r) := by
    rw [NetDefragment,if_neg (fun whole => unused (.inl whole)),__NetDefragment,if_neg inside]
    rw [opened] at done
    rw [done,bind_some,collected]
  refine ⟨_,by rw [Machine.receive,result,map_some,if_neg unused],?_⟩
  rcases outcome with complete | list
  · exact .inr (.inl (by simp [complete]))
  · exact .inr (.inr list)

/-! ### Runs -/

theorem run_inv {packets : List (List UInt8)} (idle : s.total_len = 0) (run : Run (Guarded Benign Step) ⟨s,false⟩ packets m) :
    Inv m := by
  refine run.invariant (.inl idle) ?_
  rintro t ip u inv ⟨benign,received,done⟩
  obtain ⟨after,same,kept⟩ := receive_benign inv received benign
  rw [done,Option.some.injEq] at same
  rwa [same]

/-- After any run of such packets from a state with no packet in progress, the next such
    packet is handled without an access outside `pkt_buff` or the packet, and the walk
    over the holes ends. -/
theorem packets_stay_in_bounds {packets : List (List UInt8)} (idle : s.total_len = 0)
    (run : Run (Guarded Benign Step) ⟨s,false⟩ packets m) (received : Received ip) (benign : Benign m ip) :
    ∃ s' r, NetDefragment m.net ip = some (s',r) := by
  obtain ⟨after,done,_⟩ := receive_benign (run_inv idle run) received benign
  obtain ⟨⟨s',r⟩,result,_⟩ := map_eq_some_iff.mp done
  exact ⟨s',r,result⟩

def packet (ip_len ip_id ip_off ip_sum : Nat) (data : List UInt8) : List UInt8 :=
  [0x45,0,UInt8.ofNat (ip_len / 256),UInt8.ofNat ip_len,UInt8.ofNat (ip_id / 256),UInt8.ofNat ip_id,
    UInt8.ofNat (ip_off / 256),UInt8.ofNat ip_off,64,17,UInt8.ofNat (ip_sum / 256),UInt8.ofNat ip_sum,
    10,0,0,1,10,0,0,2] ++ data

def atBoot : Defrag := ⟨[],fun _ => 0,0,0⟩

theorem visited_alone (alone : (readHole s.payload s.first_hole).next_hole = 0) (visited : Visited s start k) :
    k = s.first_hole := by
  induction visited with
  | first => rfl
  | next _ _ linked ih =>
    rw [ih] at linked
    exact absurd alone linked

def firstHalf : List UInt8 := packet 28 7 0x2000 0x46c8 [1,2,3,4,5,6,7,8]

def secondHalf : List UInt8 := packet 28 7 1 0x66c7 [9,10,11,12,13,14,15,16]

/-- Two fragments of eight bytes, in order. -/
theorem second_fragment_in_bounds :
    ∃ m, Run (Guarded Benign Step) ⟨atBoot,false⟩ [firstHalf] m ∧
      Received secondHalf ∧ Benign m secondHalf ∧ ∃ s' r, NetDefragment m.net secondHalf = some (s',r) := by
  have first : ((⟨atBoot,false⟩ : Machine).receive firstHalf).map
      (fun m => (m.assembled,m.net.first_hole,(readHole m.net.payload 1).next_hole,m.net.total_len,ip_id m.net.header)) =
        some (false,1,0,65535,7) := by decide +kernel
  obtain ⟨m,done,state⟩ := map_eq_some_iff.mp first
  simp only [Prod.mk.injEq] at state
  obtain ⟨running,firstIs,alone,total,sameId⟩ := state
  have firstBenign : Benign ⟨atBoot,false⟩ firstHalf := by
    refine .inr ⟨.inr rfl,?_⟩
    intro s k fresh visited _ _
    obtain rfl := Option.some.inj fresh
    obtain rfl := visited_alone (by decide +kernel) visited
    exact ⟨by decide +kernel,fun _ _ => by decide +kernel,fun linked => absurd linked (by decide +kernel)⟩
  have run : Run (Guarded Benign Step) ⟨atBoot,false⟩ [firstHalf] m :=
    Run.single ⟨firstBenign,⟨0,by decide +kernel⟩,done⟩
  have received : Received secondHalf := ⟨0,by decide +kernel⟩
  have benign : Benign m secondHalf := by
    refine .inr ⟨.inr running,?_⟩
    intro s k same visited _ _
    have goesOn : ¬ startsNew m.net secondHalf := by
      rw [startsNew,total,sameId]
      decide +kernel
    rw [opened,if_neg goesOn] at same
    obtain rfl := Option.some.inj same
    obtain rfl := visited_alone (by rw [firstIs]; exact alone) visited
    rw [firstIs]
    exact ⟨by decide +kernel,fun more => absurd more (by decide +kernel),fun linked => absurd alone linked⟩
  exact ⟨m,run,received,benign,packets_stay_in_bounds rfl run received benign⟩

def tooShort : List UInt8 := packet 12 7 0x2003 0x46d5 [1,2,3,4,5,6,7,8]

def atTheEnd : List UInt8 := packet 28 7 0x2809 0x3ebf [1,2,3,4,5,6,7,8]

/-- A fragment whose `ip_len` is 12 is copied with a length of -8, and one that ends
    exactly at the end of the buffer with more to come puts a descriptor behind it. -/
theorem fragments_out_of_bounds :
    (Received tooShort ∧ NetDefragment atBoot tooShort = none) ∧
      (Received atTheEnd ∧ NetDefragment atBoot atTheEnd = none) := by
  refine ⟨⟨⟨0,by decide +kernel⟩,?_⟩,⟨0,by decide +kernel⟩,?_⟩
  · exact isNone_iff_eq_none.mp (by decide +kernel)
  · exact isNone_iff_eq_none.mp (by decide +kernel)

end UBoot.DefragSafe
