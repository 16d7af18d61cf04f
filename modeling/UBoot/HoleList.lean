import UBoot.NetDefrag

/-!
The list of holes in `pkt_buff`: which holes are listed, in order, and what the walk and
the four ways to fix the list do to it. A back link of 0 is that of the first hole, but
also that of a second hole behind one at index 0: the code takes such a hole for the
first one, and removing or moving it drops the hole at index 0 from the list.
-/
namespace UBoot.HoleList
open List hiding keys keys_append keys_cons
open Option Chains NetDefrag
open Function (update_of_ne update_self)

/-! ### Descriptors in memory -/

/-- The descriptors as nodes, with `last_byte` as their value. -/
def nodes (payload : Nat → UInt8) (k : Nat) : Node ℕ :=
  ⟨(readHole payload k).last_byte,(readHole payload k).next_hole,(readHole payload k).prev_hole⟩

theorem u16_lt (payload : Nat → UInt8) (i : Nat) : u16 payload i < 65536 := by
  have low := (payload i).toNat_lt
  have high := (payload (i+1)).toNat_lt
  unfold u16
  omega

structure Fits (h : Hole) : Prop where
  last_byte : h.last_byte < 65536
  next_hole : h.next_hole < 65536
  prev_hole : h.prev_hole < 65536
  unused : h.unused < 65536

theorem readHole_fits (payload : Nat → UInt8) (k : Nat) : Fits (readHole payload k) :=
  ⟨u16_lt ..,u16_lt ..,u16_lt ..,u16_lt ..⟩

theorem two_bytes {v : Nat} (small : v < 65536) : (UInt8.ofNat v).toNat + 256 * (UInt8.ofNat (v / 256)).toNat = v := by
  simp only [UInt8.toNat_ofNat']
  omega

theorem readHole_writeHole_self (payload : Nat → UInt8) (k : Nat) {h : Hole} (fits : Fits h) :
    readHole (writeHole payload k h) k = h := by
  have byte : ∀ i < 8, writeHole payload k h (8 * k + i) = h.byte i := by
    intro i small
    rw [writeHole,if_pos (by omega),show (8 * k + i) % 8 = i by omega]
  have first : writeHole payload k h (8*k) = h.byte 0 := byte 0 (by omega)
  simp only [readHole,u16,Nat.add_assoc,first,byte 1 (by omega),byte 2 (by omega),byte 3 (by omega),byte 4 (by omega),
    byte 5 (by omega),byte 6 (by omega),byte 7 (by omega),Nat.reduceAdd,Hole.byte,two_bytes fits.last_byte,
    two_bytes fits.next_hole,two_bytes fits.prev_hole,two_bytes fits.unused]

theorem readHole_congr {payload payload' : Nat → UInt8} {k : Nat} (same : ∀ i, i / 8 = k → payload' i = payload i) :
    readHole payload' k = readHole payload k := by
  have byte : ∀ i < 8, payload' (8 * k + i) = payload (8 * k + i) := fun i small => same _ (by omega)
  have first : payload' (8*k) = payload (8*k) := byte 0 (by omega)
  simp only [readHole,u16,Nat.add_assoc,Nat.reduceAdd,first,byte 1 (by omega),byte 2 (by omega),byte 3 (by omega),
    byte 4 (by omega),byte 5 (by omega),byte 6 (by omega),byte 7 (by omega)]

theorem nodes_writeHole (payload : Nat → UInt8) (k : Nat) {h : Hole} (fits : Fits h) :
    nodes (writeHole payload k h) = Function.update (nodes payload) k ⟨h.last_byte,h.next_hole,h.prev_hole⟩ := by
  funext j
  by_cases same : j = k
  · subst same
    rw [update_self,nodes,readHole_writeHole_self payload j fits]
  rw [update_of_ne same,nodes,readHole_congr]
  · rfl
  · intro i here
    exact if_neg (by omega)

/-- `s'` differs from `s` only in the descriptors of `blocks` and in `first_hole`. -/
structure Kept (s s' : Defrag) (blocks : List Nat) : Prop where
  header : s'.header = s.header
  total : s'.total_len = s.total_len
  bytes : ∀ i, i / 8 ∉ blocks → s'.payload i = s.payload i

theorem Kept.refl (s : Defrag) (blocks : List Nat) : Kept s s blocks := ⟨rfl,rfl,fun _ _ => rfl⟩

theorem Kept.trans {s t u : Defrag} {a b : List Nat} (first : Kept s t a) (second : Kept t u b) : Kept s u (a ++ b) := by
  refine ⟨second.header.trans first.header,second.total.trans first.total,?_⟩
  intro i outside
  rw [mem_append,not_or] at outside
  rw [second.bytes i outside.2,first.bytes i outside.1]

theorem Kept.mono {s t : Defrag} {a b : List Nat} (kept : Kept s t a) (more : a ⊆ b) : Kept s t b :=
  ⟨kept.header,kept.total,fun i outside => kept.bytes i fun inside => outside (more inside)⟩

structure Wrote (s s' : Defrag) (k : Nat) (x : Node ℕ) : Prop where
  kept : Kept s s' [k]
  first : s'.first_hole = s.first_hole
  nodes : nodes s'.payload = Function.update (nodes s.payload) k x

theorem hole_inside {k : Nat} (s : Defrag) (inside : k < maxHoles) : s.hole k = some (readHole s.payload k) := if_pos inside

theorem setHole_wrote (s : Defrag) {k : Nat} (inside : k < maxHoles) {h : Hole} (fits : Fits h) :
    ∃ s', s.setHole k h = some s' ∧ Wrote s s' k ⟨h.last_byte,h.next_hole,h.prev_hole⟩ := by
  refine ⟨_,if_pos inside,⟨rfl,rfl,?_⟩,rfl,nodes_writeHole s.payload k fits⟩
  intro i outside
  exact if_neg (by simpa using outside)

theorem setLast_wrote (s : Defrag) {k last : Nat} (inside : k < maxHoles) (small : last < 65536) :
    ∃ s', s.setLast k last = some s' ∧ Wrote s s' k { nodes s.payload k with value := last } := by
  rw [Defrag.setLast,hole_inside s inside]
  exact setHole_wrote s inside { readHole_fits s.payload k with last_byte := small }

theorem setNext_wrote (s : Defrag) {k next : Nat} (inside : k < maxHoles) (small : next < 65536) :
    ∃ s', s.setNext k next = some s' ∧ Wrote s s' k { nodes s.payload k with next := next } := by
  rw [Defrag.setNext,hole_inside s inside]
  exact setHole_wrote s inside { readHole_fits s.payload k with next_hole := small }

theorem setPrev_wrote (s : Defrag) {k prev : Nat} (inside : k < maxHoles) (small : prev < 65536) :
    ∃ s', s.setPrev k prev = some s' ∧ Wrote s s' k { nodes s.payload k with prev := prev } := by
  rw [Defrag.setPrev,hole_inside s inside]
  exact setHole_wrote s inside { readHole_fits s.payload k with prev_hole := small }

/-! ### The list -/

/-- The holes listed in `s`: their indices, in order, and where they end. -/
structure Holes (s : Defrag) (T : List (Nat × Nat)) : Prop where
  seg : Seg (nodes s.payload) 0 0 T
  first : s.first_hole = firstOr 0 T
  sorted : (keys T).Pairwise (· < ·)
  inside : ∀ k ∈ keys T, k < maxHoles

variable {s : Defrag} {pre post T : List (Nat × Nat)} {k v newh start y : Nat}

theorem Holes.nodup (holes : Holes s T) : (keys T).Nodup := holes.sorted.imp (fun less => Nat.ne_of_lt less)

theorem Holes.small (holes : Holes s T) {k : Nat} (listed : k ∈ keys T) : k < 65536 := by
  have := holes.inside k listed
  have bound : maxHoles = 2058 := by decide
  omega

theorem hole_read (s : Defrag) {k : Nat} (inside : k < maxHoles) {x : Node ℕ} (here : nodes s.payload k = x) :
    ∃ h, s.hole k = some h ∧ h.last_byte = x.value ∧ h.next_hole = x.next ∧ h.prev_hole = x.prev ∧ Fits h := by
  subst here
  exact ⟨_,hole_inside s inside,rfl,rfl,rfl,readHole_fits ..⟩

theorem Holes.listed (holes : Holes s (pre ++ (k,v) :: post)) : k < maxHoles :=
  holes.inside k (by simp)

theorem Holes.before (holes : Holes s (pre ++ (k,v) :: post)) {j : Nat} (inPre : j ∈ keys pre) : j < k := by
  have sorted := holes.sorted
  rw [keys_append,pairwise_append] at sorted
  exact sorted.2.2 j inPre k (by simp)

theorem Holes.behind (holes : Holes s (pre ++ (k,v) :: post)) {j : Nat} (inPost : j ∈ keys post) : k < j := by
  have sorted := holes.sorted
  rw [keys_append,pairwise_append,keys_cons,pairwise_cons] at sorted
  exact sorted.2.1.1 j inPost

theorem Holes.next_zero (holes : Holes s (pre ++ (k,v) :: post)) : firstOr 0 post = 0 ↔ post = [] := by
  constructor
  · intro zero
    by_contra some
    have := holes.behind (zero ▸ firstOr_mem some)
    omega
  · rintro rfl
    rfl

theorem Holes.prev_listed (holes : Holes s (pre ++ (k,v) :: post)) (linked : lastOr 0 pre ≠ 0) :
    pre ≠ [] ∧ lastOr 0 pre ∈ keys pre ∧ lastOr 0 pre < k ∧ lastOr 0 pre < maxHoles := by
  have some : pre ≠ [] := by
    rintro rfl
    exact linked rfl
  have member := @lastOr_mem _ 0 pre some
  exact ⟨some,member,holes.before member,holes.inside _ (by simp [member])⟩

theorem Holes.next_listed (holes : Holes s (pre ++ (k,v) :: post)) (linked : firstOr 0 post ≠ 0) :
    post ≠ [] ∧ firstOr 0 post ∈ keys post ∧ k < firstOr 0 post ∧ firstOr 0 post < maxHoles := by
  have some : post ≠ [] := fun none => linked (holes.next_zero.mpr none)
  have member := @firstOr_mem _ 0 post some
  exact ⟨some,member,holes.behind member,holes.inside _ (by simp [member])⟩

theorem firstOr_le (holes : Holes s (pre ++ (k,v) :: post)) {j : Nat} (listed : j ∈ keys post) : firstOr 0 post ≤ j := by
  have sorted := holes.sorted
  rw [keys_append,pairwise_append,keys_cons,pairwise_cons] at sorted
  cases post with
  | nil => cases listed
  | cons h rest =>
    have behind := (pairwise_cons.mp sorted.2.1.2).1
    rcases mem_cons.mp listed with rfl | later
    · exact le_refl _
    · exact (behind j later).le

/-- The part of the list that stays when a hole behind `pre` is taken for the first one
    whenever its back link is 0. -/
def kept (pre : List (Nat × Nat)) : List (Nat × Nat) := if lastOr 0 pre = 0 then [] else pre

theorem Holes.of_sublist {s' : Defrag} {T' : List (Nat × Nat)} (holes : Holes s T) (seg : Seg (nodes s'.payload) 0 0 T')
    (first : s'.first_hole = firstOr 0 T') (part : T'.Sublist T) : Holes s' T' := by
  have sub : (keys T').Sublist (keys T) := part.map Prod.fst
  exact ⟨seg,first,holes.sorted.sublist sub,fun k listed => holes.inside k (sub.subset listed)⟩

/-- Removing a hole: the last one ends the packet; otherwise it leaves the list, with
    the hole at index 0 if that is all there is before it. -/
theorem removeHole_spec (holes : Holes s (pre ++ (k,v) :: post)) :
    (lastOr 0 pre = 0 ∧ post = [] ∧ removeHole s k = some (s,true)) ∨
    (¬ (lastOr 0 pre = 0 ∧ post = []) ∧ ∃ s', removeHole s k = some (s',false) ∧ Holes s' (kept pre ++ post) ∧
      Kept s s' (keys (pre ++ (k,v) :: post))) := by
  obtain ⟨segPre,here,segPost⟩ := seg_append.mp holes.seg
  obtain ⟨h,read,_,next,prev,_⟩ := hole_read s holes.listed here
  have apart := holes.nodup
  rw [keys_append,keys_cons,nodup_append,nodup_cons] at apart
  rw [removeHole,read,bind_some,next,prev,← holes.next_zero]
  by_cases first : lastOr 0 pre = 0
  · by_cases last : firstOr 0 post = 0
    · exact .inl ⟨first,last,if_pos ⟨first,last⟩⟩
    refine .inr ⟨fun both => last both.2,?_⟩
    obtain ⟨_,member,_,inside⟩ := holes.next_listed last
    obtain ⟨s',done,wrote⟩ := @setPrev_wrote { s with first_hole := firstOr 0 post } _ 0 inside (by omega)
    refine ⟨s',?_,?_,?_⟩
    · rw [if_neg (by tauto),if_pos first,done]
      rfl
    · rw [kept,if_pos first]
      refine holes.of_sublist ?_ wrote.first (by simp)
      rw [wrote.nodes]
      exact segPost.setPrev apart.2.1.2 fun _ => rfl
    · exact ⟨wrote.kept.header,wrote.kept.total,(wrote.kept.mono (by simp [member])).bytes⟩
  refine .inr ⟨fun both => first both.1,?_⟩
  obtain ⟨some,memberPre,before,insidePre⟩ := holes.prev_listed first
  have stays : kept pre = pre := if_neg first
  rw [stays]
  by_cases last : firstOr 0 post = 0
  · obtain ⟨s',done,wrote⟩ := @setNext_wrote s _ 0 insidePre (by omega)
    have none := holes.next_zero.mp last
    subst none
    refine ⟨s',?_,?_,wrote.kept.mono (by simp [memberPre])⟩
    · rw [if_neg (by tauto),if_neg first,done]
      rfl
    rw [append_nil]
    refine holes.of_sublist ?_ ?_ (by simp)
    · rw [wrote.nodes]
      exact segPre.setNext apart.1 fun _ => rfl
    rw [wrote.first,holes.first]
    cases pre with
    | nil => exact absurd rfl some
    | cons => rfl
  obtain ⟨_,memberPost,behind,insidePost⟩ := holes.next_listed last
  obtain ⟨s1,done1,wrote1⟩ := @setPrev_wrote s _ (lastOr 0 pre) insidePost (holes.small (by simp [memberPre]))
  have still : nodes s1.payload k = ⟨v,firstOr 0 post,lastOr 0 pre⟩ := by
    rw [wrote1.nodes,update_of_ne (by omega)]
    exact here
  obtain ⟨h1,read1,_,next1,prev1,_⟩ := hole_read s1 holes.listed still
  obtain ⟨s2,done2,wrote2⟩ := @setNext_wrote s1 _ (firstOr 0 post) insidePre (holes.small (by simp [memberPost]))
  refine ⟨s2,?_,?_,(wrote1.kept.trans wrote2.kept).mono (by simp [memberPre,memberPost])⟩
  · rw [if_neg (by tauto),if_neg first,if_neg last,done1,bind_some,read1,bind_some,next1,prev1,done2]
    rfl
  refine holes.of_sublist ?_ ?_ (by simp)
  · rw [seg_append,wrote2.nodes,wrote1.nodes]
    constructor
    · refine Seg.setNext (segPre.update ?_ _) apart.1 fun _ => rfl
      intro wrong
      have := holes.before wrong
      omega
    refine (segPost.setPrev apart.2.1.2 fun _ => rfl).update ?_ _
    intro wrong
    have := holes.behind wrong
    omega
  rw [wrote2.first,wrote1.first,holes.first]
  cases pre with
  | nil => exact absurd rfl some
  | cons => rfl

theorem setLast_spec (holes : Holes s (pre ++ (k,v) :: post)) (small : y < 65536) :
    ∃ s', s.setLast k y = some s' ∧ Holes s' (pre ++ (k,y) :: post) ∧ Kept s s' (keys (pre ++ (k,v) :: post)) := by
  obtain ⟨segPre,here,segPost⟩ := seg_append.mp holes.seg
  obtain ⟨s',done,wrote⟩ := setLast_wrote s holes.listed small
  have sameKeys : keys (pre ++ (k,y) :: post) = keys (pre ++ (k,v) :: post) := by simp
  refine ⟨s',done,⟨?_,?_,?_,?_⟩,wrote.kept.mono (by simp)⟩
  · rw [wrote.nodes,here,seg_append]
    refine ⟨segPre.update (fun wrong => Nat.lt_irrefl k (holes.before wrong)) _,?_,
      segPost.update (fun wrong => Nat.lt_irrefl k (holes.behind wrong)) _⟩
    exact update_self ..
  · rw [wrote.first,holes.first,firstOr_append,firstOr_append]
    rfl
  · rw [sameKeys]
    exact holes.sorted
  · rw [sameKeys]
    exact holes.inside

theorem relinkNext {s1 : Defrag} {q : Nat} (seg : Seg (nodes s1.payload) q 0 post) (apart : (keys post).Nodup)
    (zero : firstOr 0 post = 0 ↔ post = []) (inside : ∀ j ∈ keys post, j < maxHoles) (small : newh < 65536) :
    ∃ s2, (if firstOr 0 post ≠ 0 then s1.setPrev (firstOr 0 post) newh else some s1) = some s2 ∧
      Seg (nodes s2.payload) newh 0 post ∧ (∀ j, j ∉ keys post → nodes s2.payload j = nodes s1.payload j) ∧
      Kept s1 s2 (keys post) ∧ s2.first_hole = s1.first_hole := by
  by_cases last : firstOr 0 post = 0
  · obtain rfl := zero.mp last
    exact ⟨s1,if_neg (by simpa using last),trivial,fun _ _ => rfl,Kept.refl ..,rfl⟩
  have member := @firstOr_mem _ 0 post (fun none => last (zero.mpr none))
  obtain ⟨s2,done,wrote⟩ := setPrev_wrote s1 (inside _ member) small
  refine ⟨s2,by rw [if_pos last,done],?_,?_,wrote.kept.mono (by simp [member]),wrote.first⟩
  · rw [wrote.nodes]
    exact seg.setPrev apart fun _ => rfl
  intro j outside
  rw [wrote.nodes]
  apply update_of_ne
  rintro rfl
  exact outside member

theorem sorted_middle {pre post : List (Nat × Nat)} {k v w newh : Nat} (sorted : (keys (pre ++ (k,v) :: post)).Pairwise (· < ·))
    (above : k < newh) (below : ∀ j ∈ keys post, newh < j) : (keys (pre ++ (newh,w) :: post)).Pairwise (· < ·) := by
  rw [keys_append,keys_cons,pairwise_append,pairwise_cons] at sorted ⊢
  refine ⟨sorted.1,⟨below,sorted.2.1.2⟩,?_⟩
  intro a inPre b inRest
  have before := sorted.2.2 a inPre
  rcases mem_cons.mp inRest with rfl | inPost
  · have := before k mem_cons_self
    omega
  · exact before b (mem_cons_of_mem _ inPost)

theorem moveHole_spec (holes : Holes s (pre ++ (k,v) :: post)) (above : k < newh) (below : ∀ j ∈ keys post, newh < j)
    (inside : newh < maxHoles) :
    ∃ s', moveHole s k newh = some s' ∧ Holes s' (kept pre ++ (newh,v) :: post) ∧
      Kept s s' (newh :: keys (pre ++ (k,v) :: post)) := by
  obtain ⟨segPre,here,segPost⟩ := seg_append.mp holes.seg
  have apart := holes.nodup
  rw [keys_append,keys_cons,nodup_append,nodup_cons] at apart
  have small : newh < 65536 := by
    have bound : maxHoles = 2058 := by decide
    omega
  have notPost : newh ∉ keys post := fun wrong => Nat.lt_irrefl newh (below newh wrong)
  obtain ⟨h,read,last,next,prev,fits⟩ := hole_read s holes.listed here
  obtain ⟨s1,done1,wrote1⟩ := setHole_wrote s inside fits
  rw [last,next,prev] at wrote1
  have copied : nodes s1.payload newh = ⟨v,firstOr 0 post,lastOr 0 pre⟩ := by rw [wrote1.nodes,update_self]
  obtain ⟨h1,read1,_,next1,_,_⟩ := hole_read s1 inside copied
  obtain ⟨s2,done2,segPost2,others2,kept2,first2⟩ := @relinkNext post newh s1 k
    (by rw [wrote1.nodes]; exact segPost.update notPost _) apart.2.1.2 holes.next_zero
    (fun j listed => holes.inside j (by simp [listed])) small
  have copied2 := (others2 newh notPost).trans copied
  obtain ⟨h2,read2,_,_,prev2,_⟩ := hole_read s2 inside copied2
  have kept12 : Kept s s2 (newh :: keys (pre ++ (k,v) :: post)) :=
    (wrote1.kept.trans kept2).mono (by simp; intro j listed; simp [listed])
  have bounded : ∀ j ∈ keys (pre ++ (newh,v) :: post), j < maxHoles := by
    intro j listed
    rw [keys_append,keys_cons,mem_append,mem_cons] at listed
    rcases listed with inPre | rfl | inPost
    · exact holes.inside j (by simp [inPre])
    · exact inside
    · exact holes.inside j (by simp [inPost])
  have sorted := @sorted_middle pre post k v v newh holes.sorted above below
  rw [moveHole,read,bind_some,done1,bind_some,read1,bind_some,next1,done2,bind_some,read2,
    bind_some,prev2]
  by_cases first : lastOr 0 pre = 0
  · -- taken for the first hole
    have dropped : kept pre = [] := if_pos first
    rw [if_neg (by simpa using first),dropped]
    refine ⟨_,rfl,⟨?_,rfl,?_,?_⟩,kept12.header,kept12.total,kept12.bytes⟩
    · exact ⟨by rw [first] at copied2; exact copied2,segPost2⟩
    · exact sorted.sublist (by simp)
    · exact fun j listed => bounded j (by simp at listed; simp [listed])
  have stays : kept pre = pre := if_neg first
  obtain ⟨some,member,before,insidePre⟩ := holes.prev_listed first
  obtain ⟨s3,done3,wrote3⟩ := @setNext_wrote s2 _ newh insidePre small
  rw [if_pos first,stays]
  refine ⟨s3,done3,⟨?_,?_,sorted,bounded⟩,(kept12.trans wrote3.kept).mono ?_⟩
  · rw [seg_append,wrote3.nodes]
    refine ⟨?_,?_,segPost2.update (fun wrong => by have := holes.behind wrong; omega) _⟩
    · refine Seg.setNext (segPre.congr ?_) apart.1 fun _ => rfl
      intro j listed
      have low := holes.before listed
      rw [others2 j (fun wrong => by have := holes.behind wrong; omega),wrote1.nodes]
      exact update_of_ne (by omega) ..
    · rw [update_of_ne (by omega)]
      exact copied2
  · rw [wrote3.first,first2,wrote1.first,holes.first]
    cases pre with
    | nil => exact absurd rfl some
    | cons => rfl
  intro j listed
  rcases mem_append.mp listed with inside | same
  · exact inside
  · rw [mem_singleton.mp same]
    simp [member]

theorem splitHole_spec (holes : Holes s (pre ++ (k,v) :: post)) (above : k < newh) (below : ∀ j ∈ keys post, newh < j)
    (inside : newh < maxHoles) (smallStart : start < 65536) :
    ∃ s', splitHole s k newh start = some s' ∧ Holes s' (pre ++ (k,start) :: (newh,v) :: post) ∧
      Kept s s' (newh :: keys (pre ++ (k,v) :: post)) := by
  obtain ⟨segPre,here,segPost⟩ := seg_append.mp holes.seg
  have apart := holes.nodup
  rw [keys_append,keys_cons,nodup_append,nodup_cons] at apart
  have small : newh < 65536 := by
    have bound : maxHoles = 2058 := by decide
    omega
  have notPost : newh ∉ keys post := fun wrong => Nat.lt_irrefl newh (below newh wrong)
  obtain ⟨h,read,last,next,prev,fits⟩ := hole_read s holes.listed here
  obtain ⟨s1,done1,wrote1⟩ := setHole_wrote s inside fits
  rw [last,next] at wrote1
  obtain ⟨s2,done2,wrote2⟩ := setLast_wrote s1 holes.listed smallStart
  obtain ⟨s3,done3,wrote3⟩ := setNext_wrote s2 holes.listed small
  obtain ⟨s4,done4,wrote4⟩ := setPrev_wrote s3 inside (holes.small (show k ∈ _ by simp))
  have before4 : ∀ j, j ≠ newh → j ≠ k → nodes s4.payload j = nodes s.payload j := by
    intro j notNew notOld
    rw [wrote4.nodes,update_of_ne notNew,wrote3.nodes,update_of_ne notOld,wrote2.nodes,
      update_of_ne notOld,wrote1.nodes,update_of_ne notNew]
  have new4 : nodes s4.payload newh = ⟨v,firstOr 0 post,k⟩ := by
    rw [wrote4.nodes,update_self,wrote3.nodes,update_of_ne (by omega),wrote2.nodes,
      update_of_ne (by omega),wrote1.nodes,update_self]
  have old4 : nodes s4.payload k = ⟨start,newh,lastOr 0 pre⟩ := by
    rw [wrote4.nodes,update_of_ne (by omega),wrote3.nodes,update_self,wrote2.nodes,
      update_self,wrote1.nodes,update_of_ne (by omega),here]
  obtain ⟨h4,read4,_,next4,_,_⟩ := hole_read s4 inside new4
  obtain ⟨s5,done5,segPost5,others5,kept5,first5⟩ := @relinkNext post newh s4 k
    (segPost.congr fun j listed => before4 j (fun wrong => notPost (wrong ▸ listed))
      (fun wrong => by have := holes.behind listed; omega))
    apart.2.1.2 holes.next_zero (fun j listed => holes.inside j (by simp [listed])) small
  refine ⟨s5,?_,⟨?_,?_,?_,?_⟩,(((wrote1.kept.trans wrote2.kept).trans wrote3.kept).trans wrote4.kept |>.trans kept5).mono ?_⟩
  · rw [splitHole,read,bind_some,done1,bind_some,done2,bind_some,done3,bind_some,done4,
      bind_some,read4,bind_some,next4,done5]
  · rw [seg_append]
    refine ⟨?_,?_,?_,segPost5⟩
    · refine segPre.congr fun j listed => ?_
      have low := holes.before listed
      rw [others5 j (fun wrong => by have := holes.behind wrong; omega)]
      exact before4 j (by omega) (by omega)
    · rw [others5 k (fun wrong => by have := holes.behind wrong; omega)]
      exact old4
    · rw [others5 newh notPost]
      exact new4
  · rw [first5,wrote4.first,wrote3.first,wrote2.first,wrote1.first,holes.first,firstOr_append,firstOr_append]
    rfl
  · have sorted := holes.sorted
    rw [keys_append,keys_cons,pairwise_append,pairwise_cons] at sorted
    rw [keys_append,keys_cons,keys_cons,pairwise_append,pairwise_cons,pairwise_cons]
    refine ⟨sorted.1,⟨?_,below,sorted.2.1.2⟩,?_⟩
    · intro j listed
      rcases mem_cons.mp listed with rfl | inPost
      · exact above
      · exact sorted.2.1.1 j inPost
    intro a inPre b listed
    have low := holes.before inPre
    simp only [mem_cons] at listed
    rcases listed with rfl | rfl | inPost
    · exact low
    · omega
    · have := holes.behind inPost
      omega
  · intro j listed
    simp only [keys_append,keys_cons,mem_append,mem_cons] at listed
    rcases listed with inPre | rfl | rfl | inPost
    · exact holes.inside j (by simp [inPre])
    · exact holes.listed
    · exact inside
    · exact holes.inside j (by simp [inPost])
  intro j listed
  simp only [mem_append,mem_singleton] at listed
  simp only [keys_append,keys_cons,mem_cons,mem_append]
  tauto

theorem copyIn_bytes {len : Nat} {ip : List UInt8} (s : Defrag) (room : start + len ≤ IP_MAXUDP)
    (received : IP_HDR_SIZE + len ≤ ip.length) :
    ∃ s', copyIn s start len ip = some s' ∧ s'.header = s.header ∧ s'.total_len = s.total_len ∧
      s'.first_hole = s.first_hole ∧
      ∀ i, s'.payload i = if start ≤ i ∧ i < start + len then ip.getD (IP_HDR_SIZE + (i-start)) 0 else s.payload i :=
  ⟨_,if_pos (by omega),rfl,rfl,rfl,fun i => by simp⟩

theorem Holes.of_bytes {s' : Defrag} (holes : Holes s T) (first : s'.first_hole = s.first_hole)
    (same : ∀ i, i / 8 ∈ keys T → s'.payload i = s.payload i) : Holes s' T := by
  refine ⟨holes.seg.congr fun k listed => ?_,first.trans holes.first,holes.sorted,holes.inside⟩
  simp only [nodes]
  rw [readHole_congr]
  rintro i rfl
  exact same i listed

/-! ### The walk -/

theorem findHole_from {p fuel : Nat} (listed : T ≠ []) (seg : Seg (nodes s.payload) p 0 T)
    (inside : ∀ k ∈ keys T, k < maxHoles) (sorted : (keys T).Pairwise (· < ·)) (enough : T.length ≤ fuel) :
    (∃ pre k v post, T = pre ++ (k,v) :: post ∧ (∀ h ∈ pre, h.2 < start) ∧ start ≤ v ∧
      findHole s start fuel (firstOr 0 T) = some (some k)) ∨
    ((∀ h ∈ T, h.2 < start) ∧ findHole s start fuel (firstOr 0 T) = some none) := by
  induction T generalizing p fuel with
  | nil => exact absurd rfl listed
  | cons h rest ih =>
    obtain ⟨k,v⟩ := h
    obtain ⟨fuel,rfl⟩ : ∃ n, fuel = n + 1 := ⟨fuel-1,by simp at enough; omega⟩
    obtain ⟨here,segRest⟩ := seg
    rw [keys_cons,pairwise_cons] at sorted
    obtain ⟨h,read,last,next,_⟩ := hole_read s (inside k mem_cons_self) here
    rw [firstOr,findHole,read,bind_some,last,next]
    by_cases ends : v < start
    · rw [if_pos ends]
      cases rest with
      | nil =>
        refine .inr ⟨?_,if_pos rfl⟩
        intro h member
        rw [mem_singleton.mp member]
        exact ends
      | cons h' rest =>
        have positive : firstOr 0 (h' :: rest) ≠ 0 := by
          have := sorted.1 _ (@firstOr_mem _ 0 (h' :: rest) (by simp))
          omega
        rw [if_neg positive]
        rcases ih (by simp) segRest (fun j member => inside j (mem_cons_of_mem _ member)) sorted.2
            (by simp at enough ⊢; omega) with ⟨pre,j,w,post,split,before,reaches,found⟩ | ⟨all,found⟩
        · refine .inl ⟨(k,v) :: pre,j,w,post,by rw [split]; rfl,?_,reaches,found⟩
          intro h member
          rcases mem_cons.mp member with rfl | later
          · exact ends
          · exact before h later
        refine .inr ⟨?_,found⟩
        intro h member
        rcases mem_cons.mp member with rfl | later
        · exact ends
        · exact all h later
    · rw [if_neg ends]
      exact .inl ⟨[],k,v,rest,rfl,by simp,by omega,rfl⟩

theorem Holes.length_le (holes : Holes s T) : T.length ≤ maxHoles := by
  have sub : keys T ⊆ List.range maxHoles := fun k listed => mem_range.mpr (holes.inside k listed)
  have bound := (holes.nodup.subperm sub).length_le
  simpa [keys] using bound

theorem findHole_spec (holes : Holes s T) (listed : T ≠ []) (start : Nat) :
    (∃ pre k v post, T = pre ++ (k,v) :: post ∧ (∀ h ∈ pre, h.2 < start) ∧ start ≤ v ∧
      findHole s start (maxHoles+1) s.first_hole = some (some k)) ∨
    ((∀ h ∈ T, h.2 < start) ∧ findHole s start (maxHoles+1) s.first_hole = some none) := by
  rw [holes.first]
  exact findHole_from listed holes.seg holes.inside holes.sorted (by have := holes.length_le; omega)

end UBoot.HoleList
