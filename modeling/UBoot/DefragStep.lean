import UBoot.HoleList

/-!
What one call of the reassembly algorithm does to the list of holes, the packet's length
and the bytes collected so far.
-/
namespace UBoot.DefragStep
open List hiding keys keys_append keys_cons
open Option Chains NetDefrag HoleList

/-- Holes are not empty and lie one behind the other. -/
structure Ordered (T : List (Nat × Nat)) : Prop where
  filled : ∀ h ∈ T, 8 * h.1 < h.2
  apart : T.Pairwise fun a b => a.2 ≤ 8 * b.1

/-- A received fragment of `len` bytes at `o` blocks, inside the buffer. -/
structure Piece (ip : List UInt8) (o len : Nat) : Prop where
  offset : offset8 ip = o
  length : ip_len ip = IP_HDR_SIZE + len
  received : IP_HDR_SIZE + len ≤ ip.length
  room : 8 * o + len ≤ IP_MAXUDP

theorem Piece.header {ip : List UInt8} {o len : Nat} (piece : Piece ip o len) : IP_HDR_SIZE ≤ ip.length := by
  have := piece.received
  omega

/-- The list after a fragment from block `o` with `len` bytes was put into the hole
    `(k,v)`. -/
def fixedList (o len : Nat) (pre : List (Nat × Nat)) (k v : Nat) (post : List (Nat × Nat)) : List (Nat × Nat) :=
  if v ≤ 8 * o + len then if o ≤ k then kept pre ++ post else pre ++ (k,8 * o) :: post
  else if o ≤ k then kept pre ++ (o + len / 8,v) :: post
  else pre ++ (k,8 * o) :: (o + len / 8,v) :: post

/-- The hole is the only one left, as far as the code can tell, and the fragment fills it. -/
def Completes (o len : Nat) (pre : List (Nat × Nat)) (k v : Nat) (post : List (Nat × Nat)) : Prop :=
  o ≤ k ∧ v ≤ 8 * o + len ∧ lastOr 0 pre = 0 ∧ post = []

variable {s : Defrag} {ip : List UInt8} {o len k v : Nat} {pre post T : List (Nat × Nat)}

theorem kept_subset (pre : List (Nat × Nat)) : (kept pre).Sublist pre := by
  unfold kept
  split_ifs
  · exact nil_sublist _
  · exact List.Sublist.refl _

theorem maxHoles_eq : maxHoles = 2058 ∧ IP_MAXUDP = 16464 ∧ IP_HDR_SIZE = 20 := by decide

theorem Ordered.behind (ordered : Ordered (pre ++ (k,v) :: post)) {j : Nat} (listed : j ∈ keys post) : v ≤ 8 * j := by
  obtain ⟨h,member,rfl⟩ := mem_map.mp listed
  have apart := ordered.apart
  rw [pairwise_append,pairwise_cons] at apart
  exact apart.2.1.1 h member

/-! ### Fixing the list -/

theorem fixHoles_spec (holes : Holes s (pre ++ (k,v) :: post)) (ordered : Ordered (pre ++ (k,v) :: post))
    (overlaps : k < o + (len+7) / 8) (small : 8 * o + len ≤ IP_MAXUDP)
    (aligned : 8 * o + len < v → len % 8 = 0 ∧ 8 * o + len < IP_MAXUDP) :
    (Completes o len pre k v post ∧ fixHoles s o k len ((8 * o + len : Nat) : Int) = some (s,true)) ∨
    (¬ Completes o len pre k v post ∧ ∃ s', fixHoles s o k len ((8 * o + len : Nat) : Int) = some (s',false) ∧
      Holes s' (fixedList o len pre k v post) ∧
      Kept s s' (keys (fixedList o len pre k v post) ++ keys (pre ++ (k,v) :: post))) := by
  obtain ⟨h,read,last,_⟩ := hole_read s holes.listed holes.seg.middle
  obtain ⟨maxIs,udpIs,_⟩ := maxHoles_eq
  have newIs : newHole o (len : Int) = some (o + len / 8) := by
    congr 1
  rw [fixHoles,read,bind_some,last]
  simp only [Nat.cast_le]
  unfold fixedList Completes
  by_cases ends : v ≤ 8 * o + len
  · by_cases begins : o ≤ k
    · rw [if_pos ⟨begins,ends⟩,if_pos ends,if_pos begins]
      rcases removeHole_spec holes with ⟨first,none,done⟩ | ⟨more,s',done,list,kept⟩
      · exact .inl ⟨⟨begins,ends,first,none⟩,done⟩
      · exact .inr ⟨fun all => more all.2.2,s',done,list,kept.mono (subset_append_right ..)⟩
    rw [if_neg (fun both => begins both.1),if_pos ends,if_pos ends,if_neg begins]
    obtain ⟨s',done,list,kept⟩ := @setLast_spec s pre post k v (o*8) holes (by omega)
    rw [Nat.mul_comm o 8] at list
    exact .inr ⟨fun all => begins all.1,s',by rw [done]; rfl,list,kept.mono (subset_append_right ..)⟩
  have below : ∀ j ∈ keys post, o + len / 8 < j := by
    intro j listed
    have := ordered.behind listed
    omega
  rw [if_neg (fun both => ends both.2),if_neg ends,if_neg ends,newIs,bind_some]
  refine .inr ⟨fun all => ends all.2.1,?_⟩
  by_cases begins : o ≤ k
  · rw [if_pos begins,if_pos begins]
    obtain ⟨s',done,list,kept⟩ := moveHole_spec holes (by omega) below (by omega)
    exact ⟨s',by rw [done]; rfl,list,kept.mono (cons_subset.mpr ⟨by simp,subset_append_right ..⟩)⟩
  rw [if_neg begins,if_neg begins]
  obtain ⟨s',done,list,kept⟩ := @splitHole_spec s pre post k v (o + len / 8) (o*8) holes (by omega) below (by omega) (by omega)
  rw [Nat.mul_comm o 8] at list
  exact ⟨s',by rw [done]; rfl,list,kept.mono (cons_subset.mpr ⟨by simp,subset_append_right ..⟩)⟩

theorem fixedList_beside (ordered : Ordered (pre ++ (k,v) :: post)) (before : ∀ h ∈ pre, h.2 < 8 * o)
    (oneHole : ∀ j ∈ keys post, 8 * o + len ≤ 8 * j) (aligned : 8 * o + len < v → len % 8 = 0) {j : Nat}
    (listed : j ∈ keys (fixedList o len pre k v post)) : 8 * j + 8 ≤ 8 * o ∨ 8 * o + len ≤ 8 * j := by
  have low : ∀ j ∈ keys pre, 8 * j + 8 ≤ 8 * o := by
    intro j inPre
    obtain ⟨h,member,rfl⟩ := mem_map.mp inPre
    have filled := ordered.filled h (by simp [member])
    have := before h member
    omega
  have lowKept : ∀ j ∈ keys (kept pre), 8 * j + 8 ≤ 8 * o :=
    fun j inKept => low j (((kept_subset pre).map Prod.fst).subset inKept)
  unfold fixedList at listed
  split_ifs at listed with ends begins begins <;>
    simp only [keys_append,keys_cons,mem_append,mem_cons] at listed
  · rcases listed with inKept | inPost
    · exact .inl (lowKept j inKept)
    · exact .inr (oneHole j inPost)
  · rcases listed with inPre | rfl | inPost
    · exact .inl (low j inPre)
    · omega
    · exact .inr (oneHole j inPost)
  · rcases listed with inKept | rfl | inPost
    · exact .inl (lowKept j inKept)
    · omega
    · exact .inr (oneHole j inPost)
  rcases listed with inPre | rfl | rfl | inPost
  · exact .inl (low j inPre)
  · omega
  · omega
  · exact .inr (oneHole j inPost)

theorem fixedList_ordered (ordered : Ordered (pre ++ (k,v) :: post)) (overlaps : k < o + (len+7) / 8)
    (oneHole : ∀ j ∈ keys post, 8 * o + len ≤ 8 * j) : Ordered (fixedList o len pre k v post) := by
  obtain ⟨filled,apart⟩ := ordered
  simp only [pairwise_append,pairwise_cons,mem_cons,forall_eq_or_imp] at apart
  obtain ⟨inPre,⟨fromHole,inPost⟩,cross⟩ := apart
  have keptSub := kept_subset pre
  have oneHole' : ∀ h ∈ post, 8 * o + len ≤ 8 * h.1 := fun h member => oneHole h.1 (mem_map_of_mem member)
  have filledPre : ∀ h ∈ pre, 8 * h.1 < h.2 := fun h member => filled h (by simp [member])
  have filledPost : ∀ h ∈ post, 8 * h.1 < h.2 := fun h member => filled h (by simp [member])
  unfold fixedList
  split_ifs with ends begins begins
  · constructor
    · intro h member
      rcases mem_append.mp member with inKept | later
      · exact filledPre h (keptSub.subset inKept)
      · exact filledPost h later
    · rw [pairwise_append]
      exact ⟨inPre.sublist keptSub,inPost,fun a inKept b later => (cross a (keptSub.subset inKept)).2 b later⟩
  · constructor
    · simp only [mem_append,mem_cons]
      rintro h (member | rfl | member)
      · exact filledPre h member
      · omega
      · exact filledPost h member
    simp only [pairwise_append,pairwise_cons,mem_cons,forall_eq_or_imp]
    refine ⟨inPre,⟨?_,inPost⟩,cross⟩
    intro h member
    have := oneHole' h member
    omega
  · constructor
    · simp only [mem_append,mem_cons]
      rintro h (member | rfl | member)
      · exact filledPre h (keptSub.subset member)
      · omega
      · exact filledPost h member
    simp only [pairwise_append,pairwise_cons,mem_cons,forall_eq_or_imp]
    refine ⟨inPre.sublist keptSub,⟨fromHole,inPost⟩,fun a inKept => ?_⟩
    obtain ⟨toHole,toPost⟩ := cross a (keptSub.subset inKept)
    exact ⟨by omega,toPost⟩
  constructor
  · simp only [mem_append,mem_cons]
    rintro h (member | rfl | rfl | member)
    · exact filledPre h member
    · omega
    · omega
    · exact filledPost h member
  simp only [pairwise_append,pairwise_cons,mem_cons,forall_eq_or_imp]
  refine ⟨inPre,⟨⟨by omega,?_⟩,fromHole,inPost⟩,fun a member => ?_⟩
  · intro h member
    have := oneHole' h member
    omega
  · obtain ⟨toHole,toPost⟩ := cross a member
    exact ⟨toHole,by omega,toPost⟩

/-! ### Accepting a fragment -/

/-- The bytes of the fragment are in the buffer, and all others outside `blocks` are as
    before. -/
structure Copied (s s' : Defrag) (ip : List UInt8) (o len : Nat) (blocks : List Nat) : Prop where
  inside : ∀ i, 8 * o ≤ i → i < 8 * o + len → s'.payload i = ip.getD (IP_HDR_SIZE + (i - 8 * o)) 0
  outside : ∀ i, ¬ (8 * o ≤ i ∧ i < 8 * o + len) → i / 8 ∉ blocks → s'.payload i = s.payload i

/-- Where the hole ends once the fragment is seen: the last one truncates it. -/
def holeEnd (ip : List UInt8) (o len v : Nat) : Nat := if moreFragments ip then v else 8 * o + len

/-- `total_len` once the fragment is seen. -/
def totalLen (s : Defrag) (ip : List UInt8) (o len : Nat) : Nat := if moreFragments ip then s.total_len else 8 * o + len

theorem Holes.of_total (holes : Holes s T) (total : Nat) : Holes { s with total_len := total } T :=
  ⟨holes.seg,holes.first,holes.sorted,holes.inside⟩

theorem truncate_spec (holes : Holes s (pre ++ (k,v) :: post)) (small : 8 * o + len ≤ IP_MAXUDP) :
    ∃ s1, (if moreFragments ip then some s else { s with total_len := 8 * o + len }.setLast k (8 * o + len)) = some s1 ∧
      Holes s1 (pre ++ (k,holeEnd ip o len v) :: post) ∧ s1.total_len = totalLen s ip o len ∧ s1.header = s.header ∧
      ∀ i, i / 8 ∉ keys (pre ++ (k,v) :: post) → s1.payload i = s.payload i := by
  unfold holeEnd totalLen
  by_cases more : moreFragments ip = true
  · rw [if_pos more,if_pos more,if_pos more]
    exact ⟨s,rfl,holes,rfl,rfl,fun _ _ => rfl⟩
  rw [if_neg more,if_neg more,if_neg more]
  obtain ⟨_,udpIs,_⟩ := maxHoles_eq
  obtain ⟨s1,done,list,kept⟩ := @setLast_spec _ pre post k v (8 * o + len) (Holes.of_total holes (8 * o + len)) (by omega)
  exact ⟨s1,done,list,kept.total,kept.header,kept.bytes⟩

theorem Ordered.truncated (ordered : Ordered (pre ++ (k,v) :: post)) (overlaps : k < o + (len+7) / 8)
    (oneHole : ∀ j ∈ keys post, 8 * o + len ≤ 8 * j) : Ordered (pre ++ (k,holeEnd ip o len v) :: post) := by
  unfold holeEnd
  split_ifs with more
  · exact ordered
  obtain ⟨filled,apart⟩ := ordered
  simp only [pairwise_append,pairwise_cons,mem_cons,forall_eq_or_imp] at apart
  constructor
  · simp only [mem_append,mem_cons]
    rintro h (member | rfl | member)
    · exact filled h (by simp [member])
    · omega
    · exact filled h (by simp [member])
  simp only [pairwise_append,pairwise_cons,mem_cons,forall_eq_or_imp]
  refine ⟨apart.1,⟨?_,apart.2.1.2⟩,apart.2.2⟩
  intro h member
  exact oneHole h.1 (mem_map_of_mem member)

theorem accept_spec (holes : Holes s (pre ++ (k,v) :: post)) (ordered : Ordered (pre ++ (k,v) :: post)) (piece : Piece ip o len)
    (before : ∀ h ∈ pre, h.2 < 8 * o) (overlaps : k < o + (len+7) / 8) (oneHole : ∀ j ∈ keys post, 8 * o + len ≤ 8 * j)
    (aligned : moreFragments ip = true → 8 * o + len < v → len % 8 = 0 ∧ 8 * o + len < IP_MAXUDP) :
    ∃ s' r, accept s ip k = some (s',r) ∧ s'.total_len = totalLen s ip o len ∧
      Copied s s' ip o len (keys (fixedList o len pre k (holeEnd ip o len v) post) ++ keys (pre ++ (k,v) :: post)) ∧
      ((Completes o len pre k (holeEnd ip o len v) post ∧ r = some (totalLen s ip o len + IP_HDR_SIZE)) ∨
        (¬ Completes o len pre k (holeEnd ip o len v) post ∧ r = none ∧ s'.header = s.header ∧
          Holes s' (fixedList o len pre k (holeEnd ip o len v) post) ∧
          Ordered (fixedList o len pre k (holeEnd ip o len v) post))) := by
  obtain ⟨s1,truncated,list1,total1,header1,bytes1⟩ := @truncate_spec s ip o len k v pre post holes piece.room
  have ordered1 := @Ordered.truncated ip o len k v pre post ordered overlaps oneHole
  have aligned1 : 8 * o + len < holeEnd ip o len v → len % 8 = 0 ∧ 8 * o + len < IP_MAXUDP := by
    unfold holeEnd
    split_ifs with more
    · exact aligned more
    · omega
  have lenIs : (ip_len ip : Int) - IP_HDR_SIZE = len := by rw [piece.length]; omega
  have lastIs : ((offset8 ip * 8 : Nat) : Int) + len = ((8 * o + len : Nat) : Int) := by rw [piece.offset]; omega
  have unfolded : accept s ip k = (fixHoles s1 o k len ((8 * o + len : Nat) : Int)).bind fun fixed =>
      (copyIn fixed.1 (8*o) len ip).map fun s =>
        if fixed.2 then
          ({ s with header := (s.header.set 2 (UInt8.ofNat (s.total_len / 256))).set 3 (UInt8.ofNat s.total_len) },
            some (s.total_len+IP_HDR_SIZE))
        else (s,none) := by
    rw [accept]
    simp only [lenIs,lastIs,Int.toNat_natCast]
    rw [truncated,bind_some,piece.offset,Nat.mul_comm o 8]
  rw [unfolded]
  rcases @fixHoles_spec s1 o len k (holeEnd ip o len v) pre post list1 ordered1 overlaps piece.room aligned1 with
    ⟨complete,fixed⟩ | ⟨incomplete,s2,fixed,list2,kept2⟩
  · obtain ⟨s3,copied,_,total3,_,bytes3⟩ := copyIn_bytes s1 piece.room piece.received
    rw [fixed,bind_some,copied]
    refine ⟨_,_,rfl,total3.trans total1,⟨?_,?_⟩,.inl ⟨complete,?_⟩⟩
    · intro i low high
      exact (bytes3 i).trans (if_pos ⟨low,high⟩)
    · intro i off notListed
      refine ((bytes3 i).trans (if_neg off)).trans (bytes1 i ?_)
      exact fun listed => notListed (mem_append_right _ listed)
    · rw [total3,total1]
  obtain ⟨s3,copied,header3,total3,first3,bytes3⟩ := copyIn_bytes s2 piece.room piece.received
  rw [fixed,bind_some,copied]
  refine ⟨s3,none,rfl,(total3.trans kept2.total).trans total1,⟨?_,?_⟩,.inr ⟨incomplete,rfl,?_,?_,?_⟩⟩
  · intro i low high
    exact (bytes3 i).trans (if_pos ⟨low,high⟩)
  · intro i off notListed
    rw [bytes3 i,if_neg off,kept2.bytes i (by simpa using notListed),
      bytes1 i (fun listed => notListed (mem_append_right _ listed))]
  · rw [header3,kept2.header,header1]
  · refine list2.of_bytes first3 ?_
    intro i listed
    have beside := fixedList_beside ordered1 before oneHole (fun more => (aligned1 more).1) listed
    rw [bytes3 i,if_neg (by omega)]
  · exact fixedList_ordered ordered1 overlaps oneHole

/-- The block behind the fragment, as the code counts it. -/
def lastBlock (ip : List UInt8) : Int := offset8 ip + ((ip_len ip : Int) - IP_HDR_SIZE + 7).tdiv 8

theorem Piece.lastBlock (piece : Piece ip o len) : lastBlock ip = ((o + (len+7) / 8 : Nat) : Int) := by
  have lenIs : (ip_len ip : Int) - IP_HDR_SIZE = len := by rw [piece.length]; omega
  rw [DefragStep.lastBlock,piece.offset,Int.tdiv_eq_ediv_of_nonneg (by omega)]
  omega

/-- The walk ends, and the fragment is dropped or accepted at the first hole that does
    not end before it. -/
theorem collect_cases (holes : Holes s T) (listed : T ≠ []) (ip : List UInt8) :
    (collect s ip = some (s,none) ∧ ((∀ h ∈ T, h.2 < 8 * offset8 ip) ∨
      ∃ pre, ∃ k v : Nat, ∃ post, T = pre ++ (k,v) :: post ∧ (∀ h ∈ pre, h.2 < 8 * offset8 ip) ∧ 8 * offset8 ip ≤ v ∧ lastBlock ip ≤ (k : Int))) ∨
    (∃ pre, ∃ k v : Nat, ∃ post, T = pre ++ (k,v) :: post ∧ (∀ h ∈ pre, h.2 < 8 * offset8 ip) ∧ 8 * offset8 ip ≤ v ∧ (k : Int) < lastBlock ip ∧
      collect s ip = accept s ip k) := by
  rw [collect]
  simp only [Nat.mul_comm (offset8 ip) 8]
  rcases findHole_spec holes listed (8 * offset8 ip) with ⟨pre,k,v,post,split,before,reaches,found⟩ | ⟨all,found⟩
  · rw [found]
    by_cases dropped : lastBlock ip ≤ k
    · exact .inl ⟨if_pos dropped,.inr ⟨pre,k,v,post,split,before,reaches,dropped⟩⟩
    · exact .inr ⟨pre,k,v,post,split,before,reaches,not_le.mp dropped,if_neg dropped⟩
  · rw [found]
    exact .inl ⟨rfl,.inl all⟩

theorem fixedList_nonempty (incomplete : ¬ Completes o len pre k v post) : fixedList o len pre k v post ≠ [] := by
  unfold fixedList
  split_ifs with ends begins
  · intro none
    rw [append_eq_nil_iff] at none
    refine incomplete ⟨begins,ends,?_,none.2⟩
    by_contra linked
    rw [kept,if_neg linked] at none
    rw [none.1] at linked
    exact linked rfl
  all_goals simp

/-! ### A new packet -/

theorem reset_spec (s : Defrag) (received : IP_HDR_SIZE ≤ ip.length) :
    ∃ s', s.reset ip = some s' ∧ Holes s' [(0,65535)] ∧ s'.header = ip.take IP_HDR_SIZE ∧ s'.total_len = 65535 := by
  refine ⟨_,if_pos received,⟨⟨?_,trivial⟩,rfl,pairwise_singleton ..,by simp [keys,maxHoles_eq.1]⟩,rfl,rfl⟩
  have fits : Fits { readHole s.payload 0 with last_byte := 0xffff, next_hole := 0, prev_hole := 0 } :=
    ⟨by simp,by simp,by simp,(readHole_fits s.payload 0).unused⟩
  exact (congrFun (nodes_writeHole s.payload 0 fits) 0).trans (Function.update_self ..)

theorem single_ordered : Ordered [(0,65535)] := ⟨by simp,pairwise_singleton ..⟩

end UBoot.DefragStep
