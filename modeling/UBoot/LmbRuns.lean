import UBoot.LmbSet

/-!
Runs of `lmb_reserve` and `lmb_free` since `lmb_init`: the reserved list is the set of
addresses reserved and not freed since. Two things break it, both without an error
return: a reservation after everything was freed, where a region behind the end of the
list comes back, and freeing a block that wraps around. Right after `lmb_init` the empty
region at the head makes `lmb_is_reserved` true of every address.
-/
namespace UBoot.LmbRuns
open Option Intervals Lmb LmbSet Runs

variable {lmb after : Lmb} {base size : UInt32} {calls : List Call} {ret : Int}

inductive Call
  | reserve (base size : UInt32)
  | free (base size : UInt32)

def reservedBy : List Call → Set ℕ :=
  List.foldl (fun set call => match call with
    | .reserve base size => set ∪ (block base size).points
    | .free base size => set \ (block base size).points) ∅

theorem reservedBy_snoc (calls : List Call) (call : Call) :
    reservedBy (calls ++ [call]) = match call with
      | .reserve base size => reservedBy calls ∪ (block base size).points
      | .free base size => reservedBy calls \ (block base size).points := by
  rw [reservedBy,List.foldl_append]
  rfl

/-- A call that does not fail: a reservation of a block that is not empty, does not
    wrap and is listed or free, or the freeing of a block that is not empty. -/
inductive Step : Lmb → Call → Lmb → Prop
  | reserve (lmb after : Lmb) (base size : UInt32) (ret : Int) :
      0 < size → (block base size).hi < 2 ^ 32 →
      ((∃ i < lmb.reserved.cnt, lmb.reserved.region i = ⟨base,size⟩) ∨
        Disjoint (block base size).points (reservedSet lmb.reserved)) →
      lmb_reserve lmb base size = some (ret,after) → 0 ≤ ret → Step lmb (.reserve base size) after
  | free (lmb after : Lmb) (base size : UInt32) (ret : Int) :
      0 < size → lmb_free lmb base size = some (ret,after) → 0 ≤ ret → Step lmb (.free base size) after

/-- The condition: a block reserved in an emptied list begins before the region in slot
    0 or is that region, and no freed block wraps around. -/
def Sound (lmb : Lmb) : Call → Prop
  | .reserve base size => lmb.reserved.cnt = 0 →
      base < (lmb.reserved.region 0).base ∨ lmb.reserved.region 0 = ⟨base,size⟩
  | .free base size => base.toNat + size.toNat < 2 ^ 32

/-! ### lmb_is_reserved -/

theorem is_reserved_iff (inv : Inv lmb.reserved) (addr : UInt32) :
    lmb_is_reserved lmb addr = true ↔ addr.toNat ∈ reservedSet lmb.reserved := by
  rw [lmb_is_reserved,reservedLoop_iff]
  have same : ∀ j < lmb.reserved.cnt, (addr ≥ (lmb.reserved.region j).base ∧
      addr ≤ (lmb.reserved.region j).base + (lmb.reserved.region j).size - 1) ↔
        addr.toNat ∈ (cells lmb.reserved.region j).points := by
    intro j jIn
    have nonempty := inv.sep.nonempty j jIn
    have last : ((lmb.reserved.region j).base + (lmb.reserved.region j).size).toNat = (cells lmb.reserved.region j).hi :=
      add_toNat (inv.bounded j jIn)
    have upper : ((lmb.reserved.region j).base + (lmb.reserved.region j).size - 1).toNat =
        (cells lmb.reserved.region j).hi - 1 := by
      rw [sub_toNat (by rw [UInt32.toNat_one]; omega),last,UInt32.toNat_one]
    rw [ge_iff_le,UInt32.le_iff_toNat_le,UInt32.le_iff_toNat_le,Interval.mem_points]
    change (cells lmb.reserved.region j).lo ≤ addr.toNat ∧ _ ↔ _
    omega
  constructor
  · rintro ⟨j,_,jIn,inside⟩
    exact ⟨j,by omega,(same j (by omega)).mp inside⟩
  · rintro ⟨j,jIn,inside⟩
    exact ⟨j,by omega,by omega,(same j jIn).mpr inside⟩

/-! ### Runs -/

/-- The list `lmb_init` leaves. -/
def Dummy (rgn : LmbRegion) : Prop := rgn.cnt = 1 ∧ rgn.region 0 = ⟨0,0⟩

def Agrees (calls : List Call) (lmb : Lmb) : Prop :=
  (calls = [] ∧ Dummy lmb.reserved) ∨
    (calls ≠ [] ∧ Inv lmb.reserved ∧ reservedSet lmb.reserved = reservedBy calls)

theorem dummy_set {rgn : LmbRegion} (dummy : Dummy rgn) : reservedSet rgn = ∅ := by
  rw [reservedSet_one dummy.1,cells,dummy.2]
  ext a
  simp [block,Interval.mem_points]

theorem first_reserve (dummy : Dummy lmb.reserved) (filled : 0 < size)
    (room : (block base size).hi < 2 ^ 32) (done : lmb_reserve lmb base size = some (ret,after)) :
    Inv after.reserved ∧ reservedSet after.reserved = (block base size).points := by
  rw [lmb_reserve,lmb_add_region,if_pos ⟨dummy.1,by rw [dummy.2]⟩] at done
  obtain ⟨_,rfl⟩ := done
  exact single_inv dummy.1 (by simp) filled room

theorem first_free (dummy : Dummy lmb.reserved) (filled : 0 < size)
    (room : base.toNat + size.toNat < 2 ^ 32) (done : lmb_free lmb base size = some (ret,after)) : ret = -1 := by
  have nonempty := @lo_lt_hi base size filled
  have last := @add_toNat base size room
  have notAround : findAround base (base+size) lmb.reserved.region lmb.reserved.cnt 0 = none := by
    rw [dummy.1,findAround,dummy.2]
    have above : ¬ (base + size ≤ (0 : UInt32) + 0) := by
      rw [UInt32.le_iff_toNat_le]
      simp only [UInt32.add_zero,UInt32.toNat_zero]
      omega
    simp only [above,and_false,if_false]
    rfl
  rw [lmb_free,freeRegion,notAround] at done
  simp only [map_some,Option.some.injEq,Prod.mk.injEq] at done
  exact done.1.symm

theorem agrees_reserve (agrees : Agrees calls lmb)
    (sound : Sound lmb (.reserve base size)) (filled : 0 < size) (room : (block base size).hi < 2 ^ 32)
    (fits : (∃ i < lmb.reserved.cnt, lmb.reserved.region i = ⟨base,size⟩) ∨
      Disjoint (block base size).points (reservedSet lmb.reserved))
    (done : lmb_reserve lmb base size = some (ret,after)) (succeeded : 0 ≤ ret) :
    Inv after.reserved ∧ reservedSet after.reserved = reservedBy calls ∪ (block base size).points := by
  rcases agrees with ⟨rfl,dummy⟩ | ⟨_,inv,same⟩
  · obtain ⟨invAfter,set⟩ := first_reserve dummy filled room done
    exact ⟨invAfter,by rw [set]; simp [reservedBy]⟩
  obtain ⟨pair,added,rest⟩ := map_eq_some_iff.mp done
  obtain ⟨value,rgn⟩ := pair
  obtain ⟨rfl,rfl⟩ := Prod.mk.inj rest
  rcases Nat.eq_zero_or_pos lmb.reserved.cnt with emptied | listed
  · -- the condition decides what stands in slot 0
    obtain ⟨one,first⟩ := add_region_emptied emptied added
    have here : rgn.region 0 = ⟨base,size⟩ := by
      rw [first]
      split_ifs with before
      · rfl
      · exact (sound emptied).resolve_left before
    obtain ⟨invAfter,set⟩ := single_inv one here filled room
    have nothing : reservedBy calls = ∅ := by
      rw [← same,reservedSet,emptied]
      ext a
      simp [mem_covered]
    exact ⟨invAfter,by rw [nothing,Set.empty_union]; exact set⟩
  · have result := add_region_added inv listed filled room fits added succeeded
    exact ⟨result.inv,by rw [← same]; exact result.set⟩

theorem agrees_step {call : Call} (agrees : Agrees calls lmb) (sound : Sound lmb call)
    (step : Step lmb call after) : Agrees (calls ++ [call]) after := by
  refine .inr ⟨by simp,?_⟩
  rw [reservedBy_snoc]
  cases step with
  | reserve _ base size ret filled room fits done succeeded =>
    exact agrees_reserve agrees sound filled room fits done succeeded
  | free _ base size ret filled done succeeded =>
    rcases agrees with ⟨rfl,dummy⟩ | ⟨_,inv,same⟩
    · have failed := first_free dummy filled sound done
      omega
    obtain ⟨pair,freed,rest⟩ := map_eq_some_iff.mp done
    obtain ⟨rfl,rfl⟩ := Prod.mk.inj rest
    have result := freeRegion_freed inv filled sound freed succeeded
    exact ⟨result.inv,by rw [← same]; exact result.set⟩

theorem agrees_run (run : Run (Guarded Sound Step) (lmb_init lmb) calls after) :
    Agrees calls after := by
  apply run.relates
  · exact .inl ⟨rfl,rfl,by simp [lmb_init]⟩
  · rintro calls lmb call after agrees ⟨sound,step⟩
    exact agrees_step agrees sound step

/-- In every run since `lmb_init` whose calls meet the condition, the reserved regions
    are at most eight, in order and disjoint, they cover exactly the addresses reserved
    and not freed since, and from the first call on `lmb_is_reserved` tells them. -/
theorem reserved_list_denotes_set {lmb after : Lmb} {calls : List Call}
    (run : Run (Guarded Sound Step) (lmb_init lmb) calls after) :
    after.reserved.cnt ≤ MAX_LMB_REGIONS ∧
    (∀ i j, i < j → j < after.reserved.cnt → (after.reserved.region i).base < (after.reserved.region j).base ∧
      Disjoint (cells after.reserved.region i).points (cells after.reserved.region j).points) ∧
    reservedSet after.reserved = reservedBy calls ∧
    (calls ≠ [] → ∀ addr : UInt32, lmb_is_reserved after addr = true ↔ addr.toNat ∈ reservedBy calls) := by
  rcases agrees_run run with ⟨rfl,dummy⟩ | ⟨some,inv,same⟩
  · refine ⟨by rw [dummy.1]; decide,?_,dummy_set dummy,fun none => absurd rfl none⟩
    intro i j less jIn
    rw [dummy.1] at jIn
    omega
  refine ⟨inv.small,?_,same,fun _ addr => ?_⟩
  · intro i j less jIn
    refine ⟨UInt32.lt_iff_toNat_lt.mpr (inv.sep.lo_lt less jIn),?_⟩
    rw [Set.disjoint_left]
    intro a left right
    exact absurd (inv.sep.unique (by omega) jIn left right) (by omega)
  · rw [← same]
    exact is_reserved_iff inv addr

/-! ### Computed runs -/

def clear (rgn : LmbRegion) (base size : UInt32) : Bool :=
  (List.range rgn.cnt).all fun i =>
    (block base size).hi ≤ (cells rgn.region i).lo || (cells rgn.region i).hi ≤ (block base size).lo

theorem clear_disjoint {rgn : LmbRegion} (free : clear rgn base size = true) :
    Disjoint (block base size).points (reservedSet rgn) := by
  rw [Set.disjoint_left]
  rintro a ⟨low,high⟩ ⟨i,iIn,below,above⟩
  have side := List.all_eq_true.mp free i (List.mem_range.mpr iIn)
  simp only [Bool.or_eq_true,decide_eq_true_eq] at side
  omega

/-- A call of the kind of `Step`, `none` if it is not or fails. -/
def perform (lmb : Lmb) : Call → Option Lmb
  | .reserve base size =>
    if 0 < size ∧ base.toNat + size.toNat < 2 ^ 32 ∧ clear lmb.reserved base size then
      (lmb_reserve lmb base size).bind fun r => if 0 ≤ r.1 then some r.2 else none
    else none
  | .free base size =>
    if 0 < size then (lmb_free lmb base size).bind fun r => if 0 ≤ r.1 then some r.2 else none
    else none

theorem perform_step (lmb : Lmb) (call : Call) (after : Lmb) (done : perform lmb call = some after) : Step lmb call after := by
  cases call with
  | reserve base size =>
    rw [perform] at done
    split_ifs at done with ok
    obtain ⟨⟨ret,_⟩,reserved,rest⟩ := bind_eq_some_iff.mp done
    split_ifs at rest with succeeded
    cases rest
    exact .reserve _ _ _ _ ret ok.1 ok.2.1 (.inr (clear_disjoint ok.2.2)) reserved succeeded
  | free base size =>
    rw [perform] at done
    split_ifs at done with ok
    obtain ⟨⟨ret,_⟩,freed,rest⟩ := bind_eq_some_iff.mp done
    split_ifs at rest with succeeded
    cases rest
    exact .free _ _ _ _ ret ok freed succeeded

instance (lmb : Lmb) : (call : Call) → Decidable (Sound lmb call)
  | .reserve _ _ => inferInstanceAs (Decidable (_ → _))
  | .free _ _ => inferInstanceAs (Decidable (_ < _))

def performSound (lmb : Lmb) (call : Call) : Option Lmb := if Sound lmb call then perform lmb call else none

theorem performSound_step (lmb : Lmb) (call : Call) (after : Lmb) (done : performSound lmb call = some after) :
    Guarded Sound Step lmb call after := by
  rw [performSound] at done
  split_ifs at done with sound
  exact ⟨sound,perform_step lmb call after done⟩

/-- All of `struct lmb` is zero. -/
def zeroed : Lmb := ⟨⟨0,fun _ => ⟨0,0⟩⟩,⟨0,fun _ => ⟨0,0⟩⟩⟩

def fillAndSplit : List Call := [.reserve 16 8,.reserve 32 8,.reserve 24 8,.free 20 8]

theorem fill_and_split_denotes_set :
    ∃ after, Run (Guarded Sound Step) (lmb_init zeroed) fillAndSplit after ∧ after.reserved.cnt = 2 ∧
      ∀ addr : UInt32, lmb_is_reserved after addr = true ↔ addr.toNat ∈ reservedBy fillAndSplit := by
  have computed : (fillAndSplit.foldlM performSound (lmb_init zeroed)).map (fun after => after.reserved.cnt) = some 2 := by
    decide +kernel
  obtain ⟨after,done,two⟩ := map_eq_some_iff.mp computed
  have run := Run.ofFoldlM performSound_step done
  exact ⟨after,run,two,(reserved_list_denotes_set run).2.2.2 (by simp [fillAndSplit])⟩

def emptiedThenBehind : List Call := [.reserve 16 8,.free 16 8,.reserve 32 8]

/-- The freed block is reserved again and the new one is not. -/
theorem freed_region_comes_back :
    ∃ after, Run Step (lmb_init zeroed) emptiedThenBehind after ∧
      lmb_is_reserved after 16 = true ∧ lmb_is_reserved after 32 = false ∧
      16 ∉ reservedBy emptiedThenBehind ∧ 32 ∈ reservedBy emptiedThenBehind := by
  have computed : (emptiedThenBehind.foldlM perform (lmb_init zeroed)).map
      (fun after => (lmb_is_reserved after 16,lmb_is_reserved after 32)) = some (true,false) := by
    decide +kernel
  obtain ⟨after,done,values⟩ := map_eq_some_iff.mp computed
  obtain ⟨old,new⟩ := Prod.mk.inj values
  refine ⟨after,Run.ofFoldlM perform_step done,old,new,?_,?_⟩
  · simp [reservedBy,emptiedThenBehind,block,Interval.mem_points]
  · simp [reservedBy,emptiedThenBehind,block,Interval.mem_points]

-- freeing a block that wraps around leaves two overlapping regions
example : ([Call.reserve 16 8,.free 20 0xfffffffe].foldlM perform (lmb_init zeroed)).map
    (fun after => (after.reserved.cnt,after.reserved.region 0,after.reserved.region 1)) = some (2,⟨16,4⟩,⟨18,6⟩) := by
  decide +kernel

/-! ### Calls that fail -/

/-- Both lists of regions. -/
def listed (lmb : Lmb) : List Property × List Property :=
  ((List.range lmb.memory.cnt).map lmb.memory.region,(List.range lmb.reserved.cnt).map lmb.reserved.region)

def FailsIntact (lmb : Lmb) (base size : UInt32) : Prop :=
  ∀ call ∈ [lmb_free,lmb_reserve,lmb_add], ∀ ret after, call lmb base size = some (ret,after) → ret < 0 →
    listed after = listed lmb

/-- The table is full, and the block is not listed and touches no region. -/
def Refused (rgn : LmbRegion) (base size : UInt32) : Prop :=
  MAX_LMB_REGIONS ≤ rgn.cnt ∧ ∀ j < rgn.cnt, rgn.region j ≠ ⟨base,size⟩ ∧
    lmb_addrs_adjacent base size (rgn.region j).base (rgn.region j).size = 0

theorem add_region_refused {rgn : LmbRegion} (refused : Refused rgn base size) :
    lmb_add_region rgn base size = some (-1,rgn) := by
  obtain ⟨full,apart⟩ := refused
  have eight : 8 ≤ rgn.cnt := full
  rw [lmb_add_region,if_neg (by omega)]
  rcases coalesceLoop_cases base size rgn.region rgn.cnt 0 with
    ⟨_,j,_,inside,here⟩ | ⟨j,_,inside,_,⟨touches,_⟩ | ⟨touches,_⟩⟩ | ⟨ended,_⟩
  · exact absurd here (apart j (by omega)).1
  · have := (apart j (by omega)).2
    omega
  · have := (apart j (by omega)).2
    omega
  rw [ended]
  dsimp only
  rw [if_neg (by omega),if_neg (by simp),if_pos full]

theorem add_region_negative {rgn rgn' : LmbRegion} (done : lmb_add_region rgn base size = some (ret,rgn'))
    (negative : ret < 0) : rgn' = rgn ∧ Refused rgn base size := by
  rw [lmb_add_region] at done
  split_ifs at done
  · cases done
    omega
  have grown {i : Nat} {region : Nat → Property} (ended : coalesceLoop base size rgn.region rgn.cnt 0 = .ended i region 1) :
      False := by
    rw [ended] at done
    dsimp only at done
    rw [if_pos (show 1 ≠ 0 by decide)] at done
    split_ifs at done
    · obtain ⟨_,_,same⟩ := map_eq_some_iff.mp done
      cases same
      omega
    · cases done
      omega
  rcases coalesceLoop_cases base size rgn.region rgn.cnt 0 with
    ⟨ended,_⟩ | ⟨j,_,_,_,⟨_,ended⟩ | ⟨_,ended⟩⟩ | ⟨ended,apart,absent⟩
  · rw [ended] at done
    cases done
    omega
  · exact (grown ended).elim
  · exact (grown ended).elim
  rw [ended] at done
  dsimp only at done
  rw [if_neg (show ¬ 0 ≠ 0 by decide)] at done
  split_ifs at done with _ full
  · obtain ⟨_,_,same⟩ := map_eq_some_iff.mp done
    cases same
    omega
  · cases done
    exact ⟨rfl,full,fun j inside => ⟨absent j (by omega) (by omega),apart j (by omega) (by omega)⟩⟩
  all_goals
    cases done
    omega

/-- The block is inside of the first region around it, which has to be cut in two, and there is no place for what is
    behind the block. -/
def CutsOff (rgn : LmbRegion) (base size : UInt32) : Prop :=
  ∃ i, findAround base (base + size) rgn.region rgn.cnt 0 = some i ∧ (rgn.region i).base ≠ base ∧
    (rgn.region i).base + (rgn.region i).size ≠ base + size ∧ base ≠ (rgn.region i).base + (rgn.region i).size ∧
    Refused { rgn with region := Function.update rgn.region i ⟨(rgn.region i).base,base - (rgn.region i).base⟩ }
      (base + size) ((rgn.region i).base + (rgn.region i).size - (base + size))

/-- A call that fails leaves the lists as they were, unless it is a `lmb_free` that shortened a region and could not
    list the rest of it. -/
theorem failure_intact_iff (lmb : Lmb) (base size : UInt32) : FailsIntact lmb base size ↔ ¬ CutsOff lmb.reserved base size := by
  constructor
  · rintro intact ⟨i,found,begins,ends,inner,refused⟩
    have inside : i < lmb.reserved.cnt := by
      have := (findAround_some found).2.1
      omega
    have freed := intact lmb_free (by simp) (-1) _ (by
      rw [lmb_free,freeRegion,found]
      dsimp only
      rw [if_neg (by tauto),if_neg begins,if_neg ends,add_region_refused refused,map_some]) (by decide)
    have same := List.map_inj_left.mp (Prod.mk.inj freed).2 i (List.mem_range.mpr inside)
    dsimp only at same
    rw [Function.update_self] at same
    exact inner (by rw [← (Property.mk.inj same).2,UInt32.add_comm,UInt32.sub_add_cancel])
  intro whole call member ret after done negative
  have kept {rgn rgn' : LmbRegion} {ret' : Int} (added : lmb_add_region rgn base size = some (ret',rgn'))
      (negative : ret' < 0) : rgn' = rgn := (add_region_negative added negative).1
  simp only [List.mem_cons,List.not_mem_nil,or_false] at member
  rcases member with rfl | rfl | rfl
  all_goals obtain ⟨⟨_,rgn⟩,result,same⟩ := map_eq_some_iff.mp done; cases same
  · rw [freeRegion] at result
    dsimp only at result
    split at result
    · cases result
      rfl
    rename_i i found
    split_ifs at result with all begins ends
    · obtain ⟨_,_,same⟩ := map_eq_some_iff.mp result
      cases same
      omega
    · cases result
      omega
    · cases result
      omega
    obtain ⟨shortened,refused⟩ := add_region_negative result negative
    have inner : base = (lmb.reserved.region i).base + (lmb.reserved.region i).size := by
      by_contra inner
      exact whole ⟨i,found,begins,ends,inner,refused⟩
    rw [shortened,inner,UInt32.add_comm,UInt32.add_sub_cancel,Function.update_eq_self]
  · rw [kept result negative]
  · rw [kept result negative]

def fullTable : Lmb := ⟨⟨0,fun _ => ⟨0,0⟩⟩,⟨8,fun i => ⟨32 * UInt32.ofNat i,16⟩⟩⟩

/-- The bytes from 12 to 16 are no longer reserved. -/
theorem failed_free_cuts_off : (∀ i < 7, (fullTable.reserved.region i).base + 16 < (fullTable.reserved.region (i + 1)).base) ∧
    ∃ after, lmb_free fullTable 4 8 = some (-1,after) ∧ listed after ≠ listed fullTable ∧
      lmb_is_reserved fullTable 12 = true ∧ lmb_is_reserved after 12 = false :=
  ⟨by decide +kernel,_,rfl,by decide +kernel,by decide +kernel,by decide +kernel⟩

end UBoot.LmbRuns
