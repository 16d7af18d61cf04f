import UBoot.Intervals
import UBoot.Lmb
import UBoot.Runs

/-!
The reserved list as a set of addresses. A region stands for the half-open interval of
its addresses; the listed ones are kept in order and apart, so that adding and freeing
are union and difference of sets.
-/
namespace UBoot.LmbSet
open Intervals Lmb Runs
open Function (update_of_ne update_self)

variable {rgn after : LmbRegion} {j i : Nat} {ret : Int}

/-- The addresses from `base` on, `size` of them. -/
def block (base size : UInt32) : Intervals.Interval ℕ := ⟨base.toNat,base.toNat + size.toNat⟩

def cells (region : Nat → Property) (i : Nat) : Intervals.Interval ℕ := block (region i).base (region i).size

/-- A list that describes its set: in order, apart, and clear of the end of the
    address space. -/
structure Inv (rgn : LmbRegion) : Prop where
  small : rgn.cnt ≤ MAX_LMB_REGIONS
  sep : Separated (cells rgn.region) rgn.cnt
  bounded : ∀ i < rgn.cnt, (cells rgn.region i).hi < 2 ^ 32

def reservedSet (rgn : LmbRegion) : Set ℕ := covered (cells rgn.region) rgn.cnt

variable {base size base2 size2 : UInt32} {region : Nat → Property}

/-! ### Arithmetic without wrap-around -/

theorem add_toNat (room : (block base size).hi < 2 ^ 32) : (base+size).toNat = (block base size).hi := by
  exact Nat.mod_eq_of_lt room

theorem lo_lt_hi (filled : 0 < size) : (block base size).lo < (block base size).hi := by
  have positive := UInt32.lt_iff_toNat_lt.mp filled
  simp only [block]
  omega

theorem adjacent_pos_iff (room : (block base size).hi < 2 ^ 32) :
    lmb_addrs_adjacent base size base2 size2 > 0 ↔ (block base2 size2).lo = (block base size).hi := by
  rw [← add_toNat room]
  unfold lmb_addrs_adjacent
  simp only [block,UInt32.toNat_inj]
  split_ifs <;> simp_all

theorem adjacent_neg_iff (room : (block base size).hi < 2 ^ 32) (room2 : (block base2 size2).hi < 2 ^ 32) :
    lmb_addrs_adjacent base size base2 size2 < 0 ↔
      (block base2 size2).lo ≠ (block base size).hi ∧ (block base size).lo = (block base2 size2).hi := by
  rw [← add_toNat room,← add_toNat room2]
  unfold lmb_addrs_adjacent
  simp only [block,UInt32.toNat_inj,ne_eq]
  split_ifs <;> simp_all

theorem adjacent_zero_iff (room : (block base size).hi < 2 ^ 32) (room2 : (block base2 size2).hi < 2 ^ 32) :
    lmb_addrs_adjacent base size base2 size2 = 0 ↔
      (block base2 size2).lo ≠ (block base size).hi ∧ (block base size).lo ≠ (block base2 size2).hi := by
  rw [← add_toNat room,← add_toNat room2]
  unfold lmb_addrs_adjacent
  simp only [block,UInt32.toNat_inj,ne_eq]
  split_ifs <;> simp_all

/-! ### The loops -/

theorem shiftDown_apply (n i : Nat) (region : Nat → Property) (j : Nat) :
    shiftDown n i region j = if i ≤ j ∧ j < i + n then region (j+1) else region j := by
  induction n generalizing i region with
  | zero => rw [shiftDown,if_neg (by omega)]
  | succ n ih =>
    rw [shiftDown,ih]
    by_cases first : j = i
    · subst first
      rw [if_neg (by omega),if_pos (by omega),update_self]
    rw [update_of_ne first]
    by_cases later : i ≤ j ∧ j < i + (n+1)
    · rw [if_pos (by omega),if_pos later,update_of_ne (by omega)]
    · rw [if_neg (by omega),if_neg later]

theorem coalesceLoop_cases (base size : UInt32) (region : Nat → Property) (n i : Nat) :
    (coalesceLoop base size region n i = .present ∧ ∃ j, i ≤ j ∧ j < i + n ∧ region j = ⟨base,size⟩) ∨
    (∃ j, i ≤ j ∧ j < i + n ∧
      (∀ l, i ≤ l → l < j → lmb_addrs_adjacent base size (region l).base (region l).size = 0) ∧
      ((lmb_addrs_adjacent base size (region j).base (region j).size > 0 ∧
          coalesceLoop base size region n i =
            .ended j (Function.update region j ⟨(region j).base - size,(region j).size + size⟩) 1) ∨
        (lmb_addrs_adjacent base size (region j).base (region j).size < 0 ∧
          coalesceLoop base size region n i =
            .ended j (Function.update region j ⟨(region j).base,(region j).size + size⟩) 1))) ∨
    (coalesceLoop base size region n i = .ended (i+n) region 0 ∧
      (∀ l, i ≤ l → l < i + n → lmb_addrs_adjacent base size (region l).base (region l).size = 0) ∧
      ∀ l, i ≤ l → l < i + n → region l ≠ ⟨base,size⟩) := by
  induction n generalizing i with
  | zero => exact .inr (.inr ⟨rfl,fun l low high => by omega,fun l low high => by omega⟩)
  | succ n ih =>
    rw [coalesceLoop]
    dsimp only
    split_ifs with same front back
    · refine .inl ⟨rfl,i,le_refl i,by omega,?_⟩
      rw [← same.1,← same.2]
    · exact .inr (.inl ⟨i,le_refl i,by omega,fun l low high => by omega,.inl ⟨front,rfl⟩⟩)
    · exact .inr (.inl ⟨i,le_refl i,by omega,fun l low high => by omega,.inr ⟨back,rfl⟩⟩)
    have apart : lmb_addrs_adjacent base size (region i).base (region i).size = 0 := by omega
    have earlier : ∀ j, (∀ l, i + 1 ≤ l → l < j → lmb_addrs_adjacent base size (region l).base (region l).size = 0) →
        ∀ l, i ≤ l → l < j → lmb_addrs_adjacent base size (region l).base (region l).size = 0 := by
      intro j rest l low high
      rcases Nat.eq_or_lt_of_le low with rfl | later
      · exact apart
      · exact rest l later high
    rcases ih (i+1) with ⟨ended,j,low,high,found⟩ | ⟨j,low,high,before,ended⟩ | ⟨ended,all,absent⟩
    · exact .inl ⟨ended,j,by omega,by omega,found⟩
    · exact .inr (.inl ⟨j,by omega,by omega,earlier j before,ended⟩)
    rw [show i + 1 + n = i + (n+1) by omega] at ended all absent
    refine .inr (.inr ⟨ended,earlier _ all,?_⟩)
    intro l low high found
    rcases Nat.eq_or_lt_of_le low with rfl | later
    · exact same ⟨by rw [found],by rw [found]⟩
    · exact absent l later high found

theorem insertLoop_above (base size : UInt32) (n : Nat) (region : Nat → Property) (j : Nat) (above : n < j) :
    insertLoop base size n region j = region j := by
  induction n generalizing region with
  | zero => rfl
  | succ n ih =>
    rw [insertLoop]
    split_ifs
    · rw [ih _ (by omega),update_of_ne (by omega)]
    · exact update_of_ne (by omega) ..

/-- Where the second loop stops: the regions from `k` on begin behind the new one and
    have moved up. -/
theorem insertLoop_spec (base size : UInt32) (n : Nat) (region : Nat → Property) :
    ∃ k ≤ n, (∀ j, k ≤ j → j < n → base < (region j).base) ∧ (∀ j < k, insertLoop base size n region j = region j) ∧
      (∀ j, k ≤ j → j < n → insertLoop base size n region (j+1) = region j) ∧
      ((k = 0 ∧ insertLoop base size n region 0 = region 0) ∨
        (0 < k ∧ ¬ base < (region (k-1)).base ∧ insertLoop base size n region k = ⟨base,size⟩)) := by
  induction n generalizing region with
  | zero => exact ⟨0,le_refl 0,fun j _ high => by omega,fun j low => by omega,fun j _ high => by omega,.inl ⟨rfl,rfl⟩⟩
  | succ n ih =>
    rw [insertLoop]
    split_ifs with before
    · obtain ⟨k,kIn,behind,kept,moved,placed⟩ := ih (Function.update region (n+1) (region n))
      have same : ∀ j < n + 1, Function.update region (n+1) (region n) j = region j :=
        fun j low => update_of_ne (by omega) ..
      refine ⟨k,by omega,?_,?_,?_,?_⟩
      · intro j low high
        rcases Nat.lt_succ_iff_lt_or_eq.mp high with inside | rfl
        · rw [← same j high]
          exact behind j low inside
        · exact before
      · intro j low
        rw [kept j low,same j (by omega)]
      · intro j low high
        rcases Nat.lt_succ_iff_lt_or_eq.mp high with inside | rfl
        · rw [moved j low inside,same j high]
        · -- the cell above the loop's range is the one just written
          rw [insertLoop_above _ _ _ _ _ (by omega),update_self]
      rcases placed with ⟨zero,first⟩ | ⟨positive,notBefore,here⟩
      · exact .inl ⟨zero,by rw [first,same 0 (by omega)]⟩
      · exact .inr ⟨positive,by rwa [same (k-1) (by omega)] at notBefore,here⟩
    refine ⟨n+1,le_refl _,fun j low high => by omega,?_,fun j low high => by omega,.inr ⟨by omega,before,?_⟩⟩
    · intro j low
      exact update_of_ne (by omega) ..
    · exact update_self ..

theorem findAround_some {base last : UInt32} {region : Nat → Property} {n k : Nat}
    (found : findAround base last region n i = some k) :
    i ≤ k ∧ k < i + n ∧ (region k).base ≤ base ∧ last ≤ (region k).base + (region k).size := by
  induction n generalizing i with
  | zero => cases found
  | succ n ih =>
    rw [findAround] at found
    split_ifs at found with around
    · cases found
      exact ⟨le_refl _,by omega,around⟩
    · obtain ⟨low,high,rest⟩ := ih found
      exact ⟨by omega,by omega,rest⟩

theorem reservedLoop_iff (addr : UInt32) (region : Nat → Property) (n i : Nat) :
    reservedLoop addr region n i = true ↔ ∃ j, i ≤ j ∧ j < i + n ∧
      addr ≥ (region j).base ∧ addr ≤ (region j).base + (region j).size - 1 := by
  induction n generalizing i with
  | zero =>
    refine iff_of_false (by simp [reservedLoop]) ?_
    omega
  | succ n ih =>
    rw [reservedLoop]
    split_ifs with inside
    · exact iff_of_true rfl ⟨i,le_refl i,by omega,inside⟩
    rw [ih]
    constructor
    · rintro ⟨j,low,high,here⟩
      exact ⟨j,by omega,by omega,here⟩
    rintro ⟨j,low,high,here⟩
    rcases Nat.eq_or_lt_of_le low with rfl | later
    · exact absurd here inside
    · exact ⟨j,later,by omega,here⟩

/-! ### One region more -/

structure Added (rgn after : LmbRegion) (base size : UInt32) : Prop where
  inv : Inv after
  set : reservedSet after = reservedSet rgn ∪ (block base size).points

theorem Inv.size_pos (inv : Inv rgn) (inside : i < rgn.cnt) : (rgn.region i).size ≠ 0 := by
  intro zero
  have filled := inv.sep.nonempty i inside
  simp [cells,block,zero] at filled

theorem cells_update_self (region : Nat → Property) (i : Nat) (p : Property) :
    cells (Function.update region i p) i = block p.base p.size := by simp [cells]

theorem cells_update_ne (region : Nat → Property) (p : Property) (other : j ≠ i) :
    cells (Function.update region i p) j = cells region j := by simp [cells,other]

theorem replaced {rgn : LmbRegion} (inv : Inv rgn) {i : Nat} (iIn : i < rgn.cnt) (p : Property)
    (room : (block p.base p.size).hi < 2 ^ 32) (filled : (block p.base p.size).lo < (block p.base p.size).hi)
    (left : ∀ j < i, (cells rgn.region j).hi < (block p.base p.size).lo)
    (right : ∀ j, i < j → j < rgn.cnt → (block p.base p.size).hi < (cells rgn.region j).lo) :
    Inv { rgn with region := Function.update rgn.region i p } ∧
      reservedSet { rgn with region := Function.update rgn.region i p } =
        (reservedSet rgn \ (cells rgn.region i).points) ∪ (block p.base p.size).points := by
  obtain ⟨sep,set⟩ := inv.sep.replaced iIn (cells_update_self rgn.region i p)
    (fun j _ other => cells_update_ne rgn.region p other) filled left right
  refine ⟨⟨inv.small,sep,?_⟩,set⟩
  intro j jIn
  by_cases same : j = i
  · subst same
    rwa [cells_update_self]
  · rw [cells_update_ne rgn.region p same]
    exact inv.bounded j jIn

theorem removed (inv : Inv rgn) {r : Nat} (rIn : r < rgn.cnt)
    (done : lmb_remove_region rgn r = some after) :
    Inv after ∧ reservedSet after = reservedSet rgn \ (cells rgn.region r).points := by
  rw [lmb_remove_region,if_neg (by omega)] at done
  obtain rfl := Option.some.inj done
  have before : ∀ j < r, cells (shiftDown (rgn.cnt - 1 - r) r rgn.region) j = cells rgn.region j := by
    intro j low
    rw [cells,shiftDown_apply,if_neg (by omega)]
    rfl
  have behind : ∀ j, r ≤ j → j + 1 < rgn.cnt →
      cells (shiftDown (rgn.cnt - 1 - r) r rgn.region) j = cells rgn.region (j+1) := by
    intro j low high
    rw [cells,shiftDown_apply,if_pos (by omega)]
    rfl
  obtain ⟨sep,set⟩ := inv.sep.removed rIn before behind
  refine ⟨⟨?_,sep,?_⟩,set⟩
  · have := inv.small
    simp only
    omega
  intro j jIn
  simp only at jIn
  by_cases low : j < r
  · rw [before j low]
    exact inv.bounded j (by omega)
  · rw [behind j (by omega) (by omega)]
    exact inv.bounded (j+1) (by omega)

/-- A block that is not empty, does not wrap and is free. -/
structure Free (rgn : LmbRegion) (base size : UInt32) : Prop where
  filled : (block base size).lo < (block base size).hi
  room : (block base size).hi < 2 ^ 32
  free : Disjoint (block base size).points (reservedSet rgn)

theorem Free.side (new : Free rgn base size) (inv : Inv rgn) (iIn : i < rgn.cnt) :
    (block base size).hi ≤ (cells rgn.region i).lo ∨ (cells rgn.region i).hi ≤ (block base size).lo :=
  inv.sep.side new.filled new.free iIn

theorem cell_subset (iIn : i < rgn.cnt) : (cells rgn.region i).points ⊆ reservedSet rgn :=
  fun _ member => ⟨i,iIn,member⟩

theorem grow_set {S part new whole : Set ℕ} (inside : part ⊆ S) (grown : whole = part ∪ new) :
    (S \ part) ∪ whole = S ∪ new := by
  rw [grown,← Set.union_assoc,Set.sdiff_union_of_subset inside]

theorem front_added (inv : Inv rgn) (new : Free rgn base size) (jIn : j < rgn.cnt)
    (touches : (cells rgn.region j).lo = (block base size).hi)
    (before : ∀ l < j, (block base size).lo ≠ (cells rgn.region l).hi) :
    let p : Property := ⟨(rgn.region j).base - size,(rgn.region j).size + size⟩
    block p.base p.size = ⟨(block base size).lo,(cells rgn.region j).hi⟩ ∧
      Added rgn { rgn with region := Function.update rgn.region j p } base size := by
  intro p
  have bounded := inv.bounded j jIn
  have nonempty := inv.sep.nonempty j jIn
  have filled := new.filled
  have whole : block p.base p.size = ⟨(block base size).lo,(cells rgn.region j).hi⟩ := by
    simp only [block,cells,p] at *
    have low : ((rgn.region j).base - size).toNat = base.toNat := by
      rw [UInt32.toNat_sub_of_le]
      · omega
      · rw [UInt32.le_iff_toNat_le]; omega
    have sum : ((rgn.region j).size + size).toNat = (rgn.region j).size.toNat + size.toNat := by
      rw [UInt32.toNat_add]
      exact Nat.mod_eq_of_lt (by omega)
    congr 1
    omega
  refine ⟨whole,?_⟩
  obtain ⟨invAfter,set⟩ := replaced inv jIn p (by rw [whole]; exact bounded) (by rw [whole]; simp only; omega)
    (by
      intro l low
      rw [whole]
      have order := inv.sep.lo_lt low jIn
      have side := new.side inv (show l < rgn.cnt by omega)
      have apart := before l low
      simp only
      omega)
    (by
      intro l high lIn
      rw [whole]
      exact inv.sep.gap j l high lIn)
  refine ⟨invAfter,set.trans (grow_set (cell_subset jIn) ?_)⟩
  rw [whole]
  ext a
  simp only [Interval.mem_points,Set.mem_union]
  omega

theorem back_block (new : Free rgn base size) (touches : (block base size).lo = (cells rgn.region j).hi) :
    block (rgn.region j).base ((rgn.region j).size + size) = ⟨(cells rgn.region j).lo,(block base size).hi⟩ := by
  have room := new.room
  simp only [block,cells] at *
  have sum : ((rgn.region j).size + size).toNat = (rgn.region j).size.toNat + size.toNat := by
    rw [UInt32.toNat_add]
    exact Nat.mod_eq_of_lt (by omega)
  congr 1
  omega

theorem back_right (inv : Inv rgn) (new : Free rgn base size)
    (touches : (block base size).lo = (cells rgn.region j).hi) {l : Nat} (high : j < l) (lIn : l < rgn.cnt) :
    (block base size).hi ≤ (cells rgn.region l).lo := by
  have gap := inv.sep.gap j l high lIn
  have nonempty := inv.sep.nonempty l lIn
  have side := new.side inv lIn
  omega

theorem back_added (inv : Inv rgn) (new : Free rgn base size) (jIn : j < rgn.cnt)
    (touches : (block base size).lo = (cells rgn.region j).hi)
    (short : j + 1 < rgn.cnt → (cells rgn.region (j+1)).lo ≠ (block base size).hi) :
    Added rgn { rgn with region := Function.update rgn.region j ⟨(rgn.region j).base,(rgn.region j).size + size⟩ }
      base size := by
  have whole := back_block new touches
  have nonempty := inv.sep.nonempty j jIn
  have filled := new.filled
  obtain ⟨invAfter,set⟩ := replaced inv jIn ⟨(rgn.region j).base,(rgn.region j).size + size⟩
    (by rw [whole]; exact new.room) (by rw [whole]; simp only; omega)
    (by intro l low; exact inv.sep.gap l j low jIn)
    (by
      intro l high lIn
      rw [whole]
      have reach := back_right inv new touches high lIn
      rcases Nat.eq_or_lt_of_le (Nat.succ_le_of_lt high) with rfl | later
      · exact lt_of_le_of_ne reach (Ne.symm (short lIn))
      have order := inv.sep.lo_lt later lIn
      have next := back_right inv new touches (Nat.lt_succ_self j) (by omega)
      simp only at *
      omega)
  refine ⟨invAfter,set.trans (grow_set (cell_subset jIn) ?_)⟩
  rw [whole]
  ext a
  simp only [Interval.mem_points,Set.mem_union]
  omega

theorem shiftDown_update (n i : Nat) (region : Nat → Property) (below : j < i) (p : Property) :
    shiftDown n i (Function.update region j p) = Function.update (shiftDown n i region) j p := by
  funext l
  rw [shiftDown_apply]
  by_cases same : l = j
  · subst same
    rw [if_neg (by omega),update_self,update_self]
  rw [update_of_ne same,update_of_ne same,shiftDown_apply]
  split_ifs with inside
  · exact update_of_ne (by omega) ..
  · rfl

/-- The block fills the gap between region `j` and the next one. Taking the next one
    out first, then growing `j`, passes only through lists whose regions are apart. -/
theorem merged_added (inv : Inv rgn) (new : Free rgn base size) (jIn : j + 1 < rgn.cnt)
    (touches : (block base size).lo = (cells rgn.region j).hi) (reaches : (cells rgn.region (j+1)).lo = (block base size).hi)
    (done : lmb_coalesce_regions
      { rgn with region := Function.update rgn.region j ⟨(rgn.region j).base,(rgn.region j).size + size⟩ } j (j+1) = some after) :
    Added rgn after base size := by
  have part := back_block new touches
  have bounded := inv.bounded (j+1) jIn
  have order := inv.sep.lo_lt (show j < j + 1 by omega) jIn
  have nonempty := inv.sep.nonempty (j+1) jIn
  have filled := new.filled
  generalize total : (rgn.region j).size + size + (rgn.region (j+1)).size = sum at *
  have whole : block (rgn.region j).base sum = ⟨(cells rgn.region j).lo,(cells rgn.region (j+1)).hi⟩ := by
    have height : (block (rgn.region j).base ((rgn.region j).size + size)).hi = (block base size).hi := by rw [part]
    have added : sum.toNat = ((rgn.region j).size + size).toNat + (rgn.region (j+1)).size.toNat := by
      rw [← total,UInt32.toNat_add]
      simp only [block,cells] at *
      exact Nat.mod_eq_of_lt (by omega)
    simp only [block,cells] at *
    congr 1
    omega
  -- the list without region `j + 1`
  have without : lmb_remove_region rgn (j+1) =
      some ⟨rgn.cnt-1,shiftDown (rgn.cnt - 1 - (j+1)) (j+1) rgn.region⟩ := by
    rw [lmb_remove_region,if_neg (by omega)]
  have same : after = ⟨rgn.cnt-1,Function.update (shiftDown (rgn.cnt - 1 - (j+1)) (j+1) rgn.region) j
      ⟨(rgn.region j).base,sum⟩⟩ := by
    rw [lmb_coalesce_regions,lmb_remove_region,if_neg (by simp only; omega)] at done
    simp only [update_self,Function.update_idem,update_of_ne (show j + 1 ≠ j by omega),total] at done
    rw [shiftDown_update _ _ _ (Nat.lt_succ_self j)] at done
    exact (Option.some.inj done).symm
  obtain ⟨invLess,setLess⟩ := removed inv jIn without
  have kept : ∀ l, cells (shiftDown (rgn.cnt - 1 - (j+1)) (j+1) rgn.region) l =
      if l < j + 1 then cells rgn.region l else if l + 1 < rgn.cnt then cells rgn.region (l+1) else cells rgn.region l := by
    intro l
    rw [cells,shiftDown_apply]
    split_ifs <;> first | rfl | omega
  obtain ⟨invAfter,set⟩ := @replaced _ invLess j (by simp only; omega) ⟨(rgn.region j).base,sum⟩
    (by rw [whole]; exact bounded) (by rw [whole]; simp only; omega)
    (by
      intro l low
      rw [kept,if_pos (by omega)]
      exact inv.sep.gap l j low (by omega))
    (by
      intro l high lIn
      simp only at lIn
      rw [whole,kept,if_neg (by omega),if_pos (by omega)]
      exact inv.sep.gap (j+1) (l+1) (by omega) (by omega))
  subst same
  refine ⟨invAfter,?_⟩
  rw [set,setLess,kept,if_pos (Nat.lt_succ_self j),whole,Set.sdiff_sdiff]
  refine grow_set (Set.union_subset (cell_subset jIn) (cell_subset (by omega))) ?_
  ext a
  have gap := inv.sep.nonempty j (by omega)
  simp only [Interval.mem_points,Set.mem_union]
  omega

theorem inserted_added (inv : Inv rgn) (new : Free rgn base size) (listed : 0 < rgn.cnt)
    (space : rgn.cnt < MAX_LMB_REGIONS)
    (apart : ∀ l < rgn.cnt, (cells rgn.region l).lo ≠ (block base size).hi ∧ (block base size).lo ≠ (cells rgn.region l).hi)
    {region : Nat → Property} (loop : insertLoop base size rgn.cnt rgn.region = region) :
    Added rgn ⟨rgn.cnt+1,if base < (region 0).base then Function.update region 0 ⟨base,size⟩ else region⟩ base size := by
  have spec := insertLoop_spec base size rgn.cnt rgn.region
  rw [loop] at spec
  obtain ⟨k,kIn,behind,kept,moved,placed⟩ := spec
  have filled := new.filled
  -- after the last step the new region stands at `k`
  obtain ⟨final,finalIs,low,here,high⟩ : ∃ final, (if base < (region 0).base then Function.update region 0 ⟨base,size⟩ else region) = final ∧
      (∀ j < k, cells final j = cells rgn.region j) ∧ cells final k = block base size ∧
      ∀ j, k ≤ j → j < rgn.cnt → cells final (j+1) = cells rgn.region j := by
    refine ⟨_,rfl,?_⟩
    rcases placed with ⟨rfl,first⟩ | ⟨positive,notBefore,here⟩
    · rw [if_pos (by rw [first]; exact behind 0 (le_refl 0) listed)]
      refine ⟨fun j low => by omega,cells_update_self ..,fun j _ jIn => ?_⟩
      rw [cells_update_ne _ _ (by omega),cells,moved j (Nat.zero_le j) jIn]
      rfl
    have order : (rgn.region 0).base ≤ (rgn.region (k-1)).base := by
      rw [UInt32.le_iff_toNat_le]
      rcases Nat.eq_zero_or_pos (k-1) with zero | later
      · rw [zero]
      · exact (inv.sep.lo_lt later (by omega)).le
    rw [if_neg (by
      rw [kept 0 positive]
      rw [UInt32.lt_iff_toNat_lt] at notBefore ⊢
      rw [UInt32.le_iff_toNat_le] at order
      omega)]
    refine ⟨fun j low => ?_,by rw [cells,here],fun j low jIn => ?_⟩
    · rw [cells,kept j low]
      rfl
    · rw [cells,moved j low jIn]
      rfl
  rw [finalIs]
  have left : ∀ l < k, (cells rgn.region l).hi < (block base size).lo := by
    intro l lIn
    have begins : (cells rgn.region l).lo ≤ (block base size).lo := by
      rcases placed with ⟨rfl,_⟩ | ⟨positive,notBefore,_⟩
      · omega
      rw [UInt32.lt_iff_toNat_lt,not_lt] at notBefore
      rcases Nat.lt_or_ge l (k-1) with less | last
      · exact (inv.sep.lo_lt less (by omega)).le.trans notBefore
      · rw [show l = k - 1 by omega]
        exact notBefore
    have side := new.side inv (show l < rgn.cnt by omega)
    have touch := apart l (by omega)
    omega
  have right : ∀ l, k ≤ l → l < rgn.cnt → (block base size).hi < (cells rgn.region l).lo := by
    intro l low lIn
    have begins : (block base size).lo < (cells rgn.region l).lo := UInt32.lt_iff_toNat_lt.mp (behind l low lIn)
    have side := new.side inv lIn
    have nonempty := inv.sep.nonempty l lIn
    have touch := apart l lIn
    omega
  obtain ⟨sep,set⟩ := inv.sep.inserted kIn low here high filled left right
  refine ⟨⟨by simp only; omega,sep,?_⟩,set⟩
  intro j jIn
  simp only at jIn
  rcases lt_trichotomy j k with less | same | more
  · rw [low j less]
    exact inv.bounded j (by omega)
  · rw [same,here]
    exact new.room
  · rw [show j = j - 1 + 1 by omega,high (j-1) (by omega) (by omega)]
    exact inv.bounded (j-1) (by omega)

theorem listed_apart (inv : Inv rgn) (iIn : i < rgn.cnt) (same : rgn.region i = ⟨base,size⟩)
    (jIn : j < rgn.cnt) : (cells rgn.region j).lo ≠ (block base size).hi ∧ (block base size).lo ≠ (cells rgn.region j).hi := by
  have here : cells rgn.region i = block base size := by rw [cells,same]
  rw [← here]
  have nonempty := inv.sep.nonempty i iIn
  have nonemptyJ := inv.sep.nonempty j jIn
  rcases lt_trichotomy i j with less | rfl | more
  · have := inv.sep.gap i j less jIn
    omega
  · omega
  · have := inv.sep.gap j i more iIn
    omega

/-- The block is coalesced with the first region it touches and, if it fills the gap,
    with the next one. -/
theorem add_region_touching (inv : Inv rgn) (new : Free rgn base size) (jIn : j < rgn.cnt)
    (before : ∀ l < j, lmb_addrs_adjacent base size (rgn.region l).base (rgn.region l).size = 0)
    {region : Nat → Property}
    (touches : (lmb_addrs_adjacent base size (rgn.region j).base (rgn.region j).size > 0 ∧
        region = Function.update rgn.region j ⟨(rgn.region j).base - size,(rgn.region j).size + size⟩) ∨
      (lmb_addrs_adjacent base size (rgn.region j).base (rgn.region j).size < 0 ∧
        region = Function.update rgn.region j ⟨(rgn.region j).base,(rgn.region j).size + size⟩))
    (done : (if (j + 1 < rgn.cnt ∨ rgn.cnt = 0) ∧ lmb_regions_adjacent ⟨rgn.cnt,region⟩ j (j+1) ≠ 0 then
        (lmb_coalesce_regions ⟨rgn.cnt,region⟩ j (j+1)).map fun rgn => ((1 : Int) + 1,rgn)
      else some (1,⟨rgn.cnt,region⟩)) = some (ret,after)) :
    Added rgn after base size := by
  have filled := new.filled
  rcases touches with ⟨front,rfl⟩ | ⟨back,rfl⟩
  · rw [adjacent_pos_iff new.room] at front
    obtain ⟨whole,added⟩ := front_added inv new jIn front
      (fun l low => ((adjacent_zero_iff new.room (inv.bounded l (by omega))).mp (before l low)).2)
    -- the next region is no nearer than before
    have notNext : ¬ ((j + 1 < rgn.cnt ∨ rgn.cnt = 0) ∧ lmb_regions_adjacent ⟨rgn.cnt,Function.update rgn.region j
        ⟨(rgn.region j).base - size,(rgn.region j).size + size⟩⟩ j (j+1) ≠ 0) := by
      rintro ⟨inside | none,adjacent⟩
      · apply adjacent
        have bounded := inv.bounded j jIn
        have gap := inv.sep.gap j (j+1) (by omega) inside
        have nonempty := inv.sep.nonempty (j+1) inside
        have nonemptyJ := inv.sep.nonempty j jIn
        rw [lmb_regions_adjacent]
        simp only [update_self,update_of_ne (show j + 1 ≠ j by omega)]
        rw [adjacent_zero_iff (by rw [whole]; exact bounded) (inv.bounded (j+1) inside),whole]
        simp only [cells] at *
        omega
      · omega
    rw [if_neg notNext] at done
    cases done
    exact added
  obtain ⟨_,touch⟩ := (adjacent_neg_iff new.room (inv.bounded j jIn)).mp back
  have part := back_block new touch
  split_ifs at done with next
  · obtain ⟨merged,coalesced,same⟩ := Option.map_eq_some_iff.mp done
    have inside : j + 1 < rgn.cnt := by omega
    have reaches : (cells rgn.region (j+1)).lo = (block base size).hi := by
      have adjacent := next.2
      rw [lmb_regions_adjacent] at adjacent
      simp only [update_self,update_of_ne (show j + 1 ≠ j by omega)] at adjacent
      rw [ne_eq,adjacent_zero_iff (by rw [part]; exact new.room) (inv.bounded (j+1) inside),part] at adjacent
      have order := inv.sep.lo_lt (show j < j + 1 by omega) inside
      have nonempty := inv.sep.nonempty (j+1) inside
      simp only [cells] at *
      omega
    obtain ⟨_,rfl⟩ := Prod.mk.inj same
    exact merged_added inv new inside touch reaches coalesced
  cases done
  apply back_added inv new jIn touch
  intro inside reaches
  apply next
  rw [lmb_regions_adjacent]
  simp only [update_self,update_of_ne (show j + 1 ≠ j by omega)]
  rw [ne_eq,adjacent_zero_iff (by rw [part]; exact new.room) (inv.bounded (j+1) inside),part]
  simp only [cells] at *
  omega

theorem add_region_added (inv : Inv rgn) (listed : 0 < rgn.cnt) (filled : 0 < size)
    (room : (block base size).hi < 2 ^ 32)
    (fits : (∃ i < rgn.cnt, rgn.region i = ⟨base,size⟩) ∨ Disjoint (block base size).points (reservedSet rgn))
    (done : lmb_add_region rgn base size = some (ret,after)) (succeeded : 0 ≤ ret) : Added rgn after base size := by
  have notDummy : ¬ (rgn.cnt = 1 ∧ (rgn.region 0).size = 0) := fun dummy => inv.size_pos listed dummy.2
  rw [lmb_add_region,if_neg notDummy] at done
  rcases coalesceLoop_cases base size rgn.region rgn.cnt 0 with
    ⟨ended,j,_,jIn,same⟩ | ⟨j,_,jIn,before,touches⟩ | ⟨ended,apart,absent⟩
  · -- the region is listed already
    rw [ended] at done
    cases done
    refine ⟨inv,(Set.union_eq_left.mpr ?_).symm⟩
    have here : cells rgn.region j = block base size := by rw [cells,same]
    rw [← here]
    exact cell_subset (by omega)
  · have new : Free rgn base size := by
      refine ⟨lo_lt_hi filled,room,?_⟩
      rcases fits with ⟨i,iIn,same⟩ | free
      · obtain ⟨notFront,notBack⟩ := listed_apart inv iIn same (show j < rgn.cnt by omega)
        rcases touches with ⟨front,_⟩ | ⟨back,_⟩
        · exact absurd ((adjacent_pos_iff room).mp front) notFront
        · exact absurd ((adjacent_neg_iff room (inv.bounded j (by omega))).mp back).2 notBack
      · exact free
    have early : ∀ l < j, lmb_addrs_adjacent base size (rgn.region l).base (rgn.region l).size = 0 :=
      fun l low => before l (Nat.zero_le l) low
    rcases touches with ⟨front,ended⟩ | ⟨back,ended⟩
    · rw [ended] at done
      exact add_region_touching inv new (by omega) early (.inl ⟨front,rfl⟩) done
    · rw [ended] at done
      exact add_region_touching inv new (by omega) early (.inr ⟨back,rfl⟩) done
  have new : Free rgn base size := by
    refine ⟨lo_lt_hi filled,room,?_⟩
    rcases fits with ⟨i,iIn,same⟩ | free
    · exact absurd same (absent i (Nat.zero_le i) (by omega))
    · exact free
  rw [ended] at done
  simp only [Nat.zero_add,show ¬ (rgn.cnt + 1 < rgn.cnt ∨ rgn.cnt = 0) by omega,false_and,if_false,ne_eq,
    not_true_eq_false] at done
  by_cases full : rgn.cnt ≥ MAX_LMB_REGIONS
  · rw [if_pos full] at done
    cases done
    omega
  rw [if_neg full] at done
  cases done
  refine inserted_added inv new listed (by omega) ?_ rfl
  intro l lIn
  exact (adjacent_zero_iff room (inv.bounded l lIn)).mp (apart l (Nat.zero_le l) (by omega))

/-- Adding to an emptied list: the slot 0 behind its end keeps its old contents unless
    the new block begins before it. -/
theorem add_region_emptied (none : rgn.cnt = 0)
    (done : lmb_add_region rgn base size = some (ret,after)) :
    after.cnt = 1 ∧ after.region 0 = if base < (rgn.region 0).base then ⟨base,size⟩ else rgn.region 0 := by
  rw [lmb_add_region,none] at done
  simp only [coalesceLoop] at done
  by_cases stale : lmb_regions_adjacent ⟨0,rgn.region⟩ 0 1 = 0
  · by_cases before : base < (rgn.region 0).base
    · simp only [stale,ne_eq,not_true_eq_false,and_false,if_false,insertLoop,show ¬ (0 ≥ MAX_LMB_REGIONS) by decide,
        before,if_true] at done
      cases done
      exact ⟨rfl,by simp [before]⟩
    simp only [stale,ne_eq,not_true_eq_false,and_false,if_false,insertLoop,show ¬ (0 ≥ MAX_LMB_REGIONS) by decide,
      before] at done
    cases done
    exact ⟨rfl,by simp [before]⟩
  · -- the old slots 0 and 1 touch: the attempt to remove slot 1 leaves the array
    simp [stale,lmb_coalesce_regions,lmb_remove_region] at done

theorem reservedSet_one (one : rgn.cnt = 1) : reservedSet rgn = (cells rgn.region 0).points := by
  ext a
  constructor
  · rintro ⟨i,iIn,member⟩
    rwa [show i = 0 by omega] at member
  · intro member
    exact ⟨0,by omega,member⟩

theorem single_inv (one : rgn.cnt = 1) (first : rgn.region 0 = ⟨base,size⟩) (filled : 0 < size)
    (room : (block base size).hi < 2 ^ 32) : Inv rgn ∧ reservedSet rgn = (block base size).points := by
  have here : cells rgn.region 0 = block base size := by rw [cells,first]
  refine ⟨⟨by rw [one]; decide,⟨?_,?_⟩,?_⟩,?_⟩
  · intro i iIn
    rw [show i = 0 by omega,here]
    exact lo_lt_hi filled
  · omega
  · intro i iIn
    rwa [show i = 0 by omega,here]
  · rw [reservedSet_one one,here]

/-! ### One block less -/

structure Freed (rgn after : LmbRegion) (base size : UInt32) : Prop where
  inv : Inv after
  set : reservedSet after = reservedSet rgn \ (block base size).points

theorem shrink_set {S whole new rest : Set ℕ} (inside : whole ⊆ S) (cut : rest = whole \ new) (within : new ⊆ whole) :
    (S \ whole) ∪ rest = S \ new := by
  ext a
  rw [cut]
  simp only [Set.mem_union,Set.mem_sdiff]
  tauto

theorem shrunk (inv : Inv rgn) (iIn : i < rgn.cnt) (p : Property)
    (low : (cells rgn.region i).lo ≤ (block p.base p.size).lo) (high : (block p.base p.size).hi ≤ (cells rgn.region i).hi)
    (filled : (block p.base p.size).lo < (block p.base p.size).hi) :
    Inv { rgn with region := Function.update rgn.region i p } ∧
      reservedSet { rgn with region := Function.update rgn.region i p } =
        (reservedSet rgn \ (cells rgn.region i).points) ∪ (block p.base p.size).points := by
  apply replaced inv iIn p (lt_of_le_of_lt high (inv.bounded i iIn)) filled
  · intro j less
    exact lt_of_lt_of_le (inv.sep.gap j i less iIn) low
  · intro j more jIn
    exact lt_of_le_of_lt high (inv.sep.gap i j more jIn)

theorem sub_toNat {a b : UInt32} (le : b.toNat ≤ a.toNat) : (a-b).toNat = a.toNat - b.toNat :=
  UInt32.toNat_sub_of_le a b (UInt32.le_iff_toNat_le.mpr le)

/-- The block is strictly inside region `i`: the part before it stays and the part
    behind it is added. -/
theorem split_freed (inv : Inv rgn) (iIn : i < rgn.cnt)
    (filled : (block base size).lo < (block base size).hi) (room : (block base size).hi < 2 ^ 32)
    (before : (cells rgn.region i).lo < (block base size).lo) (behind : (block base size).hi < (cells rgn.region i).hi)
    (done : lmb_add_region
      { rgn with region := Function.update rgn.region i ⟨(rgn.region i).base,base - (rgn.region i).base⟩ }
      (base+size) ((rgn.region i).base + (rgn.region i).size - (base+size)) = some (ret,after))
    (succeeded : 0 ≤ ret) : Freed rgn after base size := by
  have bounded := inv.bounded i iIn
  have last := add_toNat room
  have rgnend : ((rgn.region i).base + (rgn.region i).size).toNat = (cells rgn.region i).hi := add_toNat bounded
  have front : block (rgn.region i).base (base - (rgn.region i).base) = ⟨(cells rgn.region i).lo,(block base size).lo⟩ := by
    have distance := @sub_toNat base (rgn.region i).base before.le
    simp only [block,cells] at *
    congr 1
    omega
  have back : block (base+size) ((rgn.region i).base + (rgn.region i).size - (base+size)) =
      ⟨(block base size).hi,(cells rgn.region i).hi⟩ := by
    have distance := @sub_toNat ((rgn.region i).base + (rgn.region i).size) (base+size) (by omega)
    rw [block]
    congr 1
    omega
  obtain ⟨invCut,setCut⟩ := shrunk inv iIn ⟨(rgn.region i).base,base - (rgn.region i).base⟩
    (by rw [front]) (by rw [front]; simp only; omega) (by rw [front]; exact before)
  rw [front] at setCut
  have free : Disjoint (block (base+size) ((rgn.region i).base + (rgn.region i).size - (base+size))).points
      (reservedSet { rgn with region := Function.update rgn.region i ⟨(rgn.region i).base,base - (rgn.region i).base⟩ }) := by
    rw [setCut,back,Set.disjoint_left]
    rintro a ⟨low,high⟩ (⟨_,outside⟩ | ⟨_,inside⟩)
    · exact outside ⟨by simp only at *; omega,high⟩
    · simp only at *
      omega
  have positive : 0 < (rgn.region i).base + (rgn.region i).size - (base+size) := by
    rw [UInt32.lt_iff_toNat_lt,sub_toNat (by omega)]
    simp only [UInt32.toNat_zero]
    omega
  have added := add_region_added invCut (by simp only; omega) positive (by rw [back]; exact bounded) (.inr free) done succeeded
  refine ⟨added.inv,?_⟩
  rw [added.set,setCut,back,Set.union_assoc]
  refine shrink_set (cell_subset iIn) ?_ ?_
  · ext a
    simp only [Set.mem_union,Set.mem_sdiff,Interval.mem_points]
    omega
  · rintro a ⟨low,high⟩
    exact ⟨by omega,by omega⟩

theorem freeRegion_freed (inv : Inv rgn) (filled : 0 < size)
    (room : (block base size).hi < 2 ^ 32) (done : freeRegion rgn base size = some (ret,after)) (succeeded : 0 ≤ ret) :
    Freed rgn after base size := by
  have nonempty := @lo_lt_hi base size filled
  have last := add_toNat room
  rw [freeRegion] at done
  cases found : findAround base (base+size) rgn.region rgn.cnt 0 with
  | none =>
    rw [found] at done
    cases done
    omega
  | some i =>
    rw [found] at done
    obtain ⟨_,iIn,begins,ends⟩ := findAround_some found
    replace iIn : i < rgn.cnt := by omega
    have bounded := inv.bounded i iIn
    have rgnend : ((rgn.region i).base + (rgn.region i).size).toNat = (cells rgn.region i).hi := add_toNat bounded
    rw [UInt32.le_iff_toNat_le,last,rgnend] at ends
    have within : (block base size).points ⊆ (cells rgn.region i).points := by
      rintro a ⟨low,high⟩
      exact ⟨begins.trans low,lt_of_lt_of_le high ends⟩
    simp only [← UInt32.toNat_inj,last,rgnend] at done
    change (cells rgn.region i).lo ≤ (block base size).lo at begins
    have begin_ : (rgn.region i).base.toNat = (cells rgn.region i).lo := rfl
    have base_ : base.toNat = (block base size).lo := rfl
    split_ifs at done with entire front back
    · obtain ⟨less,gone,same⟩ := Option.map_eq_some_iff.mp done
      obtain ⟨_,rfl⟩ := Prod.mk.inj same
      obtain ⟨invAfter,set⟩ := removed inv iIn gone
      have whole : cells rgn.region i = block base size := Interval.ext entire.1 entire.2
      exact ⟨invAfter,by rw [set,whole]⟩
    · have rest : block (base+size) ((rgn.region i).size - size) = ⟨(block base size).hi,(cells rgn.region i).hi⟩ := by
        have distance := @sub_toNat (rgn.region i).size size (by simp only [block,cells] at *; omega)
        simp only [block,cells] at *
        congr 1
        omega
      cases done
      obtain ⟨invAfter,set⟩ := shrunk inv iIn ⟨base+size,(rgn.region i).size - size⟩
        (by rw [rest]; simp only; omega) (by rw [rest]) (by rw [rest]; simp only; omega)
      refine ⟨invAfter,set.trans (shrink_set (cell_subset iIn) ?_ within)⟩
      rw [rest]
      ext a
      simp only [Set.mem_sdiff,Interval.mem_points]
      omega
    · have rest : block (rgn.region i).base ((rgn.region i).size - size) = ⟨(cells rgn.region i).lo,(block base size).lo⟩ := by
        have distance := @sub_toNat (rgn.region i).size size (by simp only [block,cells] at *; omega)
        simp only [block,cells] at *
        congr 1
        omega
      cases done
      obtain ⟨invAfter,set⟩ := shrunk inv iIn ⟨(rgn.region i).base,(rgn.region i).size - size⟩
        (by rw [rest]) (by rw [rest]; simp only; omega) (by rw [rest]; simp only; omega)
      refine ⟨invAfter,set.trans (shrink_set (cell_subset iIn) ?_ within)⟩
      rw [rest]
      ext a
      simp only [Set.mem_sdiff,Interval.mem_points]
      omega
    · exact split_freed inv iIn nonempty room (by omega) (by omega) done succeeded

end UBoot.LmbSet
