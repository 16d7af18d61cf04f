import Mathlib

/-!
Tables of half-open intervals of a linear order. The first `n` cells of a table are
`Separated` when they are not empty and each ends strictly before the next begins;
`covered` is the set of points they contain. Replacing, removing and inserting a cell
is said by what the new table holds, so that cells past the end may hold anything.
-/
namespace UBoot.Intervals

/-- The half-open interval from `lo` to `hi`. -/
@[ext] structure Interval (α : Type) where
  lo : α
  hi : α

variable {α : Type} [LinearOrder α] {cell cell' : Nat → Interval α} {n i k : Nat} {I : Interval α}

def Interval.points (I : Interval α) : Set α := Set.Ico I.lo I.hi

theorem Interval.mem_points {a : α} : a ∈ I.points ↔ I.lo ≤ a ∧ a < I.hi := Iff.rfl

theorem Interval.apart {J : Interval α} (left : I.lo < I.hi) (right : J.lo < J.hi) (none : Disjoint I.points J.points) :
    I.hi ≤ J.lo ∨ J.hi ≤ I.lo := by
  have order := Set.Ico_disjoint_Ico.mp none
  rcases le_total I.lo J.lo with first | first
  · rw [max_eq_right first,min_le_iff] at order
    exact order.imp_right fun wrong => absurd wrong (not_le.mpr right)
  rw [max_eq_left first,min_le_iff] at order
  rcases order with wrong | before
  · exact absurd wrong (not_le.mpr left)
  · exact .inr before

/-- The first `n` cells are not empty, in order, and do not touch. -/
structure Separated (cell : Nat → Interval α) (n : Nat) : Prop where
  nonempty : ∀ i < n, (cell i).lo < (cell i).hi
  gap : ∀ i j, i < j → j < n → (cell i).hi < (cell j).lo

/-- The points of the first `n` cells. -/
def covered (cell : Nat → Interval α) (n : Nat) : Set α := {a | ∃ i < n, a ∈ (cell i).points}

theorem mem_covered {a : α} : a ∈ covered cell n ↔ ∃ i < n, a ∈ (cell i).points := Iff.rfl

theorem Separated.unique (sep : Separated cell n) {j : Nat} (iIn : i < n) (jIn : j < n) {a : α}
    (left : a ∈ (cell i).points) (right : a ∈ (cell j).points) : i = j := by
  rcases lt_trichotomy i j with less | same | less
  · exact absurd (lt_of_le_of_lt right.1 left.2) (not_lt.mpr (sep.gap i j less jIn).le)
  · exact same
  · exact absurd (lt_of_le_of_lt left.1 right.2) (not_lt.mpr (sep.gap j i less iIn).le)

theorem Separated.side (sep : Separated cell n) (filled : I.lo < I.hi) (free : Disjoint I.points (covered cell n))
    (iIn : i < n) : I.hi ≤ (cell i).lo ∨ (cell i).hi ≤ I.lo := by
  have inside : (cell i).points ⊆ covered cell n := fun a member => ⟨i,iIn,member⟩
  exact Interval.apart filled (sep.nonempty i iIn) (free.mono_right inside)

theorem Separated.lo_lt (sep : Separated cell n) {j : Nat} (less : i < j) (jIn : j < n) : (cell i).lo < (cell j).lo :=
  (sep.nonempty i (by omega)).trans (sep.gap i j less jIn)

/-! ### Changing one cell -/

theorem Separated.replaced (sep : Separated cell n) (iIn : i < n) (here : cell' i = I)
    (others : ∀ j < n, j ≠ i → cell' j = cell j) (filled : I.lo < I.hi)
    (left : ∀ j < i, (cell j).hi < I.lo) (right : ∀ j, i < j → j < n → I.hi < (cell j).lo) :
    Separated cell' n ∧ covered cell' n = (covered cell n \ (cell i).points) ∪ I.points := by
  refine ⟨⟨?_,?_⟩,?_⟩
  · intro j jIn
    by_cases same : j = i
    · rwa [same,here]
    · rw [others j jIn same]
      exact sep.nonempty j jIn
  · intro j l less lIn
    by_cases first : j = i
    · subst first
      rw [here,others l lIn (by omega)]
      exact right l less lIn
    rw [others j (by omega) first]
    by_cases second : l = i
    · rw [second,here]
      exact left j (by omega)
    · rw [others l lIn second]
      exact sep.gap j l less lIn
  ext a
  constructor
  · rintro ⟨j,jIn,member⟩
    by_cases same : j = i
    · rw [same,here] at member
      exact .inr member
    · rw [others j jIn same] at member
      exact .inl ⟨⟨j,jIn,member⟩,fun old => same (sep.unique jIn iIn member old)⟩
  rintro (⟨⟨j,jIn,member⟩,notOld⟩ | new)
  · have other : j ≠ i := by
      rintro rfl
      exact notOld member
    exact ⟨j,jIn,by rwa [others j jIn other]⟩
  · exact ⟨i,iIn,by rwa [here]⟩

theorem Separated.removed (sep : Separated cell n) (iIn : i < n) (before : ∀ j < i, cell' j = cell j)
    (behind : ∀ j, i ≤ j → j + 1 < n → cell' j = cell (j+1)) :
    Separated cell' (n-1) ∧ covered cell' (n-1) = covered cell n \ (cell i).points := by
  -- the cell that now stands at `j`
  have source : ∀ j < n - 1, ∃ l < n, l ≠ i ∧ cell' j = cell l ∧ l = if j < i then j else j + 1 := by
    intro j jIn
    by_cases first : j < i
    · exact ⟨j,by omega,by omega,before j first,by rw [if_pos first]⟩
    · exact ⟨j+1,by omega,by omega,behind j (by omega) (by omega),by rw [if_neg first]⟩
  refine ⟨⟨?_,?_⟩,?_⟩
  · intro j jIn
    obtain ⟨l,lIn,_,same,_⟩ := source j jIn
    rw [same]
    exact sep.nonempty l lIn
  · intro j m less mIn
    obtain ⟨l,lIn,_,sameJ,lIs⟩ := source j (by omega)
    obtain ⟨p,pIn,_,sameM,pIs⟩ := source m mIn
    rw [sameJ,sameM]
    exact sep.gap l p (by split_ifs at lIs pIs <;> omega) pIn
  ext a
  constructor
  · rintro ⟨j,jIn,member⟩
    obtain ⟨l,lIn,other,same,_⟩ := source j jIn
    rw [same] at member
    exact ⟨⟨l,lIn,member⟩,fun old => other (sep.unique lIn iIn member old)⟩
  rintro ⟨⟨j,jIn,member⟩,notOld⟩
  have other : j ≠ i := by
    rintro rfl
    exact notOld member
  by_cases first : j < i
  · exact ⟨j,by omega,by rwa [before j first]⟩
  refine ⟨j-1,by omega,?_⟩
  rw [behind (j-1) (by omega) (by omega),show j - 1 + 1 = j by omega]
  exact member

theorem Separated.inserted (sep : Separated cell n) (kIn : k ≤ n) (before : ∀ j < k, cell' j = cell j) (here : cell' k = I)
    (behind : ∀ j, k ≤ j → j < n → cell' (j+1) = cell j) (filled : I.lo < I.hi)
    (left : ∀ j < k, (cell j).hi < I.lo) (right : ∀ j, k ≤ j → j < n → I.hi < (cell j).lo) :
    Separated cell' (n+1) ∧ covered cell' (n+1) = covered cell n ∪ I.points := by
  have source : ∀ j < n + 1, j ≠ k → ∃ l < n, cell' j = cell l ∧ l = if j < k then j else j - 1 := by
    intro j jIn other
    by_cases first : j < k
    · exact ⟨j,by omega,before j first,by rw [if_pos first]⟩
    · refine ⟨j-1,by omega,?_,by rw [if_neg first]⟩
      rw [← behind (j-1) (by omega) (by omega),show j - 1 + 1 = j by omega]
  refine ⟨⟨?_,?_⟩,?_⟩
  · intro j jIn
    by_cases same : j = k
    · rwa [same,here]
    obtain ⟨l,lIn,from_l,_⟩ := source j jIn same
    rw [from_l]
    exact sep.nonempty l lIn
  · intro j m less mIn
    by_cases first : j = k
    · obtain ⟨p,pIn,from_p,pIs⟩ := source m mIn (by omega)
      rw [first,here,from_p]
      exact right p (by split_ifs at pIs <;> omega) pIn
    obtain ⟨l,lIn,from_l,lIs⟩ := source j (by omega) first
    rw [from_l]
    by_cases second : m = k
    · rw [second,here]
      exact left l (by split_ifs at lIs <;> omega)
    obtain ⟨p,pIn,from_p,pIs⟩ := source m mIn second
    rw [from_p]
    exact sep.gap l p (by split_ifs at lIs pIs <;> omega) pIn
  ext a
  constructor
  · rintro ⟨j,jIn,member⟩
    by_cases same : j = k
    · rw [same,here] at member
      exact .inr member
    obtain ⟨l,lIn,from_l,_⟩ := source j jIn same
    rw [from_l] at member
    exact .inl ⟨l,lIn,member⟩
  rintro (⟨j,jIn,member⟩ | new)
  · by_cases first : j < k
    · exact ⟨j,by omega,by rwa [before j first]⟩
    · exact ⟨j+1,by omega,by rwa [behind j (by omega) jIn]⟩
  · exact ⟨k,by omega,by rwa [here]⟩

end UBoot.Intervals
