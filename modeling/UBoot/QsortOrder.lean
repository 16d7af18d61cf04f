import Mathlib.Data.List.DropRight
import UBoot.Qsort

/-!
What the shell sort of `lib/qsort.c` leaves. Whatever the passes with larger gaps have
done, the last one has gap 1 and is an insertion sort: with a comparison that orders
the elements the result is ascending (`qsort_ascending`).
-/
namespace UBoot.QsortOrder
open List Qsort

variable {α : Type} {comp : α → α → Int}

/-- The comparison orders these elements. -/
structure Orders (comp : α → α → Int) (l : List α) : Prop where
  total : ∀ a ∈ l, ∀ b ∈ l, 0 < comp a b → comp b a ≤ 0
  trans : ∀ a ∈ l, ∀ b ∈ l, ∀ c ∈ l, comp a b ≤ 0 → comp b c ≤ 0 → comp a c ≤ 0

theorem Orders.perm {l m : List α} (orders : Orders comp l) (perm : m.Perm l) : Orders comp m where
  total a inA b inB := orders.total a (perm.mem_iff.mp inA) b (perm.mem_iff.mp inB)
  trans a inA b inB c inC := orders.trans a (perm.mem_iff.mp inA) b (perm.mem_iff.mp inB) c (perm.mem_iff.mp inC)

/-- No element stands behind one that is above it. -/
def Ascending (comp : α → α → Int) (l : List α) : Prop := l.Pairwise fun a b => comp a b ≤ 0

/-! ### One element moves down -/

def above (comp : α → α → Int) (x a : α) : Bool := decide (0 < comp a x)

/-- What the innermost loop does with gap 1 to the element behind `pre`. -/
def inserted (comp : α → α → Int) (pre : List α) (x : α) : List α :=
  pre.rdropWhile (above comp x) ++ x :: pre.rtakeWhile (above comp x)

theorem swap_next (init suf : List α) (a x : α) :
    (init ++ a :: x :: suf).toArray.swapIfInBounds init.length (init.length+1) = (init ++ x :: a :: suf).toArray := by
  rw [Array.swapIfInBounds]
  simp

theorem moveDown_one (x : α) : ∀ (fuel : Nat) (pre suf : List α), pre ≠ [] → pre.length ≤ fuel →
    moveDown comp 1 fuel (pre ++ x :: suf).toArray pre.length = (inserted comp pre x ++ suf).toArray := by
  intro fuel
  induction fuel with
  | zero =>
    intro pre suf some_ enough
    exact absurd (length_eq_zero_iff.mp (by omega)) some_
  | succ fuel ih =>
    intro pre suf some_ enough
    obtain ⟨init,a,rfl⟩ := (eq_nil_or_concat' pre).resolve_left some_
    have text : init ++ [a] ++ x :: suf = init ++ a :: x :: suf := by simp
    have position : (init ++ [a]).length - 1 = init.length := by simp
    have here : (init ++ a :: x :: suf).toArray[init.length]? = some a := by simp
    have next : (init ++ a :: x :: suf).toArray[init.length+1]? = some x := by simp
    rw [moveDown,text,position,here,next]
    simp only
    by_cases ordered : comp a x ≤ 0
    · have stays : ¬ above comp x a = true := by simpa [above] using ordered
      rw [if_pos ordered,inserted,rdropWhile_concat_neg _ _ _ stays,rtakeWhile_concat_neg _ _ _ stays]
      simp
    have moves : above comp x a = true := by simpa [above] using ordered
    rw [if_neg ordered,inserted,rdropWhile_concat_pos _ _ _ moves,rtakeWhile_concat_pos _ _ _ moves,swap_next]
    by_cases more : 1 ≤ init.length
    · rw [if_pos more,ih init (a :: suf) (length_pos_iff.mp more) (by simpa using enough),inserted]
      simp
    · obtain rfl : init = [] := length_eq_zero_iff.mp (by omega)
      simp

theorem inserted_perm (pre : List α) (x : α) : (inserted comp pre x).Perm (pre ++ [x]) := by
  have parts := @rdropWhile_append_rtakeWhile _ (above comp x) pre
  refine perm_middle.trans ?_
  rw [parts]
  exact (perm_append_singleton x pre).symm

theorem inserted_ascending {pre : List α} {x : α} (orders : Orders comp (pre ++ [x])) (sorted : Ascending comp pre) :
    Ascending comp (inserted comp pre x) := by
  have parts := @rdropWhile_append_rtakeWhile _ (above comp x) pre
  set low := pre.rdropWhile (above comp x) with lowIs
  set high := pre.rtakeWhile (above comp x) with highIs
  have inPre : ∀ a, a ∈ low ∨ a ∈ high → a ∈ pre ++ [x] := by
    intro a member
    rw [← parts]
    simp only [mem_append] at member ⊢
    exact .inl member
  rw [← parts] at sorted
  obtain ⟨lowSorted,highSorted,across⟩ := pairwise_append.mp sorted
  have highAbove : ∀ a ∈ high, comp x a ≤ 0 := by
    intro a member
    have moved : above comp x a = true := mem_rtakeWhile_imp member
    exact orders.total a (inPre a (.inr member)) x (by simp) (by simpa [above] using moved)
  -- the last element that stays is not above `x`, and the others are not above it
  have lowBelow : ∀ a ∈ low, comp a x ≤ 0 := by
    rcases eq_nil_or_concat' low with empty | ⟨init,last,split⟩
    · simp [empty]
    have stays : ¬ above comp x last = true := by
      have := rdropWhile_last_not (above comp x) pre (by rw [← lowIs,split]; simp)
      simpa [← lowIs,split] using this
    have lastBelow : comp last x ≤ 0 := by simpa [above] using stays
    intro a member
    rw [split] at member lowSorted inPre
    rcases mem_append.mp member with early | isLast
    · have first := (pairwise_append.mp lowSorted).2.2 a early last (by simp)
      exact orders.trans a (inPre a (.inl member)) last (inPre last (.inl (by simp))) x (by simp) first lastBelow
    · obtain rfl : a = last := by simpa using isLast
      exact lastBelow
  refine pairwise_append.mpr ⟨lowSorted,pairwise_cons.mpr ⟨highAbove,highSorted⟩,?_⟩
  intro a inLow b inRest
  rcases mem_cons.mp inRest with rfl | inHigh
  · exact lowBelow a inLow
  · exact across a inLow b inHigh

/-! ### The last pass -/

theorem sortGap_one : ∀ (suf : List α) (fuel : Nat) (pre : List α), pre ≠ [] → suf ≠ [] → suf.length ≤ fuel →
    Orders comp (pre ++ suf) → Ascending comp pre →
    Ascending comp (sortGap comp 1 (pre ++ suf).length fuel (pre ++ suf).toArray pre.length).toList := by
  intro suf
  induction suf with
  | nil => intro fuel pre _ some_; exact absurd rfl some_
  | cons x suf ih =>
    intro fuel pre some_ _ enough orders sorted
    obtain ⟨fuel,rfl⟩ : ∃ n, fuel = n + 1 := ⟨fuel-1,by simp at enough; omega⟩
    have longer : (inserted comp pre x).length = pre.length + 1 := by simpa using (@inserted_perm _ comp pre x).length_eq
    have placed : Ascending comp (inserted comp pre x) := by
      refine inserted_ascending ⟨?_,?_⟩ sorted
      · intro a inA b inB
        exact orders.total a (by simp at inA ⊢; tauto) b (by simp at inB ⊢; tauto)
      · intro a inA b inB c inC
        exact orders.trans a (by simp at inA ⊢; tauto) b (by simp at inB ⊢; tauto) c (by simp at inC ⊢; tauto)
    rw [sortGap,moveDown_one x _ pre suf some_ (by omega)]
    cases suf with
    | nil =>
      simpa using placed
    | cons y suf =>
      have perm : (inserted comp pre x ++ y :: suf).Perm (pre ++ x :: y :: suf) := by
        have moved := (@inserted_perm _ comp pre x).append_right (y :: suf)
        rwa [append_assoc] at moved
      have rest := ih fuel (inserted comp pre x) (by simp [inserted]) (by simp) (by simpa using enough) (orders.perm perm) placed
      simpa [longer,perm.length_eq] using rest

/-- The gaps of the sort: 1, 4, 13, ... -/
inductive Gap : Nat → Prop
  | one : Gap 1
  | next {wgap : Nat} : Gap wgap → Gap (3 * wgap + 1)

theorem Gap.pos {wgap : Nat} (gap : Gap wgap) : 0 < wgap := by cases gap <;> omega

theorem sortGaps_ascending : ∀ (fuel wgap : Nat) (base : Array α), Gap wgap → wgap ≤ fuel → 1 < base.size →
    Orders comp base.toList → Ascending comp (sortGaps comp base.size fuel base wgap).toList := by
  intro fuel
  induction fuel with
  | zero => intro wgap base gap small; have := gap.pos; omega
  | succ fuel ih =>
    intro wgap base gap small several orders
    rw [sortGaps]
    cases gap with
    | one =>
      obtain ⟨a,b,rest,list⟩ : ∃ a b rest, base.toList = a :: b :: rest := by
        rcases found : base.toList with _ | ⟨a,_ | ⟨b,rest⟩⟩
        · simp [← Array.length_toList,found] at several
        · simp [← Array.length_toList,found] at several
        · exact ⟨a,b,rest,rfl⟩
      have pass := @sortGap_one _ comp (b :: rest) base.size [a] (by simp) (by simp)
        (by rw [← Array.length_toList,list]; simp) (by rw [singleton_append,← list]; exact orders) (pairwise_singleton _ _)
      rw [singleton_append,← list] at pass
      exact pass
    | @next wgap gap =>
      have pos := gap.pos
      have step : (3 * wgap + 1 - 1) / 3 = wgap := by omega
      have perm := sortGap_perm comp (3 * wgap + 1) base.size base.size base (3 * wgap + 1)
      have size : (sortGap comp (3 * wgap + 1) base.size base.size base (3 * wgap + 1)).size = base.size := perm.size_eq
      rw [step,if_pos (by omega)]
      have rest := ih wgap (sortGap comp (3 * wgap + 1) base.size base.size base (3 * wgap + 1)) gap (by omega) (by omega)
        (orders.perm perm.toList)
      rw [size] at rest
      exact rest

theorem firstGap_gap (nel : Nat) : ∀ (fuel wgap : Nat), (wgap = 0 ∨ Gap wgap) → 0 < fuel → Gap (firstGap nel fuel wgap) := by
  intro fuel
  induction fuel with
  | zero => omega
  | succ fuel ih =>
    intro wgap gap _
    have next : Gap (3 * wgap + 1) := by
      rcases gap with rfl | gap
      · exact .one
      · exact .next gap
    rw [firstGap]
    split
    · cases fuel with
      | zero => exact next
      | succ fuel => exact ih _ (.inr next) (by omega)
    · exact next

theorem firstGap_le {nel : Nat} (several : 1 < nel) : ∀ (fuel wgap : Nat), (wgap = 0 ∨ wgap < (nel-1) / 3) →
    firstGap nel fuel wgap ≤ nel := by
  intro fuel
  induction fuel with
  | zero => intro wgap small; rw [firstGap]; omega
  | succ fuel ih =>
    intro wgap small
    rw [firstGap]
    split
    · next more => exact ih _ (.inr more)
    · omega

theorem qsort_ascending {base : Array α} (orders : Orders comp base.toList) : Ascending comp (qsort comp base).toList := by
  unfold qsort
  by_cases several : 1 < base.size
  · rw [if_pos several]
    exact sortGaps_ascending base.size _ base (firstGap_gap _ _ _ (.inl rfl) (by omega)) (firstGap_le several _ _ (.inl rfl)) several
      orders
  rw [if_neg several]
  match found : base.toList with
  | [] => exact .nil
  | [a] => exact pairwise_singleton _ _
  | a :: b :: rest => simp [← Array.length_toList,found] at several

end UBoot.QsortOrder
