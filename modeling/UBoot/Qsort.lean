import Mathlib.Tactic

/-!
The shell sort of `lib/qsort.c`. The gap is counted in elements, not in bytes,
and the byte-wise exchange of two elements is one swap.
-/
namespace UBoot.Qsort

variable {α : Type}

/-- `do wgap = 3 * wgap + 1; while (wgap < (nel-1)/3)`. -/
def firstGap (nel : Nat) : Nat → Nat → Nat
  | 0, wgap => wgap
  | fuel+1, wgap => if 3 * wgap + 1 < (nel - 1) / 3 then firstGap nel fuel (3 * wgap + 1) else 3 * wgap + 1

/-- The innermost loop: the element at `j` moves down by whole gaps. -/
def moveDown (comp : α → α → Int) (wgap : Nat) : Nat → Array α → Nat → Array α
  | 0, base, _ => base
  | fuel+1, base, j =>
    match base[j - wgap]?, base[j - wgap + wgap]? with
    | some a, some b =>
      if comp a b ≤ 0 then base
      else
        let swapped := base.swapIfInBounds (j - wgap) (j - wgap + wgap)
        if wgap ≤ j - wgap then moveDown comp wgap fuel swapped (j - wgap) else swapped
    | _, _ => base

/-- The loop over `i` for one gap. -/
def sortGap (comp : α → α → Int) (wgap nel : Nat) : Nat → Array α → Nat → Array α
  | 0, base, _ => base
  | fuel+1, base, i =>
    let moved := moveDown comp wgap (i + 1) base i
    if i + 1 < nel then sortGap comp wgap nel fuel moved (i + 1) else moved

def sortGaps (comp : α → α → Int) (nel : Nat) : Nat → Array α → Nat → Array α
  | 0, base, _ => base
  | fuel+1, base, wgap =>
    let sorted := sortGap comp wgap nel nel base wgap
    if (wgap - 1) / 3 ≠ 0 then sortGaps comp nel fuel sorted ((wgap - 1) / 3) else sorted

def qsort (comp : α → α → Int) (base : Array α) : Array α :=
  if 1 < base.size then sortGaps comp base.size base.size base (firstGap base.size base.size 0) else base

/-! ### Sorting rearranges -/

theorem swap_perm (base : Array α) (i j : Nat) : (base.swapIfInBounds i j).Perm base := by
  unfold Array.swapIfInBounds
  split
  · split
    · exact Array.swap_perm ..
    · exact Array.Perm.refl _
  · exact Array.Perm.refl _

theorem moveDown_perm (comp : α → α → Int) (wgap : Nat) :
    ∀ fuel (base : Array α) j, (moveDown comp wgap fuel base j).Perm base := by
  intro fuel
  induction fuel with
  | zero => intro base j; exact Array.Perm.refl _
  | succ fuel ih =>
    intro base j
    rw [moveDown]
    split
    · split
      · exact Array.Perm.refl _
      dsimp only
      split
      · exact (ih _ _).trans (swap_perm ..)
      · exact swap_perm ..
    · exact Array.Perm.refl _

theorem sortGap_perm (comp : α → α → Int) (wgap nel : Nat) :
    ∀ fuel (base : Array α) i, (sortGap comp wgap nel fuel base i).Perm base := by
  intro fuel
  induction fuel with
  | zero => intro base i; exact Array.Perm.refl _
  | succ fuel ih =>
    intro base i
    rw [sortGap]
    split
    · exact (ih _ _).trans (moveDown_perm ..)
    · exact moveDown_perm ..

theorem sortGaps_perm (comp : α → α → Int) (nel : Nat) :
    ∀ fuel (base : Array α) wgap, (sortGaps comp nel fuel base wgap).Perm base := by
  intro fuel
  induction fuel with
  | zero => intro base wgap; exact Array.Perm.refl _
  | succ fuel ih =>
    intro base wgap
    rw [sortGaps]
    split
    · exact (ih _ _).trans (sortGap_perm ..)
    · exact sortGap_perm ..

theorem qsort_perm (comp : α → α → Int) (base : Array α) : (qsort comp base).Perm base := by
  unfold qsort
  split
  · exact sortGaps_perm ..
  · exact Array.Perm.refl _

end UBoot.Qsort
