import Mathlib.Tactic

/-!
Runs of a labelled step relation. A run keeps the labels it took, in order; what
every step preserves, every run preserves (`Run.invariant`), and a relation
between the labels taken and the state reached is carried along in the same way
(`Run.relates`).
-/
namespace UBoot.Runs
universe u v

variable {State : Type u} {Label : Type v}

/-- A run from `s`: the labels taken, in order, and the state reached. -/
inductive Run (step : State → Label → State → Prop) (s : State) : List Label → State → Prop
  | start : Run step s [] s
  | next {ls : List Label} {t u : State} {l : Label} :
      Run step s ls t → step t l u → Run step s (ls ++ [l]) u

/-- The steps of `step` that meet the condition `ok` in the state they start from. -/
def Guarded (ok : State → Label → Prop) (step : State → Label → State → Prop) : State → Label → State → Prop :=
  fun s l t => ok s l ∧ step s l t

variable {step : State → Label → State → Prop} {s t u : State} {ls : List Label} {l : Label}

/-- A relation between labels taken and state reached that holds at the start
    and survives every step holds after every run. -/
theorem Run.relates {R : List Label → State → Prop} (run : Run step s ls t) (initial : R [] s)
    (keep : ∀ ls t l u, R ls t → step t l u → R (ls ++ [l]) u) : R ls t := by
  induction run with
  | start => exact initial
  | next _ taken ih => exact keep _ _ _ _ ih taken

theorem Run.invariant {inv : State → Prop} (run : Run step s ls t) (initial : inv s)
    (keep : ∀ t l u, inv t → step t l u → inv u) : inv t :=
  run.relates (R := fun _ t => inv t) initial (fun _ t l u => keep t l u)

theorem Run.single (taken : step s l t) : Run step s [l] t := by
  have none : Run step s [] s := .start
  simpa using none.next taken

theorem Run.trans {ms : List Label} (first : Run step s ls t) (second : Run step t ms u) :
    Run step s (ls ++ ms) u := by
  induction second with
  | start => simpa using first
  | next _ taken ih => simpa [List.append_assoc] using ih.next taken

theorem Run.unguarded {ok : State → Label → Prop} (run : Run (Guarded ok step) s ls t) : Run step s ls t := by
  induction run with
  | start => exact .start
  | next _ taken ih => exact ih.next taken.2

theorem Run.ofFoldlM {next : State → Label → Option State} (sound : ∀ s l t, next s l = some t → step s l t)
    (done : ls.foldlM next s = some t) : Run step s ls t := by
  induction ls generalizing s with
  | nil =>
    cases done
    exact .start
  | cons l ls ih =>
    rw [List.foldlM_cons] at done
    obtain ⟨u,first,rest⟩ := Option.bind_eq_some_iff.mp done
    exact (Run.single (sound s l u first)).trans (ih rest)

end UBoot.Runs
