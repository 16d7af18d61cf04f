import UBoot.Commands

/-!
Lists of commands. The lines of a script are run in order up to the first one that fails; what is returned for a
last line without a newline is the wrong way round (`run_list_iff`).
-/
namespace UBoot.CommandList
open List CStrings Commands

variable {σ : Type}

/-! ### What a script means -/

/-- The lines run one after the other up to the first one that fails: the state, whether one has failed, and
    the lines that were run. -/
def runLines (run : σ → List UInt8 → σ × Int) : σ → List (List UInt8) → σ × Bool × List (List UInt8)
  | s, [] => (s,false,[])
  | s, line :: rest =>
    let (state,ret) := run s line
    if ret < 0 then (state,true,[line])
    else
      let later := runLines run state rest
      (later.1,later.2.1,line :: later.2.2)

def linesOf (text : List UInt8) : List (List UInt8) := (text.splitOn newline).filter (· ≠ [])

def completeLines (text : List UInt8) : List (List UInt8) := (text.splitOn newline).dropLast.filter (· ≠ [])

def lastLine (text : List UInt8) : List UInt8 := (text.splitOn newline).getLast?.getD []

theorem linesOf_eq (text : List UInt8) :
    linesOf text = completeLines text ++ if lastLine text = [] then [] else [lastLine text] := by
  have nonempty : text.splitOn newline ≠ [] := splitOnP_ne_nil _ _
  rw [linesOf,completeLines,lastLine,getLast?_eq_some_getLast nonempty,Option.getD_some]
  nth_rewrite 1 [← dropLast_append_getLast nonempty]
  rw [filter_append]
  by_cases empty : (text.splitOn newline).getLast nonempty = []
  · rw [empty]; rfl
  · rw [if_neg empty,filter_cons_of_pos (by simpa using empty),filter_nil]

theorem runLines_append (run : σ → List UInt8 → σ × Int) (more : List (List UInt8)) : ∀ (lines : List (List UInt8)) (s : σ),
    runLines run s (lines ++ more) =
      if (runLines run s lines).2.1 then runLines run s lines
      else
        let later := runLines run (runLines run s lines).1 more
        (later.1,later.2.1,(runLines run s lines).2.2 ++ later.2.2) := by
  intro lines
  induction lines with
  | nil => intro s; rfl
  | cons line lines ih =>
    intro s
    rw [cons_append,runLines,runLines]
    by_cases fails : (run s line).2 < 0
    · simp only [if_pos fails,if_true]
    simp only [if_neg fails]
    rw [ih]
    split <;> rfl

/-! ### The loop -/

/-- The complete lines of a text, the first of which has already begun, and what is left. -/
def cut : List UInt8 → List UInt8 → List (List UInt8) × List UInt8
  | line, [] => ([],line)
  | line, c :: next =>
    if c = newline then (line :: (cut [] next).1,(cut [] next).2)
    else cut (line ++ [c]) next

theorem splitOn_cut (next : List UInt8) : ∀ line, newline ∉ line →
    (line ++ next).splitOn newline = (cut line next).1 ++ [(cut line next).2] := by
  induction next with
  | nil =>
    intro line free
    rw [append_nil]
    exact splitOnP_eq_singleton fun c member => by
      have other : c ≠ newline := fun same => free (same ▸ member)
      simpa using other
  | cons c next ih =>
    intro line free
    rw [cut]
    by_cases ends : c = newline
    · have first : List.splitOnP (· == newline) line = [line] := splitOnP_eq_singleton fun c member => by
        have other : c ≠ newline := fun same => free (same ▸ member)
        simpa using other
      have later := ih [] not_mem_nil
      rw [if_pos ends,cons_append,← later,List.splitOn,splitOnP_append_cons _ _ (by simpa using ends),first]
      rfl
    rw [if_neg ends,append_cons]
    refine ih _ fun member => ?_
    rcases mem_append.mp member with inside | last
    · exact free inside
    · exact ends (mem_singleton.mp last).symm

theorem cut_eq (text : List UInt8) :
    completeLines text = (cut [] text).1.filter (· ≠ []) ∧ lastLine text = (cut [] text).2 := by
  have split := splitOn_cut text [] not_mem_nil
  rw [nil_append] at split
  rw [completeLines,lastLine,split,dropLast_concat,getLast?_concat]
  exact ⟨rfl,rfl⟩

theorem listLoop_eq (run : σ → List UInt8 → σ × Int) (next : List UInt8) : ∀ (s : σ) (line : List UInt8) (lines : List (List UInt8)),
    (listLoop run ⟨s,0,line,lines⟩ next).state = (runLines run s ((cut line next).1.filter (· ≠ []))).1 ∧
      (listLoop run ⟨s,0,line,lines⟩ next).lines = lines ++ (runLines run s ((cut line next).1.filter (· ≠ []))).2.2 ∧
      if (runLines run s ((cut line next).1.filter (· ≠ []))).2.1 then (listLoop run ⟨s,0,line,lines⟩ next).rcode = 1
      else (listLoop run ⟨s,0,line,lines⟩ next).rcode = 0 ∧ (listLoop run ⟨s,0,line,lines⟩ next).line = (cut line next).2 := by
  induction next with
  | nil =>
    intro s line lines
    exact ⟨rfl,(append_nil _).symm,rfl,rfl⟩
  | cons c next ih =>
    intro s line lines
    rw [listLoop,cut]
    by_cases ends : c = newline
    · by_cases empty : line = []
      · simp only [if_pos ends,empty,ne_eq,not_true_eq_false,if_false]
        exact ih s [] lines
      rw [if_pos ends,if_pos ends,filter_cons_of_pos (by simpa using empty),runLines]
      simp only [ne_eq,empty,not_false_eq_true,if_true]
      by_cases fails : (run s line).2 < 0
      · simp only [if_pos fails]
        exact ⟨trivial,trivial,trivial⟩
      simp only [if_neg fails]
      have later := ih (run s line).1 [] (lines ++ [line])
      rw [append_assoc] at later
      exact later
    · simp only [if_neg ends]
      exact ih s (line ++ [c]) lines

/-! ### The result -/

/-- The lines are run as they should be, and 0 is returned exactly when none of them has failed. -/
def Reports (run : σ → List UInt8 → σ × Int) (text : List UInt8) (s : σ) (result : σ × Int × List (List UInt8)) : Prop :=
  result.1 = (runLines run s (linesOf text)).1 ∧ result.2.2 = (runLines run s (linesOf text)).2.2 ∧
    (result.2.1 = 0 ↔ (runLines run s (linesOf text)).2.1 = false)

/-- A list of commands reports failures exactly when nothing stands behind the last newline, or a line in front
    of it fails. -/
theorem run_list_iff (run : σ → List UInt8 → σ × Int) (script : CString) (len : Option Nat)
    (whole : len = none ∨ len = some script.length) (s : σ) :
    Reports run script.bytes s (run_command_list run script.bytes len s) ↔
      lastLine script.bytes = [] ∨ (runLines run s (completeLines script.bytes)).2.1 = true := by
  have text : run_command_list run script.bytes len s = builtin_run_command_list run script.bytes s := by
    rcases whole with rfl | rfl
    · simp only [run_command_list,toCString_self]
    · simp only [run_command_list,CString.length,take_length,toCString_self]
  obtain ⟨complete,last⟩ := cut_eq script.bytes
  obtain ⟨state,lines,rest⟩ := listLoop_eq run script.bytes s [] []
  rw [← complete] at state lines rest
  rw [← last] at rest
  rw [text,Reports,linesOf_eq,runLines_append,builtin_run_command_list]
  simp only [state,lines,nil_append]
  cases failed : (runLines run s (completeLines script.bytes)).2.1 with
  | true =>
    rw [failed,if_pos rfl] at rest
    simp [rest,failed]
  | false =>
    rw [failed] at rest
    obtain ⟨rcode,line⟩ := rest
    simp only [rcode,line,true_and,Bool.false_eq_true,if_false,or_false]
    by_cases empty : lastLine script.bytes = []
    · simp [empty,runLines]
    by_cases fails : (run (runLines run s (completeLines script.bytes)).1 (lastLine script.bytes)).2 < 0
    · have negative : ¬ 0 ≤ (run (runLines run s (completeLines script.bytes)).1 (lastLine script.bytes)).2 := by omega
      simp [empty,runLines,fails,negative]
    · have positive : 0 ≤ (run (runLines run s (completeLines script.bytes)).1 (lastLine script.bytes)).2 := by omega
      simp [empty,runLines,fails,positive]

def succeeds : Unit → List UInt8 → Unit × Int := fun s _ => (s,1)

/-- Two lines with a final newline. -/
theorem final_newline_reported :
    Reports succeeds (CString.ofString "a\nb\n").bytes () (run_command_list succeeds (CString.ofString "a\nb\n").bytes none ()) :=
  (run_list_iff succeeds (CString.ofString "a\nb\n") none (.inl rfl) ()).mpr (.inl (by decide))

/-- Without the final newline, 1 is returned though both lines have succeeded. -/
theorem success_reported_as_failure :
    run_command_list succeeds (CString.ofString "a\nb").bytes none () = ((),1,[[97],[98]]) ∧
      runLines succeeds () (linesOf (CString.ofString "a\nb").bytes) = ((),false,[[97],[98]]) := by
  decide

end UBoot.CommandList
