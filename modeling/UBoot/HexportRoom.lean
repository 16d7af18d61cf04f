import UBoot.EnvRoundTrip

/-!
The room for an export. Pass 1 of `hexport_r` counts two bytes too many for each entry but, when the
separator is NUL, none of the backslashes that pass 2 puts in front of others (`hexport_inside_iff`).
-/
namespace UBoot.HexportRoom
open CStrings Hashtable Qsort Hexport EnvRoundTrip HashtableMap

/-- The size that `hexport_r` works with: the caller's, or else what pass 1 has counted. -/
def resultSize (htab : HsearchData) (sep : UInt8) (flag size : Nat) (argv : List CString) : Nat :=
  if size = 0 then totlen sep (exportList htab flag argv) + 1 else size

theorem hexport_result {htab : HsearchData} {sep : UInt8} {flag size : Nat} {resp : Option (List UInt8)} {argv : List CString}
    (buffer : ∀ buf, resp = some buf → buf.length = resultSize htab sep flag size argv)
    (room : size = 0 ∨ totlen sep (exportList htab flag argv) + 1 ≤ size) :
    hexport_r htab sep flag resp size argv =
      match exportText sep (qsort cmpkey (exportList htab flag argv).toArray).toList
        (List.replicate (resultSize htab sep flag size argv) 0) with
      | none => .overrun
      | some res => .done res (resultSize htab sep flag size argv) := by
  have accepted : ¬ (size ≠ 0 ∧ size < totlen sep (exportList htab flag argv) + 1) := by omega
  have cleared : clearBuffer resp (resultSize htab sep flag size argv) =
      some (List.replicate (resultSize htab sep flag size argv) 0) := by
    cases resp with
    | none => rfl
    | some buf =>
      have length := buffer buf rfl
      simp [clearBuffer,length]
  have sizeIs : (if size = 0 then totlen sep (exportList htab flag argv) + 1 else size) = resultSize htab sep flag size argv := rfl
  cases text : exportText sep (qsort cmpkey (exportList htab flag argv).toArray).toList
    (List.replicate (resultSize htab sep flag size argv) 0) <;>
    simp only [hexport_r,accepted,if_false,sizeIs,cleared,Option.bind_some,text]

/-- Pass 2 stays inside of the buffer exactly when the separator is not NUL, or the backslashes in the exported
    values fit into the two spare bytes of each entry and what the caller's buffer has left. -/
theorem hexport_inside_iff (htab : HsearchData) (sep : UInt8) (flag size : Nat) (resp : Option (List UInt8))
    (argv : List CString) (buffer : ∀ buf, resp = some buf → buf.length = resultSize htab sep flag size argv)
    (room : size = 0 ∨ totlen sep (exportList htab flag argv) + 1 ≤ size) :
    hexport_r htab sep flag resp size argv ≠ .overrun ↔
      sep ≠ 0 ∨ backslashes (exportList htab flag argv) ≤
        2 * (exportList htab flag argv).length +
          (resultSize htab sep flag size argv - (totlen sep (exportList htab flag argv) + 1)) := by
  have enough : totlen sep (exportList htab flag argv) + 1 ≤ resultSize htab sep flag size argv := by
    unfold resultSize; split <;> omega
  have length := envText_length sep (exportList htab flag argv)
  rw [← envText_perm_length sep (sorted_perm (exportList htab flag argv))] at length
  rw [hexport_result buffer room,exportText_eq,List.length_replicate]
  generalize (qsort cmpkey (exportList htab flag argv).toArray).toList = sorted at length ⊢
  have fits : (envText sep sorted).length + 1 ≤ resultSize htab sep flag size argv ↔
      sep ≠ 0 ∨ backslashes (exportList htab flag argv) ≤ 2 * (exportList htab flag argv).length +
        (resultSize htab sep flag size argv - (totlen sep (exportList htab flag argv) + 1)) := by
    by_cases nul : sep = 0
    · rw [if_pos nul] at length
      simp only [nul,ne_eq,not_true_eq_false,false_or] at length enough ⊢
      omega
    rw [if_neg nul] at length
    simp only [nul,ne_eq,not_false_eq_true,true_or,iff_true]
    omega
  rw [← fits]
  split_ifs with inside
  · exact ⟨fun _ => inside,fun _ => Exported.noConfusion⟩
  · exact ⟨fun stays => absurd rfl stays,fun fits => absurd fits inside⟩

def single (data : CString) : HsearchData where
  table i := if i = 1 then ⟨1,⟨varA,data,none,0⟩⟩ else ⟨0,default⟩
  size := 1
  filled := 1

/-- Two lines with a backslash, separated by newlines: the one escape for each is counted. -/
theorem lines_stay_inside : hexport_r (single lines) newline 0 none 0 [] ≠ .overrun :=
  (hexport_inside_iff (single lines) newline 0 0 none [] (fun _ given => by cases given) (.inl rfl)).mpr (.inl (by decide))

/-- Three backslashes: ten bytes are written into a buffer of nine. -/
theorem three_slashes_overrun :
    resultSize (single slashes) 0 0 0 [] = 9 ∧
      (envText 0 (exportList (single slashes) 0 [])).length + 1 = 10 ∧
      hexport_r (single slashes) 0 0 none 0 [] = .overrun := by
  decide +kernel

end UBoot.HexportRoom
