import UBoot.EnvAttr

/-!
The search of `env_attr_lookup` for a name. `reverse_strstr` returns the last occurrence that ends before a
given place (`reverse_strstr_spec`), so that the search moves to the front with every step, unless the name is
empty: then it stays at the beginning of the list (`lookup_ends_iff`).
-/
namespace UBoot.EnvAttrSearch
open List CStrings EnvAttr

variable {list name : List UInt8} {start : Option Nat}

/-! ### Occurrences -/

def Occurs (list name : List UInt8) (p : Nat) : Prop := name <+: list.drop p

/-- The occurrence ends before the given place, if there is one. -/
def Before (name : List UInt8) (start : Option Nat) (p : Nat) : Prop := ∀ s, start = some s → p + name.length ≤ s

theorem before_iff {p : Nat} : Before name start p ↔ ¬ (start.any fun s => s < p + name.length) = true := by
  cases start with
  | none => exact ⟨fun _ => Bool.false_ne_true,fun _ s given => by cases given⟩
  | some s =>
    simp only [Before,Option.any_some,decide_eq_true_eq,Nat.not_lt,Option.some.injEq]
    exact ⟨fun all => all s rfl,fun le t same => same ▸ le⟩

theorem Before.earlier {p q : Nat} (before : Before name start q) (le : p ≤ q) : Before name start p :=
  fun s given => by have := before s given; omega

theorem Occurs.lt {p : Nat} (occurs : Occurs list name p) (nonempty : name ≠ []) : p + name.length ≤ list.length := by
  have le := occurs.length_le
  have positive := length_pos_iff.mpr nonempty
  rw [length_drop] at le
  omega

theorem strstrAt_some {text : List UInt8} {k : Nat} (found : strstrAt name text = some k) :
    Occurs text name k ∧ ∀ j < k, ¬ Occurs text name j := by
  induction text generalizing k with
  | nil =>
    rw [strstrAt] at found
    split at found
    next empty => cases found; exact ⟨empty ▸ nil_prefix,fun j before => absurd before (Nat.not_lt_zero j)⟩
    next => cases found
  | cons c rest ih =>
    rw [strstrAt] at found
    split at found
    next here =>
      cases found
      exact ⟨List.isPrefixOf_iff_prefix.mp here,fun j before => absurd before (Nat.not_lt_zero j)⟩
    next notHere =>
      obtain ⟨k,later,rfl⟩ := Option.map_eq_some_iff.mp found
      refine ⟨(ih later).1,fun j before => ?_⟩
      cases j with
      | zero => exact fun occurs => notHere (List.isPrefixOf_iff_prefix.mpr occurs)
      | succ j => exact (ih later).2 j (Nat.lt_of_succ_lt_succ before)

theorem strstrAt_none {text : List UInt8} (nonempty : name ≠ []) (absent : strstrAt name text = none) (j : Nat) :
    ¬ Occurs text name j := by
  induction text generalizing j with
  | nil =>
    rw [Occurs,drop_nil]
    exact fun occurs => nonempty (prefix_nil.mp occurs)
  | cons c rest ih =>
    rw [strstrAt] at absent
    split at absent
    next => cases absent
    next notHere =>
      cases j with
      | zero => exact fun occurs => notHere (List.isPrefixOf_iff_prefix.mpr occurs)
      | succ j => exact ih (Option.map_eq_none_iff.mp absent) j

theorem occurs_drop {searched j : Nat} : Occurs (list.drop searched) name j ↔ Occurs list name (searched+j) := by
  rw [Occurs,Occurs,drop_drop]

/-! ### The last occurrence -/

/-- The last of the occurrences that satisfy a condition, or none. -/
def Last (P : Nat → Prop) : Option Nat → Prop
  | none => ∀ q, ¬ P q
  | some p => P p ∧ ∀ q, P q → q ≤ p

theorem reverseLoop_spec (nonempty : name ≠ []) (fuel : Nat) : ∀ (searched : Nat) (result : Option Nat),
    list.length < searched + fuel → Last (fun q => Occurs list name q ∧ Before name start q ∧ q < searched) result →
    Last (fun q => Occurs list name q ∧ Before name start q) (reverseLoop list name start fuel searched result) := by
  induction fuel with
  | zero =>
    intro searched result enough last
    -- Behind the end of the list there is nothing left to visit.
    have all : ∀ q, Occurs list name q ∧ Before name start q ↔ Occurs list name q ∧ Before name start q ∧ q < searched := by
      intro q
      refine ⟨fun ⟨occurs,before⟩ => ⟨occurs,before,?_⟩,fun ⟨occurs,before,_⟩ => ⟨occurs,before⟩⟩
      have := occurs.lt nonempty
      omega
    simpa only [reverseLoop,all] using last
  | succ fuel ih =>
    intro searched result enough last
    rw [reverseLoop]
    cases found : strstrAt name (list.drop searched) with
    | none =>
      have all : ∀ q, Occurs list name q ∧ Before name start q ↔
          Occurs list name q ∧ Before name start q ∧ q < searched := by
        intro q
        refine ⟨fun ⟨occurs,before⟩ => ⟨occurs,before,?_⟩,fun ⟨occurs,before,_⟩ => ⟨occurs,before⟩⟩
        by_contra behind
        obtain ⟨j,rfl⟩ := Nat.exists_eq_add_of_le (Nat.not_lt.mp behind)
        exact strstrAt_none nonempty found j (occurs_drop.mpr occurs)
      simpa only [all] using last
    | some skipped =>
      obtain ⟨here,first⟩ := strstrAt_some found
      have occurs : Occurs list name (searched+skipped) := occurs_drop.mp here
      have next : ∀ q, Occurs list name q → q < searched ∨ searched + skipped ≤ q := by
        intro q there
        by_contra between
        obtain ⟨j,rfl⟩ := Nat.exists_eq_add_of_le (show searched ≤ q by omega)
        exact first j (by omega) (occurs_drop.mpr there)
      simp only
      split
      next behind =>
        have all : ∀ q, Occurs list name q ∧ Before name start q ↔
            Occurs list name q ∧ Before name start q ∧ q < searched := by
          intro q
          refine ⟨fun ⟨there,before⟩ => ⟨there,before,?_⟩,fun ⟨there,before,_⟩ => ⟨there,before⟩⟩
          rcases next q there with less | greater
          · exact less
          · exact absurd behind (before_iff.mp (before.earlier greater))
        simpa only [all] using last
      next inFront =>
        refine ih _ _ (by omega) ⟨⟨occurs,before_iff.mpr inFront,Nat.lt_succ_self _⟩,fun q visited => ?_⟩
        omega

theorem reverse_strstr_spec (nonempty : name ≠ []) (start : Option Nat) :
    Last (fun q => Occurs list name q ∧ Before name start q) (reverse_strstr list name start) := by
  rw [reverse_strstr,if_neg nonempty]
  exact reverseLoop_spec nonempty _ 0 none (by omega) fun q visited => Nat.not_lt_zero q visited.2.2

/-! ### The loops end -/

/-- The loop of `reverse_strstr` ends with a result. -/
inductive ReverseEnds (list name : List UInt8) (start : Option Nat) : Nat → Option Nat → Option Nat → Prop
  | absent {searched : Nat} {result : Option Nat} : strstrAt name (list.drop searched) = none →
      ReverseEnds list name start searched result result
  | behind {searched skipped : Nat} {result : Option Nat} : strstrAt name (list.drop searched) = some skipped →
      ¬ Before name start (searched + skipped) → ReverseEnds list name start searched result result
  | again {searched skipped : Nat} {result last : Option Nat} : strstrAt name (list.drop searched) = some skipped →
      Before name start (searched + skipped) →
      ReverseEnds list name start (searched + skipped + 1) (some (searched + skipped)) last →
      ReverseEnds list name start searched result last

/-- `reverse_strstr` returns a result. -/
def Returns (list name : List UInt8) (start result : Option Nat) : Prop :=
  if name = [] then result = some 0 else ReverseEnds list name start 0 none result

/-- The search of `env_attr_lookup` ends with an entry or without one. -/
inductive SearchEnds (list name : List UInt8) : Option Nat → Option Nat → Prop
  | absent : SearchEnds list name none none
  | found {entry : Nat} : isEntry list name entry = true → SearchEnds list name (some entry) (some entry)
  | earlier {entry : Nat} {next result : Option Nat} : isEntry list name entry = false →
      Returns list name (some entry) next → SearchEnds list name next result → SearchEnds list name (some entry) result

/-- `env_attr_lookup` terminates. -/
def LookupEnds (attr_list name : CString) : Prop :=
  ∃ first result, Returns attr_list.bytes name.bytes none first ∧ SearchEnds attr_list.bytes name.bytes first result

theorem reverseLoop_ends (nonempty : name ≠ []) (fuel : Nat) : ∀ (searched : Nat) (result : Option Nat),
    list.length < searched + fuel →
    ReverseEnds list name start searched result (reverseLoop list name start fuel searched result) := by
  induction fuel with
  | zero =>
    intro searched result enough
    refine .absent (Option.eq_none_iff_forall_not_mem.mpr fun skipped found => ?_)
    have := (occurs_drop.mp (strstrAt_some found).1).lt nonempty
    omega
  | succ fuel ih =>
    intro searched result enough
    rw [reverseLoop]
    cases found : strstrAt name (list.drop searched) with
    | none => exact .absent found
    | some skipped =>
      simp only
      split
      next behind => exact .behind found fun before => before_iff.mp before behind
      next inFront => exact .again found (before_iff.mpr inFront) (ih _ _ (by omega))

theorem reverse_strstr_returns (list name : List UInt8) (start : Option Nat) :
    Returns list name start (reverse_strstr list name start) := by
  rw [Returns,reverse_strstr]
  split
  next => rfl
  next nonempty => exact reverseLoop_ends nonempty _ 0 none (by omega)

theorem reverse_strstr_lt {entry next : Nat} (nonempty : name ≠ []) (earlier : reverse_strstr list name (some entry) = some next) :
    next < entry := by
  have last := @reverse_strstr_spec list name nonempty (some entry)
  rw [earlier] at last
  have before := last.1.2 entry rfl
  have positive := length_pos_iff.mpr nonempty
  omega

theorem search_ends (nonempty : name ≠ []) (entry : Nat) : ∃ result, SearchEnds list name (some entry) result := by
  induction entry using Nat.strong_induction_on with
  | _ entry ih =>
    cases whole : isEntry list name entry with
    | true => exact ⟨_,.found whole⟩
    | false =>
      have returned := reverse_strstr_returns list name (some entry)
      cases earlier : reverse_strstr list name (some entry) with
      | none => exact ⟨_,.earlier whole (earlier ▸ returned) .absent⟩
      | some next =>
        obtain ⟨result,ends⟩ := ih next (reverse_strstr_lt nonempty earlier)
        exact ⟨result,.earlier whole (earlier ▸ returned) ends⟩

theorem empty_search_stays {first result : Option Nat} (ends : SearchEnds list [] first result) (atStart : first = some 0) :
    isEntry list [] 0 = true := by
  induction ends with
  | absent => cases atStart
  | found whole => cases atStart; exact whole
  | earlier _ returned _ ih =>
    exact ih returned

theorem isEntry_empty (list : List UInt8) :
    isEntry list [] 0 = true ↔ (list.dropWhile (· = space)).head? ∈ [none,some colon,some comma] := by
  simp only [isEntry,length_nil,Nat.add_zero,drop_zero,decide_true,Bool.true_or,Bool.true_and,Bool.or_eq_true,
    decide_eq_true_eq,mem_cons,not_mem_nil,or_false]
  tauto

/-- The search ends exactly when the name is not empty, or nothing stands in front of the first colon or comma
    of the list. -/
theorem lookup_ends_iff (attr_list name : CString) :
    LookupEnds attr_list name ↔
      name.bytes ≠ [] ∨ (attr_list.bytes.dropWhile (· = space)).head? ∈ [none,some colon,some comma] := by
  rw [← isEntry_empty]
  constructor
  · rintro ⟨first,result,returned,ends⟩
    by_cases empty : name.bytes = []
    · rw [Returns,if_pos empty] at returned
      rw [empty] at ends
      exact .inr (empty_search_stays ends returned)
    · exact .inl empty
  intro condition
  by_cases empty : name.bytes = []
  · have whole := condition.resolve_left (not_not_intro empty)
    refine ⟨some 0,some 0,?_,?_⟩
    · rw [Returns,if_pos empty]
    · rw [empty]
      exact .found whole
  have returned := reverse_strstr_returns attr_list.bytes name.bytes none
  cases first : reverse_strstr attr_list.bytes name.bytes none with
  | none =>
    rw [first] at returned
    exact ⟨_,_,returned,.absent⟩
  | some entry =>
    rw [first] at returned
    obtain ⟨result,ends⟩ := search_ends empty entry
    exact ⟨_,_,returned,ends⟩

/-- The list of the Ethernet address and the serial number, without overwriting. -/
def staticList : CString := CString.ofString "ethaddr:mo,serial#:so,"

/-- Looking for the empty name in the static list never ends. -/
theorem empty_name_never_found : ¬ LookupEnds staticList ⟨[],by decide⟩ := by
  rintro ⟨first,result,returned,ends⟩
  exact absurd (empty_search_stays ends returned) (by decide)

end UBoot.EnvAttrSearch
