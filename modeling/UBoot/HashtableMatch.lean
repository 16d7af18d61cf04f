import UBoot.Himport
import UBoot.HashtableMap

/-!
`hmatch_r`, by which `env_complete` steps through the entries whose key starts with a
given string. The loop ends before slot `size`, which the table uses, so that the
entry there is never visited (`enumerates_iff`).
-/
namespace UBoot.HashtableMatch
open List CStrings Hashtable HashtableMap Himport

/-- The loop of `strncmp`. -/
def strncmpBytes : Nat → List UInt8 → List UInt8 → Int
  | 0, _, _ => 0
  | _+1, [], [] => 0
  | _+1, [], d :: _ => signedChar (0 - d)
  | _+1, c :: _, [] => signedChar c
  | count+1, c :: cs, d :: ds => if c = d then strncmpBytes count cs ds else signedChar (c - d)

def strncmp (cs ct : CString) (count : Nat) : Int := strncmpBytes count cs.bytes ct.bytes

/-- The loop over the slots from `idx`: the slot it stops at, or `none` at its end. -/
def hmatchLoop (mtch : CString) (htab : HsearchData) : Nat → Nat → Option Nat
  | 0, _ => none
  | fuel+1, idx =>
    if idx < htab.size then
      if (htab.table idx).used ≤ 0 then hmatchLoop mtch htab fuel (idx + 1)
      else if strncmp mtch (htab.table idx).entry.key mtch.length = 0 then some idx
      else hmatchLoop mtch htab fuel (idx + 1)
    else none

/-- The value returned and the slot `*retval` points into. -/
def hmatch_r (mtch : CString) (last_idx : Nat) (htab : HsearchData) : Nat × Option Nat :=
  match hmatchLoop mtch htab htab.size (last_idx + 1) with
  | some idx => (idx,some idx)
  | none => (0,none)

/-- `while ((idx = hmatch_r(match, idx, ..)))`: the slots it visits. -/
def visits (mtch : CString) (htab : HsearchData) : Nat → Nat → Option (List Nat)
  | 0, _ => none
  | fuel+1, idx =>
    match hmatch_r mtch idx htab with
    | (0,_) => some []
    | (next,_) => (visits mtch htab fuel next).map (next :: ·)

/-! ### One call -/

theorem signedChar_eq_zero {c : UInt8} : signedChar c = 0 ↔ c = 0 := by
  rw [signedChar,← UInt8.toNat_inj]
  have low := c.toNat_lt
  have zero : (0 : UInt8).toNat = 0 := rfl
  split <;> omega

/-- Comparing as many characters as the first string has tells whether the second one
    starts with it. -/
theorem strncmpBytes_zero_iff : ∀ {cs : List UInt8} (ds : List UInt8), 0 ∉ cs →
    (strncmpBytes cs.length cs ds = 0 ↔ cs <+: ds) := by
  intro cs
  induction cs with
  | nil => simp [strncmpBytes]
  | cons c cs ih =>
    intro ds nulFree
    obtain ⟨char,free⟩ : 0 ≠ c ∧ 0 ∉ cs := by simpa using nulFree
    cases ds with
    | nil =>
      have differs : signedChar c ≠ 0 := fun zero => char (signedChar_eq_zero.mp zero).symm
      simpa [strncmpBytes] using differs
    | cons d ds =>
      rw [length_cons,strncmpBytes]
      by_cases same : c = d
      · rw [if_pos same,ih ds free]
        simp [same]
      have differs : signedChar (c-d) ≠ 0 := by
        intro zero
        have : c = 0 + d := UInt8.sub_eq_iff_eq_add.mp (signedChar_eq_zero.mp zero)
        simp [same] at this
      simp [same,differs]

theorem strncmp_zero_iff (cs ct : CString) : strncmp cs ct cs.length = 0 ↔ cs.bytes <+: ct.bytes :=
  strncmpBytes_zero_iff ct.bytes cs.nulFree

def hit (mtch : CString) (htab : HsearchData) (i : Nat) : Bool :=
  decide (0 < (htab.table i).used) && mtch.bytes.isPrefixOf (htab.table i).entry.key.bytes

theorem hit_iff {mtch : CString} {htab : HsearchData} {i : Nat} :
    hit mtch htab i = true ↔ 0 < (htab.table i).used ∧ mtch.bytes <+: (htab.table i).entry.key.bytes := by
  simp [hit]

theorem hmatchLoop_eq (mtch : CString) (htab : HsearchData) : ∀ (fuel idx : Nat), htab.size ≤ fuel + idx →
    hmatchLoop mtch htab fuel idx = (List.range' idx (htab.size-idx)).find? (hit mtch htab) := by
  intro fuel
  induction fuel with
  | zero =>
    intro idx enough
    rw [show htab.size - idx = 0 by omega]
    rfl
  | succ fuel ih =>
    intro idx enough
    rw [hmatchLoop]
    by_cases inside : idx < htab.size
    · have more : htab.size - idx = htab.size - (idx+1) + 1 := by omega
      rw [if_pos inside,more,range'_succ,ih (idx+1) (by omega)]
      by_cases found : hit mtch htab idx = true
      · obtain ⟨used,starts⟩ := hit_iff.mp found
        rw [find?_cons_of_pos found,if_neg (by omega),
          if_pos ((strncmp_zero_iff _ _).mpr starts)]
      rw [find?_cons_of_neg found]
      split
      · rfl
      next used =>
      rw [if_neg]
      exact fun same => found (hit_iff.mpr ⟨by omega,(strncmp_zero_iff _ _).mp same⟩)
    · rw [if_neg inside,show htab.size - idx = 0 by omega]
      rfl

/-! ### All calls -/

theorem filter_of_find {p : Nat → Bool} {i : Nat} : ∀ (n start : Nat), (List.range' start n).find? p = some i →
    start ≤ i ∧ i < start + n ∧ (List.range' start n).filter p = i :: (List.range' (i+1) (start + n - (i+1))).filter p := by
  intro n
  induction n with
  | zero => intro start found; simp at found
  | succ n ih =>
    intro start found
    rw [range'_succ] at found ⊢
    by_cases here : p start = true
    · rw [find?_cons_of_pos here] at found
      cases found
      rw [filter_cons_of_pos here,show i + (n+1) - (i+1) = n by omega]
      exact ⟨le_refl _,by omega,rfl⟩
    rw [find?_cons_of_neg here] at found
    obtain ⟨low,high,rest⟩ := ih (start+1) found
    rw [filter_cons_of_neg here,rest,show start + 1 + n = start + (n+1) by omega]
    exact ⟨by omega,by omega,rfl⟩

theorem visits_eq (mtch : CString) (htab : HsearchData) : ∀ (fuel idx : Nat), htab.size ≤ fuel + idx → 0 < fuel →
    visits mtch htab fuel idx = some ((List.range' (idx+1) (htab.size - (idx+1))).filter (hit mtch htab)) := by
  intro fuel
  induction fuel with
  | zero => omega
  | succ fuel ih =>
    intro idx enough _
    rw [visits,hmatch_r,hmatchLoop_eq mtch htab htab.size (idx+1) (by omega)]
    cases first : (List.range' (idx+1) (htab.size - (idx+1))).find? (hit mtch htab) with
    | none =>
      have empty : (List.range' (idx+1) (htab.size - (idx+1))).filter (hit mtch htab) = [] := by
        simpa using first
      rw [empty]
      rfl
    | some next =>
      obtain ⟨low,high,rest⟩ := filter_of_find _ _ first
      have behind : idx + 1 + (htab.size - (idx+1)) - (next+1) = htab.size - (next+1) := by omega
      rw [rest,behind]
      obtain ⟨next,rfl⟩ : ∃ n, next = n + 1 := ⟨next-1,by omega⟩
      change (visits mtch htab fuel (next+1)).map _ = _
      rw [ih (next+1) (by omega) (by omega)]
      rfl

/-- Stepping through the entries from index 0 ends, visits no slot twice, and visits a
    slot exactly if it holds an entry whose key starts with the string. -/
def Enumerates (mtch : CString) (htab : HsearchData) : Prop :=
  ∃ visited, visits mtch htab (htab.size + 1) 0 = some visited ∧ visited.Nodup ∧
    ∀ i, i ∈ visited ↔ Live htab i ∧ mtch.bytes <+: (htab.table i).entry.key.bytes

/-- The enumeration is complete exactly if the last slot holds no such entry. -/
theorem enumerates_iff (mtch : CString) (htab : HsearchData) :
    Enumerates mtch htab ↔
      ¬ (Live htab htab.size ∧ mtch.bytes <+: (htab.table htab.size).entry.key.bytes) := by
  rw [Enumerates,visits_eq mtch htab _ _ (by omega) (by omega)]
  have members : ∀ i, i ∈ (List.range' (0+1) (htab.size - (0+1))).filter (hit mtch htab) ↔
      (Live htab i ∧ mtch.bytes <+: (htab.table i).entry.key.bytes) ∧ i ≠ htab.size := by
    intro i
    rw [mem_filter,mem_range'_1,hit_iff]
    constructor
    · rintro ⟨⟨low,high⟩,used,starts⟩
      exact ⟨⟨⟨by omega,by omega,used⟩,starts⟩,by omega⟩
    · rintro ⟨⟨⟨low,high,used⟩,starts⟩,notLast⟩
      exact ⟨⟨by omega,by omega⟩,used,starts⟩
  constructor
  · rintro ⟨visited,same,_,exact_⟩ last
    cases same
    exact ((members _).mp ((exact_ htab.size).mpr last)).2 rfl
  intro notLast
  refine ⟨_,rfl,(nodup_range').filter _,fun i => ?_⟩
  rw [members i]
  refine ⟨And.left,fun wanted => ⟨wanted,?_⟩⟩
  rintro rfl
  exact notLast wanted

/-- `S=1`, `T=1`, `2=1` and `pa=1`: the last one collides with all others and goes to
    slot 67 of the table made for them. -/
def collidingNames : List UInt8 := [83,61,49,0,84,61,49,0,50,61,49,0,112,97,61,49,0,0]

def nameP : CString := ⟨[112],by decide⟩
def namePa : CString := ⟨[112,97],by decide⟩
def valueOne : CString := ⟨[49],by decide⟩

/-- The table has the variable `pa`, but no call for `p` finds it. -/
theorem last_slot_missed :
    ∃ u, himport_r Hooks.none none collidingNames 0 0 [] = some (some u,1) ∧ u.size = 67 ∧
      found u namePa = some valueOne ∧ nameP.bytes <+: namePa.bytes ∧ hmatch_r nameP 0 u = (0,none) := by
  have imported : (himport_r Hooks.none none collidingNames 0 0 []).map (fun r => (r.1.map fun u =>
      decide (u.size = 67 ∧ found u namePa = some valueOne ∧ hmatch_r nameP 0 u = (0,none)),r.2)) = some (some true,1) := by
    decide +kernel
  obtain ⟨⟨u,ret⟩,imports,inU⟩ := Option.map_eq_some_iff.mp imported
  simp only [Prod.mk.injEq] at inU
  obtain ⟨u,rfl,facts⟩ := Option.map_eq_some_iff.mp inU.1
  obtain ⟨size,value,missed⟩ := of_decide_eq_true facts
  refine ⟨u,?_,size,value,by decide,missed⟩
  rw [imports,inU.2]

end UBoot.HashtableMatch
