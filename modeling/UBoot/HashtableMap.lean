import UBoot.HashtableSize
import UBoot.Runs

/-!
The environment hash table as a finite map. The invariant says where a live entry
can be: on the probe sequence of its key, after slots that have all been used
(`Inv`). Under it every search ends and finds exactly the live entry of the key
(`search_found`, `search_absent`), and every call keeps it.
-/
namespace UBoot.HashtableMap
open Option CStrings Probing Hashtable Runs

variable {t u : HsearchData} {i : Nat} {data : CString}

/-- The `n`-th slot tried for a key in a table of the given size. -/
def slotOf (size : Nat) (key : CString) (n : Nat) : Nat :=
  probe size (hval2 size (hval size key)) (hval size key) n

/-- Slot `i` of the table holds an entry. -/
def Live (t : HsearchData) (i : Nat) : Prop := 1 ≤ i ∧ i ≤ t.size ∧ 0 < (t.table i).used

instance (t : HsearchData) (i : Nat) : Decidable (Live t i) := by unfold Live; infer_instance

def Absent (t : HsearchData) (key : CString) : Prop := ∀ i, Live t i → (t.table i).entry.key ≠ key

/-- What every reachable table satisfies. -/
structure Inv (t : HsearchData) : Prop where
  sizeOk : t.size = 1 ∨ (t.size.Prime ∧ 5 ≤ t.size)
  sizeSmall : t.size < 2^32
  zero : (t.table 0).used = 0
  usedOk : ∀ i, -1 ≤ (t.table i).used
  hashed : ∀ i, Live t i → (t.table i).used = hval t.size (t.table i).entry.key
  chained : ∀ i, Live t i → ∃ n < t.size, slotOf t.size (t.table i).entry.key n = i ∧
    ∀ m < n, (t.table (slotOf t.size (t.table i).entry.key m)).used ≠ 0
  distinct : ∀ i j, Live t i → Live t j → (t.table i).entry.key = (t.table j).entry.key → i = j
  filledIs : t.filled = ((Finset.Icc 1 t.size).filter (Live t)).card

theorem Inv.size_pos (inv : Inv t) : 0 < t.size := by
  rcases inv.sizeOk with one | ⟨_,large⟩ <;> omega

/-! ### The probe sequence -/

theorem hval_pos (size : Nat) (key : CString) : 1 ≤ hval size key := by
  unfold hval; split <;> omega

theorem hval_le {size : Nat} (pos : 0 < size) (key : CString) : hval size key ≤ size := by
  have := Nat.mod_lt (hashString key) pos
  unfold hval; split <;> omega

theorem hval2_eq {size : Nat} (large : 5 ≤ size) (small : size < 2^32) (h : Nat) : hval2 size h = 1 + h % (size-2) := by
  have : (size + (2^32 - 2)) % 2^32 = size - 2 := by omega
  rw [hval2,this]

theorem hval2_range {size : Nat} (large : 5 ≤ size) (small : size < 2^32) (h : Nat) :
    1 ≤ hval2 size h ∧ hval2 size h < size := by
  have := Nat.mod_lt h (show 0 < size - 2 by omega)
  rw [hval2_eq large small]; omega

@[simp] theorem slotOf_zero (size : Nat) (key : CString) : slotOf size key 0 = hval size key := rfl
theorem slotOf_succ (size : Nat) (key : CString) (n : Nat) :
    slotOf size key (n+1) = stepDown size (hval2 size (hval size key)) (slotOf size key n) := rfl

section
variable {size : Nat} (prime : size.Prime) (large : 5 ≤ size) (small : size < 2^32) (key : CString)
include large small

theorem slotOf_range (n : Nat) : 1 ≤ slotOf size key n ∧ slotOf size key n ≤ size :=
  probe_range (hval2_range large small _).2 (hval_pos size key) (hval_le (by omega) key) n

theorem slotOf_size : slotOf size key size = hval size key :=
  probe_size (hval2_range large small _).2 (hval_pos size key) (hval_le (by omega) key)

include prime

theorem coprime_stride : Nat.Coprime size (hval2 size (hval size key)) := by
  obtain ⟨pos,lt⟩ := hval2_range large small (hval size key)
  exact Nat.coprime_of_lt_prime (by omega) lt prime

theorem slotOf_injective {n m : Nat} (nLt : n < size) (mLt : m < size)
    (same : slotOf size key n = slotOf size key m) : n = m :=
  probe_injective (hval2_range large small _).2 (hval_pos size key) (hval_le (by omega) key)
    (coprime_stride prime large small key) nLt mLt same

theorem slotOf_covers (low : 1 ≤ i) (high : i ≤ size) : ∃ n < size, slotOf size key n = i :=
  probe_covers (hval2_range large small _).2 (hval_pos size key) (hval_le (by omega) key)
    (coprime_stride prime large small key) low high

theorem slotOf_ne_start {n : Nat} (pos : 0 < n) (lt : n < size) : slotOf size key n ≠ hval size key :=
  probe_ne_start (hval2_range large small _).2 (hval_pos size key) (hval_le (by omega) key)
    (coprime_stride prime large small key) pos lt

end

/-! ### The search -/

/-- The comparison of `_compare_and_overwrite_entry`. -/
def Matches (t : HsearchData) (key : CString) (i : Nat) : Prop :=
  (t.table i).used = hval t.size key ∧ key = (t.table i).entry.key

instance (t : HsearchData) (key : CString) (i : Nat) : Decidable (Matches t key i) := by
  unfold Matches; infer_instance

theorem compare_eq (hooks : Hooks) (key : CString) (action : ACTION) (t : HsearchData) (flag i : Nat) :
    _compare_and_overwrite_entry hooks key action t flag (hval t.size key) i =
      if Matches t key i then some (overwriteEntry hooks key action t flag i) else none := rfl

theorem Inv.matches_iff (inv : Inv t) (key : CString) (low : 1 ≤ i) (high : i ≤ t.size) :
    Matches t key i ↔ Live t i ∧ (t.table i).entry.key = key := by
  have pos := hval_pos t.size key
  constructor
  · rintro ⟨used,same⟩
    exact ⟨⟨low,high,by omega⟩,same.symm⟩
  · rintro ⟨live,same⟩
    exact ⟨same ▸ inv.hashed i live,same.symm⟩

/-- The loop ends at the first position after `n` where the cycle closes, an entry
    matches or a slot was never used. -/
theorem probeLoop_stops (hooks : Hooks) (key : CString) (action : ACTION) (t : HsearchData) (flag last : Nat)
    (stops : slotOf t.size key last = hval t.size key ∨ Matches t key (slotOf t.size key last) ∨
      (t.table (slotOf t.size key last)).used = 0) :
    ∀ fuel n, n < last → last - n ≤ fuel →
      (∀ m, n < m → m < last → slotOf t.size key m ≠ hval t.size key ∧ ¬ Matches t key (slotOf t.size key m) ∧
        (t.table (slotOf t.size key m)).used ≠ 0) →
      probeLoop hooks key action t flag (hval t.size key) (hval2 t.size (hval t.size key)) fuel (slotOf t.size key n) =
        if slotOf t.size key last = hval t.size key then some (.inr (hval t.size key))
        else if Matches t key (slotOf t.size key last) then
          some (.inl (overwriteEntry hooks key action t flag (slotOf t.size key last)))
        else some (.inr (slotOf t.size key last)) := by
  intro fuel
  induction fuel with
  | zero => omega
  | succ fuel ih =>
    intro n lt enough before
    rw [probeLoop,← slotOf_succ]
    simp only [compare_eq]
    rcases Nat.lt_or_eq_of_le (Nat.succ_le_of_lt lt) with more | same
    · obtain ⟨notStart,noMatch,taken⟩ := before (n+1) (by omega) more
      have rest := ih (n+1) more (by omega) (fun m low high => before m (by omega) high)
      simp [notStart,noMatch,taken,rest]
    rw [← same] at stops ⊢
    by_cases start : slotOf t.size key (n+1) = hval t.size key
    · simp [start]
    by_cases hit : Matches t key (slotOf t.size key (n+1))
    · simp [start,hit]
    have unused : (t.table (slotOf t.size key (n+1))).used = 0 := by
      rcases stops with h | h | h
      · exact absurd h start
      · exact absurd h hit
      · exact h
    simp [start,hit,unused]

theorem search_found (inv : Inv t) (live : Live t i) (hooks : Hooks) (action : ACTION)
    (flag : Nat) {key : CString} (keyed : (t.table i).entry.key = key) :
    hsearch_r hooks key action t flag = some (overwriteEntry hooks key action t flag i) := by
  subst keyed
  set key := (t.table i).entry.key with keyIs
  obtain ⟨n,lt,at_n,before⟩ := inv.chained i live
  have hit : Matches t key i := (inv.matches_iff key live.1 live.2.1).mpr ⟨live,rfl⟩
  have firstUsed : (t.table (hval t.size key)).used ≠ 0 := by
    cases n with
    | zero => rw [slotOf_zero] at at_n; rw [at_n]; have := live.2.2; omega
    | succ n => exact before 0 (by omega)
  rw [hsearch_r]
  simp only [compare_eq,ne_eq,firstUsed,not_false_eq_true,if_true]
  by_cases first : Matches t key (hval t.size key)
  · have low := hval_pos t.size key
    have high := hval_le inv.size_pos key
    obtain ⟨firstLive,firstKey⟩ := (inv.matches_iff key low high).mp first
    have : hval t.size key = i := inv.distinct _ _ firstLive live (firstKey.trans keyIs)
    simp [this,hit]
  have notOne : t.size ≠ 1 := by
    intro one
    have : n = 0 := by omega
    subst this
    rw [slotOf_zero] at at_n
    exact first (at_n ▸ hit)
  obtain ⟨prime,large⟩ := inv.sizeOk.resolve_left notOne
  have nPos : 0 < n := by
    rcases Nat.eq_zero_or_pos n with zero | pos
    · subst zero; rw [slotOf_zero] at at_n; exact absurd (at_n ▸ hit) first
    · exact pos
  have loop := probeLoop_stops hooks key action t flag n (.inr (.inl (at_n ▸ hit))) (t.size+1) 0 nPos
    (by omega) (by
      intro m pos mLt
      refine ⟨slotOf_ne_start prime large inv.sizeSmall key pos (by omega),?_,before m mLt⟩
      intro other
      obtain ⟨low,high⟩ := slotOf_range large inv.sizeSmall key m
      obtain ⟨otherLive,otherKey⟩ := (inv.matches_iff key low high).mp other
      have same := inv.distinct _ _ otherLive live (otherKey.trans keyIs)
      have := slotOf_injective prime large inv.sizeSmall key (by omega) lt (same.trans at_n.symm)
      omega)
  rw [slotOf_zero,at_n] at loop
  have notStart : i ≠ hval t.size key := at_n ▸ slotOf_ne_start prime large inv.sizeSmall key nPos lt
  simp [first,loop,notStart,hit]

theorem hsearch_ends (large : 5 ≤ t.size) (small : t.size < 2^32) (hooks : Hooks) (key : CString) (action : ACTION) (flag : Nat) :
    ∃ r, hsearch_r hooks key action t flag = some r := by
  classical
  have closes : ∃ n, 0 < n ∧ (slotOf t.size key n = hval t.size key ∨ Matches t key (slotOf t.size key n) ∨
      (t.table (slotOf t.size key n)).used = 0) := ⟨t.size,by omega,.inl (slotOf_size large small key)⟩
  obtain ⟨pos,stop⟩ := Nat.find_spec closes
  have bound : Nat.find closes ≤ t.size := Nat.find_min' closes ⟨by omega,.inl (slotOf_size large small key)⟩
  have loop := probeLoop_stops hooks key action t flag (Nat.find closes) stop (t.size+1) 0 pos (by omega) (by
    intro m mPos lt
    have := Nat.find_min closes lt
    push Not at this
    exact this mPos)
  rw [slotOf_zero] at loop
  simp only [hsearch_r,compare_eq,loop]
  split_ifs <;> exact ⟨_,rfl⟩

/-- A slot where a new entry of the key can be found again: it holds no entry and
    every slot tried before it has been used. -/
def Fits (t : HsearchData) (key : CString) (i : Nat) : Prop :=
  1 ≤ i ∧ i ≤ t.size ∧ (t.table i).used ≤ 0 ∧
    ∃ n < t.size, slotOf t.size key n = i ∧ ∀ m < n, (t.table (slotOf t.size key m)).used ≠ 0

def NoneUnused (t : HsearchData) : Prop := ∀ i, 1 ≤ i → i ≤ t.size → (t.table i).used ≠ 0

/-- In a table of one slot the loop runs into index zero, which is never used. -/
theorem loop_one (inv : Inv t) (one : t.size = 1) (hooks : Hooks) (key : CString) (action : ACTION)
    (flag : Nat) : probeLoop hooks key action t flag (hval t.size key) (hval2 t.size (hval t.size key)) (t.size+1)
      (hval t.size key) = some (.inr 0) := by
  have low := hval_pos t.size key
  have high := hval_le inv.size_pos key
  have first : hval t.size key = 1 := by omega
  have next : slotOf t.size key 1 = 0 := by
    rw [slotOf_succ,slotOf_zero,first,one]; decide
  have noMatch : ¬ Matches t key 0 := by
    rintro ⟨used,_⟩
    rw [inv.zero] at used; omega
  have loop := probeLoop_stops hooks key action t flag 1 (.inr (.inr (by rw [next]; exact inv.zero))) (t.size+1) 0
    (by omega) (by omega) (by omega)
  rw [slotOf_zero,next] at loop
  rw [loop,if_neg (by omega),if_neg noMatch]

/-- In a table of prime size the loop ends at a slot that was never used or, when
    there is none, after visiting every slot. -/
theorem loop_prime (inv : Inv t) (prime : t.size.Prime) (large : 5 ≤ t.size) {key : CString}
    (noMatch : ∀ i, 1 ≤ i → i ≤ t.size → ¬ Matches t key i) (taken : (t.table (hval t.size key)).used ≠ 0) :
    ∃ idx, ((idx = hval t.size key ∧ NoneUnused t) ∨ (Fits t key idx ∧ (t.table idx).used = 0)) ∧
      ∀ hooks action flag, probeLoop hooks key action t flag (hval t.size key) (hval2 t.size (hval t.size key))
        (t.size+1) (hval t.size key) = some (.inr idx) := by
  classical
  have small := inv.sizeSmall
  have closes : ∃ n, 0 < n ∧ (slotOf t.size key n = hval t.size key ∨ (t.table (slotOf t.size key n)).used = 0) :=
    ⟨t.size,inv.size_pos,.inl (slotOf_size large small key)⟩
  obtain ⟨pos,stop⟩ := Nat.find_spec closes
  have least : ∀ m, 0 < m → m < Nat.find closes →
      slotOf t.size key m ≠ hval t.size key ∧ (t.table (slotOf t.size key m)).used ≠ 0 := by
    intro m mPos lt
    have := Nat.find_min closes lt
    push Not at this
    exact this mPos
  have bound : Nat.find closes ≤ t.size := Nat.find_min' closes ⟨inv.size_pos,.inl (slotOf_size large small key)⟩
  have usedBefore : ∀ m < Nat.find closes, (t.table (slotOf t.size key m)).used ≠ 0 := by
    intro m lt
    rcases Nat.eq_zero_or_pos m with rfl | mPos
    · exact taken
    · exact (least m mPos lt).2
  obtain ⟨low,high⟩ := slotOf_range large small key (Nat.find closes)
  refine ⟨slotOf t.size key (Nat.find closes),?_,?_⟩
  · by_cases start : slotOf t.size key (Nat.find closes) = hval t.size key
    · refine .inl ⟨start,?_⟩
      have full : Nat.find closes = t.size := by
        by_contra other
        exact slotOf_ne_start prime large small key pos (by omega) start
      intro i iLow iHigh
      obtain ⟨n,lt,rfl⟩ := slotOf_covers prime large small key iLow iHigh
      exact usedBefore n (by omega)
    have unused := stop.resolve_left start
    have inside : Nat.find closes < t.size := by
      by_contra other
      have : Nat.find closes = t.size := by omega
      exact start (by rw [this]; exact slotOf_size large small key)
    exact .inr ⟨⟨low,high,by omega,Nat.find closes,inside,rfl,usedBefore⟩,unused⟩
  intro hooks action flag
  have loop := probeLoop_stops hooks key action t flag (Nat.find closes)
    (stop.imp_right Or.inr) (t.size+1) 0 pos (by omega) (by
      intro m mPos lt
      obtain ⟨notStart,used⟩ := least m mPos lt
      obtain ⟨mLow,mHigh⟩ := slotOf_range large small key m
      exact ⟨notStart,noMatch _ mLow mHigh,used⟩)
  rw [slotOf_zero] at loop
  rw [loop]
  split
  next start => rw [start]
  next start => rw [if_neg (noMatch _ low high)]

/-- Where the search for a key that is not in the table ends: in a full table, at a
    slot that fits, or, when no slot is unused and the first one is live, back at
    the first one. -/
theorem search_absent (inv : Inv t) {key : CString} (absent : Absent t key) :
    ∃ idx first_deleted,
      (∀ hooks action flag, hsearch_r hooks key action t flag =
        some (searchEnded hooks key action t flag (hval t.size key) idx first_deleted)) ∧
      (t.filled = t.size ∨
        (Fits t key (if first_deleted ≠ 0 then first_deleted else idx) ∧
          (0 < (t.table (hval t.size key)).used → ¬ NoneUnused t)) ∨
        (0 < (t.table (hval t.size key)).used ∧ NoneUnused t ∧
          (if first_deleted ≠ 0 then first_deleted else idx) = hval t.size key)) := by
  have low := hval_pos t.size key
  have high := hval_le inv.size_pos key
  have noMatch : ∀ i, 1 ≤ i → i ≤ t.size → ¬ Matches t key i := by
    intro i iLow iHigh hit
    obtain ⟨live,same⟩ := (inv.matches_iff key iLow iHigh).mp hit
    exact absent i live same
  have firstFits : (t.table (hval t.size key)).used ≤ 0 → Fits t key (hval t.size key) :=
    fun free => ⟨low,high,free,0,inv.size_pos,rfl,by simp⟩
  by_cases unused : (t.table (hval t.size key)).used = 0
  · refine ⟨hval t.size key,0,?_,.inr (.inl ⟨?_,by omega⟩)⟩
    · simp [hsearch_r,unused]
    · simpa using firstFits (by omega)
  have ends : ∃ idx, (t.size = 1 ∨ (idx = hval t.size key ∧ NoneUnused t) ∨
        (Fits t key idx ∧ (t.table idx).used = 0)) ∧
      ∀ hooks action flag, probeLoop hooks key action t flag (hval t.size key) (hval2 t.size (hval t.size key))
        (t.size+1) (hval t.size key) = some (.inr idx) := by
    rcases inv.sizeOk with one | ⟨prime,large⟩
    · exact ⟨0,.inl one,fun hooks action flag => loop_one inv one hooks key action flag⟩
    · obtain ⟨idx,place,loop⟩ := loop_prime inv prime large noMatch unused
      exact ⟨idx,.inr place,loop⟩
  obtain ⟨idx,place,loop⟩ := ends
  refine ⟨idx,if (t.table (hval t.size key)).used = -1 then hval t.size key else 0,?_,?_⟩
  · intro hooks action flag
    simp only [hsearch_r,compare_eq,ne_eq,unused,not_false_eq_true,if_true,if_neg (noMatch _ low high),loop]
  by_cases deleted : (t.table (hval t.size key)).used = -1
  · have notZero : hval t.size key ≠ 0 := by omega
    simp only [deleted,if_true,notZero,ne_eq,not_false_eq_true]
    exact .inr (.inl ⟨firstFits (by omega),by omega⟩)
  have positive : 0 < (t.table (hval t.size key)).used := by
    have := inv.usedOk (hval t.size key); omega
  simp only [deleted,if_false,ne_eq,not_true_eq_false]
  rcases place with one | ⟨start,none⟩ | ⟨fits,free⟩
  · -- the only slot is live, so the table is full
    have first : hval t.size key = 1 := by omega
    rw [inv.filledIs,one]
    have live : Live t 1 := ⟨le_refl 1,by omega,first ▸ positive⟩
    simp [Finset.filter_singleton,live]
  · exact .inr (.inr ⟨positive,none,start⟩)
  · exact .inr (.inl ⟨fits,fun _ none => none idx fits.1 fits.2.1 free⟩)

/-! ### What one call does to the slots -/

/-- Data of slot `i` replaced, every other slot as before. -/
structure Overwritten (t u : HsearchData) (i : Nat) (data : CString) : Prop where
  size : u.size = t.size
  filled : u.filled = t.filled
  used : ∀ j, (u.table j).used = (t.table j).used
  key : ∀ j, (u.table j).entry.key = (t.table j).entry.key
  here : (u.table i).entry.data = data
  data : ∀ j, j ≠ i → (u.table j).entry.data = (t.table j).entry.data

/-- A new entry in slot `i`. -/
structure Placed (t u : HsearchData) (i : Nat) (key data : CString) : Prop where
  size : u.size = t.size
  filled : u.filled = t.filled + 1
  usedHere : (u.table i).used = hval t.size key
  keyHere : (u.table i).entry.key = key
  dataHere : (u.table i).entry.data = data
  used : ∀ j, j ≠ i → (u.table j).used = (t.table j).used
  key : ∀ j, j ≠ i → (u.table j).entry.key = (t.table j).entry.key
  data : ∀ j, j ≠ i → (u.table j).entry.data = (t.table j).entry.data

/-- Slot `i` left as a deleted one. -/
structure Deleted (t u : HsearchData) (i : Nat) : Prop where
  size : u.size = t.size
  filled : u.filled = t.filled - 1
  usedHere : (u.table i).used = -1
  used : ∀ j, j ≠ i → (u.table j).used = (t.table j).used
  key : ∀ j, j ≠ i → (u.table j).entry.key = (t.table j).entry.key
  data : ∀ j, j ≠ i → (u.table j).entry.data = (t.table j).entry.data

theorem callBack_same (hooks : Hooks) (entry : ENTRY) (name : CString) (value : Option CString) (op : EnvOp)
    (flag : Nat) (t : HsearchData) : SameSlots t (hooks.callBack entry name value op flag t).2 := by
  unfold Hooks.callBack
  split
  · exact hooks.callbackFrame ..
  · exact SameSlots.refl t

theorem setData_overwritten (same : SameSlots t u) (i : Nat) (data : CString) :
    Overwritten t (u.setData i data) i data := by
  refine ⟨same.size,same.filled,?_,?_,?_,?_⟩
  · intro j
    by_cases here : j = i
    · subst here; simp [HsearchData.setData,HsearchData.setSlot,same.used]
    · simp [HsearchData.setData,HsearchData.setSlot,here,same.used]
  · intro j
    by_cases here : j = i
    · subst here; simp [HsearchData.setData,HsearchData.setSlot,same.key]
    · simp [HsearchData.setData,HsearchData.setSlot,here,same.key]
  · simp [HsearchData.setData,HsearchData.setSlot]
  · intro j other; simp [HsearchData.setData,HsearchData.setSlot,other,same.data]

theorem place_placed (t : HsearchData) (i : Nat) (key data : CString) :
    Placed t (t.place i (hval t.size key) key data) i key data := by
  refine ⟨rfl,rfl,?_,?_,?_,?_,?_,?_⟩
  · simp [HsearchData.place,HsearchData.setSlot]
  · simp [HsearchData.place,HsearchData.setSlot]
  · simp [HsearchData.place,HsearchData.setSlot]
  all_goals intro j other; simp [HsearchData.place,HsearchData.setSlot,other]

theorem hdelete_deleted (same : SameSlots t u) (i : Nat) : Deleted t (_hdelete u i) i := by
  refine ⟨same.size,by simp [_hdelete,same.filled],by simp [_hdelete,HsearchData.setSlot],?_,?_,?_⟩
  · intro j other; simp [_hdelete,HsearchData.setSlot,other,same.used]
  · intro j other; simp [_hdelete,HsearchData.setSlot,other,same.key]
  · intro j other; simp [_hdelete,HsearchData.setSlot,other,same.data]

theorem setSlot_same (t : HsearchData) (i : Nat) (slot : Slot) (used : slot.used = (t.table i).used)
    (key : slot.entry.key = (t.table i).entry.key) (data : slot.entry.data = (t.table i).entry.data) :
    SameSlots t (t.setSlot i slot) := by
  refine ⟨rfl,rfl,?_,?_,?_⟩ <;> intro j <;> by_cases here : j = i
  all_goals first | subst here; simp [HsearchData.setSlot,used,key,data] | simp [HsearchData.setSlot,here]

theorem initEntry_same (hooks : Hooks) (t : HsearchData) (i : Nat) : SameSlots t (initEntry hooks t i) := by
  refine SameSlots.trans (setSlot_same t i _ ?_ ?_ ?_) (setSlot_same _ i _ ?_ ?_ ?_) <;> rfl

theorem Placed.same {v : HsearchData} {key : CString} (placed : Placed t u i key data)
    (same : SameSlots u v) : Placed t v i key data :=
  ⟨same.size.trans placed.size,same.filled.trans placed.filled,(same.used i).trans placed.usedHere,
    (same.key i).trans placed.keyHere,(same.data i).trans placed.dataHere,
    fun j other => (same.used j).trans (placed.used j other),fun j other => (same.key j).trans (placed.key j other),
    fun j other => (same.data j).trans (placed.data j other)⟩

theorem createEntry_cases (hooks : Hooks) (key data : CString) (t : HsearchData) (flag i : Nat) :
    ∃ placed, Placed t placed i key data ∧
      (((createEntry hooks key data t flag (hval t.size key) i).ret = 1 ∧
          (createEntry hooks key data t flag (hval t.size key) i).htab = placed) ∨
        ((createEntry hooks key data t flag (hval t.size key) i).ret = 0 ∧
          Deleted placed (createEntry hooks key data t flag (hval t.size key) i).htab i)) := by
  have placed := (place_placed t i key data).same (initEntry_same hooks _ i)
  simp only [createEntry]
  split
  · exact ⟨_,placed,.inr ⟨rfl,hdelete_deleted (SameSlots.refl _) i⟩⟩
  split
  · exact ⟨_,placed,.inr ⟨rfl,hdelete_deleted (callBack_same ..) i⟩⟩
  · exact ⟨_,placed.same (callBack_same ..),.inl ⟨rfl,rfl⟩⟩

/-- An entry found by `ENTER` is overwritten or left alone. -/
theorem overwriteEntry_cases (hooks : Hooks) (key data : CString) (t : HsearchData) (flag i : Nat) :
    ((overwriteEntry hooks key (.ENTER data) t flag i).ret = i ∧
        Overwritten t (overwriteEntry hooks key (.ENTER data) t flag i).htab i data) ∨
      ((overwriteEntry hooks key (.ENTER data) t flag i).ret = 0 ∧
        SameSlots t (overwriteEntry hooks key (.ENTER data) t flag i).htab) := by
  simp only [overwriteEntry]
  split
  · exact .inr ⟨rfl,SameSlots.refl t⟩
  split
  · exact .inr ⟨rfl,callBack_same ..⟩
  · exact .inl ⟨rfl,setData_overwritten (callBack_same ..) i data⟩

/-! ### The invariant is kept -/

theorem Inv.congr (inv : Inv t) (size : u.size = t.size) (filled : u.filled = t.filled)
    (used : ∀ i, (u.table i).used = (t.table i).used) (key : ∀ i, (u.table i).entry.key = (t.table i).entry.key) :
    Inv u := by
  have live : ∀ i, Live u i ↔ Live t i := by simp [Live,size,used]
  refine ⟨by rw [size]; exact inv.sizeOk,by rw [size]; exact inv.sizeSmall,by rw [used]; exact inv.zero,?_,?_,?_,?_,?_⟩
  · intro i; rw [used]; exact inv.usedOk i
  · intro i isLive; rw [used,key,size]; exact inv.hashed i ((live i).mp isLive)
  · intro i isLive
    simp only [used,key,size]
    exact inv.chained i ((live i).mp isLive)
  · intro i j iLive jLive same
    rw [key,key] at same
    exact inv.distinct i j ((live i).mp iLive) ((live j).mp jLive) same
  · rw [filled,inv.filledIs,size]
    simp [live]

theorem Inv.same (inv : Inv t) (same : SameSlots t u) : Inv u :=
  inv.congr same.size same.filled same.used same.key

theorem chain_keep (keep : ∀ i, (t.table i).used ≠ 0 → (u.table i).used ≠ 0) {key : CString}
    (chain : ∃ n < t.size, slotOf t.size key n = i ∧ ∀ m < n, (t.table (slotOf t.size key m)).used ≠ 0) :
    ∃ n < t.size, slotOf t.size key n = i ∧ ∀ m < n, (u.table (slotOf t.size key m)).used ≠ 0 := by
  obtain ⟨n,lt,at_n,before⟩ := chain
  exact ⟨n,lt,at_n,fun m mLt => keep _ (before m mLt)⟩

theorem Placed.live_iff {key : CString} (placed : Placed t u i key data)
    (low : 1 ≤ i) (high : i ≤ t.size) (j : Nat) : Live u j ↔ j = i ∨ Live t j := by
  have pos := hval_pos t.size key
  by_cases here : j = i
  · subst here
    simp only [true_or,iff_true]
    exact ⟨low,placed.size ▸ high,by rw [placed.usedHere]; omega⟩
  · simp [Live,here,placed.size,placed.used j here]

theorem Inv.placed (inv : Inv t) {key : CString} (absent : Absent t key)
    (fits : Fits t key i) (placed : Placed t u i key data) : Inv u := by
  obtain ⟨low,high,free,chain⟩ := fits
  have live := placed.live_iff low high
  have notLive : ¬ Live t i := fun isLive => by have := isLive.2.2; omega
  have keep : ∀ j, (t.table j).used ≠ 0 → (u.table j).used ≠ 0 := by
    intro j used
    by_cases here : j = i
    · subst here; rw [placed.usedHere]; have := hval_pos t.size key; omega
    · rwa [placed.used j here]
  have ne : ∀ j, Live t j → j ≠ i := fun j isLive here => notLive (here ▸ isLive)
  refine ⟨by rw [placed.size]; exact inv.sizeOk,by rw [placed.size]; exact inv.sizeSmall,
    by rw [placed.used 0 (by omega)]; exact inv.zero,?_,?_,?_,?_,?_⟩
  · intro j
    by_cases here : j = i
    · subst here; rw [placed.usedHere]; omega
    · rw [placed.used j here]; exact inv.usedOk j
  · intro j isLive
    rcases (live j).mp isLive with rfl | old
    · rw [placed.usedHere,placed.keyHere,placed.size]
    · rw [placed.used j (ne j old),placed.key j (ne j old),placed.size]; exact inv.hashed j old
  · intro j isLive
    rw [placed.size]
    rcases (live j).mp isLive with rfl | old
    · rw [placed.keyHere]; exact chain_keep keep chain
    · rw [placed.key j (ne j old)]; exact chain_keep keep (inv.chained j old)
  · intro j k jLive kLive same
    rcases (live j).mp jLive with rfl | jOld <;> rcases (live k).mp kLive with rfl | kOld
    · rfl
    · rw [placed.keyHere,placed.key k (ne k kOld)] at same
      exact absurd same.symm (absent k kOld)
    · rw [placed.keyHere,placed.key j (ne j jOld)] at same
      exact absurd same (absent j jOld)
    · rw [placed.key j (ne j jOld),placed.key k (ne k kOld)] at same
      exact inv.distinct j k jOld kOld same
  have more : (Finset.Icc 1 u.size).filter (Live u) = insert i ((Finset.Icc 1 t.size).filter (Live t)) := by
    ext j
    simp only [Finset.mem_filter,Finset.mem_Icc,Finset.mem_insert,live,placed.size]
    constructor
    · rintro ⟨range,same | old⟩
      · exact .inl same
      · exact .inr ⟨range,old⟩
    rintro (rfl | ⟨range,old⟩)
    · exact ⟨⟨low,high⟩,.inl rfl⟩
    · exact ⟨range,.inr old⟩
  rw [placed.filled,more,Finset.card_insert_of_notMem (by simp [notLive]),inv.filledIs]

theorem Deleted.live_iff (deleted : Deleted t u i) (j : Nat) :
    Live u j ↔ j ≠ i ∧ Live t j := by
  by_cases here : j = i
  · subst here; simp [Live,deleted.usedHere]
  · simp [Live,here,deleted.size,deleted.used j here]

theorem Inv.deleted (inv : Inv t) (live : Live t i) (deleted : Deleted t u i) : Inv u := by
  have isLive := deleted.live_iff
  have keep : ∀ j, (t.table j).used ≠ 0 → (u.table j).used ≠ 0 := by
    intro j used
    by_cases here : j = i
    · subst here; rw [deleted.usedHere]; omega
    · rwa [deleted.used j here]
  refine ⟨by rw [deleted.size]; exact inv.sizeOk,by rw [deleted.size]; exact inv.sizeSmall,
    by rw [deleted.used 0 (by have := live.1; omega)]; exact inv.zero,?_,?_,?_,?_,?_⟩
  · intro j
    by_cases here : j = i
    · subst here; rw [deleted.usedHere]
    · rw [deleted.used j here]; exact inv.usedOk j
  · intro j jLive
    obtain ⟨other,old⟩ := (isLive j).mp jLive
    rw [deleted.used j other,deleted.key j other,deleted.size]; exact inv.hashed j old
  · intro j jLive
    obtain ⟨other,old⟩ := (isLive j).mp jLive
    rw [deleted.key j other,deleted.size]; exact chain_keep keep (inv.chained j old)
  · intro j k jLive kLive same
    obtain ⟨jOther,jOld⟩ := (isLive j).mp jLive
    obtain ⟨kOther,kOld⟩ := (isLive k).mp kLive
    rw [deleted.key j jOther,deleted.key k kOther] at same
    exact inv.distinct j k jOld kOld same
  have fewer : (Finset.Icc 1 u.size).filter (Live u) = ((Finset.Icc 1 t.size).filter (Live t)).erase i := by
    ext j
    simp only [Finset.mem_filter,Finset.mem_Icc,Finset.mem_erase,isLive,deleted.size]
    tauto
  have member : i ∈ (Finset.Icc 1 t.size).filter (Live t) := by simp [live,live.1,live.2.1]
  rw [deleted.filled,fewer,Finset.card_erase_of_mem member,inv.filledIs]

theorem hcreate_inv {nel : Nat} (made : hcreate_r nel = some t) : Inv t := by
  obtain ⟨sizeOk,_,small,filled,empty⟩ := HashtableSize.hcreate_spec made
  have noneLive : ∀ i, ¬ Live t i := by
    rintro i ⟨_,_,positive⟩
    rw [empty] at positive
    exact absurd positive (by simp)
  refine ⟨sizeOk,by omega,by simp [empty],by simp [empty],?_,?_,?_,?_⟩
  · intro i live; exact absurd live (noneLive i)
  · intro i live; exact absurd live (noneLive i)
  · intro i j live; exact absurd live (noneLive i)
  · simp [filled,noneLive]

/-! ### Contents -/

def Holds (t : HsearchData) (key data : CString) : Prop :=
  ∃ i, Live t i ∧ (t.table i).entry.key = key ∧ (t.table i).entry.data = data

/-- What `hsearch_r(FIND)` returns the data of. -/
def found (t : HsearchData) (key : CString) : Option CString :=
  match hsearch_r Hooks.none key .FIND t 0 with
  | some result => result.retval.map (fun i => (result.htab.table i).entry.data)
  | none => none

/-- `FIND` reads the table only: it ends, changes nothing and points at the live
    entry of the key, if there is one. -/
theorem find_spec (inv : Inv t) (hooks : Hooks) (key : CString) (flag : Nat) :
    (∃ i, Live t i ∧ (t.table i).entry.key = key ∧ hsearch_r hooks key .FIND t flag = some ⟨t,i,some i,none⟩) ∨
      (Absent t key ∧ hsearch_r hooks key .FIND t flag = some ⟨t,0,none,some .ESRCH⟩) := by
  by_cases present : ∃ i, Live t i ∧ (t.table i).entry.key = key
  · obtain ⟨i,live,keyed⟩ := present
    exact .inl ⟨i,live,keyed,by rw [search_found inv live hooks .FIND flag keyed]; rfl⟩
  have absent : Absent t key := fun i live keyed => present ⟨i,live,keyed⟩
  obtain ⟨idx,first_deleted,search,_⟩ := search_absent inv absent
  exact .inr ⟨absent,by rw [search]; rfl⟩

theorem found_iff (inv : Inv t) (key data : CString) : found t key = some data ↔ Holds t key data := by
  rcases find_spec inv Hooks.none key 0 with ⟨i,live,keyed,search⟩ | ⟨absent,search⟩
  · simp only [found,search,map_some,Option.some.injEq]
    constructor
    · intro same; exact ⟨i,live,keyed,same⟩
    · rintro ⟨j,jLive,jKeyed,same⟩
      rw [inv.distinct i j live jLive (keyed.trans jKeyed.symm)]; exact same
  simp only [found,search,map_none,reduceCtorEq,false_iff]
  rintro ⟨i,live,keyed,_⟩
  exact absent i live keyed

theorem SameSlots.holds_iff (same : SameSlots t u) (key data : CString) :
    Holds u key data ↔ Holds t key data := by
  simp [Holds,Live,same.size,same.used,same.key,same.data]

theorem Overwritten.holds_iff {new : CString} (written : Overwritten t u i new) (inv : Inv t)
    (live : Live t i) (key data : CString) :
    Holds u key data ↔ if key = (t.table i).entry.key then data = new else Holds t key data := by
  have isLive : ∀ j, Live u j ↔ Live t j := by simp [Live,written.size,written.used]
  simp only [Holds,isLive,written.key]
  split
  next same =>
    constructor
    · rintro ⟨j,jLive,keyed,value⟩
      have : j = i := inv.distinct j i jLive live (keyed.trans same)
      subst this
      exact value.symm.trans written.here
    · intro value
      exact ⟨i,live,same.symm,written.here.trans value.symm⟩
  next other =>
    constructor
    · rintro ⟨j,jLive,keyed,value⟩
      have ne : j ≠ i := fun here => other (by rw [← keyed,here])
      exact ⟨j,jLive,keyed,by rw [← written.data j ne]; exact value⟩
    rintro ⟨j,jLive,keyed,value⟩
    have ne : j ≠ i := fun here => other (by rw [← keyed,here])
    exact ⟨j,jLive,keyed,by rw [written.data j ne]; exact value⟩

theorem Placed.holds_iff {new value : CString} (placed : Placed t u i new value)
    (absent : Absent t new) (fits : Fits t new i) (key data : CString) :
    Holds u key data ↔ if key = new then data = value else Holds t key data := by
  have isLive := placed.live_iff fits.1 fits.2.1
  have ne : ∀ j, Live t j → j ≠ i := fun j live here => by
    have := live.2.2; have := fits.2.2.1; rw [here] at *; omega
  simp only [Holds,isLive]
  split
  next same =>
    constructor
    · rintro ⟨j,rfl | old,keyed,is⟩
      · exact is.symm.trans placed.dataHere
      · rw [placed.key j (ne j old)] at keyed
        exact absurd (keyed.trans same) (absent j old)
    · intro is
      exact ⟨i,.inl rfl,placed.keyHere.trans same.symm,placed.dataHere.trans is.symm⟩
  next other =>
    constructor
    · rintro ⟨j,rfl | old,keyed,is⟩
      · exact absurd (keyed.symm.trans placed.keyHere) other
      rw [placed.key j (ne j old)] at keyed
      rw [placed.data j (ne j old)] at is
      exact ⟨j,old,keyed,is⟩
    · rintro ⟨j,old,keyed,is⟩
      exact ⟨j,.inr old,by rw [placed.key j (ne j old)]; exact keyed,by rw [placed.data j (ne j old)]; exact is⟩

theorem Deleted.holds_iff (deleted : Deleted t u i) (inv : Inv t) (live : Live t i)
    (key data : CString) : Holds u key data ↔ key ≠ (t.table i).entry.key ∧ Holds t key data := by
  simp only [Holds,deleted.live_iff]
  constructor
  · rintro ⟨j,⟨other,old⟩,keyed,is⟩
    rw [deleted.key j other] at keyed
    rw [deleted.data j other] at is
    exact ⟨fun same => other (inv.distinct j i old live (keyed.trans same)),j,old,keyed,is⟩
  rintro ⟨different,j,old,keyed,is⟩
  have other : j ≠ i := fun here => different (by rw [← keyed,here])
  exact ⟨j,⟨other,old⟩,by rw [deleted.key j other]; exact keyed,by rw [deleted.data j other]; exact is⟩

/-! ### Calls and runs -/

inductive Call
  | find (hooks : Hooks) (key : CString) (flag : Nat)
  | enter (hooks : Hooks) (key data : CString) (flag : Nat)
  | delete (hooks : Hooks) (key : CString) (flag : Nat)

def Call.key : Call → CString
  | .find _ key _ => key
  | .enter _ key _ _ => key
  | .delete _ key _ => key

def perform (t : HsearchData) : Call → Option (HsearchData × Bool)
  | .find hooks key flag => (hsearch_r hooks key .FIND t flag).map (fun r => (r.htab,r.ret ≠ 0))
  | .enter hooks key data flag => (hsearch_r hooks key (.ENTER data) t flag).map (fun r => (r.htab,r.ret ≠ 0))
  | .delete hooks key flag => (hdelete_r hooks key t flag).map (fun r => (r.1,r.2.1 ≠ 0))

def Does (t : HsearchData) (event : Call × Bool) (u : HsearchData) : Prop := perform t event.1 = some (u,event.2)

/-- The value of a key by what was entered and deleted: the last successful `ENTER`
    since the last successful delete. -/
def record (values : CString → Option CString) : Call × Bool → CString → Option CString
  | (.enter _ key data _,true) => Function.update values key (some data)
  | (.delete _ key _,true) => Function.update values key none
  | _ => values

def history (events : List (Call × Bool)) : CString → Option CString := events.foldl record (fun _ => none)

/-- An `ENTER` of a new key goes wrong exactly when its first slot is live and,
    although the table is not full, no slot is left that was never used. -/
def Safe (t : HsearchData) : Call → Prop
  | .enter _ key _ _ => ¬ (Absent t key ∧ 0 < (t.table (hval t.size key)).used ∧ t.filled ≠ t.size ∧ NoneUnused t)
  | _ => True

/-- Contents of the table after a call, given those before. -/
def Became (before after : CString → CString → Prop) (event : Call × Bool) : Prop :=
  match event with
  | (.enter _ key data _,true) => ∀ k v, after k v ↔ if k = key then v = data else before k v
  | (.delete _ key _,true) => ∀ k v, after k v ↔ k ≠ key ∧ before k v
  | _ => ∀ k v, after k v ↔ before k v

/-- A safe `ENTER` overwrites the entry of the key, finds the table full, or creates an
    entry in a slot that is not live. -/
theorem enter_cases (inv : Inv t) (hooks : Hooks) (key data : CString) (flag : Nat)
    (safe : Safe t (.enter hooks key data flag)) :
    (∃ i, Live t i ∧ (t.table i).entry.key = key ∧
        hsearch_r hooks key (.ENTER data) t flag = some (overwriteEntry hooks key (.ENTER data) t flag i)) ∨
      (Absent t key ∧ hsearch_r hooks key (.ENTER data) t flag = some ⟨t,0,none,some .ENOMEM⟩) ∨
      (Absent t key ∧ ∃ i, Fits t key i ∧
        hsearch_r hooks key (.ENTER data) t flag = some (createEntry hooks key data t flag (hval t.size key) i)) := by
  by_cases present : ∃ i, Live t i ∧ (t.table i).entry.key = key
  · obtain ⟨i,live,keyed⟩ := present
    exact .inl ⟨i,live,keyed,search_found inv live hooks (.ENTER data) flag keyed⟩
  have absent : Absent t key := fun i live keyed => present ⟨i,live,keyed⟩
  obtain ⟨idx,first_deleted,search,place⟩ := search_absent inv absent
  by_cases full : t.filled = t.size
  · exact .inr (.inl ⟨absent,by simp [search,searchEnded,full]⟩)
  have fits : Fits t key (if first_deleted ≠ 0 then first_deleted else idx) := by
    rcases place with isFull | ⟨fits,_⟩ | ⟨positive,none,_⟩
    · exact absurd isFull full
    · exact fits
    · exact absurd ⟨absent,positive,full,none⟩ safe
  exact .inr (.inr ⟨absent,_,fits,by simp only [search,searchEnded,if_neg full]⟩)

theorem enter_spec (inv : Inv t) (hooks : Hooks) (key data : CString) (flag : Nat)
    (safe : Safe t (.enter hooks key data flag)) :
    ∃ u ok, perform t (.enter hooks key data flag) = some (u,ok) ∧ Inv u ∧
      Became (Holds t) (Holds u) (.enter hooks key data flag,ok) := by
  rcases enter_cases inv hooks key data flag safe with ⟨i,live,keyed,search⟩ | ⟨_,search⟩ | ⟨absent,slot,fits,entered⟩
  · have notZero : i ≠ 0 := by have := live.1; omega
    rcases overwriteEntry_cases hooks key data t flag i with ⟨ret,written⟩ | ⟨ret,same⟩
    · refine ⟨_,true,by simp [perform,search,ret,notZero],inv.congr written.size written.filled written.used written.key,?_⟩
      intro k v
      rw [written.holds_iff inv live,keyed]
    · exact ⟨_,false,by simp [perform,search,ret],inv.same same,fun k v => SameSlots.holds_iff same k v⟩
  · exact ⟨t,false,by simp [perform,search],inv,fun _ _ => Iff.rfl⟩
  obtain ⟨placed,isPlaced,outcome⟩ := createEntry_cases hooks key data t flag slot
  have placedInv := inv.placed absent fits isPlaced
  have contents := isPlaced.holds_iff absent fits
  rcases outcome with ⟨ret,htab⟩ | ⟨ret,deleted⟩
  · exact ⟨placed,true,by simp [perform,entered,ret,htab],placedInv,contents⟩
  have live : Live placed slot := (isPlaced.live_iff fits.1 fits.2.1 _).mpr (.inl rfl)
  refine ⟨_,false,by simp [perform,entered,ret],placedInv.deleted live deleted,?_⟩
  intro k v
  rw [deleted.holds_iff placedInv live,isPlaced.keyHere,contents]
  constructor
  · rintro ⟨other,holds⟩; simpa [other] using holds
  intro holds
  have other : k ≠ key := by
    rintro rfl
    obtain ⟨j,jLive,keyed,_⟩ := holds
    exact absent j jLive keyed
  exact ⟨other,by simpa [other] using holds⟩

theorem delete_spec (inv : Inv t) (hooks : Hooks) (key : CString) (flag : Nat) :
    ∃ u ok, perform t (.delete hooks key flag) = some (u,ok) ∧ Inv u ∧
      Became (Holds t) (Holds u) (.delete hooks key flag,ok) := by
  rcases find_spec inv hooks key 0 with ⟨i,live,keyed,search⟩ | ⟨absent,search⟩
  · have notZero : i ≠ 0 := by have := live.1; omega
    have same := callBack_same hooks (t.table i).entry key none .delete flag t
    by_cases denied : hooks.changeDenied (t.table i).entry none .delete flag = true
    · exact ⟨t,false,by simp [perform,hdelete_r,search,notZero,denied],inv,fun _ _ => Iff.rfl⟩
    by_cases refused : (hooks.callBack (t.table i).entry key none .delete flag t).1 = true
    · exact ⟨_,false,by simp [perform,hdelete_r,search,notZero,denied,refused],inv.same same,
        fun k v => SameSlots.holds_iff same k v⟩
    have deleted := hdelete_deleted same i
    refine ⟨_,true,by simp [perform,hdelete_r,search,notZero,denied,refused],inv.deleted live deleted,?_⟩
    intro k v
    rw [deleted.holds_iff inv live,keyed]
  · exact ⟨t,false,by simp [perform,hdelete_r,search],inv,fun _ _ => Iff.rfl⟩

/-- Every safe call ends, keeps the invariant and changes the contents as its
    outcome says. -/
theorem call_spec (inv : Inv t) (call : Call) (safe : Safe t call) :
    ∃ u ok, perform t call = some (u,ok) ∧ Inv u ∧ Became (Holds t) (Holds u) (call,ok) := by
  cases call with
  | find hooks key flag =>
    rcases find_spec inv hooks key flag with ⟨i,live,keyed,search⟩ | ⟨absent,search⟩
    · exact ⟨t,_,by rw [perform,search]; rfl,inv,fun _ _ => Iff.rfl⟩
    · exact ⟨t,_,by rw [perform,search]; rfl,inv,fun _ _ => Iff.rfl⟩
  | enter hooks key data flag => exact enter_spec inv hooks key data flag safe
  | delete hooks key flag => exact delete_spec inv hooks key flag

/-- Contents by the table and contents by the history agree. -/
def Agrees (events : List (Call × Bool)) (t : HsearchData) : Prop :=
  Inv t ∧ ∀ key data, Holds t key data ↔ history events key = some data

theorem history_snoc (events : List (Call × Bool)) (event : Call × Bool) :
    history (events ++ [event]) = record (history events) event := by
  simp [history]

theorem agrees_step {events : List (Call × Bool)} {event : Call × Bool} (agrees : Agrees events t)
    (safe : Safe t event.1) (does : Does t event u) : Agrees (events ++ [event]) u := by
  obtain ⟨inv,values⟩ := agrees
  obtain ⟨call,ok⟩ := event
  obtain ⟨u',ok',performed,keeps,became⟩ := call_spec inv call safe
  obtain ⟨rfl,rfl⟩ : u' = u ∧ ok' = ok := by
    have := performed.symm.trans does
    simpa using this
  refine ⟨keeps,fun key data => ?_⟩
  rw [history_snoc]
  cases call with
  | find hooks k flag => rw [became key data,values]; rfl
  | enter hooks k d flag =>
    cases ok' with
    | true =>
      rw [became key data,record]
      by_cases same : key = k
      · subst same; simp [eq_comm]
      · simp [same,values]
    | false => rw [became key data,values]; rfl
  | delete hooks k flag =>
    cases ok' with
    | true =>
      rw [became key data,record]
      by_cases same : key = k
      · subst same; simp
      · simp [same,values]
    | false => rw [became key data,values]; rfl

theorem agrees_run {nel : Nat} {events : List (Call × Bool)} (made : hcreate_r nel = some t)
    (run : Run (Guarded (fun t event => Safe t event.1) Does) t events u) : Agrees events u := by
  refine run.relates ⟨hcreate_inv made,?_⟩ (fun events t event u agrees taken => agrees_step agrees taken.1 taken.2)
  have empty := (HashtableSize.hcreate_spec made).2.2.2.2
  simp [Holds,Live,empty,history]

theorem found_eq (inv : Inv t) (inv' : Inv u) {key : CString}
    (same : ∀ data, Holds u key data ↔ Holds t key data) : found u key = found t key := by
  apply Option.ext
  intro data
  rw [found_iff inv',found_iff inv,same]

/-- The table is a finite map along every run in which no `ENTER` meets a table
    without unused slots in the way `Safe` excludes: `FIND` sees exactly what was
    entered last and not deleted since, and no call, accepted or rejected, changes
    what is found for another key. -/
theorem hash_table_is_finite_map {nel : Nat} {t u : HsearchData} {events : List (Call × Bool)}
    (made : hcreate_r nel = some t) (run : Run (Guarded (fun t event => Safe t event.1) Does) t events u) :
    (∀ hooks key flag, ∃ result, hsearch_r hooks key .FIND u flag = some result ∧ result.htab = u ∧
        result.retval.map (fun i => (u.table i).entry.data) = history events key) ∧
      ∀ call, Safe u call → ∃ v ok, perform u call = some (v,ok) ∧ ∀ key, key ≠ call.key → found v key = found u key := by
  obtain ⟨inv,values⟩ := agrees_run made run
  constructor
  · intro hooks key flag
    rcases find_spec inv hooks key flag with ⟨i,live,keyed,search⟩ | ⟨absent,search⟩
    · exact ⟨_,search,rfl,((values key _).mp ⟨i,live,keyed,rfl⟩).symm⟩
    refine ⟨_,search,rfl,?_⟩
    symm
    rw [map_none,eq_none_iff_forall_ne_some]
    intro data entered
    obtain ⟨i,live,keyed,_⟩ := (values key data).mpr entered
    exact absent i live keyed
  intro call safe
  obtain ⟨v,ok,performed,keeps,became⟩ := call_spec inv call safe
  refine ⟨v,ok,performed,fun key other => found_eq inv keeps (fun data => ?_)⟩
  cases call with
  | find hooks k flag => exact became key data
  | enter hooks k d flag =>
    cases ok with
    | true => rw [became key data,if_neg (show key ≠ k from other)]
    | false => exact became key data
  | delete hooks k flag =>
    cases ok with
    | true =>
      rw [became key data]
      exact and_iff_right other
    | false => exact became key data

/-! ### Running calls -/

def performAll : HsearchData → List Call → Option (HsearchData × List (Call × Bool))
  | t, [] => some (t,[])
  | t, call :: calls =>
    match perform t call with
    | none => none
    | some (u,ok) => (performAll u calls).map (fun r => (r.1,(call,ok) :: r.2))

instance (t : HsearchData) (key : CString) : Decidable (Absent t key) :=
  decidable_of_iff (∀ i < t.size + 1, Live t i → (t.table i).entry.key ≠ key)
    ⟨fun all i live => all i (by have := live.2.1; omega) live,fun absent i _ live => absent i live⟩

instance (t : HsearchData) : Decidable (NoneUnused t) :=
  decidable_of_iff (∀ i < t.size + 1, 1 ≤ i → (t.table i).used ≠ 0)
    ⟨fun all i low high => all i (by omega) low,fun taken i high low => taken i low (by omega)⟩

instance (t : HsearchData) : (call : Call) → Decidable (Safe t call)
  | .find .. => inferInstanceAs (Decidable True)
  | .enter .. => inferInstanceAs (Decidable (¬ _))
  | .delete .. => inferInstanceAs (Decidable True)

/-- Every call of the list is safe in the state it meets. -/
def allSafe : HsearchData → List Call → Bool
  | _, [] => true
  | t, call :: calls =>
    decide (Safe t call) && match perform t call with
      | none => true
      | some (u,_) => allSafe u calls

theorem performAll_run : ∀ {calls : List Call} {t u : HsearchData} {events : List (Call × Bool)},
    performAll t calls = some (u,events) → Run Does t events u := by
  intro calls
  induction calls with
  | nil => intro t u events done; cases done; exact .start
  | cons call calls ih =>
    intro t u events done
    rw [performAll] at done
    split at done
    next => cases done
    next v ok performed =>
      obtain ⟨⟨w,rest⟩,tail,same⟩ := map_eq_some_iff.mp done
      cases same
      have first : Does t (call,ok) v := performed
      simpa using (Run.single first).trans (ih tail)

theorem allSafe_run : ∀ {calls : List Call} {t u : HsearchData} {events : List (Call × Bool)},
    performAll t calls = some (u,events) → allSafe t calls = true →
      Run (Guarded (fun t event => Safe t event.1) Does) t events u := by
  intro calls
  induction calls with
  | nil => intro t u events done _; cases done; exact .start
  | cons call calls ih =>
    intro t u events done safe
    rw [performAll] at done
    split at done
    next => cases done
    next v ok performed =>
      obtain ⟨⟨w,rest⟩,tail,same⟩ := map_eq_some_iff.mp done
      cases same
      simp only [allSafe,performed,Bool.and_eq_true,decide_eq_true_eq] at safe
      have first : Guarded (fun t event => Safe t event.1) Does t (call,ok) v := ⟨safe.1,performed⟩
      simpa using (Run.single first).trans (ih tail safe.2)

/-- Outside `Safe` the new entry takes the slot of a live one, which is lost whether
    the change is accepted or not. -/
theorem clobbering_enter_loses (inv : Inv t) {hooks : Hooks} {key : CString} {flag : Nat} {ok : Bool}
    (clobbers : ¬ Safe t (.enter hooks key data flag)) (does : Does t (.enter hooks key data flag,ok) u) :
    ∃ other value, other ≠ key ∧ Holds t other value ∧ ∀ later, ¬ Holds u other later := by
  obtain ⟨absent,positive,notFull,none⟩ := not_not.mp clobbers
  obtain ⟨idx,first_deleted,search,place⟩ := search_absent inv absent
  have entered : hsearch_r hooks key (.ENTER data) t flag = some (createEntry hooks key data t flag
      (hval t.size key) (if first_deleted ≠ 0 then first_deleted else idx)) := by
    simp only [search,searchEnded,if_neg notFull]
  have slot : (if first_deleted ≠ 0 then first_deleted else idx) = hval t.size key := by
    rcases place with full | ⟨_,safe⟩ | ⟨_,_,slot⟩
    · exact absurd full notFull
    · exact absurd none (safe positive)
    · exact slot
  rw [slot] at entered
  have live : Live t (hval t.size key) := ⟨hval_pos _ _,hval_le inv.size_pos key,positive⟩
  have other : (t.table (hval t.size key)).entry.key ≠ key := absent _ live
  refine ⟨_,_,other,⟨_,live,rfl,rfl⟩,?_⟩
  have result : (createEntry hooks key data t flag (hval t.size key) (hval t.size key)).htab = u := by
    simp only [Does,perform,entered,map_some,Option.some.injEq,Prod.mk.injEq] at does
    exact does.1
  obtain ⟨placed,isPlaced,outcome⟩ := createEntry_cases hooks key data t flag (hval t.size key)
  have lostThere : ∀ later, ¬ Holds placed (t.table (hval t.size key)).entry.key later := by
    rintro later ⟨j,jLive,keyed,_⟩
    by_cases here : j = hval t.size key
    · rw [here,isPlaced.keyHere] at keyed; exact other keyed.symm
    rw [isPlaced.key j here] at keyed
    have old : Live t j := ⟨jLive.1,isPlaced.size ▸ jLive.2.1,by rw [← isPlaced.used j here]; exact jLive.2.2⟩
    exact here (inv.distinct j _ old live keyed)
  rw [result] at outcome
  rintro later held
  rcases outcome with ⟨_,rfl⟩ | ⟨_,deleted⟩
  · exact lostThere later held
  obtain ⟨j,jLive,keyed,is⟩ := held
  obtain ⟨there,old⟩ := (deleted.live_iff j).mp jLive
  exact lostThere later ⟨j,old,(deleted.key j there) ▸ keyed,(deleted.data j there) ▸ is⟩

def varA : CString := ⟨[97],fun h => by simp at h⟩
def varB : CString := ⟨[98],by decide⟩
def varC : CString := ⟨[99],by decide⟩
def varD : CString := ⟨[100],by decide⟩
def varE : CString := ⟨[101],by decide⟩
def varF : CString := ⟨[102],by decide⟩

/-- `a` and `f` share their first slot in a table of five. -/
def collide : List Call :=
  [.enter Hooks.none varA varA 0,.enter Hooks.none varF varF 0,.delete Hooks.none varA 0,.enter Hooks.none varF varA 0]

theorem finite_map_after_collision :
    ∃ t u events, hcreate_r 5 = some t ∧ Run (Guarded (fun t event => Safe t event.1) Does) t events u ∧
      (events.map Prod.snd = [true,true,true,true] ∧ history events varF = some varA) ∧
      ∃ result, hsearch_r Hooks.none varF .FIND u 0 = some result ∧
        result.retval.map (fun i => (u.table i).entry.data) = some varA := by
  have computed : ((hcreate_r 5).bind (fun t => (performAll t collide).map (fun r => (t,r)))).map
      (fun r => (allSafe r.1 collide,r.2.2.map Prod.snd,history r.2.2 varF)) =
        some (true,[true,true,true,true],some varA) := by decide +kernel
  obtain ⟨⟨t,u,events⟩,done,values⟩ := map_eq_some_iff.mp computed
  obtain ⟨t',made,performed⟩ := bind_eq_some_iff.mp done
  obtain ⟨r,ran,same⟩ := map_eq_some_iff.mp performed
  cases same
  simp only [Prod.mk.injEq] at values
  have run := allSafe_run ran values.1
  obtain ⟨result,search,_,value⟩ := (hash_table_is_finite_map made run).1 Hooks.none varF 0
  exact ⟨_,_,_,made,run,values.2,result,search,value.trans values.2.2⟩

/-- Five variables fill a table of five slots, one is deleted, a sixth is entered. -/
def fillAndReplace : List Call :=
  [.enter Hooks.none varA varA 0,.enter Hooks.none varB varB 0,.enter Hooks.none varC varC 0,
    .enter Hooks.none varD varD 0,.enter Hooks.none varE varE 0,.delete Hooks.none varD 0,
    .enter Hooks.none varF varF 0]

/-- The sixth variable takes the slot of the first, which is no longer found. -/
theorem full_table_loses_variable :
    ∃ t u events, hcreate_r 5 = some t ∧ Run Does t events u ∧ events.map Prod.snd = List.replicate 7 true ∧
      found u varA = none ∧ history events varA = some varA := by
  have computed : ((hcreate_r 5).bind (performAll · fillAndReplace)).map
      (fun r => (r.2.map Prod.snd,found r.1 varA,history r.2 varA)) =
        some (List.replicate 7 true,none,some varA) := by decide +kernel
  obtain ⟨⟨u,events⟩,done,values⟩ := map_eq_some_iff.mp computed
  obtain ⟨t,made,performed⟩ := bind_eq_some_iff.mp done
  simp only [Prod.mk.injEq] at values
  exact ⟨t,u,events,made,performAll_run performed,values⟩

end UBoot.HashtableMap
