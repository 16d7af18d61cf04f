import UBoot.ReservedPartSafe

/-!
`jz_sfcnand_erase` with its result. The loop stops at the first block that cannot be erased, but the mark goes to the
first block of the request and the call succeeds (`erase_pinned_iff`).
-/
namespace UBoot.NandErase
open List Nat BitVec ReservedPart

/-- What `jz_sfcnand_erase` returns besides its commands; `none` while the loop runs. -/
def eraseResult (f : Flash) (env : Environment) (parts : List ReservedPartition) (addr len : BitVec 32) : Option Int :=
  if check_partition_is_writable parts addr len then some (-30)
  else
    match jz_sfc_nand_erase f env addr len with
    | (_,some 0) => some 0
    | (_,none) => none
    | (commands,some _) =>
      some (if (jz_sfcnand_block_markbad f env parts commands.length addr).2 ≠ 0 then -1 else 0)

/-- The driver leaves `bbt_options` cleared: a mark is written to the first page of the block. -/
structure Plain (f : Flash) : Prop where
  write_oob : f.write_oob = true
  scanLastPage : f.scanLastPage = false
  scan2ndPage : f.scan2ndPage = false

/-- A request for whole blocks. -/
structure Blocks (f : Flash) where
  first : Nat
  count : Nat
  small : (first + count) * f.erasesize < 2 ^ 32

variable {f : Flash} {env : Environment} {parts : List ReservedPartition}

def blockOf (f : Flash) (page : BitVec 32) : Nat := page.toNat * f.writesize / f.erasesize

/-- A block was to be erased, with a result. -/
def Answered (f : Flash) (env : Environment) (commands : List Command) (block : Nat) (answer : Int → Prop) : Prop :=
  ∃ n page, commands[n]? = some (.nandErase page) ∧ blockOf f page = block ∧ answer (env.result n)

/-- The only writes of the call are marks. -/
def Marked (f : Flash) (commands : List Command) (block : Nat) : Prop :=
  ∃ page column len, .nandWrite page column len ∈ commands ∧ blockOf f page = block

/-- Success leaves no block behind, and only a block that cannot be erased is marked. -/
def Pinned (f : Flash) (env : Environment) (r : Blocks f) (commands : List Command) (result : Option Int) : Prop :=
  (result = some 0 → ∀ i < r.count, Answered f env commands (r.first + i) (· = 0) ∨ Marked f commands (r.first + i)) ∧
  ∀ block, Marked f commands block → Answered f env commands block (· ≠ 0)

/-! ### The commands -/

def start (f : Flash) (block : Nat) : BitVec 32 := BitVec.ofNat 32 (block * f.erasesize)

def pageOf (f : Flash) (block : Nat) : BitVec 32 := start f block / BitVec.ofNat 32 f.writesize

def erases (f : Flash) (first count : Nat) : List Command := (range count).map fun i => .nandErase (pageOf f (first + i))

theorem start_toNat {block : Nat} (small : block * f.erasesize < 2 ^ 32) : (start f block).toNat = block * f.erasesize :=
  toNat_ofNat .. ▸ mod_eq_of_lt small

theorem blockOf_page {block : Nat} (small : block * f.erasesize < 2 ^ 32) : blockOf f (pageOf f block) = block := by
  obtain ⟨q,whole⟩ := f.wholePages
  have pages : block * f.erasesize = f.writesize * (block*q) := by rw [whole]; ring
  rw [blockOf,pageOf,toNat_udiv,ReservedPartSafe.writesize_toNat,start_toNat small,pages,
    Nat.mul_div_cancel_left _ f.writesize_pos,Nat.mul_comm (block*q),← pages,Nat.mul_div_cancel _ f.erasesize_pos]

theorem below {first count i : Nat} (small : (first+count) * f.erasesize < 2 ^ 32) (inside : i ≤ count) :
    (first+i) * f.erasesize < 2 ^ 32 :=
  Nat.lt_of_le_of_lt (Nat.mul_le_mul_right _ (Nat.add_le_add_left inside _)) small

theorem erases_length {first count : Nat} : (erases f first count).length = count := by
  rw [erases,length_map,length_range]

theorem erases_cons {first count : Nat} :
    erases f first (count+1) = .nandErase (pageOf f first) :: erases f (first+1) count := by
  rw [erases,range_succ_eq_map,map_cons,map_map]
  exact congrArg _ (map_congr_left fun i _ => congrArg (fun b => Command.nandErase (pageOf f b)) (by omega))

/-- The loop ends: no block fails, or it sent commands up to the first one that does. -/
theorem eraseLoop_ends {fuel n first count : Nat} {ret : Int} (enough : count < fuel)
    (small : (first+count) * f.erasesize < 2 ^ 32) :
    ∃ k ≤ count, (∀ i < k, env.result (n+i) = 0) ∧ (k < count → env.result (n+k) ≠ 0) ∧
      eraseLoop f env (fun addr => .nandErase (addr / BitVec.ofNat 32 f.writesize)) (start f (first+count)) fuel n
        (start f first) ret =
      if k < count then (erases f first (k+1),some (env.result (n+k)))
      else (erases f first count,some (if count = 0 then ret else 0)) := by
  induction fuel generalizing n first count ret with
  | zero => omega
  | succ fuel ih =>
    have low : (start f first).toNat = first * f.erasesize := start_toNat (below small (zero_le _))
    have high := start_toNat small
    rw [eraseLoop]
    cases count with
    | zero =>
      refine ⟨0,le_refl _,fun i less => absurd less (not_lt_zero i),fun less => absurd less (lt_irrefl 0),?_⟩
      rw [add_zero,if_neg (BitVec.lt_irrefl _)]
      rfl
    | succ count =>
      have more : start f first < start f (first + (count+1)) := by
        rw [BitVec.lt_def,high,low]
        exact mul_lt_mul_of_pos_right (by omega) f.erasesize_pos
      rw [if_pos more]
      by_cases fails : env.result n = 0
      · have next : start f first + BitVec.ofNat 32 f.erasesize = start f (first+1) := by
          rw [start,start,Nat.succ_mul,ofNat_add]
        have shift : first + (count+1) = first + 1 + count := by omega
        rw [shift] at small ⊢
        obtain ⟨k,within,before,stops,same⟩ := @ih (n+1) (first+1) count 0 (by omega) small
        refine ⟨k+1,by omega,fun i less => ?_,fun less => ?_,?_⟩
        · cases i with
          | zero => exact fails
          | succ i => rw [← succ_add_eq_add_succ]; exact before i (by omega)
        · rw [← succ_add_eq_add_succ]
          exact stops (by omega)
        have order : n + 1 + k = n + (k+1) := by omega
        rw [if_neg (not_not.mpr fails),next,same,order]
        by_cases less : k < count
        · rw [if_pos less,if_pos (succ_lt_succ less),@erases_cons f first (k+1)]
          rfl
        rw [if_neg less,if_neg (fun more => less (lt_of_succ_lt_succ more)),ite_self,
          @erases_cons f first count]
        rfl
      refine ⟨0,zero_le _,fun i less => absurd less (not_lt_zero i),fun _ => fails,?_⟩
      rw [if_pos fails]
      rfl

/-! ### The mark -/

def markLength (f : Flash) : BitVec 32 := if f.buswidth16 then 2 else 1

def mark (f : Flash) (block : Nat) : Command :=
  .nandWrite (pageOf f block)
    (BitVec.ofNat 32 f.writesize + if f.buswidth16 then f.badblockpos &&& ~~~1 else f.badblockpos) (markLength f)

theorem write_oob_spare {n : Nat} {addr len ooboffs : BitVec 32} (some_ : len ≠ 0#32) :
    jz_sfcnand_write_oob f env parts n addr ⟨false,true,len,len,ooboffs⟩ =
      if check_partition_is_writable parts addr len then ([],-30)
      else ([.nandWrite (addr / BitVec.ofNat 32 f.writesize) (BitVec.ofNat 32 f.writesize + ooboffs) len],env.result n) := by
  simp [jz_sfcnand_write_oob,some_]

theorem markbad_eq (plain : Plain f) {n block : Nat} : jz_sfcnand_block_markbad f env parts n (start f block) =
    if check_partition_is_writable parts (start f block) (markLength f) then ([],-30) else ([mark f block],env.result n) := by
  have some_ : markLength f ≠ 0#32 := by
    rw [markLength]
    split_ifs <;> decide
  rw [jz_sfcnand_block_markbad,if_pos plain.write_oob,plain.scanLastPage,plain.scan2ndPage]
  exact write_oob_spare some_

theorem answered_erases {first count block : Nat} {marks : List Command} {answer : Int → Prop}
    (small : (first+count) * f.erasesize < 2 ^ 32) (written : ∀ c ∈ marks, ∀ page, c ≠ .nandErase page) :
    Answered f env (erases f first count ++ marks) block answer ↔
      ∃ i < count, first + i = block ∧ answer (env.result i) := by
  have length := @erases_length f first count
  constructor
  · rintro ⟨n,page,sent,same,answered⟩
    by_cases inside : n < count
    · rw [getElem?_append_left (by omega),erases,getElem?_map,getElem?_range inside] at sent
      cases sent
      exact ⟨n,inside,(blockOf_page (below small inside.le)).symm.trans same,answered⟩
    · rw [getElem?_append_right (by omega)] at sent
      exact absurd rfl (written _ (mem_of_getElem? sent) page)
  rintro ⟨i,inside,rfl,answered⟩
  refine ⟨i,pageOf f (first+i),?_,blockOf_page (below small inside.le),answered⟩
  rw [getElem?_append_left (by omega),erases,getElem?_map,getElem?_range inside]
  rfl

theorem not_marked_erases {first count block : Nat} : ¬ Marked f (erases f first count) block := by
  rintro ⟨page,column,len,sent,-⟩
  obtain ⟨i,-,same⟩ := mem_map.mp sent
  cases same

theorem marked_erases {first count block : Nat} (small : first * f.erasesize < 2 ^ 32) :
    Marked f (erases f first count ++ [mark f first]) block ↔ first = block := by
  constructor
  · rintro ⟨page,column,len,sent,same⟩
    rcases mem_append.mp sent with erased | marked
    · exact absurd ⟨page,column,len,erased,same⟩ not_marked_erases
    · cases mem_singleton.mp marked
      exact (blockOf_page small).symm.trans same
  · rintro rfl
    exact ⟨_,_,_,mem_append_right _ (mem_singleton_self _),blockOf_page small⟩

/-! ### The call -/

section
variable {r : Blocks f}

/-- The range of the request, or the mark of its first block, belongs to a partition that must not be written. -/
def Refused (f : Flash) (parts : List ReservedPartition) (first count : Nat) : Prop :=
  check_partition_is_writable parts (start f first) (start f count) ∨
    check_partition_is_writable parts (start f first) (markLength f)

theorem Blocks.first_small : r.first * f.erasesize < 2 ^ 32 := below r.small (zero_le _)

theorem erase_succeeds {addr len : BitVec 32} {sent : List Command}
    (open_ : ¬ check_partition_is_writable parts addr len) (erased : jz_sfc_nand_erase f env addr len = (sent,some 0)) :
    ReservedPart.jz_sfcnand_erase f env parts addr len = sent ∧ eraseResult f env parts addr len = some 0 := by
  rw [ReservedPart.jz_sfcnand_erase,eraseResult,if_neg open_,if_neg open_,erased]
  exact ⟨rfl,rfl⟩

theorem erase_fails {addr len : BitVec 32} {sent : List Command} {ret : Int}
    (open_ : ¬ check_partition_is_writable parts addr len) (erased : jz_sfc_nand_erase f env addr len = (sent,some ret))
    (failed : ret ≠ 0) :
    ReservedPart.jz_sfcnand_erase f env parts addr len =
      sent ++ (jz_sfcnand_block_markbad f env parts sent.length addr).1 ∧
    eraseResult f env parts addr len =
      some (if (jz_sfcnand_block_markbad f env parts sent.length addr).2 ≠ 0 then -1 else 0) := by
  rw [ReservedPart.jz_sfcnand_erase,eraseResult,if_neg open_,if_neg open_,erased]
  constructor
  · split <;> rename_i same <;> cases same
    · exact absurd rfl failed
    · rfl
  split <;> rename_i same <;> cases same
  · exact absurd rfl failed
  · rfl

/-- Nothing fails, or the last of `m` erase commands does and a mark follows. -/
theorem erase_cases (enough : r.count < env.fuel)
    (open_ : ¬ check_partition_is_writable parts (start f r.first) (start f r.count)) :
    let commands := ReservedPart.jz_sfcnand_erase f env parts (start f r.first) (start f r.count)
    let result := eraseResult f env parts (start f r.first) (start f r.count)
    ((∀ i < r.count, env.result i = 0) ∧ (r.count = 0 → env.unset = 0) ∧
      commands = erases f r.first r.count ∧ result = some 0) ∨
    ∃ m ≤ r.count, (m = 0 → r.count = 0 ∧ env.unset ≠ 0) ∧ (∀ i < m, env.result i = 0 ↔ i + 1 < m) ∧
      commands = erases f r.first m ++ (jz_sfcnand_block_markbad f env parts m (start f r.first)).1 ∧
      result = some (if (jz_sfcnand_block_markbad f env parts m (start f r.first)).2 ≠ 0 then -1 else 0) := by
  have erased : jz_sfc_nand_erase f env (start f r.first) (start f r.count) =
      eraseLoop f env (fun addr => .nandErase (addr / BitVec.ofNat 32 f.writesize)) (start f (r.first+r.count)) env.fuel
        0 (start f r.first) env.unset := by
    have aligned : start f r.first % BitVec.ofNat 32 f.erasesize = 0 := eq_of_toNat_eq (by
      rw [toNat_umod,start_toNat r.first_small,ReservedPartSafe.erasesize_toNat]
      exact Nat.mul_mod_left ..)
    rw [jz_sfc_nand_erase,if_neg (not_not.mpr aligned),start,start,start,Nat.add_mul,ofNat_add]
  obtain ⟨k,within,before,stops,same⟩ := @eraseLoop_ends f env env.fuel 0 r.first r.count env.unset enough r.small
  simp only [Nat.zero_add] at before stops same
  rw [same] at erased
  by_cases less : k < r.count
  · rw [if_pos less] at erased
    obtain ⟨sent,returned⟩ := erase_fails open_ erased (stops less)
    rw [erases_length] at sent returned
    refine .inr ⟨k+1,less,fun none_ => absurd none_ (succ_ne_zero k),fun i inside => ⟨fun zero => ?_,fun earlier => ?_⟩,
      sent,returned⟩
    · by_contra last
      obtain rfl : i = k := by omega
      exact stops less zero
    · exact before i (by omega)
  obtain rfl : k = r.count := by omega
  rw [if_neg less] at erased
  by_cases unset : r.count = 0 → env.unset = 0
  · have zero : (if r.count = 0 then env.unset else 0) = 0 := by
      split_ifs with none_
      · exact unset none_
      · rfl
    rw [zero] at erased
    exact .inl ⟨before,unset,erase_succeeds open_ erased⟩
  obtain ⟨none_,set_⟩ := Classical.not_imp.mp unset
  rw [if_pos none_] at erased
  obtain ⟨sent,returned⟩ := erase_fails open_ erased set_
  rw [erases_length] at sent returned
  exact .inr ⟨r.count,le_refl _,fun _ => ⟨none_,set_⟩,fun i inside => by omega,sent,returned⟩

/-- When the blocks that fail are pinned: the call or its mark is refused, nothing fails, or the first block does and is
    the only one, or its mark cannot be written. -/
theorem erase_pinned_iff (plain : Plain f) (enough : r.count < env.fuel) :
    Pinned f env r (ReservedPart.jz_sfcnand_erase f env parts (start f r.first) (start f r.count))
      (eraseResult f env parts (start f r.first) (start f r.count)) ↔
    Refused f parts r.first r.count ∨ ((∀ i < r.count, env.result i = 0) ∧ (r.count = 0 → env.unset = 0)) ∨
      (0 < r.count ∧ env.result 0 ≠ 0 ∧ (r.count = 1 ∨ env.result 1 ≠ 0)) := by
  have answered : ∀ {m : Nat} {block : Nat} {answer : Int → Prop} {marks : List Command}, m ≤ r.count →
      (∀ c ∈ marks, ∀ page, c ≠ .nandErase page) → (Answered f env (erases f r.first m ++ marks) block answer ↔
        ∃ i < m, r.first + i = block ∧ answer (env.result i)) :=
    fun within written => answered_erases (below r.small within) written
  by_cases range_ : check_partition_is_writable parts (start f r.first) (start f r.count)
  · refine ⟨fun _ => .inl (.inl range_),fun _ => ?_⟩
    rw [ReservedPart.jz_sfcnand_erase,eraseResult,if_pos range_,if_pos range_]
    exact ⟨fun zero => absurd zero (by decide),by rintro block ⟨_,_,_,⟨⟩,_⟩⟩
  rcases erase_cases enough range_ with ⟨erased,unset,sent,returned⟩ | ⟨m,within,none_,results,sent,returned⟩
  · refine ⟨fun _ => .inr (.inl ⟨erased,unset⟩),fun _ => ?_⟩
    rw [sent]
    refine ⟨fun _ i inside => .inl ?_,fun block marked => absurd marked not_marked_erases⟩
    rw [← append_nil (erases ..),answered (le_refl _) fun c member => absurd member not_mem_nil]
    exact ⟨i,inside,rfl,erased i inside⟩
  rw [sent,returned,markbad_eq plain]
  by_cases first : check_partition_is_writable parts (start f r.first) (markLength f)
  · rw [if_pos first,append_nil]
    exact ⟨fun _ => .inl (.inr first),fun _ => ⟨fun zero => absurd zero (by decide),fun block marked =>
      absurd marked not_marked_erases⟩⟩
  rw [if_neg first]
  have written : ∀ c ∈ [mark f r.first], ∀ page, c ≠ .nandErase page := fun c member page => by
    rw [mem_singleton.mp member]
    exact Command.noConfusion
  constructor
  · rintro ⟨complete,marks⟩
    obtain ⟨i,inside,place,failed⟩ := (answered within written).mp (marks r.first ((marked_erases r.first_small).mpr rfl))
    obtain rfl : i = 0 := by omega
    obtain rfl : m = 1 := by
      have := mt (results 0 inside).mpr failed
      omega
    refine .inr (.inr ⟨within,failed,?_⟩)
    by_contra both
    obtain ⟨many,zero⟩ := not_or.mp both
    rcases complete (by rw [if_neg zero]) 1 (by omega) with erased | marked
    · obtain ⟨i,inside,place,-⟩ := (answered within written).mp erased
      omega
    · have := (marked_erases r.first_small).mp marked
      omega
  rintro (refused | ⟨zeros,unset⟩ | ⟨some_,failed,single⟩)
  · exact absurd refused (not_or.mpr ⟨range_,first⟩)
  · cases m with
    | zero => exact absurd (unset (none_ rfl).1) (none_ rfl).2
    | succ m => exact absurd ((results m (by omega)).mp (zeros m within)) (lt_irrefl _)
  obtain rfl : m = 1 := by
    have := mt (results 0 (by omega)).mpr failed
    omega
  refine ⟨fun zero i inside => .inr ((marked_erases r.first_small).mpr ?_),fun block marked => ?_⟩
  · rcases single with single | stuck
    · omega
    · rw [if_pos stuck] at zero
      cases zero
  · exact (answered within written).mpr ⟨0,by omega,(marked_erases r.first_small).mp marked,failed⟩

end

open ReservedPartSafe (nandFlash)

/-- The command with a number fails. -/
def failing (number : Nat) : Environment := ⟨fun n => if n = number then -5 else 0,0,4⟩

theorem single_block_marked : Pinned nandFlash (failing 0) ⟨4,1,by decide⟩
    (ReservedPart.jz_sfcnand_erase nandFlash (failing 0) [] (start nandFlash 4) (start nandFlash 1))
    (eraseResult nandFlash (failing 0) [] (start nandFlash 4) (start nandFlash 1)) :=
  (@erase_pinned_iff nandFlash (failing 0) [] ⟨4,1,by decide⟩ ⟨rfl,rfl,rfl⟩ (by decide)).mpr
    (.inr (.inr ⟨by decide,by decide,.inl rfl⟩))

/-- Block 5 fails; block 4 is marked, and the call succeeds. -/
theorem wrong_block_marked :
    eraseResult nandFlash (failing 1) [] (start nandFlash 4) (start nandFlash 2) = some 0 ∧
    ¬ Pinned nandFlash (failing 1) ⟨4,2,by decide⟩
      (ReservedPart.jz_sfcnand_erase nandFlash (failing 1) [] (start nandFlash 4) (start nandFlash 2))
      (eraseResult nandFlash (failing 1) [] (start nandFlash 4) (start nandFlash 2)) := by
  refine ⟨by decide,fun ⟨_,marks⟩ => ?_⟩
  obtain ⟨n,page,given,place,failed⟩ := marks 4 ⟨256,2048,1,by decide,by decide⟩
  match n with
  | 0 => exact failed rfl
  | 1 =>
    cases given
    exact absurd place (by decide)
  | n + 2 => exact failed rfl

end UBoot.NandErase
