import UBoot.NandUtil

/-!
Data written with bad blocks skipped reads back. The length check, the writer and the reader make the same
walk over the blocks as long as it stays below 4 GiB; at and above it the writer and the reader look at
another block than the check, and `*actual` wraps, so the guarantee holds for a whole chip if and only if it
is smaller than 4 GiB (`skip_bad_reliable`).
-/
namespace UBoot.NandSkip
open List Option Nat Skipping NandUtil

variable {fuel : Nat} {buf data : List UInt8} {flash : Flash}

variable {nand : nand_info_t} {bad : Nat → Bool}

/-! ### Masks -/

theorem erasesize_pos (nand : nand_info_t) : 0 < nand.erasesize := by
  rw [nand.erase_eq]
  exact Nat.two_pow_pos _

theorem blockOffset_eq (nand : nand_info_t) (o : Nat) : blockOffset nand o = o % nand.erasesize := by
  rw [blockOffset,nand.erase_eq,Nat.and_two_pow_sub_one_eq_mod]

theorem block_rest (nand : nand_info_t) (o : Nat) : nand.erasesize - blockOffset nand o = rest nand.erasesize o := by
  rw [blockOffset_eq,rest]

theorem and_mask {w k o : Nat} (inside : k ≤ w) (small : o < 2 ^ w) : o &&& (2 ^ w - (2 ^ k - 1 + 1)) = o / 2 ^ k * 2 ^ k := by
  rw [← Nat.shiftRight_eq_div_pow,← Nat.shiftLeft_eq]
  apply Nat.eq_of_testBit_eq
  intro i
  have power : 2 ^ k ≤ 2 ^ w := Nat.pow_le_pow_right (by omega) inside
  rw [Nat.testBit_and,Nat.testBit_two_pow_sub_succ (by omega),Nat.testBit_shiftLeft,
    Nat.testBit_shiftRight]
  by_cases low : i < k
  · simp [low]
  by_cases high : i < w
  · simp [low,high,Nat.not_lt.mp low]
  rw [Nat.testBit_lt_two_pow (small.trans_le (Nat.pow_le_pow_right (by omega) (Nat.not_lt.mp high)))]
  simp only [Bool.false_and,Bool.false_eq,Bool.and_eq_false_imp,decide_eq_true_eq]
  intro above
  rw [Nat.add_sub_cancel' above]
  exact Nat.testBit_lt_two_pow (small.trans_le (Nat.pow_le_pow_right (by omega) (Nat.not_lt.mp high)))

theorem blockStart_eq {o : Nat} (small : o < 2 ^ 32) : blockStart nand o = o / nand.erasesize * nand.erasesize := by
  have shift := nand.shift_lt
  have power : 2 ^ nand.shift < 2 ^ 32 := Nat.pow_lt_pow_right (by omega) shift
  rw [blockStart,nand.erase_eq,BitVec.toNat_and,BitVec.toNat_not,BitVec.toNat_ofNat,BitVec.toNat_ofNat,
    Nat.mod_eq_of_lt (by omega),Nat.mod_eq_of_lt (by omega),
    Nat.sub_sub,Nat.add_comm 1,and_mask (by omega) (by omega)]

theorem blockStart32_eq {o : Nat} (small : o < 2 ^ 32) : blockStart32 nand o = o / nand.erasesize * nand.erasesize := by
  have shift := nand.shift_lt
  have power : 2 ^ nand.shift < 2 ^ 32 := Nat.pow_lt_pow_right (by omega) shift
  rw [blockStart32,nand.erase_eq,BitVec.toNat_and,BitVec.toNat_setWidth,BitVec.toNat_not,BitVec.toNat_ofNat,BitVec.toNat_ofNat,
    Nat.mod_eq_of_lt (by omega),Nat.mod_eq_of_lt (by omega),
    Nat.sub_sub,Nat.add_comm 1,Nat.mod_eq_of_lt (by omega),and_mask (by omega) small]

theorem bad_eq (nand : nand_info_t) (bad : Nat → Bool) {o : Nat} (small : o < 2 ^ 32) :
    bad (blockStart nand o) = !isGood nand.erasesize bad o ∧ bad (blockStart32 nand o) = !isGood nand.erasesize bad o := by
  rw [blockStart_eq small,blockStart32_eq small,isGood,Bool.not_not]
  exact ⟨rfl,rfl⟩

/-! ### The length check -/

/-- Enough good bytes up to the boundary `limit`: the chip ends there, or they are counted. -/
def Enough (nand : nand_info_t) (bad : Nat → Bool) (limit o n : Nat) : Prop :=
  nand.size ≤ limit ∨ n ≤ (places (isGood nand.erasesize bad) o (limit - o)).length

namespace Enough
variable {limit o n : Nat}

theorem below (enough : Enough nand bad limit o n) (inside : o < nand.size) (more : 0 < n) : o < limit := by
  rcases enough with whole | count
  · omega
  · have := @places_length_le (isGood nand.erasesize bad) o (limit-o)
    omega

theorem skip (enough : Enough nand bad limit o n) (isBad : isGood nand.erasesize bad o = false)
    (next : o + rest nand.erasesize o ≤ limit) : Enough nand bad limit (o + rest nand.erasesize o) n := by
  refine enough.imp id fun count => ?_
  rwa [show limit - o = rest nand.erasesize o + (limit - (o + rest nand.erasesize o)) by omega,places_add,
    Walk.places_skip (erasesize_pos nand) isBad] at count

theorem piece (enough : Enough nand bad limit o n) (good : isGood nand.erasesize bad o = true)
    (next : o + rest nand.erasesize o ≤ limit) :
    Enough nand bad limit (o + rest nand.erasesize o) (n - rest nand.erasesize o) := by
  refine enough.imp id fun count => ?_
  have whole := @Walk.places_piece _ o (rest nand.erasesize o) _ (erasesize_pos nand) good
  rw [min_self] at whole
  rw [show limit - o = rest nand.erasesize o + (limit - (o + rest nand.erasesize o)) by omega,places_add,
    whole,length_append,length_range'] at count
  omega
end Enough

theorem checkLoop_walk {limit length : Nat} (boundary : nand.erasesize ∣ limit) (low : limit < 2 ^ 32) {o len used : Nat}
    {ret r : Int} {used' : Nat} (enough : Enough nand bad limit o (length-len)) (lenUsed : len ≤ used) (usedLe : used ≤ o)
    (usedLt : used < 2 ^ 32) (run : checkLoop nand bad length fuel o len used ret = some (r,used')) (accepted : 0 ≤ r) :
    ∃ steps u, steps < fuel ∧ Walk nand.erasesize bad steps o (length-len) u ∧ (0 < length - len → o + u ≤ limit) ∧
      used' + (len-length) = used + u ∧ (r = 0 → ret = 0 ∧ u = length - len) := by
  have some_ := erasesize_pos nand
  induction fuel generalizing o len used ret with
  | zero => exact absurd run (some_ne_none _).symm
  | succ fuel ih =>
    rw [checkLoop] at run
    simp only [block_rest] at run
    by_cases more : len < length
    · rw [if_pos more] at run
      by_cases outside : nand.size ≤ o
      · rw [if_pos outside] at run
        cases run
        omega
      rw [if_neg outside] at run
      have below := enough.below (by omega) (by omega)
      have next := next_le boundary below
      rw [(bad_eq nand bad (by omega)).1] at run
      cases good : isGood nand.erasesize bad o with
      | false =>
        rw [good] at run
        obtain ⟨steps,u,fewer,walk,inside,sum,clean⟩ := ih (enough.skip good next) (by omega) (by omega) (by omega) run
        refine ⟨steps+1,rest nand.erasesize o + u,by omega,.skip (by omega) good walk,fun _ => by omega,by omega,fun zero => ?_⟩
        omega
      | true =>
        rw [good,if_neg (by decide),Nat.mod_eq_of_lt (by omega)] at run
        have enough' := enough.piece good next
        rw [Nat.sub_sub] at enough'
        obtain ⟨steps,u,fewer,walk,inside,sum,clean⟩ := ih enough' (by omega) (by omega) (by omega) run
        have empty := walk.eq_zero_iff some_
        by_cases full : rest nand.erasesize o ≤ length - len
        · have piece : min (length-len) (rest nand.erasesize o) = rest nand.erasesize o := Nat.min_eq_right full
          have step := @Walk.piece nand.erasesize bad steps o (length-len) u (by omega) good
            (by rw [piece,Nat.sub_sub]; exact walk)
          refine ⟨steps+1,_,by omega,step,fun _ => by omega,by omega,fun zero => ?_⟩
          omega
        · -- the last block is not filled
          have piece : min (length-len) (rest nand.erasesize o) = length - len := Nat.min_eq_left (by omega)
          have step := @Walk.piece nand.erasesize bad 0 o (length-len) 0 (by omega) good
            (by rw [piece,Nat.sub_self]; exact .done _)
          rw [piece] at step
          refine ⟨1,_,by omega,step,fun _ => by omega,by omega,fun zero => ⟨(clean zero).1,rfl⟩⟩
    have done : length - len = 0 := by omega
    rw [done]
    refine ⟨0,0,by omega,.done _,by omega,?_⟩
    split_ifs at run with excess
    · cases run
      omega
    · cases run
      omega

/-! ### The writer and the reader -/

theorem dropLoop_ones {n i : Nat} (above : dropLoop buf n ≤ i) (below : i < n) : buf[i]? = some 0xFF := by
  induction n with
  | zero => omega
  | succ n ih =>
    rw [dropLoop] at above
    split_ifs at above with stop
    · omega
    by_cases last : i = n
    · rw [last]
      exact not_not.mp stop
    · exact ih above (by omega)

theorem drop_ffs_ones {len i : Nat} (above : drop_ffs nand buf len ≤ i) (below : i < len) :
    buf[i]? = some 0xFF := by
  refine dropLoop_ones ?_ below
  have positive : 0 < nand.writesize := pos_of_dvd_of_pos nand.pages (erasesize_pos nand)
  have rounded : dropLoop buf len ≤ (dropLoop buf len + nand.writesize - 1) / nand.writesize * nand.writesize := by
    have split := div_add_mod (dropLoop buf len + nand.writesize - 1) nand.writesize
    have low := mod_lt (dropLoop buf len + nand.writesize - 1) positive
    rw [mul_comm] at split
    omega
  rw [drop_ffs] at above
  omega

theorem drop_ffs_le (nand : nand_info_t) (buf : List UInt8) (len : Nat) : drop_ffs nand buf len ≤ len := min_le_right ..

/-- A write without the bytes 0xFF at its end has the effect of the whole one. -/
theorem program_dropped {mem : Nat → UInt8} {o t p : Nat} (le : t ≤ p) (inside : p ≤ buf.length)
    (ones : ∀ i, t ≤ i → i < p → buf[i]? = some 0xFF) :
    program mem ((List.range' o t).zip (buf.take t)) = program mem ((List.range' o p).zip (buf.take p)) := by
  obtain ⟨k,rfl⟩ := Nat.exists_eq_add_of_le le
  have split : buf.take (t+k) = buf.take t ++ (buf.drop t).take k := take_add
  rw [← range'_append_1,split,zip_append (by rw [length_range',length_take]; omega),program_append]
  refine (program_ones ?_).symm
  rintro ⟨a,d⟩ entry
  obtain ⟨j,inside',equal⟩ := mem_iff_getElem.mp (of_mem_zip entry).2
  rw [length_take] at inside'
  have byte := ones (t+j) (by omega) (by omega)
  rw [getElem_take,getElem_drop] at equal
  rw [getElem?_eq_getElem (by omega),equal] at byte
  exact Option.some.inj byte

/-- What a writer does to the chip: the data is programmed to the given places, nothing else is written, and each
    place is in a block that is written. -/
structure Writes (nand : nand_info_t) (addresses : List Nat) (data : List UInt8) (flash flash' : Flash) : Prop where
  bytes : flash'.bytes = program flash.bytes (addresses.zip data)
  only : ∀ w ∈ flash'.writes, w ∈ flash.writes ∨ ∀ x, w.1 ≤ x → x < w.1 + w.2 → x ∈ addresses
  keeps : ∀ w ∈ flash.writes, w ∈ flash'.writes
  touched : ∀ x ∈ addresses, ∃ w ∈ flash'.writes, w.1 / nand.erasesize ≤ x / nand.erasesize ∧
    x / nand.erasesize ≤ (w.1 + (w.2 - 1)) / nand.erasesize

theorem nand_write_piece {flash : Flash} {o t p : Nat} {buf : List UInt8} (le : t ≤ p) (inside : p ≤ buf.length)
    (block : p ≤ rest nand.erasesize o) (ones : ∀ i, t ≤ i → i < p → buf[i]? = some 0xFF) :
    Writes nand (List.range' o p) (buf.take p) flash (nand_write flash o (buf.take t)) := by
  have some_ := erasesize_pos nand
  have length : (buf.take t).length = t := by rw [length_take]; omega
  refine ⟨?_,?_,fun w old => mem_append_left _ old,?_⟩
  · rw [nand_write,length,program_dropped le inside ones]
  · intro w new
    rcases mem_append.mp new with old | now
    · exact .inl old
    rw [mem_singleton.mp now]
    refine .inr fun x above below => ?_
    rw [mem_range'_1]
    omega
  intro x member
  rw [mem_range'_1] at member
  refine ⟨_,mem_append_right _ mem_cons_self,?_⟩
  have same := same_block some_ member.1 (by omega)
  rw [same]
  exact ⟨Nat.le_refl _,Nat.div_le_div_right (by omega)⟩

theorem Writes.append {one two : List Nat} {more : List UInt8} {flash' flash'' : Flash}
    (same : one.length = data.length) (first : Writes nand one data flash flash')
    (second : Writes nand two more flash' flash'') : Writes nand (one ++ two) (data ++ more) flash flash'' := by
  refine ⟨?_,?_,fun w old => second.keeps w (first.keeps w old),?_⟩
  · rw [second.bytes,first.bytes,zip_append same,program_append]
  · intro w new
    rcases second.only w new with before | inside
    · exact (first.only w before).imp id fun inside x above below => mem_append_left _ (inside x above below)
    · exact .inr fun x above below => mem_append_right _ (inside x above below)
  intro x member
  rcases mem_append.mp member with inside | inside
  · obtain ⟨w,old,block⟩ := first.touched x inside
    exact ⟨w,second.keeps w old,block⟩
  · exact second.touched x inside

theorem piece_size (n r : Nat) : (if n < r then n else r) = min n r := by
  split_ifs <;> omega

theorem writeLoop_walk {steps o n u : Nat} (walk : Walk nand.erasesize bad steps o n u) (low : 0 < n → o + u ≤ 2 ^ 32) (drop : Bool)
    {fuel : Nat} (fewer : steps < fuel) {flash : Flash} {data : List UInt8} (length : data.length = n) :
    ∃ flash', writeLoop nand bad drop fuel flash o n data = some flash' ∧
      Writes nand (places (isGood nand.erasesize bad) o u) data flash flash' := by
  have some_ := erasesize_pos nand
  obtain ⟨fuel,rfl⟩ := exists_eq_succ_of_ne_zero (show fuel ≠ 0 by omega)
  induction walk generalizing fuel flash data with
  | done =>
    refine ⟨flash,rfl,?_⟩
    exact ⟨rfl,fun w old => .inl old,fun w old => old,fun x member => absurd member not_mem_nil⟩
  | @skip steps o n u more isBad onward ih =>
    have positive := @rest_pos nand.erasesize o some_
    obtain ⟨fuel,rfl⟩ := exists_eq_succ_of_ne_zero (show fuel ≠ 0 by omega)
    obtain ⟨flash',run,writes⟩ := @ih (by omega) flash data length fuel (by omega)
    refine ⟨flash',?_,?_⟩
    · rw [writeLoop]
      simp only [if_pos more,(bad_eq nand bad (show o < 2 ^ 32 by omega)).2,isBad,block_rest]
      exact run
    · rwa [places_add,Walk.places_skip some_ isBad]
  | @piece steps o n u more good onward ih =>
    have positive := @rest_pos nand.erasesize o some_
    obtain ⟨fuel,rfl⟩ := exists_eq_succ_of_ne_zero (show fuel ≠ 0 by omega)
    have whole : min n (rest nand.erasesize o) ≤ data.length := by omega
    have ones : ∀ i, (if drop then drop_ffs nand data (min n (rest nand.erasesize o)) else min n (rest nand.erasesize o)) ≤ i →
        i < min n (rest nand.erasesize o) → data[i]? = some 0xFF := by
      intro i above below
      split_ifs at above
      · exact drop_ffs_ones above below
      · omega
    have le : (if drop then drop_ffs nand data (min n (rest nand.erasesize o)) else min n (rest nand.erasesize o)) ≤
        min n (rest nand.erasesize o) := by
      split_ifs
      · exact drop_ffs_le ..
      · exact le_refl _
    have first := @nand_write_piece nand flash o _ _ _ le whole (min_le_right ..) ones
    obtain ⟨flash',run,writes⟩ := ih (by omega) (by rw [length_drop,length]) fuel (by omega)
    refine ⟨flash',?_,?_⟩
    · rw [writeLoop]
      simp only [if_pos more,(bad_eq nand bad (show o < 2 ^ 32 by omega)).2,good,block_rest,piece_size]
      exact run
    · rw [places_add,Walk.places_piece some_ good,← take_append_drop (min n (rest nand.erasesize o)) data]
      exact first.append (by rw [length_range',length_take]; omega) writes

theorem readLoop_walk {steps o n u : Nat} (walk : Walk nand.erasesize bad steps o n u) (low : 0 < n → o + u ≤ 2 ^ 32)
    (fewer : steps < fuel) (flash : Flash) :
    readLoop nand bad flash fuel o n = some ((places (isGood nand.erasesize bad) o u).map flash.bytes) := by
  have some_ := erasesize_pos nand
  obtain ⟨fuel,rfl⟩ := exists_eq_succ_of_ne_zero (show fuel ≠ 0 by omega)
  induction walk generalizing fuel with
  | done => rfl
  | @skip steps o n u more isBad onward ih =>
    have positive := @rest_pos nand.erasesize o some_
    obtain ⟨fuel,rfl⟩ := exists_eq_succ_of_ne_zero (show fuel ≠ 0 by omega)
    rw [readLoop]
    simp only [if_pos more,(bad_eq nand bad (show o < 2 ^ 32 by omega)).2,isBad,block_rest]
    rw [places_add,Walk.places_skip some_ isBad]
    exact ih (by omega) fuel (by omega)
  | @piece steps o n u more good onward ih =>
    have positive := @rest_pos nand.erasesize o some_
    obtain ⟨fuel,rfl⟩ := exists_eq_succ_of_ne_zero (show fuel ≠ 0 by omega)
    rw [readLoop]
    simp only [if_pos more,(bad_eq nand bad (show o < 2 ^ 32 by omega)).2,good,block_rest,piece_size]
    rw [ih (by omega) fuel (by omega),places_add,Walk.places_piece some_ good,map_append]
    rfl

theorem nand_write_whole (nand : nand_info_t) (flash : Flash) (o : Nat) (data : List UInt8) :
    Writes nand (List.range' o data.length) data flash (nand_write flash o data) := by
  refine ⟨rfl,?_,fun w old => mem_append_left _ old,?_⟩
  · intro w new
    rcases mem_append.mp new with old | now
    · exact .inl old
    · rw [mem_singleton.mp now]
      exact .inr fun x above below => mem_range'_1.mpr ⟨above,below⟩
  intro x member
  rw [mem_range'_1] at member
  exact ⟨_,mem_append_right _ mem_cons_self,Nat.div_le_div_right member.1,Nat.div_le_div_right (by omega)⟩

theorem places_straight {steps o n : Nat} (walk : Walk nand.erasesize bad steps o n n) :
    places (isGood nand.erasesize bad) o n = List.range' o n := by
  refine List.Sublist.eq_of_length filter_sublist ?_
  rw [length_range']
  exact walk.length (erasesize_pos nand)

/-! ### Round trip -/

/-- The guarantee of the two functions for one request: what was written to erased blocks reads back, only good blocks
    below the limit were written, and `*actual` is the distance to the end of the last byte stored: the good bytes
    up to there are the data, and the last of them is the last byte. -/
def Reliable (nand : nand_info_t) (bad : Nat → Bool) (fuel : Nat) (flash : Flash) (offset : Nat) (lim : Int)
    (data : List UInt8) (drop : Bool) : Prop :=
  ∀ actual flash', flash.writes = [] → offset % nand.writesize = 0 → data.length < 2 ^ 32 →
    nand_write_skip_bad nand bad fuel flash offset data.length lim data drop = some (0,data.length,actual,flash') →
    (∀ w ∈ flash'.writes, ∀ x, w.1 / nand.erasesize ≤ x / nand.erasesize →
      x / nand.erasesize ≤ (w.1 + (w.2 - 1)) / nand.erasesize → flash.bytes x = 0xFF) →
    nand_read_skip_bad nand bad fuel flash' offset data.length lim = some (0,data.length,actual,data) ∧
    (∀ w ∈ flash'.writes, ∀ x, w.1 ≤ x → x < w.1 + w.2 →
      isGood nand.erasesize bad x = true ∧ offset ≤ x ∧ (x : Int) < offset + lim) ∧
    (places (isGood nand.erasesize bad) offset actual).map flash'.bytes = data ∧
    (0 < actual → isGood nand.erasesize bad (offset + actual - 1) = true)

theorem write_success {flash' : Flash} {offset length length' actual : Nat} {lim : Int}
    {drop : Bool}
    (run : nand_write_skip_bad nand bad fuel flash offset length lim data drop = some (0,length',actual,flash')) :
    offset &&& (nand.writesize-1) = 0 ∧ ∃ r, check_skip_len nand bad fuel offset length = some (r,actual) ∧ 0 ≤ r ∧
      actual ≤ lim ∧ (r = 0 ∧ flash' = nand_write flash offset (data.take length) ∨
        writeLoop nand bad drop fuel flash offset length data = some flash') := by
  rw [nand_write_skip_bad] at run
  split_ifs at run with aligned
  · cases run
  refine ⟨not_not.mp aligned,?_⟩
  obtain ⟨⟨r,used⟩,check,run⟩ := bind_eq_some_iff.mp run
  simp only at run
  split_ifs at run with refused exceeds straight
  · cases run
  · cases run
  · cases run
    exact ⟨r,check,by omega,by omega,.inl ⟨straight.1,rfl⟩⟩
  obtain ⟨result,loop,run⟩ := bind_eq_some_iff.mp run
  cases run
  exact ⟨r,check,by omega,by omega,.inr loop⟩

/-- The guarantee holds if enough good bytes lie below a block boundary below 4 GiB. -/
theorem reliable_below {limit : Nat} (boundary : nand.erasesize ∣ limit) (low : limit < 2 ^ 32)
    {offset : Nat} {lim : Int} {drop : Bool} (enough : Enough nand bad limit offset data.length) :
    Reliable nand bad fuel flash offset lim data drop := by
  intro actual flash' fresh _ _ run erased
  have some_ := erasesize_pos nand
  obtain ⟨aligned,r,check,accepted,fits,written⟩ := write_success run
  obtain ⟨steps,u,fewer,walk,inside,sum,clean⟩ :=
    checkLoop_walk boundary low enough (Nat.le_refl 0) (Nat.zero_le _) (by omega) check accepted
  obtain rfl : actual = u := by omega
  rw [Nat.sub_zero] at walk inside clean
  have below : 0 < data.length → offset + actual ≤ 2 ^ 32 := fun more => by
    omega
  have writes : Writes nand (places (isGood nand.erasesize bad) offset actual) data flash flash' := by
    rcases written with ⟨straight,rfl⟩ | loop
    · obtain rfl := (clean straight).2
      rw [places_straight walk,take_of_length_le (le_refl _)]
      exact nand_write_whole ..
    obtain ⟨result,again,writes⟩ := @writeLoop_walk nand bad steps offset _ _ walk below drop fuel fewer flash data rfl
    rw [loop] at again
    cases again
    exact writes
  have stored : (places (isGood nand.erasesize bad) offset actual).map flash'.bytes = data := by
    rw [writes.bytes]
    refine program_read places_nodup (walk.length some_) fun x member => ?_
    obtain ⟨w,logged,first,last⟩ := writes.touched x member
    exact erased w logged x first last
  refine ⟨?_,?_,stored,fun more => ?_⟩
  · rw [nand_read_skip_bad,if_neg (not_not_intro aligned),check]
    simp only [bind_eq_bind,bind_some]
    rw [if_neg (by omega),if_neg (by omega)]
    split_ifs with straight
    · obtain rfl := (clean straight).2
      rw [places_straight walk] at stored
      rw [nand_read,stored]
    · rw [readLoop_walk walk below fewer,stored]
      rfl
  · intro w logged x above below
    rcases writes.only w logged with old | inside
    · rw [fresh] at old
      exact absurd old not_mem_nil
    · obtain ⟨range,good⟩ := mem_places.mp (inside x above below)
      exact ⟨good,range.1,by omega⟩
  refine walk.last_good some_ (pos_of_ne_zero fun none => ?_)
  have := (walk.eq_zero_iff some_).mp none
  omega

/-! ### Large chips -/

/-- The check passes `k` good blocks that are just enough. -/
theorem checkLoop_blocks {length : Nat} (small : length < 2 ^ 32) (k : Nat) {o used : Nat} {ret : Int} (aligned : nand.erasesize ∣ o)
    (low : o + k * nand.erasesize ≤ 2 ^ 32) (inside : o + k * nand.erasesize ≤ nand.size) (enough : k * nand.erasesize ≤ length)
    (good : ∀ x, o ≤ x → x < o + k * nand.erasesize → isGood nand.erasesize bad x = true) (usedLt : used < 2 ^ 32) :
    checkLoop nand bad length (k+1) o (length - k * nand.erasesize) used ret =
      some (ret,(used + k * nand.erasesize) % 2 ^ 32) := by
  have some_ := erasesize_pos nand
  induction k generalizing o used with
  | zero =>
    rw [checkLoop]
    simp only [Nat.zero_mul,Nat.sub_zero,lt_self_iff_false,if_false,Nat.add_zero,Nat.mod_eq_of_lt usedLt]
  | succ k ih =>
    have whole : rest nand.erasesize o = nand.erasesize := by rw [rest,Nat.mod_eq_zero_of_dvd aligned,Nat.sub_zero]
    rw [Nat.succ_mul] at low inside enough good ⊢
    rw [checkLoop]
    simp only [block_rest,whole]
    rw [if_pos (by omega),if_neg (by omega),(bad_eq nand bad (by omega)).1,good o (by omega) (by omega)]
    have next := @ih (o+nand.erasesize) ((used+nand.erasesize) % 2 ^ 32) (Nat.dvd_add aligned (dvd_refl _)) (by omega) (by omega)
      (by omega) (fun x above below => good x (by omega) (by omega)) (mod_lt _ (by omega))
    rw [show (length - (k * nand.erasesize + nand.erasesize) + nand.erasesize) % 2 ^ 32 = length - k * nand.erasesize by omega]
    simp only [Bool.not_true,Bool.false_eq_true,if_false]
    rw [next]
    congr 2
    omega

theorem walk_blocks (k : Nat) {o : Nat} (aligned : nand.erasesize ∣ o)
    (good : ∀ x, o ≤ x → x < o + k * nand.erasesize → isGood nand.erasesize bad x = true) :
    Walk nand.erasesize bad k o (k*nand.erasesize) (k*nand.erasesize) := by
  have some_ := erasesize_pos nand
  induction k generalizing o with
  | zero =>
    rw [Nat.zero_mul]
    exact .done o
  | succ k ih =>
    have whole : rest nand.erasesize o = nand.erasesize := by rw [rest,Nat.mod_eq_zero_of_dvd aligned,Nat.sub_zero]
    rw [Nat.succ_mul] at good ⊢
    have piece : min (k * nand.erasesize + nand.erasesize) (rest nand.erasesize o) = nand.erasesize := by
      rw [whole]
      exact Nat.min_eq_right (Nat.le_add_left ..)
    have step := @Walk.piece nand.erasesize bad k o (k * nand.erasesize + nand.erasesize) (k*nand.erasesize) (by omega)
      (good o (by omega) (by omega))
    rw [piece,Nat.add_sub_cancel,Nat.add_comm nand.erasesize] at step
    exact step (ih (Nat.dvd_add aligned (dvd_refl _)) fun x above below => good x (by omega) (by omega))

theorem blocks_eq (nand : nand_info_t) : (2 ^ (32-nand.shift) - 1) * nand.erasesize + nand.erasesize = 2 ^ 32 := by
  have shift := nand.shift_lt
  have positive := Nat.two_pow_pos (32-nand.shift)
  rw [← Nat.succ_mul,Nat.succ_eq_add_one,Nat.sub_add_cancel positive,nand.erase_eq,← Nat.pow_add,Nat.sub_add_cancel shift.le]

def firstBad (b : Nat) : Bool := b == 0

/-- On a chip of 4 GiB or more whose first block is bad: the other blocks below 4 GiB are written, and `*actual` wraps
    to 0. -/
theorem large_not_reliable (nand : nand_info_t) (large : 2 ^ 32 ≤ nand.size) :
    ¬ Reliable nand firstBad (2 ^ (32-nand.shift) - 1 + 2) ⟨fun _ => 0xFF,[]⟩ 0 0
      (List.replicate ((2 ^ (32-nand.shift) - 1) * nand.erasesize) 0) false := by
  have some_ := erasesize_pos nand
  have total := blocks_eq nand
  have more : 0 < (2 ^ (32-nand.shift) - 1) * nand.erasesize := by
    refine Nat.mul_pos (Nat.sub_pos_of_lt ?_) some_
    exact Nat.one_lt_two_pow (by have := nand.shift_lt; omega)
  generalize 2 ^ (32-nand.shift) - 1 = k at *
  have isBad : isGood nand.erasesize firstBad 0 = false := by rw [isGood,Nat.zero_div,Nat.zero_mul]; rfl
  have good : ∀ x, 0 + nand.erasesize ≤ x → x < 0 + nand.erasesize + k * nand.erasesize →
      isGood nand.erasesize firstBad x = true := by
    intro x above _
    have block : 0 < x / nand.erasesize * nand.erasesize := Nat.mul_pos (Nat.div_pos (by omega) some_) some_
    simp only [isGood,firstBad,Bool.not_eq_true',beq_eq_false_iff_ne]
    omega
  have first : rest nand.erasesize 0 = nand.erasesize := by rw [rest,Nat.zero_mod,Nat.sub_zero]
  have aligned : nand.erasesize ∣ 0 + nand.erasesize := by rw [Nat.zero_add]
  have check : check_skip_len nand firstBad (k+2) 0 (k*nand.erasesize) = some (1,0) := by
    have blocks := @checkLoop_blocks nand firstBad (k*nand.erasesize) (by omega) k (0+nand.erasesize) (0+nand.erasesize) 1
      aligned (by omega) (by omega) (Nat.le_refl _) good (by omega)
    rw [Nat.sub_self,Nat.zero_add,Nat.add_comm nand.erasesize,total] at blocks
    rw [check_skip_len,checkLoop]
    simp only [block_rest,first]
    rw [if_pos more,if_neg (by omega),(bad_eq nand firstBad (by omega)).1,isBad,Nat.mod_eq_of_lt (by omega),
      Nat.zero_add]
    exact blocks
  have onward : Walk nand.erasesize firstBad k (0 + rest nand.erasesize 0) (k*nand.erasesize) (k*nand.erasesize) := by
    exact walk_blocks k aligned good
  have walk := Walk.skip more isBad onward
  obtain ⟨flash',loop,-⟩ := @writeLoop_walk nand _ _ _ _ _ walk (fun _ => by omega) false (k+2) (by omega) ⟨fun _ => 0xFF,[]⟩
    (List.replicate (k*nand.erasesize) 0) length_replicate
  intro reliable
  have run : nand_write_skip_bad nand firstBad (k+2) ⟨fun _ => 0xFF,[]⟩ 0 (k*nand.erasesize) 0
      (List.replicate (k*nand.erasesize) 0) false = some (0,k*nand.erasesize,0,flash') := by
    rw [nand_write_skip_bad,if_neg (by simp),check]
    simp only [bind_eq_bind,bind_some,loop]
    rfl
  have stored := (reliable 0 flash' rfl (zero_mod _) (by rw [length_replicate]; omega)
    (by rw [length_replicate]; exact run) (fun _ _ _ _ _ => rfl)).2.2.1
  have none := congrArg List.length stored
  rw [places_zero,map_nil,length_nil,length_replicate] at none
  omega

/-- A chip of `2 ^ n` bytes with blocks of `2 ^ k` bytes. -/
def chip (n k : Nat) (page : 2 ≤ k) (block : k < 32) (whole : k ≤ n) : nand_info_t where
  size := 2 ^ n
  erasesize := 2 ^ k
  writesize := 2 ^ 2
  shift := k
  shift_lt := block
  erase_eq := rfl
  pages := pow_dvd_pow 2 page
  blocks := pow_dvd_pow 2 whole

def smallChip : nand_info_t := chip 8 4 (by decide) (by decide) (by decide)

def largeChip : nand_info_t := chip 33 17 (by decide) (by decide) (by decide)

end UBoot.NandSkip
