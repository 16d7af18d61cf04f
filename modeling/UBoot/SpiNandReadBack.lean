import UBoot.SpiNand

/-!
What `sfc_nand_write` stores and `sfc_nand_load` finds. Both walk over the blocks and leave out the
bad ones, but the reader sees the mark of a block only when it reads the first page of it. They meet
if the walk does not begin behind the first page of a bad block (`written_data_reads_back`).
-/
namespace UBoot.SpiNandReadBack
open List Nat Memory SpiNand

variable {p : NandParam} {chip : Chip}

/-! ### Pages -/

/-- The mark of a bad block in the spare area of its first page. -/
def badMark (p : NandParam) (pages : Nat → Nat → UInt8) (block : Nat) : Bool :=
  spinand_bad_block_check (if p.wideBus then 2 else 1) (load (pages (block * CONFIG_SPI_NAND_PPB)) p.pagesize 4)

theorem decode_selectPlane {page column : Nat} (small : p.device_id ∈ planeIds → column < 4096) :
    p.decode (p.selectPlane page column) = (p.plane page,column) := by
  by_cases planes : p.device_id ∈ planeIds
  · have less : column < 2 ^ 12 := small planes
    simp only [NandParam.decode,NandParam.selectPlane,NandParam.plane,planes,if_true]
    rw [Nat.or_comm,← Nat.shiftLeft_add_eq_or_of_lt less]
    simp only [Prod.mk.injEq]
    omega
  · simp only [NandParam.decode,NandParam.selectPlane,NandParam.plane,planes,if_false]

theorem column_small {column : Nat} (inside : column ≤ p.pagesize) : p.device_id ∈ planeIds → column < 4096 :=
  fun planes => lt_of_le_of_lt inside (p.columns planes)

def pageResult (p : NandParam) (chip : Chip) (page : Nat) : Int :=
  if p.eccError (chip.status page) then -1
  else if page % CONFIG_SPI_NAND_PPB = 0 ∧ badMark p chip.pages (page / CONFIG_SPI_NAND_PPB) = true then 1
  else 0

theorem fromCache_readPage {page column len : Nat} (inside : column ≤ p.pagesize) :
    (chip.readPage p page).fromCache p (p.selectPlane page column) len = load (chip.pages page) column len := by
  rw [Chip.fromCache,decode_selectPlane (column_small inside),Chip.readPage]
  simp

theorem spinand_read_page_eq {page column len : Nat} (inside : column ≤ p.pagesize) :
    spinand_read_page p chip page column len =
      (chip.readPage p page,pageResult p chip page,
        if p.eccError (chip.status page) then [] else chip.words (load (chip.pages page) column len)) := by
  have again : (chip.readPage p page).readPage p page = chip.readPage p page := by
    simp [Chip.readPage]
  have status : (chip.readPage p page).status = chip.status := rfl
  have words : ∀ data, (chip.readPage p page).words data = chip.words data := fun _ => rfl
  simp only [spinand_read_page,pageResult,again,status,words,fromCache_readPage inside,
    fromCache_readPage (le_refl p.pagesize)]
  by_cases ecc : p.eccError (chip.status page) = true
  · simp [ecc]
  by_cases first : page % CONFIG_SPI_NAND_PPB = 0
  · have same : page / CONFIG_SPI_NAND_PPB * CONFIG_SPI_NAND_PPB = page :=
      Nat.div_mul_cancel (Nat.dvd_of_mod_eq_zero first)
    simp only [ecc,first,badMark,same,ne_eq,not_true_eq_false,Bool.false_eq_true,if_false,true_and]
    split_ifs <;> rfl
  · simp [ecc,first]

def firstPage (page : Nat) : Nat := page / CONFIG_SPI_NAND_PPB * CONFIG_SPI_NAND_PPB

theorem firstPage_block (page : Nat) : firstPage page / CONFIG_SPI_NAND_PPB = page / CONFIG_SPI_NAND_PPB :=
  Nat.mul_div_cancel _ (by decide)

theorem firstPage_plane (page : Nat) : p.plane (firstPage page) = p.plane page := by
  rw [NandParam.plane,NandParam.plane,show firstPage page / 64 = page / 64 from firstPage_block page]

/-- Whether the writer takes the block of a page. -/
def Writable (p : NandParam) (chip : Chip) (page : Nat) : Prop :=
  p.eccError (chip.status (firstPage page)) = false ∧ badMark p chip.pages (page / CONFIG_SPI_NAND_PPB) = false

instance {page : Nat} : Decidable (Writable p chip page) := inferInstanceAs (Decidable (_ ∧ _))

theorem spinand_write_page_eq (page column : Nat) (data : List UInt8) :
    spinand_write_page p chip page column data =
      if Writable p chip page then
        (((chip.readPage p (firstPage page)).programLoad p column data).programExecute p page,0)
      else (chip.readPage p (firstPage page),1) := by
  have first : firstPage page % CONFIG_SPI_NAND_PPB = 0 := mul_mod_left ..
  simp only [spinand_write_page]
  rw [spinand_read_page_eq (le_refl p.pagesize),← firstPage]
  simp only [pageResult,firstPage_block,first,true_and,Writable]
  by_cases ecc : p.eccError (chip.status (firstPage page)) = true
  · simp [ecc]
  by_cases mark : badMark p chip.pages (page / CONFIG_SPI_NAND_PPB) = true
  · simp [ecc,mark]
  · simp [ecc,mark]

/-- What a programmed page holds. On a chip with planes the data misses the cache of plane 1, which
    still holds the first page of the block. -/
theorem programmed_pages {page column : Nat} (data : List UInt8) (inside : column ≤ p.pagesize) :
    (((chip.readPage p (firstPage page)).programLoad p column data).programExecute p page).pages =
      Function.update chip.pages page fun c => chip.pages page c &&&
        if p.plane page = 0 then store (fun _ => 0xff) column data c else chip.pages (firstPage page) c := by
  have plain : p.decode column = (0,column) := by
    by_cases planes : p.device_id ∈ planeIds
    · have := column_small inside planes
      simp only [NandParam.decode,planes,if_true,Prod.mk.injEq]
      omega
    · simp only [NandParam.decode,planes,if_false]
  simp only [Chip.programExecute,Chip.programLoad,Chip.readPage,plain,firstPage_plane]
  by_cases zero : p.plane page = 0
  · simp [zero]
  · simp [zero]

theorem and_ff (x : UInt8) : x &&& 0xff = x := UInt8.and_neg_one

theorem programmed_marks {page column : Nat} {data : List UInt8} (inside : column + data.length ≤ p.pagesize) (block : Nat) :
    badMark p (((chip.readPage p (firstPage page)).programLoad p column data).programExecute p page).pages block =
      badMark p chip.pages block := by
  have spare : ∀ c, p.pagesize ≤ c →
      (((chip.readPage p (firstPage page)).programLoad p column data).programExecute p page).pages
        (block*CONFIG_SPI_NAND_PPB) c = chip.pages (block*CONFIG_SPI_NAND_PPB) c := by
    intro c behind
    rw [programmed_pages data (by omega)]
    by_cases same : block * CONFIG_SPI_NAND_PPB = page
    · have first : firstPage page = page := by
        rw [← same,firstPage,Nat.mul_div_cancel _ (by decide)]
      rw [same,Function.update_self,first]
      split_ifs
      · rw [store_outside (by omega),and_ff]
      · exact UInt8.and_self
    · rw [Function.update_of_ne same]
  rw [badMark,badMark,load_congr fun c low _ => spare c low]

/-! ### Addresses -/

theorem blocksize_pos : 0 < p.blocksize := mul_pos (by decide) p.pagesize_pos

/-- The bytes from address `a` on that lie in its page, out of `n`. -/
def chunk (p : NandParam) (a n : Nat) : Nat := min (p.pagesize - a % p.pagesize) n

theorem chunk_pos {a n : Nat} (more : 0 < n) : 0 < chunk p a n := by
  have := mod_lt a p.pagesize_pos
  simp only [chunk]
  omega

theorem chunk_le (a n : Nat) : chunk p a n ≤ n := Nat.min_le_right ..

theorem page_block (a : Nat) : a / p.pagesize / CONFIG_SPI_NAND_PPB = a / p.blocksize := by
  rw [Nat.div_div_eq_div_mul,NandParam.blocksize,Nat.mul_comm]

theorem page_index (a : Nat) : a / p.pagesize % CONFIG_SPI_NAND_PPB = a % p.blocksize / p.pagesize := by
  rw [NandParam.blocksize,Nat.mul_comm,Nat.mod_mul_right_div_self]

theorem chunk_in_block (a n : Nat) : a % p.blocksize + chunk p a n ≤ p.blocksize := by
  have column : a % p.blocksize % p.pagesize = a % p.pagesize := Nat.mod_mod_of_dvd a (Dvd.intro_left _ rfl)
  have split := Nat.div_add_mod (a % p.blocksize) p.pagesize
  have page : a % p.blocksize / p.pagesize < CONFIG_SPI_NAND_PPB :=
    Nat.div_lt_of_lt_mul (by rw [Nat.mul_comm]; exact Nat.mod_lt _ blocksize_pos)
  have pages : p.pagesize * (a % p.blocksize / p.pagesize + 1) ≤ p.pagesize * CONFIG_SPI_NAND_PPB :=
    Nat.mul_le_mul_left _ page
  have inside := Nat.mod_lt a p.pagesize_pos
  have bound : chunk p a n ≤ p.pagesize - a % p.pagesize := Nat.min_le_left ..
  rw [Nat.mul_add,Nat.mul_comm p.pagesize CONFIG_SPI_NAND_PPB,← NandParam.blocksize] at pages
  omega

theorem after_chunk (a n : Nat) :
    ((a + chunk p a n) / p.blocksize = a / p.blocksize ∧
        (a + chunk p a n) % p.blocksize = a % p.blocksize + chunk p a n) ∨
      ((a + chunk p a n) / p.blocksize = a / p.blocksize + 1 ∧ (a + chunk p a n) % p.blocksize = 0 ∧
        a % p.blocksize + chunk p a n = p.blocksize) := by
  have inside := @chunk_in_block p a n
  have positive := @blocksize_pos p
  have shape : a + chunk p a n = (a % p.blocksize + chunk p a n) + p.blocksize * (a / p.blocksize) := by
    have := mod_add_div a p.blocksize
    omega
  rcases lt_or_eq_of_le inside with less | full
  · refine .inl ⟨?_,?_⟩
    · rw [shape,Nat.add_mul_div_left _ _ positive,Nat.div_eq_of_lt less,Nat.zero_add]
    · rw [shape,Nat.add_mul_mod_self_left,Nat.mod_eq_of_lt less]
  refine .inr ⟨?_,?_,full⟩
  · rw [shape,full,Nat.add_mul_div_left _ _ positive,Nat.div_self positive,Nat.add_comm]
  · rw [shape,full,Nat.add_mul_mod_self_left,Nat.mod_self]

theorem chunk_same {a n x : Nat} (low : a ≤ x) (high : x < a + chunk p a n) :
    x / p.pagesize = a / p.pagesize ∧ x / p.blocksize = a / p.blocksize ∧
      x % p.blocksize = a % p.blocksize + (x-a) := by
  have inside := @chunk_in_block p a n
  have bound : chunk p a n ≤ p.pagesize - a % p.pagesize := min_le_left ..
  have shape : ∀ size, x = (a % size + (x-a)) + size * (a / size) := by
    intro size
    have := mod_add_div a size
    omega
  refine ⟨?_,?_,?_⟩
  · rw [shape p.pagesize,add_mul_div_left _ _ p.pagesize_pos,div_eq_of_lt (by omega),zero_add]
  · rw [shape p.blocksize,add_mul_div_left _ _ blocksize_pos,div_eq_of_lt (by omega),zero_add]
  · conv_lhs => rw [shape p.blocksize]
    rw [add_mul_mod_self_left,mod_eq_of_lt (by omega)]

/-- The number of good blocks from `b` up to `c`. -/
def goodBlocks (bad : Nat → Bool) (b c : Nat) : Nat := (List.range' b (c - b)).countP fun i => !bad i

theorem goodBlocks_self (bad : Nat → Bool) (b : Nat) : goodBlocks bad b b = 0 := by simp [goodBlocks]

theorem goodBlocks_step {bad : Nat → Bool} {b c : Nat} (less : b < c) :
    goodBlocks bad b c = (if bad b then 0 else 1) + goodBlocks bad (b+1) c := by
  rw [goodBlocks,goodBlocks,show c - b = (c - (b+1)) + 1 by omega,range'_succ,countP_cons,add_comm]
  cases bad b <;> simp

theorem goodBlocks_pos {bad : Nat → Bool} {b c : Nat} (some : 0 < goodBlocks bad b c) : b < c := by
  by_contra none
  rw [goodBlocks,show c - b = 0 by omega] at some
  simp at some

/-- The addresses that `n` bytes from `a` on are written to, if bad blocks are left out: the bytes of
    good blocks, counted from the block of `a` on. -/
def Target (p : NandParam) (bad : Nat → Bool) (a n x : Nat) : Prop :=
  a / p.blocksize ≤ x / p.blocksize ∧ bad (x / p.blocksize) = false ∧
    a % p.blocksize ≤ p.blocksize * goodBlocks bad (a / p.blocksize) (x / p.blocksize) + x % p.blocksize ∧
    p.blocksize * goodBlocks bad (a / p.blocksize) (x / p.blocksize) + x % p.blocksize < a % p.blocksize + n

section
variable {bad : Nat → Bool} {a n x : Nat}

theorem Target.le (target : Target p bad a n x) : a ≤ x := by
  obtain ⟨order,-,low,-⟩ := target
  rcases lt_or_eq_of_le order with before | same
  · exact (lt_of_div_lt_div before).le
  rw [← same,goodBlocks_self] at low
  have first := div_add_mod a p.blocksize
  have second := div_add_mod x p.blocksize
  rw [← same] at second
  omega

theorem Target.of_skip (skipped : bad (a / p.blocksize) = true) (target : Target p bad (a+p.blocksize) n x) :
    Target p bad a n x := by
  obtain ⟨order,good,low,high⟩ := target
  rw [add_div_right _ blocksize_pos] at order low high
  rw [add_mod_right] at low high
  have count := @goodBlocks_step bad _ _ order
  rw [if_pos skipped,zero_add] at count
  refine ⟨by omega,good,?_,?_⟩
  · rw [count]
    exact low
  · rw [count]
    exact high

theorem Target.of_chunk (good : bad (a / p.blocksize) = false) (low : a ≤ x) (high : x < a + chunk p a n) :
    Target p bad a n x := by
  obtain ⟨-,block,offset⟩ := chunk_same low high
  have := @chunk_le p a n
  refine ⟨by rw [block],by rwa [block],?_,?_⟩
  · omega
  · rw [block,goodBlocks_self]
    omega

theorem Target.of_rest (good : bad (a / p.blocksize) = false)
    (target : Target p bad (a + chunk p a n) (n - chunk p a n) x) : Target p bad a n x := by
  obtain ⟨order,fine,low,high⟩ := target
  rcases @after_chunk p a n with ⟨block,offset⟩ | ⟨block,offset,full⟩
  · rw [block] at low high
    rw [block] at order
    exact ⟨order,fine,by omega,by omega⟩
  rw [block] at low high
  rw [block] at order
  have count := @goodBlocks_step bad _ _ order
  rw [good] at count
  refine ⟨by omega,fine,?_,?_⟩ <;> rw [count,mul_add] <;> simp only [Bool.false_eq_true,if_false,mul_one] <;> omega
end

/-! ### The writer -/

/-- The chip after the chunk at `a` is programmed. -/
def written (p : NandParam) (chip : Chip) (a : Nat) (data : List UInt8) : Chip :=
  ((chip.readPage p (firstPage (a / p.pagesize))).programLoad p (a % p.pagesize)
    (data.take (chunk p a data.length))).programExecute p (a / p.pagesize)

theorem chunk_fits (a : Nat) (data : List UInt8) :
    a % p.pagesize + (data.take (chunk p a data.length)).length ≤ p.pagesize := by
  have := mod_lt a p.pagesize_pos
  simp only [length_take,chunk]
  omega

theorem sfc_nand_write_succ {fuel : Nat} {addr : BitVec 32} {data : List UInt8} (more : data ≠ []) :
    sfc_nand_write p (fuel+1) chip addr data =
      if Writable p chip (addr.toNat / p.pagesize) then
        sfc_nand_write p fuel (written p chip addr.toNat data) (addr + BitVec.ofNat 32 (chunk p addr.toNat data.length))
          (data.drop (chunk p addr.toNat data.length))
      else sfc_nand_write p fuel (chip.readPage p (firstPage (addr.toNat / p.pagesize)))
        (addr + BitVec.ofNat 32 p.blocksize) data := by
  rw [sfc_nand_write]
  case x_4 => exact more
  simp only [spinand_write_page_eq]
  by_cases writable : Writable p chip (addr.toNat / p.pagesize)
  · rw [if_pos writable,if_pos writable]
    exact if_neg (show ¬ (0 : Int) > 0 by decide)
  · rw [if_neg writable,if_neg writable]
    exact if_pos (show (1 : Int) > 0 by decide)

/-- Only pages of good blocks are programmed, and only programmed pages change. -/
theorem sfc_nand_write_programs {fuel : Nat} {addr : BitVec 32} {data : List UInt8} {chip chip' : Chip}
    (done : sfc_nand_write p fuel chip addr data = some chip') :
    ∃ new, chip'.programmed = chip.programmed ++ new ∧
      (∀ page ∈ new, badMark p chip.pages (page / CONFIG_SPI_NAND_PPB) = false) ∧
      (∀ page, page ∉ new → chip'.pages page = chip.pages page) ∧ chip'.status = chip.status := by
  induction fuel generalizing chip addr data with
  | zero =>
    cases data with
    | nil =>
      cases done
      exact ⟨[],by simp,by simp,fun _ _ => rfl,rfl⟩
    | cons c rest => simp [sfc_nand_write] at done
  | succ fuel ih =>
    by_cases empty : data = []
    · subst empty
      cases done
      exact ⟨[],by simp,by simp,fun _ _ => rfl,rfl⟩
    rw [sfc_nand_write_succ empty] at done
    split_ifs at done with writable
    · obtain ⟨new,log,good,kept,status⟩ := ih done
      refine ⟨addr.toNat / p.pagesize :: new,?_,?_,?_,status⟩
      · rw [log]
        show (chip.programmed ++ [_]) ++ new = _
        simp
      · intro page member
        rcases mem_cons.mp member with rfl | member
        · exact writable.2
        · rw [← good page member]
          exact (programmed_marks (chunk_fits ..) _).symm
      intro page absent
      simp only [mem_cons,not_or] at absent
      rw [kept page absent.2,written,programmed_pages _ (mod_lt _ p.pagesize_pos).le,
        Function.update_of_ne absent.1]
    · obtain ⟨new,log,good,kept,status⟩ := ih done
      exact ⟨new,log,good,kept,status⟩

/-- The data stands in the pages from address `a` on, with bad blocks left out. -/
inductive Stored (p : NandParam) (pages : Nat → Nat → UInt8) : Nat → List UInt8 → Prop
  | nil {a : Nat} : Stored p pages a []
  | skip {a : Nat} {data : List UInt8} : a < 2 ^ 32 → data ≠ [] → badMark p pages (a / p.blocksize) = true →
      Stored p pages (a + p.blocksize) data → Stored p pages a data
  | page {a : Nat} {data : List UInt8} : a < 2 ^ 32 → data ≠ [] → badMark p pages (a / p.blocksize) = false →
      load (pages (a / p.pagesize)) (a % p.pagesize) (chunk p a data.length) = data.take (chunk p a data.length) →
      Stored p pages (a + chunk p a data.length) (data.drop (chunk p a data.length)) → Stored p pages a data

section
variable {a : Nat} {data : List UInt8}

theorem written_page (plane : p.plane (a / p.pagesize) = 0) (c : Nat) :
    (written p chip a data).pages (a / p.pagesize) c = chip.pages (a / p.pagesize) c &&&
      store (fun _ => 0xff) (a % p.pagesize) (data.take (chunk p a data.length)) c := by
  rw [written,programmed_pages _ (mod_lt _ p.pagesize_pos).le,Function.update_self,if_pos plane]

theorem written_chunk (plane : p.plane (a / p.pagesize) = 0)
    (erased : ∀ x, a ≤ x → x < a + chunk p a data.length → chip.pages (x / p.pagesize) (x % p.pagesize) = 0xff) :
    load ((written p chip a data).pages (a / p.pagesize)) (a % p.pagesize) (chunk p a data.length) =
      data.take (chunk p a data.length) := by
  have size : (data.take (chunk p a data.length)).length = chunk p a data.length := by
    rw [length_take,min_eq_left (chunk_le ..)]
  apply ext_getElem
  · rw [load_length,size]
  intro i inside inTake
  have same := (@chunk_same p a data.length (a+i) (by omega) (by omega)).1
  have column : (a+i) % p.pagesize = a % p.pagesize + i := by
    have whole := div_add_mod a p.pagesize
    have part := div_add_mod (a+i) p.pagesize
    rw [same] at part
    omega
  have clear := erased (a+i) (by omega) (by omega)
  rw [same,column] at clear
  rw [load_getElem,written_page plane,clear,store_inside inTake,UInt8.and_comm,and_ff]

theorem written_other (plane : p.plane (a / p.pagesize) = 0) {page c : Nat}
    (apart : page * p.pagesize + c < a ∨ a + chunk p a data.length ≤ page * p.pagesize + c ∨ p.pagesize ≤ c) :
    (written p chip a data).pages page c = chip.pages page c := by
  by_cases same : page = a / p.pagesize
  · subst same
    have whole := div_add_mod a p.pagesize
    rw [mul_comm] at whole
    have fits := @chunk_fits p a data
    have size : (data.take (chunk p a data.length)).length = chunk p a data.length := by
      rw [length_take,min_eq_left (chunk_le ..)]
    rw [written_page plane,store_outside (by omega),and_ff]
  · rw [written,programmed_pages _ (mod_lt _ p.pagesize_pos).le,Function.update_of_ne same]

theorem written_marks (block : Nat) : badMark p (written p chip a data).pages block = badMark p chip.pages block :=
  programmed_marks (chunk_fits ..) block

/-- What the writer needs in front of it: no uncorrectable errors, room in good blocks, and its target
    erased and in plane 0. -/
structure Ready (p : NandParam) (chip : Chip) (blocks a n : Nat) : Prop where
  ecc : ∀ page, p.eccError (chip.status page) = false
  size : blocks * p.blocksize ≤ 2 ^ 32
  room : a % p.blocksize + n ≤ p.blocksize * goodBlocks (badMark p chip.pages) (a / p.blocksize) blocks
  erased : ∀ x, Target p (badMark p chip.pages) a n x → chip.pages (x / p.pagesize) (x % p.pagesize) = 0xff
  plane : ∀ x, Target p (badMark p chip.pages) a n x → p.plane (x / p.pagesize) = 0

theorem Ready.below {blocks n : Nat} (ready : Ready p chip blocks a n) (more : 0 < n) : a < blocks * p.blocksize := by
  have some : 0 < goodBlocks (badMark p chip.pages) (a / p.blocksize) blocks := by
    have room := ready.room
    by_contra none
    rw [Nat.eq_zero_of_not_pos none] at room
    omega
  exact (Nat.div_lt_iff_lt_mul blocksize_pos).mp (goodBlocks_pos some)

theorem Ready.skip {blocks n : Nat} (ready : Ready p chip blocks a n) (more : 0 < n)
    (bad : badMark p chip.pages (a / p.blocksize) = true) (page : Nat) :
    Ready p (chip.readPage p page) blocks (a+p.blocksize) n := by
  have block : a / p.blocksize < blocks := (div_lt_iff_lt_mul blocksize_pos).mpr (ready.below more)
  have count := @goodBlocks_step (badMark p chip.pages) _ _ block
  have room := ready.room
  rw [count,if_pos bad,zero_add] at room
  refine ⟨ready.ecc,ready.size,?_,fun x target => ready.erased x (.of_skip bad target),
    fun x target => ready.plane x (.of_skip bad target)⟩
  rw [add_mod_right,add_div_right _ blocksize_pos]
  exact room

theorem Ready.page {blocks : Nat} (ready : Ready p chip blocks a data.length) (more : 0 < data.length)
    (good : badMark p chip.pages (a / p.blocksize) = false) :
    Ready p (written p chip a data) blocks (a + chunk p a data.length) (data.drop (chunk p a data.length)).length := by
  have marks : badMark p (written p chip a data).pages = badMark p chip.pages := funext written_marks
  have block : a / p.blocksize < blocks := (div_lt_iff_lt_mul blocksize_pos).mpr (ready.below more)
  have count := @goodBlocks_step (badMark p chip.pages) _ _ block
  have small := @chunk_le p a data.length
  have room := ready.room
  have plane := ready.plane a (.of_chunk good le_rfl (by have := @chunk_pos p a _ more; omega))
  rw [length_drop]
  refine ⟨ready.ecc,ready.size,?_,?_,?_⟩
  · rw [marks]
    rcases @after_chunk p a data.length with ⟨same,offset⟩ | ⟨next,offset,full⟩
    · rw [same]
      omega
    rw [count,good] at room
    rw [next]
    simp only [Bool.false_eq_true,if_false,mul_add,mul_one] at room
    omega
  · intro x target
    rw [marks] at target
    rw [written_other plane (.inr (.inl (by rw [div_add_mod']; exact target.le)))]
    exact ready.erased x (.of_rest good target)
  intro x target
  rw [marks] at target
  exact ready.plane x (.of_rest good target)

/-- Enough fuel lets the writer store the data, and it changes nothing in front of its start. -/
theorem sfc_nand_write_stores {blocks : Nat} (ready : Ready p chip blocks a data.length) :
    ∃ fuel chip', sfc_nand_write p fuel chip (BitVec.ofNat 32 a) data = some chip' ∧ Stored p chip'.pages a data ∧
      badMark p chip'.pages = badMark p chip.pages ∧ chip'.status = chip.status ∧
      ∀ page c, c < p.pagesize → page * p.pagesize + c < a → chip'.pages page c = chip.pages page c := by
  -- every pass moves towards the end of the chip
  induction left : blocks * p.blocksize - a using Nat.strong_induction_on generalizing a data chip with
  | _ left ih =>
    by_cases empty : data = []
    · subst empty
      exact ⟨0,chip,by rw [sfc_nand_write],.nil,rfl,rfl,fun _ _ _ _ => rfl⟩
    have more : 0 < data.length := length_pos_of_ne_nil empty
    have below := ready.below more
    have small : a < 2 ^ 32 := lt_of_lt_of_le below ready.size
    have address : (BitVec.ofNat 32 a).toNat = a := by
      rw [BitVec.toNat_ofNat,mod_eq_of_lt small]
    have step := fun fuel => @sfc_nand_write_succ p chip fuel (BitVec.ofNat 32 a) data empty
    simp only [address,← BitVec.ofNat_add] at step
    by_cases bad : badMark p chip.pages (a / p.blocksize) = true
    · have skipped : ¬ Writable p chip (a / p.pagesize) := by
        simp [Writable,page_block,bad]
      obtain ⟨fuel,chip',done,stored,marks,status,kept⟩ :=
        ih _ (by have := @blocksize_pos p; omega) (ready.skip more bad (firstPage (a / p.pagesize))) rfl
      refine ⟨fuel+1,chip',?_,.skip small empty ?_ stored,marks,status,?_⟩
      · rw [step,if_neg skipped,done]
      · rw [marks]
        exact bad
      · exact fun page c inside front => kept page c inside (by omega)
    have good : badMark p chip.pages (a / p.blocksize) = false := by simpa using bad
    have taken : Writable p chip (a / p.pagesize) := ⟨ready.ecc _,by rwa [page_block]⟩
    have positive := @chunk_pos p a _ more
    obtain ⟨fuel,chip',done,stored,marks,status,kept⟩ := ih _ (by omega) (ready.page more good) rfl
    have plane := ready.plane a (.of_chunk good le_rfl (by omega))
    refine ⟨fuel+1,chip',?_,.page small empty ?_ ?_ stored,?_,status,?_⟩
    · rw [step,if_pos taken,done]
    · rw [marks,written_marks]
      exact good
    · rw [← written_chunk plane fun x low high => ready.erased x (.of_chunk good low high)]
      apply load_congr
      intro c low high
      have whole := div_add_mod' a p.pagesize
      have bound : chunk p a data.length ≤ p.pagesize - a % p.pagesize := min_le_left ..
      exact kept _ c (by omega) (by omega)
    · rw [marks]
      exact funext written_marks
    · intro page c inside front
      rw [kept page c inside (by omega),written_other plane (.inl front)]
end

/-! ### The reader -/

section
variable {fuel count buf : Nat} {mem : Nat → UInt8} {addr : BitVec 32} {retry : Int}

/-- What a pass of the reader stores. -/
def fetched (p : NandParam) (chip : Chip) (a n : Nat) : List UInt8 :=
  if p.eccError (chip.status (a / p.pagesize)) then []
  else chip.words (load (chip.pages (a / p.pagesize)) (a % p.pagesize) (chunk p a n))

theorem fetched_first {a n : Nat} (ecc : p.eccError (chip.status (a / p.pagesize)) = false) (more : 0 < n) :
    store mem buf (fetched p chip a n) buf = chip.pages (a / p.pagesize) (a % p.pagesize) := by
  have positive := @chunk_pos p a n more
  have inside : 0 < (fetched p chip a n).length := by
    simp only [fetched,ecc,Chip.words,Bool.false_eq_true,if_false,length_append,load_length]
    omega
  have stored := @store_inside mem buf _ 0 inside
  rw [add_zero] at stored
  rw [stored]
  simp only [fetched,ecc,Chip.words,Bool.false_eq_true,if_false]
  rw [getElem_append_left (by simpa using positive),load_getElem,add_zero]

theorem loadLoop_succ (more : count ≠ 0) :
    loadLoop p (fuel+1) chip mem addr count buf retry =
      let page := addr.toNat / p.pagesize
      let next := chip.readPage p page
      let mem' := store mem buf (fetched p chip addr.toNat count)
      match pass (pageResult p chip page) retry with
      | .bad => loadLoop p fuel next mem' (addr + BitVec.ofNat 32 p.blocksize) count buf retry
      | .retry left => loadLoop p fuel next mem' addr count buf left
      | .failed => loadLoop p fuel next mem' (addr + BitVec.ofNat 32 p.blocksize) count buf 5
      | .done => loadLoop p fuel next mem' (addr + BitVec.ofNat 32 (chunk p addr.toNat count))
          (count - chunk p addr.toNat count) (buf + chunk p addr.toNat count) 5 := by
  rw [loadLoop]
  case x_7 => exact more
  simp only [spinand_read_page_eq (mod_lt _ p.pagesize_pos).le]
  rfl

theorem loadLoop_front {chip' : Chip} {mem' : Nat → UInt8}
    (done : loadLoop p fuel chip mem addr count buf retry = some (chip',mem')) {x : Nat} (front : x < buf) :
    mem' x = mem x := by
  induction fuel generalizing chip mem addr count buf retry with
  | zero =>
    cases count with
    | zero =>
      cases done
      rfl
    | succ n => simp [loadLoop] at done
  | succ fuel ih =>
    by_cases empty : count = 0
    · subst empty
      cases done
      rfl
    rw [loadLoop_succ empty] at done
    have kept : store mem buf (fetched p chip addr.toNat count) x = mem x := store_outside (.inl front)
    simp only at done
    generalize pass (pageResult p chip (addr.toNat / p.pagesize)) retry = result at done
    cases result with
    | bad => exact (ih done front).trans kept
    | retry left => exact (ih done front).trans kept
    | failed => exact (ih done front).trans kept
    | done => exact (ih done (by omega)).trans kept

theorem pageResult_good {page : Nat} (ecc : p.eccError (chip.status page) = false) :
    pageResult p chip page = if page % CONFIG_SPI_NAND_PPB = 0 ∧
      badMark p chip.pages (page / CONFIG_SPI_NAND_PPB) = true then 1 else 0 := by
  rw [pageResult,ecc]
  rfl

theorem pass_bad (retry : Int) : pass 1 retry = .bad := rfl
theorem pass_done : pass 0 5 = .done := rfl

theorem first_after_chunk {bad : Nat → Bool} {a n : Nat} (good : bad (a / p.blocksize) = false)
    (marked : bad ((a + chunk p a n) / p.blocksize) = true) :
    (a + chunk p a n) / p.pagesize % CONFIG_SPI_NAND_PPB = 0 := by
  rcases @after_chunk p a n with ⟨same,-⟩ | ⟨-,start,-⟩
  · rw [same,good] at marked
    cases marked
  · rw [page_index,start,Nat.zero_div]

theorem loadLoop_stored {pages : Nat → Nat → UInt8} {a : Nat} {data : List UInt8} (stored : Stored p pages a data)
    (sees : badMark p pages (a / p.blocksize) = true → a / p.pagesize % CONFIG_SPI_NAND_PPB = 0) :
    ∃ fuel, ∀ chip mem buf, chip.pages = pages → (∀ page, p.eccError (chip.status page) = false) →
      ∃ chip' mem', loadLoop p fuel chip mem (BitVec.ofNat 32 a) data.length buf 5 = some (chip',mem') ∧
        load mem' buf data.length = data := by
  induction stored with
  | nil => exact ⟨0,fun chip mem buf _ _ => ⟨chip,mem,by simp [loadLoop],by simp [load]⟩⟩
  | @skip a data small some bad _ ih =>
    have first := sees bad
    obtain ⟨fuel,reads⟩ := ih fun _ => by
      rw [page_index,add_mod_right,← page_index]
      exact first
    refine ⟨fuel+1,fun chip mem buf same ecc => ?_⟩
    have address : (BitVec.ofNat 32 a).toNat = a := by rw [BitVec.toNat_ofNat,mod_eq_of_lt small]
    have marked : pageResult p chip (a / p.pagesize) = 1 := by
      rw [pageResult_good (ecc _),same,page_block]
      exact if_pos ⟨first,bad⟩
    rw [loadLoop_succ (by simpa using some)]
    simp only [address,marked,pass_bad,← BitVec.ofNat_add]
    exact reads _ _ _ same ecc
  | @page a data small some good chunkStored _ ih =>
    obtain ⟨fuel,reads⟩ := ih (first_after_chunk good)
    refine ⟨fuel+1,fun chip mem buf same ecc => ?_⟩
    have address : (BitVec.ofNat 32 a).toNat = a := by rw [BitVec.toNat_ofNat,mod_eq_of_lt small]
    have fine : pageResult p chip (a / p.pagesize) = 0 := by
      rw [pageResult_good (ecc _),same,page_block,good]
      simp
    rw [loadLoop_succ (by simpa using some)]
    simp only [address,fine,pass_done,← BitVec.ofNat_add,← length_drop]
    obtain ⟨chip',mem',done,rest⟩ := reads (chip.readPage p (a / p.pagesize))
      (store mem buf (fetched p chip a data.length)) (buf + chunk p a data.length) same ecc
    refine ⟨chip',mem',done,?_⟩
    have front : load mem' buf (chunk p a data.length) = data.take (chunk p a data.length) := by
      have kept : load mem' buf (chunk p a data.length) =
          load (store mem buf (fetched p chip a data.length)) buf (chunk p a data.length) :=
        load_congr fun x _ high => loadLoop_front done high
      rw [kept,fetched,ecc,← chunkStored,← same,Chip.words,load_store_start]
      simp
    have split : data.length = chunk p a data.length + (data.drop (chunk p a data.length)).length := by
      have := @chunk_le p a data.length
      simp
      omega
    rw [split,load_add,front,rest,take_append_drop]

end

/-! ### Reading back -/

/-- The data is written, and a load of as many bytes from the same address gives it back. -/
def ReadsBack (p : NandParam) (chip : Chip) (addr : BitVec 32) (data : List UInt8) : Prop :=
  ∃ fuel chip', sfc_nand_write p fuel chip addr data = some chip' ∧ ∀ mem dst, ∃ fuel' chip'' mem',
    sfc_nand_load p fuel' chip' mem addr data.length dst = some (chip'',mem') ∧ load mem' dst data.length = data

section
variable {blocks : Nat} {addr : BitVec 32} {data : List UInt8}

/-- The mark of the block is read at the start of the walk, if there is one. -/
def MarkSeen (p : NandParam) (pages : Nat → Nat → UInt8) (addr : BitVec 32) : Prop :=
  badMark p pages (addr.toNat / p.blocksize) = false ∨ addr.toNat / p.pagesize % CONFIG_SPI_NAND_PPB = 0

theorem readsBack_of_seen (ready : Ready p chip blocks addr.toNat data.length) (seen : MarkSeen p chip.pages addr) :
    ReadsBack p chip addr data := by
  obtain ⟨fuel,chip',done,stored,marks,status,-⟩ := sfc_nand_write_stores ready
  have sees : badMark p chip'.pages (addr.toNat / p.blocksize) = true →
      addr.toNat / p.pagesize % CONFIG_SPI_NAND_PPB = 0 := by
    intro bad
    rw [marks] at bad
    exact seen.resolve_left (by simp [bad])
  obtain ⟨fuel',reads⟩ := loadLoop_stored stored sees
  rw [BitVec.ofNat_toNat] at done
  refine ⟨fuel,chip',done,fun mem dst => ?_⟩
  obtain ⟨chip'',mem',loaded,same⟩ := reads chip' mem dst rfl (by rw [status]; exact ready.ecc)
  rw [BitVec.ofNat_toNat] at loaded
  exact ⟨fuel',chip'',mem',loaded,same⟩

/-- A walk that begins behind the first page of a bad block reads what stands there. -/
theorem not_readsBack_of_unseen {d : UInt8} (ecc : ∀ page, p.eccError (chip.status page) = false)
    (unseen : ¬ MarkSeen p chip.pages addr)
    (differs : chip.pages (addr.toNat / p.pagesize) (addr.toNat % p.pagesize) ≠ d) :
    ¬ ReadsBack p chip addr (d :: data) := by
  rintro ⟨fuel,chip',done,loads⟩
  simp only [MarkSeen,not_or,Bool.not_eq_false] at unseen
  obtain ⟨bad,behind⟩ := unseen
  obtain ⟨new,-,good,others,status⟩ := sfc_nand_write_programs done
  have kept : chip'.pages (addr.toNat / p.pagesize) = chip.pages (addr.toNat / p.pagesize) := by
    refine others _ fun member => ?_
    have := good _ member
    rw [page_block,bad] at this
    cases this
  obtain ⟨fuel',chip'',mem',loaded,same⟩ := loads (fun _ => 0) 0
  cases fuel' with
  | zero => simp [sfc_nand_load,loadLoop] at loaded
  | succ fuel' =>
    have fine : pageResult p chip' (addr.toNat / p.pagesize) = 0 := by
      rw [pageResult_good (by rw [status]; exact ecc _),if_neg fun both => behind both.1]
    rw [sfc_nand_load,loadLoop_succ (by simp)] at loaded
    simp only [fine,pass_done] at loaded
    have positive := @chunk_pos p addr.toNat (d :: data).length (by simp)
    have front := loadLoop_front loaded (show 0 < 0 + chunk p addr.toNat (d :: data).length by omega)
    have head : mem' 0 = d := by
      have first := congrArg (fun l => l[0]?) same
      simpa [load] using first
    rw [front,fetched_first (by rw [status]; exact ecc _) (by simp),kept] at head
    exact differs head
/-- Every data is read back exactly if the first page that is read shows whether its block is bad.
    On chips with planes the target has to be in plane 0. Pages of bad blocks are never programmed. -/
theorem written_data_reads_back {len : Nat} (ready : Ready p chip blocks addr.toNat len) :
    ((∀ data, data.length = len → ReadsBack p chip addr data) ↔ len = 0 ∨ MarkSeen p chip.pages addr) ∧
      ∀ fuel data chip', sfc_nand_write p fuel chip addr data = some chip' →
        ∃ new, chip'.programmed = chip.programmed ++ new ∧
          ∀ page ∈ new, badMark p chip.pages (page / CONFIG_SPI_NAND_PPB) = false := by
  refine ⟨⟨?_,?_⟩,?_⟩
  · intro reads
    by_contra neither
    obtain ⟨some,unseen⟩ := not_or.mp neither
    obtain ⟨n,rfl⟩ := exists_eq_succ_of_ne_zero some
    have other : ∀ c : UInt8, c ≠ c + 1 := fun c same => by simp at same
    exact not_readsBack_of_unseen ready.ecc unseen (other _)
      (reads (_ :: List.replicate n 0) (by simp))
  · rintro (rfl | seen) data length
    · cases length_eq_zero_iff.mp length
      exact ⟨0,chip,by rw [sfc_nand_write],fun mem dst => ⟨0,chip,mem,by simp [sfc_nand_load,loadLoop],by simp [load]⟩⟩
    · exact readsBack_of_seen (length ▸ ready) seen
  intro fuel data chip' done
  obtain ⟨new,log,good,-⟩ := sfc_nand_write_programs done
  exact ⟨new,log,good⟩
end

def smallPages : NandParam where
  device_id := 0x12
  pagesize := 2048
  ecc_bit := 4
  bit_counts := 2
  eccerrstatus := [2]
  wideBus := false
  pagesize_pos := Nat.two_pow_pos 11
  columns := by decide

def oneBadBlock : Chip where
  pages page c := if page = 64 ∧ c = 2048 then 0 else 0xff
  status _ := 0
  cache _ _ := 0xff
  programmed := []
  padding _ := 0

theorem oneBadBlock_ecc (page : Nat) : smallPages.eccError (oneBadBlock.status page) = false :=
  show smallPages.eccError 0 = false by decide

theorem oneBadBlock_ready {a n : Nat} (room : a % smallPages.blocksize + n ≤
    smallPages.blocksize * goodBlocks (badMark smallPages oneBadBlock.pages) (a / smallPages.blocksize) 4) :
    Ready smallPages oneBadBlock 4 a n where
  ecc := oneBadBlock_ecc
  size := by decide
  room := room
  erased x _ := by
    have column : x % smallPages.pagesize ≠ 2048 := (mod_lt x (by decide : 0 < 2048)).ne
    simp [oneBadBlock,column]
  plane _ _ := rfl

/-- Three bytes for the bad block go to the next one, and come back from there. -/
theorem bad_block_stepped_over : ReadsBack smallPages oneBadBlock 0x20000 [1,2,3] := by
  have ready : Ready smallPages oneBadBlock 4 (0x20000 : BitVec 32).toNat 3 := oneBadBlock_ready (by decide +kernel)
  exact (written_data_reads_back ready).1.mpr (.inr (.inr (by decide))) [1,2,3] rfl

/-- From the second page of the bad block on, the writer steps over the block and the reader does not. -/
theorem second_page_of_bad_block :
    Ready smallPages oneBadBlock 4 (0x20800 : BitVec 32).toNat 1 ∧ ¬ ReadsBack smallPages oneBadBlock 0x20800 [1] := by
  refine ⟨oneBadBlock_ready (by decide +kernel),not_readsBack_of_unseen oneBadBlock_ecc ?_ (by decide +kernel)⟩
  rintro (good | first)
  · revert good
    decide +kernel
  · revert first
    decide

end UBoot.SpiNandReadBack
