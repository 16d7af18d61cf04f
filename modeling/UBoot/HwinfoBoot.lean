import UBoot.Hwinfo
import UBoot.SpiNandReadBack

/-!
What `hwinfo_init` leaves in memory. If both regions have a block whose check gives 0, the two copies
are loaded from the first such blocks, and the newest one with a right checksum is kept
(`newest_copy_recovered`). A region without such a block is loaded from its first block all the same.
-/
namespace UBoot.HwinfoBoot
open List Nat CNumbers Memory SpiNand SpiNandReadBack Hwinfo

variable {chip' : Chip} {fuel' count : Nat} {tail : List UInt8} {retry : Int} {st : State}

variable {p : NandParam} {chip : Chip} {mem : Nat → UInt8} {fuel q k buf : Nat}

/-! ### Whole pages -/

/-- Reading leaves the array and the status of the pages as they are. -/
def SameFlash (chip chip' : Chip) : Prop := chip'.pages = chip.pages ∧ chip'.status = chip.status

theorem SameFlash.pageResult (same : SameFlash chip chip') (page : Nat) :
    pageResult p chip' page = pageResult p chip page := by
  simp only [SpiNandReadBack.pageResult,same.1,same.2]

/-- The bytes of `k` pages from page `q` on. -/
def pagesBytes (p : NandParam) (chip : Chip) (q k : Nat) : List UInt8 :=
  (List.range k).flatMap fun i => load (chip.pages (q + i)) 0 p.pagesize

theorem pagesBytes_length (p : NandParam) (chip : Chip) (q k : Nat) : (pagesBytes p chip q k).length = k * p.pagesize := by
  simp [pagesBytes]

theorem pagesBytes_succ : pagesBytes p chip q (k+1) = load (chip.pages q) 0 p.pagesize ++ pagesBytes p chip (q+1) k := by
  simp only [pagesBytes,range_succ_eq_map,flatMap_cons,add_zero,flatMap_map]
  congr 2
  funext i
  rw [add_right_comm,add_assoc]

theorem pageResult_zero {page : Nat} (good : pageResult p chip page = 0) : p.eccError (chip.status page) = false := by
  by_contra ecc
  rw [pageResult,if_pos (by simpa using ecc)] at good
  cases good

theorem fetched_page {n : Nat} (whole : p.pagesize % 4 = 0) (good : pageResult p chip q = 0) (enough : p.pagesize ≤ n) :
    fetched p chip (q*p.pagesize) n = load (chip.pages q) 0 p.pagesize ∧ chunk p (q*p.pagesize) n = p.pagesize := by
  have size : chunk p (q*p.pagesize) n = p.pagesize := by
    rw [chunk,Nat.mul_mod_left]
    omega
  rw [fetched,Nat.mul_div_cancel _ p.pagesize_pos,pageResult_zero good,size,Chip.words,load_length,whole]
  simp [load]

theorem page_address (small : (q + (k+1)) * p.pagesize ≤ 2 ^ 32) :
    (BitVec.ofNat 32 (q*p.pagesize)).toNat = q * p.pagesize := by
  rw [BitVec.toNat_ofNat,Nat.mod_eq_of_lt]
  refine lt_of_lt_of_le ?_ small
  exact (Nat.mul_lt_mul_right p.pagesize_pos).mpr (by omega)

theorem pages_succ : (∀ i < k + 1, pageResult p chip (q+i) = 0) ↔
    pageResult p chip q = 0 ∧ ∀ i < k, pageResult p chip (q + 1 + i) = 0 := by
  simp only [Nat.forall_lt_succ_left,Nat.add_zero,Nat.add_assoc,Nat.add_comm 1]

theorem loadLoop_pages (whole : p.pagesize % 4 = 0) (small : (q+k) * p.pagesize ≤ 2 ^ 32)
    (good : ∀ i < k, pageResult p chip (q+i) = 0) (enough : k ≤ fuel) :
    ∃ chip', loadLoop p fuel chip mem (BitVec.ofNat 32 (q*p.pagesize)) (k*p.pagesize) buf 5 =
      some (chip',store mem buf (pagesBytes p chip q k)) ∧ SameFlash chip chip' := by
  induction k generalizing fuel q chip mem buf with
  | zero =>
    refine ⟨chip,?_,rfl,rfl⟩
    have empty : store mem buf (pagesBytes p chip q 0) = mem := by
      funext x
      exact store_outside (by simp [pagesBytes]; omega)
    rw [Nat.zero_mul,empty]
    cases fuel <;> rw [loadLoop]
  | succ k ih =>
    obtain ⟨fuel,rfl⟩ := Nat.exists_eq_add_of_le' (show 1 ≤ fuel by omega)
    have positive := p.pagesize_pos
    obtain ⟨first,rest⟩ := pages_succ.mp good
    have expand : (k+1) * p.pagesize = k * p.pagesize + p.pagesize := Nat.succ_mul ..
    have address := page_address small
    obtain ⟨data,size⟩ := @fetched_page p chip q ((k+1) * p.pagesize) whole first (by omega)
    rw [loadLoop_succ (by omega)]
    simp only [address,Nat.mul_div_cancel _ positive,first,pass_done,data,size,← BitVec.ofNat_add,← Nat.succ_mul]
    have same : SameFlash chip (chip.readPage p q) := ⟨rfl,rfl⟩
    obtain ⟨chip',done,later⟩ := @ih (chip.readPage p q) (store mem buf (load (chip.pages q) 0 p.pagesize)) fuel
      (q+1) (buf+p.pagesize) (by rw [show q + 1 + k = q + (k+1) by omega]; exact small)
      (fun i less => (same.pageResult _).trans (rest i less)) (by omega)
    refine ⟨chip',?_,later⟩
    rw [show (k+1) * p.pagesize - p.pagesize = k * p.pagesize by omega,done,pagesBytes_succ]
    have join := @store_append mem buf (load (chip.pages q) 0 p.pagesize) (pagesBytes p chip (q+1) k)
    rw [load_length] at join
    rw [← join]
    rfl

/-! ### Checking a block -/

theorem checkLoop_succ {addr : BitVec 32} (more : count ≠ 0) :
    checkLoop p (fuel+1) chip mem addr count buf retry =
      let page := addr.toNat / p.pagesize
      let next := chip.readPage p page
      let mem' := store mem buf (fetched p chip addr.toNat count)
      match pass (pageResult p chip page) retry with
      | .bad => some (next,mem',1)
      | .retry left => checkLoop p fuel next mem' addr count buf left
      | .failed => some (next,mem',2)
      | .done => checkLoop p fuel next mem' (addr + BitVec.ofNat 32 (chunk p addr.toNat count))
          (count - chunk p addr.toNat count) (buf + chunk p addr.toNat count) 5 := by
  rw [checkLoop]
  case x_7 => exact more
  simp only [spinand_read_page_eq (mod_lt _ p.pagesize_pos).le]
  rfl

theorem checkLoop_ecc {count tries : Nat} {addr : BitVec 32} (more : count ≠ 0)
    (ecc : pageResult p chip (addr.toNat / p.pagesize) = -1) (enough : tries < fuel) :
    ∃ chip' mem', checkLoop p fuel chip mem addr count buf tries = some (chip',mem',2) ∧ SameFlash chip chip' := by
  induction tries generalizing fuel chip mem with
  | zero =>
    obtain ⟨fuel,rfl⟩ := Nat.exists_eq_add_of_le' (show 1 ≤ fuel by omega)
    rw [checkLoop_succ more]
    simp only [ecc]
    exact ⟨_,_,rfl,rfl,rfl⟩
  | succ tries ih =>
    obtain ⟨fuel,rfl⟩ := Nat.exists_eq_add_of_le' (show 1 ≤ fuel by omega)
    have again : pass (-1) ((tries + 1 : Nat) : Int) = .retry tries := by
      simp [SpiNand.pass]
      omega
    rw [checkLoop_succ more]
    simp only [ecc,again]
    exact ih (by rw [← ecc]; exact SameFlash.pageResult ⟨rfl,rfl⟩ _) (by omega)

theorem pageResult_cases (p : NandParam) (chip : Chip) (page : Nat) :
    pageResult p chip page = -1 ∨ pageResult p chip page = 1 ∨ pageResult p chip page = 0 := by
  rw [pageResult]
  split_ifs <;> simp

theorem checkLoop_pages (whole : p.pagesize % 4 = 0) (small : (q+k) * p.pagesize ≤ 2 ^ 32) (enough : 6 * k ≤ fuel) :
    ∃ chip' mem' r, checkLoop p fuel chip mem (BitVec.ofNat 32 (q*p.pagesize)) (k*p.pagesize) buf 5 =
      some (chip',mem',r) ∧ SameFlash chip chip' ∧ (r = 0 ↔ ∀ i < k, pageResult p chip (q+i) = 0) := by
  induction k generalizing fuel q chip mem buf with
  | zero =>
    refine ⟨chip,mem,0,?_,⟨rfl,rfl⟩,by simp⟩
    rw [Nat.zero_mul]
    cases fuel <;> rw [checkLoop]
  | succ k ih =>
    obtain ⟨fuel,rfl⟩ := Nat.exists_eq_add_of_le' (show 1 ≤ fuel by omega)
    have positive := p.pagesize_pos
    have expand : (k+1) * p.pagesize = k * p.pagesize + p.pagesize := Nat.succ_mul ..
    have address := page_address small
    have page : (BitVec.ofNat 32 (q*p.pagesize)).toNat / p.pagesize = q := by
      rw [address,Nat.mul_div_cancel _ positive]
    have notAll : pageResult p chip q ≠ 0 → ¬ ∀ i < k + 1, pageResult p chip (q+i) = 0 :=
      fun wrong all => wrong (pages_succ.mp all).1
    rcases pageResult_cases p chip q with ecc | bad | good
    · obtain ⟨chip',mem',done,same⟩ := @checkLoop_ecc p chip mem (fuel+1) buf ((k+1) * p.pagesize) 5
        (BitVec.ofNat 32 (q*p.pagesize)) (by omega) (by rw [page,ecc]) (by omega)
      exact ⟨chip',mem',2,done,same,iff_of_false (by decide) (notAll (by omega))⟩
    · rw [checkLoop_succ (by omega)]
      simp only [page,bad,pass_bad]
      exact ⟨_,_,1,rfl,⟨rfl,rfl⟩,iff_of_false (by decide) (notAll (by omega))⟩
    obtain ⟨-,size⟩ := @fetched_page p chip q ((k+1) * p.pagesize) whole good (by omega)
    have same : SameFlash chip (chip.readPage p q) := ⟨rfl,rfl⟩
    rw [checkLoop_succ (by omega)]
    simp only [address,Nat.mul_div_cancel _ positive,good,pass_done,size,← BitVec.ofNat_add,← Nat.succ_mul]
    rw [show (k+1) * p.pagesize - p.pagesize = k * p.pagesize by omega]
    obtain ⟨chip',mem',r,done,later,result⟩ := @ih (chip.readPage p q)
      (store mem buf (fetched p chip (q*p.pagesize) ((k+1) * p.pagesize))) fuel (q+1) (buf+p.pagesize)
      (by rw [show q + 1 + k = q + (k+1) by omega]; exact small) (by omega)
    refine ⟨chip',mem',r,done,later,result.trans ?_⟩
    simp only [same.pageResult,pages_succ,good,true_and]

def blockGood (p : NandParam) (chip : Chip) (addr : Nat) : Bool :=
  (List.range CONFIG_SPI_NAND_PPB).all fun i => pageResult p chip (addr / p.pagesize + i) = 0

theorem block_check_good {addr : Nat} (size : p.pagesize = 2048) (aligned : 2048 ∣ addr) (small : addr + 0x20000 ≤ 2 ^ 32)
    (enough : 384 ≤ fuel) :
    ∃ chip' mem' r, sfc_nand_block_check p fuel chip mem (BitVec.ofNat 32 addr) 0x20000 buf = some (chip',mem',r) ∧
      SameFlash chip chip' ∧ (r = 0 ↔ blockGood p chip addr = true) := by
  obtain ⟨q,rfl⟩ := aligned
  have inside : (q+64) * p.pagesize ≤ 2 ^ 32 := by
    simp only [size]
    omega
  have checked := @checkLoop_pages p chip mem fuel q 64 buf (by rw [size]) inside enough
  have page : 2048 * q / p.pagesize = q := by rw [size,Nat.mul_div_cancel_left _ (by decide)]
  rw [size,Nat.mul_comm q] at checked
  obtain ⟨chip',mem',r,done,same,result⟩ := checked
  refine ⟨chip',mem',r,done,same,result.trans ?_⟩
  simp [blockGood,page,CONFIG_SPI_NAND_PPB]

theorem scan_finds {addrs : List Nat} (size : p.pagesize = 2048)
    (blocks : ∀ addr ∈ addrs, 2048 ∣ addr ∧ addr + 0x20000 ≤ 2 ^ 32) (enough : 384 ≤ fuel) :
    ∃ chip' mem', scan p fuel 0x20000 buf addrs chip mem = some (chip',mem',addrs.find? (blockGood p chip)) ∧
      SameFlash chip chip' := by
  induction addrs generalizing chip mem with
  | nil => exact ⟨chip,mem,rfl,rfl,rfl⟩
  | cons addr addrs ih =>
    obtain ⟨⟨aligned,small⟩,others⟩ := forall_mem_cons.mp blocks
    obtain ⟨chip₁,mem₁,r,checked,same,result⟩ := @block_check_good p chip mem fuel buf addr size aligned small enough
    simp only [scan,checked]
    by_cases good : blockGood p chip addr = true
    · rw [if_pos (result.mpr good),find?_cons_of_pos good]
      exact ⟨chip₁,mem₁,rfl,same⟩
    obtain ⟨chip₂,mem₂,done,later⟩ := @ih chip₁ mem₁ others
    have stable : blockGood p chip₁ = blockGood p chip := by
      funext a
      simp only [blockGood,same.pageResult]
    rw [if_neg (fun zero => good (result.mp zero)),find?_cons_of_neg good,done,stable]
    exact ⟨chip₂,mem₂,rfl,later.1.trans same.1,later.2.trans same.2⟩

/-! ### More fuel -/

theorem loadLoop_mono {addr : BitVec 32} {result : Chip × (Nat → UInt8)}
    (done : loadLoop p fuel chip mem addr count buf retry = some result) (more : fuel ≤ fuel') :
    loadLoop p fuel' chip mem addr count buf retry = some result := by
  induction fuel generalizing fuel' chip mem addr count buf retry with
  | zero =>
    cases count with
    | zero => cases fuel' <;> simpa [loadLoop] using done
    | succ n => simp [loadLoop] at done
  | succ fuel ih =>
    obtain ⟨fuel',rfl⟩ := Nat.exists_eq_add_of_le' (show 1 ≤ fuel' by omega)
    by_cases empty : count = 0
    · subst empty
      simpa [loadLoop] using done
    rw [loadLoop_succ empty] at done ⊢
    simp only at done ⊢
    generalize pass (pageResult p chip (addr.toNat / p.pagesize)) retry = next at done ⊢
    cases next <;> exact ih done (by omega)

theorem checkLoop_mono {addr : BitVec 32} {result : Chip × (Nat → UInt8) × Nat}
    (done : checkLoop p fuel chip mem addr count buf retry = some result) (more : fuel ≤ fuel') :
    checkLoop p fuel' chip mem addr count buf retry = some result := by
  induction fuel generalizing fuel' chip mem addr count buf retry with
  | zero =>
    cases count with
    | zero => cases fuel' <;> simpa [checkLoop] using done
    | succ n => simp [checkLoop] at done
  | succ fuel ih =>
    obtain ⟨fuel',rfl⟩ := Nat.exists_eq_add_of_le' (show 1 ≤ fuel' by omega)
    by_cases empty : count = 0
    · subst empty
      simpa [checkLoop] using done
    rw [checkLoop_succ empty] at done ⊢
    simp only at done ⊢
    generalize pass (pageResult p chip (addr.toNat / p.pagesize)) retry = next at done ⊢
    cases next with
    | bad => exact done
    | failed => exact done
    | retry left => exact ih done (by omega)
    | done => exact ih done (by omega)

theorem scan_mono {step : Nat} {addrs : List Nat} {result : Chip × (Nat → UInt8) × Option Nat}
    (done : scan p fuel step buf addrs chip mem = some result) (more : fuel ≤ fuel') :
    scan p fuel' step buf addrs chip mem = some result := by
  induction addrs generalizing chip mem with
  | nil => exact done
  | cons addr addrs ih =>
    rw [scan] at done ⊢
    cases checked : sfc_nand_block_check p fuel chip mem (BitVec.ofNat 32 addr) step buf with
    | none => simp [checked] at done
    | some found =>
      have again : sfc_nand_block_check p fuel' chip mem (BitVec.ofNat 32 addr) step buf = some found :=
        checkLoop_mono checked more
      rw [checked] at done
      rw [again]
      simp only at done ⊢
      split_ifs at done ⊢
      · exact done
      · exact ih done

theorem sfc_nand_load_mono {addr : BitVec 32} {result : Chip × (Nat → UInt8)}
    (done : sfc_nand_load p fuel chip mem addr count buf = some result) (more : fuel ≤ fuel') :
    sfc_nand_load p fuel' chip mem addr count buf = some result := loadLoop_mono done more

theorem bind_mono {α β : Type} {x y : Option α} {f g : α → Option β} {r : β} (done : (x >>= f) = some r)
    (first : ∀ a, x = some a → y = some a) (second : ∀ a, f a = some r → g a = some r) : (y >>= g) = some r := by
  obtain ⟨a,found,rest⟩ := Option.bind_eq_some_iff.mp done
  exact Option.bind_eq_some_iff.mpr ⟨a,first a found,second a rest⟩

theorem hwinfo_init_mono {st' : State} (done : hwinfo_init p fuel st = some st') (more : fuel ≤ fuel') :
    hwinfo_init p fuel' st = some st' := by
  refine bind_mono done (fun _ found => scan_mono found more) fun found1 done => ?_
  refine bind_mono done (fun _ found => scan_mono found more) fun found2 done => ?_
  simp only at done ⊢
  split_ifs at done ⊢
  · exact done
  · refine bind_mono done (fun _ loaded => sfc_nand_load_mono loaded more) fun load1 done => ?_
    exact bind_mono done (fun _ loaded => sfc_nand_load_mono loaded more) fun load2 done => done

/-! ### Boot -/

def region (start : Nat) : List Nat := [start,start + 0x20000,start + 0x40000,start + 0x60000]

def region1 : Nat := HWINFO_FLASH_ADDR + HWINFO1_SEEK_START
def region2 : Nat := HWINFO_FLASH_ADDR + HWINFO2_SEEK_START

def firstGood (p : NandParam) (chip : Chip) (start : Nat) : Option Nat := (region start).find? (blockGood p chip)

def image (p : NandParam) (chip : Chip) (addr : Nat) : List UInt8 := pagesBytes p chip (addr / p.pagesize) 16

theorem image_length (size : p.pagesize = 2048) (chip : Chip) (addr : Nat) : (image p chip addr).length = 0x8000 := by
  rw [image,pagesBytes_length,size]

def imageGood (p : NandParam) (chip : Chip) (addr : Nat) : Prop := ∀ i < 16, pageResult p chip (addr / p.pagesize + i) = 0

theorem imageGood_of_block {addr : Nat} (good : blockGood p chip addr = true) : imageGood p chip addr := by
  intro i less
  have all := all_eq_true.mp good i (mem_range.mpr (by rw [CONFIG_SPI_NAND_PPB]; omega))
  simpa using all

theorem load_image {addr : Nat} (size : p.pagesize = 2048) (aligned : 2048 ∣ addr) (small : addr + 0x20000 ≤ 2 ^ 32)
    (good : imageGood p chip addr) (enough : 16 ≤ fuel) :
    ∃ chip', sfc_nand_load p fuel chip mem (BitVec.ofNat 32 addr) 0x8000 buf =
      some (chip',store mem buf (image p chip addr)) ∧ SameFlash chip chip' := by
  obtain ⟨q,rfl⟩ := aligned
  have page : 2048 * q / p.pagesize = q := by rw [size,Nat.mul_div_cancel_left _ (by decide)]
  rw [imageGood,page] at good
  have loaded := @loadLoop_pages p chip mem fuel q 16 buf (by rw [size]) (by simp only [size]; omega) good enough
  rw [size,Nat.mul_comm q] at loaded
  rw [image,page]
  exact loaded

theorem SameFlash.trans {chip'' : Chip} (first : SameFlash chip chip') (second : SameFlash chip' chip'') :
    SameFlash chip chip'' := ⟨second.1.trans first.1,second.2.trans first.2⟩

theorem SameFlash.blockGood (same : SameFlash chip chip') : blockGood p chip' = blockGood p chip := by
  funext addr
  simp only [HwinfoBoot.blockGood,same.pageResult]

theorem SameFlash.image (same : SameFlash chip chip') (addr : Nat) :
    image p chip' addr = image p chip addr := by
  simp only [HwinfoBoot.image,pagesBytes,same.1]

theorem SameFlash.imageGood {addr : Nat} (same : SameFlash chip chip') (good : imageGood p chip addr) :
    imageGood p chip' addr := fun i less => (same.pageResult _).trans (good i less)

theorem seek_mem (p : NandParam) (chip : Chip) (start : Nat) : (firstGood p chip start).getD start ∈ region start := by
  cases found : firstGood p chip start with
  | none => simp [region]
  | some addr => exact mem_of_find?_eq_some found

/-- The two images that the choice is made from, if they can be read. -/
theorem hwinfo_init_chooses {seek1 seek2 : Nat} (size : p.pagesize = 2048)
    (first : (firstGood p chip region1).getD region1 = seek1) (second : (firstGood p chip region2).getD region2 = seek2)
    (good1 : imageGood p chip seek1) (good2 : imageGood p chip seek2) (enough : 384 ≤ fuel) :
    ∃ chip' mem', hwinfo_init p fuel (initialState chip mem) =
      some (choose ⟨seek1,seek2,0,chip',store (store mem' CONFIG_SYS_TEXT_BASE (image p chip seek1))
        (CONFIG_SYS_TEXT_BASE+0x8000) (image p chip seek2)⟩ CONFIG_SYS_TEXT_BASE (CONFIG_SYS_TEXT_BASE+0x8000)) := by
  have addrs1 : seekAddrs (HWINFO_FLASH_ADDR+HWINFO1_SEEK_START) (HWINFO_FLASH_ADDR+HWINFO1_SEEK_MAX)
      HWINFO1_SEEK_STEP = region region1 := by decide
  have addrs2 : seekAddrs (HWINFO_FLASH_ADDR+HWINFO2_SEEK_START) (HWINFO_FLASH_ADDR+HWINFO2_SEEK_MAX)
      HWINFO2_SEEK_STEP = region region2 := by decide
  have blocks1 : ∀ addr ∈ region region1, 2048 ∣ addr ∧ addr + 0x20000 ≤ 2 ^ 32 := by decide
  have blocks2 : ∀ addr ∈ region region2, 2048 ∣ addr ∧ addr + 0x20000 ≤ 2 ^ 32 := by decide
  have below1 : ∀ addr ∈ region region1, addr < HWINFO_FLASH_ADDR + HWINFO1_SEEK_MAX := by decide
  have below2 : ∀ addr ∈ region region2, addr < HWINFO_FLASH_ADDR + HWINFO2_SEEK_MAX := by decide
  have member1 : seek1 ∈ region region1 := first ▸ seek_mem p chip region1
  have member2 : seek2 ∈ region region2 := second ▸ seek_mem p chip region2
  obtain ⟨chip₁,mem₁,scan1,same₁⟩ := @scan_finds p chip mem fuel CONFIG_SYS_TEXT_BASE _ size blocks1 enough
  obtain ⟨chip₂,mem₂,scan2,same₂⟩ := @scan_finds p chip₁ mem₁ fuel (CONFIG_SYS_TEXT_BASE+0x8000) _ size blocks2 enough
  have flash := same₁.trans same₂
  obtain ⟨chip₃,load1,same₃⟩ := @load_image p chip₂ mem₂ fuel CONFIG_SYS_TEXT_BASE seek1 size (blocks1 _ member1).1
    (blocks1 _ member1).2 (flash.imageGood good1) (by omega)
  have flash' := flash.trans same₃
  obtain ⟨chip₄,load2,-⟩ := @load_image p chip₃ (store mem₂ CONFIG_SYS_TEXT_BASE (image p chip₂ seek1)) fuel (CONFIG_SYS_TEXT_BASE+0x8000) seek2 size
    (blocks2 _ member2).1 (blocks2 _ member2).2 (flash'.imageGood good2) (by omega)
  have open1 : ¬ (HWINFO_FLASH_ADDR + HWINFO1_SEEK_MAX ≤ seek1 ∨ HWINFO_FLASH_ADDR + HWINFO2_SEEK_MAX ≤ seek2) := by
    have := below1 _ member1
    have := below2 _ member2
    omega
  refine ⟨chip₄,mem₂,?_⟩
  rw [same₁.blockGood,← firstGood] at scan2
  rw [← firstGood] at scan1
  have data : min HWINFO_FLASH_DATA_SIZE HWINFO_VA_MEMORY_SIZE = 0x8000 := by decide
  simp only [hwinfo_init,initialState,addrs1,addrs2,data]
  simp only [HWINFO1_SEEK_STEP,HWINFO2_SEEK_STEP,scan1,scan2,Option.bind_eq_bind,Option.bind_some]
  have found1 : (firstGood p chip region1).getD (HWINFO_FLASH_ADDR+HWINFO1_SEEK_START) = seek1 := first
  have found2 : (firstGood p chip region2).getD (HWINFO_FLASH_ADDR+HWINFO2_SEEK_START) = seek2 := second
  rw [flash.image] at load1 load2
  rw [flash'.image] at load2
  rw [found1,found2,if_neg open1,load1]
  simp only [load2,Option.bind_some]
  rfl

/-! ### Numbers in a copy -/

/-- The digits of a number end inside of the text. -/
def Ends (text : List UInt8) : Prop := ∃ c ∈ (numberStart text 16).1, isxdigit c = false

theorem simple_strtoul_append {text : List UInt8} (long : 3 ≤ text.length) (ends : Ends text) (rest : List UInt8) :
    simple_strtoul 32 (text ++ rest) 16 = simple_strtoul 32 text 16 := by
  rw [simple_strtoul,numberStart_append long]
  obtain ⟨c,member,not⟩ := ends
  exact digitsLoop_append ⟨c,member,by simp [Stops,not]⟩ rest 0

/-- The checksum of a copy is the one that its last slot names. -/
def rightCopy (copy : List UInt8) : Bool := crc32_verify (copy.take 32640) = simple_strtoul 32 (copy.drop 32658) 16

def countOf (copy : List UInt8) : BitVec 32 := simple_strtoul 32 (copy.drop 11410) 16

/-- Text at the end of a copy ends inside of it, so other text that is not far from it does too. -/
theorem ends_earlier {copy : List UInt8} {i j : Nat} (before : i + 2 ≤ j) (ends : Ends (copy.drop j)) :
    Ends (copy.drop i) := by
  obtain ⟨c,member,not⟩ := ends
  obtain ⟨m,-,late⟩ := numberStart_drop (copy.drop j) 16
  obtain ⟨n,small,early⟩ := numberStart_drop (copy.drop i) 16
  refine ⟨c,?_,not⟩
  rw [late,drop_drop] at member
  rw [early,drop_drop]
  exact drop_subset_drop_left copy (by omega) member

section
variable {copy : List UInt8} {addr : Nat}

theorem text_of_copy (length : copy.length = 0x8000) (small : addr + 0x8000 ≤ 2 ^ 32)
    (held : load mem addr 0x8000 = copy) {i : Nat} (inside : i + 3 ≤ 0x8000) (ends : Ends (copy.drop i)) :
    simple_strtoul 32 (textAt mem (addr+i)) 16 = simple_strtoul 32 (copy.drop i) 16 := by
  have split : textAt mem (addr+i) = copy.drop i ++ load mem (addr+0x8000) (2 ^ 32 - (addr+0x8000)) := by
    rw [textAt,show 2 ^ 32 - (addr+i) = (0x8000-i) + (2 ^ 32 - (addr+0x8000)) by omega,load_add,← held,
      load_drop (by omega),show addr + i + (0x8000-i) = addr + 0x8000 by omega]
  rw [split]
  exact simple_strtoul_append (by rw [length_drop]; omega) ends _

theorem copyRight_eq (length : copy.length = 0x8000) (small : addr + 0x8000 ≤ 2 ^ 32)
    (held : load mem addr 0x8000 = copy) (ends : Ends (copy.drop 32658)) : copyRight mem addr = rightCopy copy := by
  have body : HWINFO_BLOCK_LENS * HWINFO_BLOCK_CRC = 32640 := by simp only [HWINFO_BLOCK_LENS,HWINFO_BLOCK_CRC]
  have place : addr + 32640 + HWINFO_CONTENT_SEEK = addr + 32658 := by simp only [HWINFO_CONTENT_SEEK]
  rw [copyRight,hwinfoCrc32Verify,body,place,text_of_copy length small held (by decide) ends,rightCopy,← held,
    load_take (by decide)]

theorem updateCount_eq (length : copy.length = 0x8000) (small : addr + 0x8000 ≤ 2 ^ 32)
    (held : load mem addr 0x8000 = copy) (ends : Ends (copy.drop 32658)) : updateCount mem addr = countOf copy := by
  have place : addr + HWINFO_BLOCK_LENS * HWINFO_BLOCK_UPDATE_COUNT + HWINFO_CONTENT_SEEK = addr + 11410 := by
    simp only [HWINFO_BLOCK_LENS,HWINFO_BLOCK_UPDATE_COUNT,HWINFO_CONTENT_SEEK]
  rw [updateCount,place,text_of_copy length small held (by decide) (ends_earlier (by decide) ends),countOf]
end

/-! ### The newest copy -/

/-- The state after the boot, for the copies in the flash: without a right copy the status is 0 and the
    memory is cleared, otherwise the memory holds a newest right copy. -/
structure Recovered (copies : List (List UInt8)) (st : State) : Prop where
  nothing : copies.filter rightCopy = [] → st.hwinfo_is_inited = 0 ∧
    load st.mem HWINFO_VA_MEMORY_ADDR HWINFO_VA_MEMORY_SIZE = zeros HWINFO_VA_MEMORY_SIZE
  newest : copies.filter rightCopy ≠ [] → st.hwinfo_is_inited = 1 ∧ ∃ copy ∈ copies.filter rightCopy,
    load st.mem HWINFO_VA_MEMORY_ADDR HWINFO_VA_MEMORY_SIZE = copy ∧
      ∀ other ∈ copies.filter rightCopy, countOf other ≤ countOf copy

theorem choose_recovers {addr1 addr2 : Nat} {c1 c2 : List UInt8} (fresh : st.hwinfo_is_inited = 0)
    (small1 : addr1 + 0x8000 ≤ 2 ^ 32) (small2 : addr2 + 0x8000 ≤ 2 ^ 32)
    (length1 : c1.length = 0x8000) (length2 : c2.length = 0x8000)
    (held1 : load st.mem addr1 0x8000 = c1) (held2 : load st.mem addr2 0x8000 = c2)
    (ends1 : Ends (c1.drop 32658)) (ends2 : Ends (c2.drop 32658)) : Recovered [c1,c2] (choose st addr1 addr2) := by
  have image1 : load (store st.mem HWINFO_VA_MEMORY_ADDR (load st.mem addr1 HWINFO_VA_MEMORY_SIZE))
      HWINFO_VA_MEMORY_ADDR HWINFO_VA_MEMORY_SIZE = c1 := (load_store_of_length load_length).trans held1
  have image2 : load (store st.mem HWINFO_VA_MEMORY_ADDR (load st.mem addr2 HWINFO_VA_MEMORY_SIZE))
      HWINFO_VA_MEMORY_ADDR HWINFO_VA_MEMORY_SIZE = c2 := (load_store_of_length load_length).trans held2
  simp only [Hwinfo.choose,copyRight_eq length1 small1 held1 ends1,copyRight_eq length2 small2 held2 ends2,
    updateCount_eq length1 small1 held1 ends1,updateCount_eq length2 small2 held2 ends2]
  cases right1 : rightCopy c1 <;> cases right2 : rightCopy c2
  · refine ⟨fun _ => ⟨fresh,load_store_of_length (zeros_length _)⟩,fun some => ?_⟩
    simp [right1,right2] at some
  · refine ⟨fun none => ?_,fun _ => ⟨rfl,c2,by simp [right1,right2],image2,by simp [right1,right2]⟩⟩
    simp [right1,right2] at none
  · refine ⟨fun none => ?_,fun _ => ⟨rfl,c1,by simp [right1,right2],image1,by simp [right1,right2]⟩⟩
    simp [right1,right2] at none
  have both : [c1,c2].filter rightCopy = [c1,c2] := by simp [right1,right2]
  by_cases newer : countOf c1 < countOf c2
  · rw [if_neg (by simp),if_pos (.inr ⟨rfl,rfl,newer⟩)]
    refine ⟨fun none => absurd (both.symm.trans none) (by simp),fun _ => ⟨rfl,c2,by simp [both],image2,?_⟩⟩
    rw [both]
    intro other member
    rcases mem_pair.mp member with rfl | rfl
    · exact BitVec.le_of_lt newer
    · exact BitVec.le_refl _
  rw [if_neg (by simp),if_neg (by simp [newer])]
  refine ⟨fun none => absurd (both.symm.trans none) (by simp),fun _ => ⟨rfl,c1,by simp [both],image1,?_⟩⟩
  rw [both]
  intro other member
  rcases mem_pair.mp member with rfl | rfl
  · exact BitVec.le_refl _
  · exact BitVec.not_lt.mp newer

/-- The copies in the flash: the 32 KiB at the first good block of each region that has one. -/
def copies (p : NandParam) (chip : Chip) : List (List UInt8) :=
  [region1,region2].filterMap fun start => (firstGood p chip start).map (image p chip)

/-- The boot ends and leaves a state that fits the copies. -/
def Boots (p : NandParam) (chip : Chip) (mem : Nat → UInt8) : Prop :=
  ∃ fuel st, hwinfo_init p fuel (initialState chip mem) = some st ∧ Recovered (copies p chip) st

/-- The boot makes its choice between the images at the two addresses that the scans leave. -/
theorem hwinfo_init_recovers {seek1 seek2 : Nat} (mem : Nat → UInt8) (size : p.pagesize = 2048)
    (first : (firstGood p chip region1).getD region1 = seek1) (second : (firstGood p chip region2).getD region2 = seek2)
    (good1 : imageGood p chip seek1) (good2 : imageGood p chip seek2) (ends1 : Ends ((image p chip seek1).drop 32658))
    (ends2 : Ends ((image p chip seek2).drop 32658)) : ∃ st, hwinfo_init p 384 (initialState chip mem) = some st ∧
      Recovered [image p chip seek1,image p chip seek2] st := by
  obtain ⟨chip',mem',done⟩ := @hwinfo_init_chooses p chip mem 384 seek1 seek2 size first second good1 good2 (le_refl _)
  refine ⟨_,done,?_⟩
  refine choose_recovers rfl (by decide) (by decide) (image_length size ..) (image_length size ..) ?_ ?_ ends1 ends2
  · rw [load_store_apart (.inl (le_refl _)),load_store_of_length (image_length size ..)]
  · exact load_store_of_length (image_length size ..)

theorem boots_of_good {b1 b2 : Nat} (size : p.pagesize = 2048) (first : firstGood p chip region1 = some b1)
    (second : firstGood p chip region2 = some b2) (ends1 : Ends ((image p chip b1).drop 32658))
    (ends2 : Ends ((image p chip b2).drop 32658)) : Boots p chip mem := by
  have good1 := imageGood_of_block (find?_some first)
  have good2 := imageGood_of_block (find?_some second)
  have both : copies p chip = [image p chip b1,image p chip b2] := by simp [copies,first,second]
  obtain ⟨st,done,recovered⟩ := hwinfo_init_recovers mem size (by rw [first]; rfl) (by rw [second]; rfl) good1 good2
    ends1 ends2
  exact ⟨384,st,done,both ▸ recovered⟩

/-! ### A stray copy -/

def hexDigit (n : Nat) : UInt8 := UInt8.ofNat (if n < 10 then 48 + n else 87 + n)

theorem hexDigit_value : ∀ n < 16, isxdigit (hexDigit n) = true ∧ digitValue (hexDigit n) = n ∧ hexDigit n ≠ 120 ∧
    (hexDigit n = 48 → n = 0) := by decide

theorem digitsLoop_hex {digits : List Nat} (small : ∀ d ∈ digits, d < 16) (rest : List UInt8) (v : BitVec 32) :
    digitsLoop 32 16 v (digits.map hexDigit ++ 0 :: rest) = digits.foldl (fun v d => v * 16 + BitVec.ofNat 32 d) v := by
  induction digits generalizing v with
  | nil =>
    have stop : ¬ (isxdigit 0 = true ∧ digitValue 0 < 16) := by decide
    simp only [map_nil,nil_append,digitsLoop,if_neg stop,foldl_nil]
  | cons d digits ih =>
    obtain ⟨less,others⟩ := forall_mem_cons.mp small
    obtain ⟨hex,value,-⟩ := hexDigit_value d less
    simp only [map_cons,cons_append,digitsLoop,hex,value,less,and_self,if_true,foldl_cons]
    exact ih others _

/-- A leading `0x` is never met. -/
theorem simple_strtoul_hex {d e : Nat} {digits : List Nat} (small : ∀ x ∈ d :: e :: digits, x < 16) (rest : List UInt8) :
    simple_strtoul 32 ((d :: e :: digits).map hexDigit ++ 0 :: rest) 16 =
      (d :: e :: digits).foldl (fun v d => v * 16 + BitVec.ofNat 32 d) 0 := by
  have second := (hexDigit_value e (small e (by simp))).2.2.1
  rw [← digitsLoop_hex small rest]
  by_cases zero : hexDigit d = 48
  · have nothing : ∀ tail, digitsLoop 32 16 0 (48 :: tail) = digitsLoop 32 16 0 tail := by
      intro tail
      have start : (0 : BitVec 32) * BitVec.ofNat 32 16 + BitVec.ofNat 32 (digitValue 48) = 0 := by decide
      rw [digitsLoop,if_pos (by decide),start]
    simp only [map_cons,cons_append,zero,nothing]
    simp [simple_strtoul,numberStart,second]
  · simp [simple_strtoul,numberStart,zero]

def hexDigits (v : BitVec 32) : List Nat := (List.range 8).map fun i => v.toNat / 16 ^ (7 - i) % 16

def hexText (v : BitVec 32) : List UInt8 := (hexDigits v).map hexDigit

theorem simple_strtoul_hexText (v : BitVec 32) (rest : List UInt8) :
    simple_strtoul 32 (hexText v ++ 0 :: rest) 16 = v := by
  have digits : hexDigits v = [v.toNat / 16 ^ 7 % 16,v.toNat / 16 ^ 6 % 16,v.toNat / 16 ^ 5 % 16,v.toNat / 16 ^ 4 % 16,
      v.toNat / 16 ^ 3 % 16,v.toNat / 16 ^ 2 % 16,v.toNat / 16 ^ 1 % 16,v.toNat / 16 ^ 0 % 16] := rfl
  have small : ∀ x ∈ hexDigits v, x < 16 := by
    intro x member
    obtain ⟨i,-,rfl⟩ := mem_map.mp member
    exact mod_lt _ (by decide)
  rw [digits] at small
  rw [hexText,digits,simple_strtoul_hex small]
  -- the digits read so far are those of a quotient
  have step : ∀ n, BitVec.ofNat 32 (n / 16) * 16 + BitVec.ofNat 32 (n % 16) = BitVec.ofNat 32 n := by
    intro n
    have sixteen : (16 : BitVec 32) = BitVec.ofNat 32 16 := rfl
    rw [sixteen,← BitVec.ofNat_mul,← BitVec.ofNat_add,Nat.div_add_mod']
  have start : (0 : BitVec 32) = BitVec.ofNat 32 (v.toNat / 16 ^ 7 / 16) := by
    rw [Nat.div_eq_of_lt (by omega)]
    rfl
  have next : ∀ k, v.toNat / 16 ^ k / 16 = v.toNat / 16 ^ (k+1) := by
    intro k
    rw [Nat.div_div_eq_div_mul,pow_succ]
  simp only [foldl_cons,foldl_nil]
  rw [start,step,← next 6,step,← next 5,step,← next 4,step,← next 3,step,← next 2,step,← next 1,step,← next 0,step]
  simp

def sealedCopy (body : List UInt8) : List UInt8 :=
  body ++ (zeros 18 ++ (hexText (crc32_verify body) ++ zeros 102))

def greatest : List UInt8 := [102,102,102,102,102,102,102,102,0]

theorem hexText_length (v : BitVec 32) : (hexText v).length = 8 := by simp [hexText,hexDigits]

section
variable {body : List UInt8} (length : body.length = 32640)
include length

theorem sealedCopy_length : (sealedCopy body).length = 0x8000 := by
  rw [sealedCopy,length_append,length_append,length_append,length,zeros_length,hexText_length,zeros_length]

theorem sealedCopy_crc : (sealedCopy body).drop 32658 = hexText (crc32_verify body) ++ zeros 102 := by
  rw [sealedCopy,show 32658 = 32640 + 18 from rfl,← drop_drop,drop_left' length,
    drop_left' (zeros_length 18)]

theorem sealedCopy_right : rightCopy (sealedCopy body) = true := by
  rw [rightCopy,sealedCopy_crc length,zeros_succ 101,simple_strtoul_hexText,sealedCopy,take_left' length]
  exact decide_eq_true rfl

theorem sealedCopy_ends : Ends ((sealedCopy body).drop 32658) := by
  obtain ⟨j,small,start⟩ := numberStart_drop ((sealedCopy body).drop 32658) 16
  refine ⟨0,?_,by decide⟩
  rw [start,sealedCopy_crc length,drop_append_of_le_length (by rw [hexText_length]; omega)]
  exact mem_append_right _ (by exact mem_cons_self ..)

theorem sealedCopy_count (text : body.drop 11410 = greatest ++ tail) :
    countOf (sealedCopy body) = 0xffffffff := by
  have ends : Ends greatest := ⟨0,by decide,by decide⟩
  rw [countOf,sealedCopy,drop_append_of_le_length (by omega),text,append_assoc,
    simple_strtoul_append (by decide) ends]
  decide
end

theorem zeros_ends : Ends ((zeros 0x8000).drop 32658) := by
  rw [zeros_drop]
  exact ⟨0,by decide,by decide⟩

theorem zeros_count : countOf (zeros 0x8000) = 0 := by
  rw [countOf,zeros_drop]
  have first : zeros (0x8000-11410) = 0 :: zeros 21357 := zeros_succ 21357
  have stop : ¬ (isxdigit 0 = true ∧ digitValue 0 < 16) := by decide
  simp [first,simple_strtoul,numberStart,digitsLoop,stop]

/-! ### A region without a good block -/

/-- A chip on which a block that is not good fails in its last page. The block at `start` holds `copy`,
    all others hold zeros. -/
def strayChip (good : Nat → Bool) (failed fine : BitVec 32) (start : Nat) (copy : List UInt8) : Chip where
  pages page c :=
    if 2048 ≤ c then 0xff else if page / 64 * 0x20000 = start then copy.getD (page % 64 * 2048 + c) 0 else 0
  status page := if page % 64 = 63 ∧ good (page / 64 * 0x20000) = false then failed else fine
  cache _ _ := 0
  programmed := []
  padding _ := 0

section
variable {good : Nat → Bool} {failed fine : BitVec 32} {start b : Nat} {copy : List UInt8}

theorem strayChip_mark (size : p.pagesize = 2048) (block : Nat) :
    badMark p (strayChip good failed fine start copy).pages block = false := by
  have marks : load ((strayChip good failed fine start copy).pages (block*CONFIG_SPI_NAND_PPB)) 2048 4 =
      load (fun _ => 0xff) 2048 4 := load_congr fun c low _ => if_pos low
  rw [badMark,size]
  cases p.wideBus <;> rfl

theorem strayChip_result (size : p.pagesize = 2048) (fails : p.eccError failed = true) (works : p.eccError fine = false)
    (page : Nat) : pageResult p (strayChip good failed fine start copy) page =
      if page % 64 = 63 ∧ good (page / 64 * 0x20000) = false then -1 else 0 := by
  rw [pageResult,strayChip_mark size]
  by_cases last : page % 64 = 63 ∧ good (page / 64 * 0x20000) = false
  · simp only [strayChip,if_pos last,fails,if_true]
  · simp only [strayChip,if_neg last,works,Bool.false_eq_true,and_false,if_false]

theorem strayChip_good (size : p.pagesize = 2048) (fails : p.eccError failed = true) (works : p.eccError fine = false) :
    blockGood p (strayChip good failed fine start copy) (b*0x20000) = good (b*0x20000) := by
  have first : b * 0x20000 / p.pagesize = 64 * b := by
    rw [size]
    omega
  rw [blockGood,first,Bool.eq_iff_iff,all_eq_true]
  constructor
  · intro all
    have last := all 63 (mem_range.mpr (by decide))
    rw [strayChip_result size fails works,show (64 * b + 63) / 64 = b by omega] at last
    simpa using last
  intro fine i inside
  have less : i < 64 := mem_range.mp inside
  rw [strayChip_result size fails works,show (64 * b + i) / 64 = b by omega,fine]
  simp

theorem strayChip_imageGood (size : p.pagesize = 2048) (fails : p.eccError failed = true)
    (works : p.eccError fine = false) : imageGood p (strayChip good failed fine start copy) (b*0x20000) := by
  intro i less
  rw [strayChip_result size fails works,size]
  omega

theorem pagesBytes_linear {bytes : Nat → UInt8} {place : Nat} (held : ∀ i < k, ∀ c < p.pagesize,
    chip.pages (q+i) c = bytes (place + i * p.pagesize + c)) : pagesBytes p chip q k = load bytes place (k*p.pagesize) := by
  induction k generalizing q place with
  | zero => simp [pagesBytes,load]
  | succ k ih =>
    have later := @ih (q+1) (place+p.pagesize) fun i less c inside => by
      rw [show q + 1 + i = q + (i+1) by omega,held (i+1) (by omega) c inside,succ_mul]
      congr 1
      omega
    have first : load (chip.pages q) 0 p.pagesize = load bytes place p.pagesize := by
      apply map_congr_left
      intro c inside
      simpa using held 0 (by omega) c (mem_range.mp inside)
    rw [pagesBytes_succ,later,first,succ_mul,add_comm (k*p.pagesize),load_add]

theorem strayChip_image (size : p.pagesize = 2048) (length : copy.length = 0x8000) :
    image p (strayChip good failed fine start copy) (b*0x20000) =
      if b * 0x20000 = start then copy else zeros 0x8000 := by
  have first : b * 0x20000 / p.pagesize = 64 * b := by
    rw [size]
    omega
  have linear := @pagesBytes_linear p (strayChip good failed fine start copy) (64*b) 16
    (fun x => if b * 0x20000 = start then copy.getD x 0 else 0) 0 fun i less c inside => by
      rw [size] at inside ⊢
      simp only [strayChip,if_neg (not_le.mpr inside),show (64 * b + i) / 64 = b by omega,
        show (64 * b + i) % 64 = i by omega,zero_add]
  rw [image,first,linear,size]
  split_ifs
  · apply ext_getElem
    · rw [load_length,length]
    intro i _ inside
    rw [load_getElem]
    simp [inside]
  · exact load_zeros fun _ _ _ => rfl

theorem hwinfo_init_unique {st₁ st₂ : State} {fuel₁ fuel₂ : Nat} (first : hwinfo_init p fuel₁ st = some st₁)
    (second : hwinfo_init p fuel₂ st = some st₂) : st₁ = st₂ := by
  have one := hwinfo_init_mono first (le_max_left fuel₁ fuel₂)
  have two := hwinfo_init_mono second (le_max_right fuel₁ fuel₂)
  exact Option.some.inj (one.symm.trans two)

theorem region_block : ∀ addr ∈ region region1 ++ region region2, ∃ b, addr = b * 0x20000 := by
  have blocks : ∀ addr ∈ region region1 ++ region region2, addr = addr / 0x20000 * 0x20000 := by decide
  exact fun addr member => ⟨addr / 0x20000,blocks addr member⟩

theorem region_mem {start : Nat} (starts : start ∈ [region1,region2]) :
    ∀ b ∈ region start, b ∈ region region1 ++ region region2 := by
  intro b member
  rcases mem_pair.mp starts with rfl | rfl
  · exact mem_append_left _ member
  · exact mem_append_right _ member

theorem seek_block (start : Nat) (starts : start ∈ [region1,region2]) :
    ∃ b, (firstGood p chip start).getD start = b * 0x20000 := by
  exact region_block _ (region_mem starts _ (seek_mem p chip start))

/-- No copy of the flash is the one at `start`, if the region that starts there has no good block. -/
theorem strayChip_copies (size : p.pagesize = 2048) (length : copy.length = 0x8000)
    (missed : firstGood p (strayChip good failed fine start copy) start = none) :
    ∀ c ∈ copies p (strayChip good failed fine start copy), c = zeros 0x8000 := by
  intro c member
  obtain ⟨other,regions,mapped⟩ := mem_filterMap.mp member
  obtain ⟨addr,found,rfl⟩ := Option.map_eq_some_iff.mp mapped
  have works := find?_some found
  obtain ⟨b,rfl⟩ : ∃ b, addr = b * 0x20000 := by
    have block := @seek_block p (strayChip good failed fine start copy) other regions
    rwa [found] at block
  rw [strayChip_image size length,if_neg]
  intro same
  have bad := find?_eq_none.mp missed start (by simp [region])
  exact bad (same ▸ works)

theorem strayChip_ends {body : List UInt8} (size : p.pagesize = 2048) (length : body.length = 32640) (b : Nat) :
    Ends ((image p (strayChip good failed fine start (sealedCopy body)) (b*0x20000)).drop 32658) := by
  rw [strayChip_image size (sealedCopy_length length)]
  split_ifs
  · exact sealedCopy_ends length
  · exact zeros_ends

/-- The boot takes what stands at the start of a region without a good block for a copy. -/
theorem stray_boot {body : List UInt8} (mem : Nat → UInt8) (size : p.pagesize = 2048)
    (fails : p.eccError failed = true) (works : p.eccError fine = false) (length : body.length = 32640)
    (text : body.drop 11410 = greatest ++ tail) (starts : start ∈ [region1,region2])
    (missed : firstGood p (strayChip good failed fine start (sealedCopy body)) start = none) :
    ∃ st, hwinfo_init p 384 (initialState (strayChip good failed fine start (sealedCopy body)) mem) = some st ∧
      st.hwinfo_is_inited = 1 ∧ load st.mem HWINFO_VA_MEMORY_ADDR HWINFO_VA_MEMORY_SIZE = sealedCopy body := by
  obtain ⟨b1,block1⟩ := @seek_block p (strayChip good failed fine start (sealedCopy body)) region1 (by simp)
  obtain ⟨b2,block2⟩ := @seek_block p (strayChip good failed fine start (sealedCopy body)) region2 (by simp)
  obtain ⟨st,done,recovered⟩ := hwinfo_init_recovers mem size block1 block2 (strayChip_imageGood size fails works)
    (strayChip_imageGood size fails works) (strayChip_ends size length b1) (strayChip_ends size length b2)
  rw [strayChip_image size (sealedCopy_length length),strayChip_image size (sealedCopy_length length)] at recovered
  have member : sealedCopy body ∈ [if b1 * 0x20000 = start then sealedCopy body else zeros 0x8000,
      if b2 * 0x20000 = start then sealedCopy body else zeros 0x8000] := by
    rcases mem_pair.mp starts with rfl | rfl
    · rw [if_pos (by rw [← block1,missed]; rfl)]
      exact mem_cons_self
    · rw [show b2 * 0x20000 = region2 by rw [← block2,missed]; rfl]
      simp
  have right := mem_filter.mpr ⟨member,sealedCopy_right length⟩
  obtain ⟨status,chosen,kept,held,newest⟩ := recovered.newest (ne_nil_of_mem right)
  have count := newest _ right
  rw [sealedCopy_count length text] at count
  refine ⟨st,done,status,held.trans ?_⟩
  have either : chosen = sealedCopy body ∨ chosen = zeros 0x8000 := by
    rcases mem_pair.mp (mem_filter.mp kept).1 with rfl | rfl <;> split_ifs <;> simp
  rcases either with same | same
  · exact same
  · rw [same,zeros_count] at count
    exact absurd count (by decide)

theorem sealedCopy_not_zeros {body : List UInt8} (length : body.length = 32640)
    (text : body.drop 11410 = greatest ++ tail) : sealedCopy body ≠ zeros 0x8000 := by
  intro same
  have counts := congrArg countOf same
  rw [sealedCopy_count length text,zeros_count] at counts
  exact absurd counts (by decide)

theorem stray_not_boots {body : List UInt8} (mem : Nat → UInt8) (size : p.pagesize = 2048)
    (fails : p.eccError failed = true) (works : p.eccError fine = false) (length : body.length = 32640)
    (text : body.drop 11410 = greatest ++ tail) (starts : start ∈ [region1,region2])
    (missed : firstGood p (strayChip good failed fine start (sealedCopy body)) start = none) :
    ¬ Boots p (strayChip good failed fine start (sealedCopy body)) mem := by
  rintro ⟨fuel,st,done,recovered⟩
  obtain ⟨st',stray,status,held⟩ := stray_boot mem size fails works length text starts missed
  obtain rfl := hwinfo_init_unique done stray
  by_cases empty : (copies p (strayChip good failed fine start (sealedCopy body))).filter rightCopy = []
  · have := (recovered.nothing empty).1
    omega
  obtain ⟨-,copy,kept,same,-⟩ := recovered.newest empty
  have zero := strayChip_copies size (sealedCopy_length length) missed copy (mem_filter.mp kept).1
  exact sealedCopy_not_zeros length text (held.symm.trans (same.trans zero))
end

def greatestBody : List UInt8 := zeros 11410 ++ (greatest ++ zeros 21221)

theorem greatestBody_length : greatestBody.length = 32640 := by
  rw [greatestBody,length_append,length_append,zeros_length,zeros_length]
  rfl

theorem greatestBody_text : greatestBody.drop 11410 = greatest ++ zeros 21221 := by
  rw [greatestBody,drop_left' (zeros_length 11410)]

/-- A chip whose first block is a right copy, and on which the blocks that are not `good` fail. -/
def sampleChip (good : Nat → Bool) : Chip := strayChip good 0x20 0 region1 (sealedCopy greatestBody)

theorem sampleChip_good (good : Nat → Bool) : ∀ b ∈ region region1 ++ region region2,
    blockGood smallPages (sampleChip good) b = good b := by
  intro b member
  obtain ⟨n,rfl⟩ := region_block b member
  exact strayChip_good rfl (by decide) (by decide)

end UBoot.HwinfoBoot
