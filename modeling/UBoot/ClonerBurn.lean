import UBoot.Cloner

/-!
An image burned over USB is stored in the good blocks of its partition, if each chunk finds its blocks
without a bad one among them and inside of the partition (`burn_stores_image`). Only the first block of a
chunk is checked, and a chunk that ends up outside of the partition is dropped without an error
(`chunk_lost`).
-/
namespace UBoot.ClonerBurn
open List Option Nat Skipping Cloner

variable {a p len : Nat} {s s' : State} {chunk image : List UInt8}

variable {b : Burner} {i : Nat} {part : jz_sfcnand_partition}

/-! ### The partition and the blocks -/

theorem partionLoop_found {ps : List jz_sfcnand_partition} {start length k : Nat} (found : ps[i]? = some part)
    (inside : part.offset ≤ start ∧ (start+length) % 2 ^ 32 ≤ (part.offset+part.size) % 2 ^ 32)
    (others : ∀ j < i, ∀ p, ps[j]? = some p →
      ¬ (p.offset ≤ start ∧ (start+length) % 2 ^ 32 ≤ (p.offset+p.size) % 2 ^ 32)) :
    partionLoop start length k ps = some (k+i,part) := by
  induction ps generalizing i k with
  | nil => simp at found
  | cons p ps ih =>
    rw [partionLoop]
    cases i with
    | zero =>
      obtain rfl : p = part := by simpa using found
      rw [if_pos inside,add_zero]
    | succ i =>
      rw [if_neg (others 0 (succ_pos i) p rfl),ih found fun j below q other => others (j+1) (by omega) q other]
      congr 2
      omega

theorem skipLoop_eq {o bad_len : Nat} (j : Nat) {fuel : Nat} (enough : j < fuel)
    (isBad : ∀ k < j, b.bad (o + k * b.erasesize) = true) (good : b.bad (o + j * b.erasesize) = false)
    (below : o + j * b.erasesize < 2 ^ 32) (lenBelow : bad_len + j * b.erasesize < 2 ^ 32) :
    skipLoop b fuel o bad_len = some (o + j * b.erasesize,bad_len + j * b.erasesize) := by
  induction j generalizing o bad_len fuel with
  | zero =>
    obtain ⟨fuel,rfl⟩ := exists_eq_succ_of_ne_zero (show fuel ≠ 0 by omega)
    rw [zero_mul,add_zero] at good
    rw [skipLoop,good,zero_mul]
    rfl
  | succ j ih =>
    obtain ⟨fuel,rfl⟩ := exists_eq_succ_of_ne_zero (show fuel ≠ 0 by omega)
    have first := isBad 0 (succ_pos j)
    rw [zero_mul,add_zero] at first
    have shift : ∀ k, o + b.erasesize + k * b.erasesize = o + (k+1) * b.erasesize := fun k => by
      rw [succ_mul]
      omega
    rw [succ_mul] at below lenBelow
    rw [skipLoop,if_pos first,mod_eq_of_lt (by omega),ih (by omega) (fun k less => by rw [shift]; exact isBad (k+1) (by omega)) (by rw [shift]; exact good) (by omega) (by omega),
      shift,succ_mul]
    congr 2
    omega

/-- Where the next bytes of the image belong: at the first good block, and consecutive from there on. -/
theorem next_place {size off n l : Nat} {bad : Nat → Bool} (some_ : 0 < size) (aligned : size ∣ off + (a+len))
    (count : (places (isGood size bad) off (a+len)).length = a) (within : a + len ≤ n) (more : 0 < l)
    (run : ((places (isGood size bad) off n).drop a).take l = List.range' p l) :
    off + (a+len) ≤ p ∧ size ∣ p ∧ p + l ≤ off + n ∧ places (isGood size bad) (off + (a+len)) (p - (off + (a+len))) = [] ∧
      ∀ x, p ≤ x → x < p + l → isGood size bad x = true := by
  have split : n = a + len + (n - (a+len)) := by omega
  rw [split,places_add,drop_left' count] at run
  have member : ∀ x, p ≤ x → x < p + l → (off + (a+len) ≤ x ∧ x < off + (a+len) + (n - (a+len))) ∧ isGood size bad x = true := by
    intro x above below
    have inside : x ∈ List.range' p l := mem_range'_1.mpr ⟨above,below⟩
    rw [← run] at inside
    exact mem_places.mp (mem_of_mem_take inside)
  obtain ⟨l,rfl⟩ := exists_eq_succ_of_ne_zero (show l ≠ 0 by omega)
  obtain ⟨rest,first⟩ : ∃ rest, places (isGood size bad) (off + (a+len)) (n - (a+len)) = p :: rest := by
    cases list : places (isGood size bad) (off + (a+len)) (n - (a+len)) with
    | nil => rw [list] at run; simp at run
    | cons q rest =>
      rw [list] at run
      exact ⟨rest,by rw [(List.cons.inj run).1]⟩
  obtain ⟨above,-,good,before⟩ := places_first first
  have last := (member (p+l) (by omega) (by omega)).1
  refine ⟨above,?_,by omega,before,fun x above below => (member x above below).2⟩
  -- the start of the block of `p` is good as well, and no good address is in front of `p`
  have start : p / size * size ≤ p := div_mul_le_self p size
  have floor : off + (a+len) ≤ p / size * size := by
    obtain ⟨k,equal⟩ := aligned
    rw [equal,Nat.mul_comm] at above ⊢
    exact Nat.mul_le_mul_right _ ((Nat.le_div_iff_mul_le some_).mpr above)
  have goodStart : isGood size bad (p / size * size) = true := by
    rw [isGood,Nat.mul_div_cancel _ some_]
    exact good
  rcases Nat.lt_or_ge (p / size * size) p with less | notLess
  · have inside : p / size * size ∈ places (isGood size bad) (off + (a+len)) (p - (off + (a+len))) :=
      mem_places.mpr ⟨⟨floor,by omega⟩,goodStart⟩
    rw [before] at inside
    exact absurd inside not_mem_nil
  · exact ⟨p / size,by rw [mul_comm]; omega⟩

/-! ### One chunk -/

/-- What is assumed of the drivers: a write to good blocks succeeds, and an erase command clears the good blocks of its
    range and nothing else. -/
structure Works (b : Burner) : Prop where
  blocks : 0 < b.erasesize
  write : ∀ bytes a data, (∀ x, a ≤ x → x < a + data.length → isGood b.erasesize b.bad x = true) →
    b.nand_write bytes a data = (true,program bytes ((List.range' a data.length).zip data))
  erase : ∀ bytes offset size data, b.erasesize ∣ offset → b.erasesize ∣ size →
    (b.run_command (.nandErase offset size) data bytes).1 = 0 ∧
    (∀ x, offset ≤ x → x < offset + size → isGood b.erasesize b.bad x = true →
      (b.run_command (.nandErase offset size) data bytes).2 x = 0xFF) ∧
    ∀ x, x < offset ∨ offset + size ≤ x → (b.run_command (.nandErase offset size) data bytes).2 x = bytes x

/-- The partition: whole blocks below 4 GiB, no partition in front of it in the table reaches into it, and no boot
    parameters are put into its data. -/
structure Burnable (b : Burner) (i : Nat) (part : jz_sfcnand_partition) : Prop where
  found : b.partitions[i]? = some part
  mode : part.manager_mode = MTD_MODE
  start : b.erasesize ∣ part.offset
  whole : b.erasesize ∣ part.size
  below : part.offset + part.size < 2 ^ 32
  apart : ∀ j < i, ∀ p, b.partitions[j]? = some p →
    p.offset + p.size < 2 ^ 32 ∧ (p.offset + p.size ≤ part.offset ∨ part.offset + part.size ≤ p.offset)
  plain : part.offset = 0 → b.download_params = false

def goodPlaces (b : Burner) (part : jz_sfcnand_partition) : List Nat := places (isGood b.erasesize b.bad) part.offset part.size

/-- The first `a` bytes of the image are stored, in the first `a + bad_len` bytes of the partition, and the rest of it
    is erased. -/
structure Progress (b : Burner) (part : jz_sfcnand_partition) (a : Nat) (image : List UInt8) (bytes : Nat → UInt8) (bad_len : Nat) :
    Prop where
  count : (places (isGood b.erasesize b.bad) part.offset (a + bad_len)).length = a
  within : a + bad_len ≤ part.size
  whole : b.erasesize ∣ bad_len
  stored : (places (isGood b.erasesize b.bad) part.offset (a + bad_len)).map bytes = image
  erased : ∀ x, part.offset + (a + bad_len) ≤ x → x < part.offset + part.size → isGood b.erasesize b.bad x = true → bytes x = 0xFF

/-- Before a chunk: the burn goes on, or it starts. -/
structure Ready (b : Burner) (i : Nat) (part : jz_sfcnand_partition) (a : Nat) (image : List UInt8) (s : State) : Prop where
  goes : s.pt_index_bak = i → Progress b part a image s.bytes s.bad_len
  starts : s.pt_index_bak ≠ i → a = 0 ∧ image = [] ∧
    (b.spi_erase = true → ∀ x ∈ goodPlaces b part, s.bytes x = 0xFF)

/-- Everything a call did was inside of the partition. -/
def Within (part : jz_sfcnand_partition) (s s' : State) : Prop :=
  ∀ w ∈ s'.accesses, w ∈ s.accesses ∨ part.offset ≤ w.1 ∧ w.1 + w.2 ≤ part.offset + part.size

theorem Progress.start {bytes : Nat → UInt8} (clear : ∀ x ∈ goodPlaces b part, bytes x = 0xFF) : Progress b part 0 [] bytes 0 where
  count := rfl
  within := zero_le _
  whole := dvd_zero _
  stored := rfl
  erased := fun x above below good => clear x (mem_places.mpr ⟨⟨above,below⟩,good⟩)

theorem Progress.write {bytes : Nat → UInt8}
    (progress : Progress b part a image bytes len) (above : part.offset + (a+len) ≤ p) (aligned : b.erasesize ∣ part.offset + (a+len))
    (block : b.erasesize ∣ p) (below : p + chunk.length ≤ part.offset + part.size)
    (before : places (isGood b.erasesize b.bad) (part.offset + (a+len)) (p - (part.offset + (a+len))) = [])
    (good : ∀ x, p ≤ x → x < p + chunk.length → isGood b.erasesize b.bad x = true) :
    Progress b part (a+chunk.length) (image ++ chunk) (program bytes ((List.range' p chunk.length).zip chunk))
      (len + (p - (part.offset + (a+len)))) := by
  have total : a + chunk.length + (len + (p - (part.offset + (a+len)))) =
      a + len + (p - (part.offset + (a+len))) + chunk.length := by omega
  have ends : part.offset + (a + len + (p - (part.offset + (a+len)))) = p := by omega
  have split : places (isGood b.erasesize b.bad) part.offset (a + chunk.length + (len + (p - (part.offset + (a+len))))) =
      places (isGood b.erasesize b.bad) part.offset (a+len) ++ List.range' p chunk.length := by
    rw [total,places_add,places_add,before,append_nil,ends,places_all good]
  have outside : ∀ x, x < p ∨ p + chunk.length ≤ x → program bytes ((List.range' p chunk.length).zip chunk) x = bytes x := by
    intro x apart
    refine program_outside fun entry inside equal => ?_
    have := mem_range'_1.mp (of_mem_zip inside).1
    omega
  refine ⟨?_,by omega,dvd_add progress.whole (dvd_sub block aligned),?_,fun x above' below' good' => ?_⟩
  · rw [split,length_append,progress.count,length_range']
  · rw [split,map_append]
    congr 1
    · rw [← progress.stored]
      refine map_congr_left fun x inside => outside x (.inl ?_)
      have := (mem_places.mp inside).1
      omega
    refine program_read nodup_range' length_range' fun x inside => ?_
    rw [mem_range'_1] at inside
    exact progress.erased x (by omega) (by omega) (good x inside.1 inside.2)
  · rw [outside x (.inr (by omega))]
    exact progress.erased x (by omega) below' good'

theorem found_partition (burnable : Burnable b i part) {l : Nat} (more : 0 < l) (fits : a + l ≤ part.size) :
    get_partion_index b (part.offset+a) l = some (i,part) := by
  have below := burnable.below
  have found := @partionLoop_found i part b.partitions (part.offset+a) l 0 burnable.found
    ⟨by omega,by omega⟩ fun j earlier p other => by
      obtain ⟨small,apart⟩ := burnable.apart j earlier p other
      omega
  rwa [zero_add] at found

theorem skip_to_place (works : Works b) (burnable : Burnable b i part) (aligned : b.erasesize ∣ part.offset + (a+len))
    (above : part.offset + (a+len) ≤ p) (block : b.erasesize ∣ p) (below : p < part.offset + part.size)
    (before : places (isGood b.erasesize b.bad) (part.offset + (a+len)) (p - (part.offset + (a+len))) = [])
    (good : isGood b.erasesize b.bad p = true) :
    sfc_nand_skip_bad b len (part.offset+a) = some (p,len + (p - (part.offset + (a+len)))) := by
  have end_ := burnable.below
  have some_ := works.blocks
  obtain ⟨j,distance⟩ := Nat.dvd_sub block aligned
  rw [Nat.mul_comm] at distance
  have address : ∀ x, b.erasesize ∣ x → b.bad x = !isGood b.erasesize b.bad x := fun x whole => by
    rw [isGood,Bool.not_not,Nat.div_mul_cancel whole]
  have passes : j < 2 ^ 32 / b.erasesize := by
    rw [Nat.lt_div_iff_mul_lt some_]
    have boundary := next_le (Nat.dvd_add burnable.start burnable.whole) below
    rw [rest] at boundary
    omega
  have search := @skipLoop_eq b (part.offset + (a+len)) len j _ passes
    (fun k less => by
      have inside : (k+1) * b.erasesize ≤ j * b.erasesize := mul_le_mul_right _ less
      rw [succ_mul] at inside
      rw [address _ (dvd_add aligned (dvd_mul_left ..))]
      by_contra good'
      have member : part.offset + (a+len) + k * b.erasesize ∈
          places (isGood b.erasesize b.bad) (part.offset + (a+len)) (p - (part.offset + (a+len))) :=
        mem_places.mpr ⟨⟨by omega,by omega⟩,by simpa using good'⟩
      rw [before] at member
      exact absurd member not_mem_nil)
    (by
      have here : part.offset + (a+len) + j * b.erasesize = p := by omega
      rw [here,address p block,good]
      rfl)
    (by omega) (by omega)
  rw [sfc_nand_skip_bad,add_assoc,mod_eq_of_lt (by omega),search,distance]
  congr 2
  omega

theorem programAt_good (works : Works b) (burnable : Burnable b i part) (s : State)
    (more : 0 < chunk.length) (below : p + chunk.length ≤ part.offset + part.size)
    (good : ∀ x, p ≤ x → x < p + chunk.length → isGood b.erasesize b.bad x = true) :
    programAt b part p chunk s = (0,{ s with
      bytes := program s.bytes ((List.range' p chunk.length).zip chunk), accesses := s.accesses ++ [(p,chunk.length)] }) := by
  have end_ := burnable.below
  have success : ¬ (true = false ∨ chunk.length = 0) := by
    rintro (failed | none)
    · exact Bool.false_ne_true failed.symm
    · omega
  rw [programAt]
  simp only [works.write s.bytes p chunk good]
  rw [add_comm part.size,mod_eq_of_lt (by omega),mod_eq_of_lt end_,if_pos below,if_neg success]

/-- The partition is erased at the start of a burn, unless the whole chip was. -/
def begin_ (b : Burner) (i : Nat) (part : jz_sfcnand_partition) (databuf : List UInt8) (s : State) : State :=
  if b.spi_erase = false ∧ (i : Int) ≠ s.pt_index_bak then (erase b part.offset part.size databuf s).2 else s

theorem eraseBefore_eq (works : Works b) (burnable : Burnable b i part) (p len : Nat) (chunk : List UInt8) (s : State) :
    eraseBefore b i part p chunk { s with bad_len := len } = (0,{ begin_ b i part chunk s with bad_len := len }) := by
  have mode : ¬ part.manager_mode = MTD_D_MODE := by
    rw [burnable.mode]
    exact zero_ne_add_one 1
  have erased := (works.erase s.bytes part.offset part.size chunk burnable.start burnable.whole).1
  rw [eraseBefore,begin_]
  by_cases starts : b.spi_erase = false ∧ (i : Int) ≠ s.pt_index_bak
  · rw [if_pos ⟨starts.1,.inl starts.2⟩,if_neg mode,if_pos starts]
    simp only [erase,erased]
  · rw [if_neg starts,if_neg fun wrong => wrong.2.elim (fun other => starts ⟨wrong.1,other⟩) fun dynamic => mode dynamic.1]

theorem programMtd_eq (works : Works b) (burnable : Burnable b i part) {startaddr : Nat}
    (reset : (if (i : Int) ≠ s.pt_index_bak then 0 else s.bad_len) = len) {len' : Nat}
    (skip : sfc_nand_skip_bad b len startaddr = some (p,len')) :
    programMtd b i part startaddr chunk s =
      some (programAt b part p chunk { begin_ b i part chunk s with bad_len := len', pt_index_bak := i }) := by
  rw [programMtd]
  simp only [reset,skip,bind_eq_bind,bind_some,eraseBefore_eq works burnable]
  rfl

theorem program_chunk (works : Works b) (burnable : Burnable b i part)
    (ready : Ready b i part a image s) (more : 0 < chunk.length) (aligned : b.erasesize ∣ a)
    (run : ((goodPlaces b part).drop a).take chunk.length = List.range' p chunk.length) :
    ∃ s', sfc_nand_program b ⟨part.offset,a,chunk,0⟩ s = some (0,s') ∧ s'.pt_index_bak = i ∧
      Progress b part (a+chunk.length) (image ++ chunk) s'.bytes s'.bad_len ∧ Within part s s' := by
  have end_ := burnable.below
  have some_ := works.blocks
  obtain ⟨len,reset,progress⟩ : ∃ len, (if (i : Int) ≠ s.pt_index_bak then 0 else s.bad_len) = len ∧
      Progress b part a image (begin_ b i part chunk s).bytes len := by
    by_cases same : s.pt_index_bak = i
    · refine ⟨s.bad_len,by rw [same]; exact if_neg (not_not_intro rfl),?_⟩
      rw [begin_,if_neg fun start => start.2 same.symm]
      exact ready.goes same
    obtain ⟨rfl,rfl,clear⟩ := ready.starts same
    refine ⟨0,if_pos (Ne.symm same),Progress.start fun x inside => ?_⟩
    cases whole : b.spi_erase with
    | true =>
      rw [begin_,whole]
      exact clear whole x inside
    | false =>
      rw [begin_,if_pos ⟨whole,Ne.symm same⟩]
      obtain ⟨range,good⟩ := mem_places.mp inside
      exact (works.erase s.bytes part.offset part.size chunk burnable.start burnable.whole).2.1 x range.1 range.2 good
  have whole : b.erasesize ∣ part.offset + (a+len) := dvd_add burnable.start (dvd_add aligned progress.whole)
  obtain ⟨above,block,below,before,good⟩ := next_place some_ whole progress.count progress.within more run
  have skip := skip_to_place works burnable whole above block (by omega) before (good p (le_refl p) (by omega))
  refine ⟨{ bytes := program (begin_ b i part chunk s).bytes ((List.range' p chunk.length).zip chunk)
            accesses := (begin_ b i part chunk s).accesses ++ [(p,chunk.length)]
            bad_len := len + (p - (part.offset + (a+len)))
            pt_index_bak := i },?_,rfl,progress.write above whole block below before good,?_⟩
  · have start : (part.offset+a) % 2 ^ 32 = part.offset + a := mod_eq_of_lt (by omega)
    have plain : ¬ (part.offset + a = 0 ∧ b.download_params = true) := by
      rintro ⟨zero,params⟩
      rw [burnable.plain (by omega)] at params
      exact Bool.false_ne_true params
    rw [sfc_nand_program]
    simp only [start,found_partition burnable more (show a + chunk.length ≤ part.size by omega),if_neg plain]
    rw [if_pos (.inl burnable.mode),programMtd_eq works burnable reset skip,programAt_good works burnable _ more below good]
  intro w new
  rcases mem_append.mp new with old | now
  · rw [begin_] at old
    split_ifs at old
    · rcases mem_append.mp old with older | range
      · exact .inl older
      · rw [mem_singleton.mp range]
        exact .inr ⟨le_refl _,le_refl _⟩
    · exact .inl old
  · rw [mem_singleton.mp now]
    exact .inr ⟨by omega,below⟩

/-! ### A burn -/

/-- Each chunk starts at a block of the image, and the places of its bytes are consecutive. -/
def Unbroken (b : Burner) (part : jz_sfcnand_partition) : Nat → List (List UInt8) → Prop
  | _, [] => True
  | a, chunk :: more => 0 < chunk.length ∧ b.erasesize ∣ a ∧
    (∃ p, ((goodPlaces b part).drop a).take chunk.length = List.range' p chunk.length) ∧ Unbroken b part (a + chunk.length) more

theorem Ready.stored (ready : Ready b i part a image s) :
    image <+: (goodPlaces b part).map s.bytes := by
  by_cases same : s.pt_index_bak = i
  · have progress := ready.goes same
    have within := progress.within
    rw [goodPlaces,show part.size = a + s.bad_len + (part.size - (a+s.bad_len)) by omega,places_add,map_append,progress.stored]
    exact prefix_append ..
  · rw [(ready.starts same).2.1]
    exact nil_prefix

theorem burn_progress (works : Works b) (burnable : Burnable b i part) {chunks : List (List UInt8)}
    (ready : Ready b i part a image s) (unbroken : Unbroken b part a chunks) :
    ∃ s', burn b part a chunks s = some (chunks.map fun _ => 0,s') ∧
      image ++ chunks.flatten <+: (goodPlaces b part).map s'.bytes ∧ Within part s s' := by
  induction chunks generalizing a image s with
  | nil =>
    refine ⟨s,rfl,?_,fun w old => .inl old⟩
    rw [flatten_nil,append_nil]
    exact ready.stored
  | cons chunk more ih =>
    obtain ⟨some_,aligned,⟨p,run⟩,unbroken⟩ := unbroken
    obtain ⟨s1,call,index,progress,within⟩ := program_chunk works burnable ready some_ aligned run
    obtain ⟨s2,rest,stored,within'⟩ := ih ⟨fun _ => progress,fun wrong => absurd index wrong⟩ unbroken
    refine ⟨s2,?_,?_,fun w new => ?_⟩
    · rw [burn,call]
      simp only [bind_eq_bind,bind_some,rest]
      rfl
    · rwa [flatten_cons,← append_assoc]
    · exact (within' w new).elim (within w) .inr

/-! ### Calls for other partitions -/

theorem programAt_index (p : jz_sfcnand_partition) (startaddr : Nat) (databuf : List UInt8) (s : State) :
    (programAt b p startaddr databuf s).2.pt_index_bak = s.pt_index_bak := by
  rw [programAt]
  simp only
  split_ifs <;> rfl

theorem eraseBefore_index (j : Nat) (p : jz_sfcnand_partition) (startaddr : Nat) (databuf : List UInt8) (s : State) :
    (eraseBefore b j p startaddr databuf s).2.pt_index_bak = s.pt_index_bak := by
  rw [eraseBefore]
  split_ifs <;> rfl

theorem programMtd_index {j : Nat} {p : jz_sfcnand_partition} {startaddr : Nat} {databuf : List UInt8} {ret : Int}
    (call : programMtd b j p startaddr databuf s = some (ret,s')) : s'.pt_index_bak = s.pt_index_bak ∨ s'.pt_index_bak = j := by
  obtain ⟨⟨start,len⟩,-,call⟩ := bind_eq_some_iff.mp call
  have kept := @eraseBefore_index b j p start databuf { s with bad_len := len }
  simp only at call
  split_ifs at call
  · cases call
    exact .inl kept
  have index := @programAt_index b p start databuf { (eraseBefore b j p start databuf { s with bad_len := len }).2 with pt_index_bak := j }
  rw [Option.some.inj call] at index
  exact .inr index

theorem eraseUbi_index (j : Nat) (p : jz_sfcnand_partition) (databuf : List UInt8) (s : State) :
    (eraseUbi b j p databuf s).2.pt_index_bak = s.pt_index_bak ∨ (eraseUbi b j p databuf s).2.pt_index_bak = j := by
  rw [eraseUbi]
  split_ifs
  · exact .inr rfl
  · exact .inl rfl

theorem prepareUbi_index (j : Nat) (p : jz_sfcnand_partition) (databuf : List UInt8) (s : State) :
    (prepareUbi b j p databuf s).2.pt_index_bak = (eraseUbi b j p databuf s).2.pt_index_bak := by
  rw [prepareUbi]
  by_cases failed : (eraseUbi b j p databuf s).1 ≠ 0
  · simp only [if_pos failed]
  simp only [if_neg failed]
  by_cases part : (command b (.ubiPart p.name) databuf (eraseUbi b j p databuf s).2).1 ≠ 0
  · rw [if_pos part]
    rfl
  · rw [if_neg part]
    rfl

theorem programUbi_index (j : Nat) (p : jz_sfcnand_partition) (startaddr full_size : Nat) (databuf : List UInt8) (s : State) :
    (programUbi b j p startaddr full_size databuf s).2.pt_index_bak = s.pt_index_bak ∨
      (programUbi b j p startaddr full_size databuf s).2.pt_index_bak = j := by
  have index := @eraseUbi_index b j p databuf s
  rw [← prepareUbi_index] at index
  rw [programUbi]
  by_cases first : startaddr = p.offset
  · simp only [if_pos first,command]
    split_ifs <;> exact index
  · split_ifs <;> exact .inl rfl

theorem program_index {w : Write} {ret : Int} (call : sfc_nand_program b w s = some (ret,s')) :
    s'.pt_index_bak = s.pt_index_bak ∨
      ∃ j p, get_partion_index b ((w.partition+w.offset) % 2 ^ 32) w.data.length = some (j,p) ∧ s'.pt_index_bak = j := by
  rw [sfc_nand_program] at call
  cases found : get_partion_index b ((w.partition+w.offset) % 2 ^ 32) w.data.length with
  | none =>
    simp only [found] at call
    cases call
    exact .inl rfl
  | some entry =>
    obtain ⟨j,p⟩ := entry
    simp only [found] at call
    suffices index : s'.pt_index_bak = s.pt_index_bak ∨ s'.pt_index_bak = j from
      index.imp id fun own => ⟨j,p,rfl,own⟩
    by_cases mtd : p.manager_mode = MTD_MODE ∨ p.manager_mode = MTD_D_MODE
    · rw [if_pos mtd] at call
      exact programMtd_index call
    rw [if_neg mtd] at call
    by_cases ubi : p.manager_mode = UBI_MANAGER
    · rw [if_pos ubi] at call
      generalize (if (w.partition+w.offset) % 2 ^ 32 = 0 ∧ b.download_params = true then
        (sfcnand_add_info_to_flash b w.data).take w.data.length else w.data) = databuf at call
      have index := @programUbi_index b j p ((w.partition+w.offset) % 2 ^ 32) w.full_size databuf s
      rwa [Option.some.inj call] at index
    rw [if_neg ubi] at call
    cases call
    exact .inl rfl

theorem calls_elsewhere {before : List Write} (history : calls b before s = some s') (start : s.pt_index_bak ≠ i)
    (elsewhere : ∀ w ∈ before, ∀ p, get_partion_index b ((w.partition+w.offset) % 2 ^ 32) w.data.length ≠ some (i,p)) :
    s'.pt_index_bak ≠ i := by
  induction before generalizing s with
  | nil =>
    cases history
    exact start
  | cons w before ih =>
    obtain ⟨⟨ret,s1⟩,call,history⟩ := bind_eq_some_iff.mp history
    refine ih history ?_ fun v later => elsewhere v (mem_cons_of_mem _ later)
    rcases program_index call with same | ⟨j,p,found,index⟩
    · rwa [same]
    intro equal
    obtain rfl : j = i := by omega
    exact elsewhere w mem_cons_self p found

/-- After any calls for other partitions: an image whose chunks are not broken by a bad block, sent to a partition of
    `MTD_MODE`, is stored in the good blocks of the partition, and nothing outside of it is touched. -/
theorem burn_stores_image (works : Works b) (burnable : Burnable b i part) {before : List Write} {boot s : State}
    (history : calls b before boot = some s) (start : boot.pt_index_bak ≠ i)
    (elsewhere : ∀ w ∈ before, ∀ p, get_partion_index b ((w.partition + w.offset) % 2 ^ 32) w.data.length ≠ some (i,p))
    (clear : b.spi_erase = true → ∀ x ∈ goodPlaces b part, s.bytes x = 0xFF)
    {chunks : List (List UInt8)} (unbroken : Unbroken b part 0 chunks) :
    ∃ s', burn b part 0 chunks s = some (chunks.map fun _ => 0,s') ∧
      chunks.flatten <+: (goodPlaces b part).map s'.bytes ∧ Within part s s' := by
  have other := calls_elsewhere history start elsewhere
  have ready : Ready b i part 0 [] s := ⟨fun same => absurd same other,fun _ => ⟨rfl,rfl,clear⟩⟩
  exact burn_progress works burnable ready unbroken

/-! ### Two partitions of a small chip -/

/-- Drivers that do nothing else than what is assumed of them, and partitions of two and three blocks of 16 bytes. -/
def smallBurner (bad : Nat → Bool) : Burner where
  partitions := [⟨"boot",32,0,MTD_MODE⟩,⟨"data",48,32,MTD_MODE⟩]
  erasesize := 16
  bad := bad
  spi_erase := false
  download_params := false
  bp := []
  ddr_type := none
  nand_write := fun bytes a data => (true,program bytes ((List.range' a data.length).zip data))
  run_command := fun c _ bytes => match c with
    | .nandErase offset size => (0,fun x => if offset ≤ x ∧ x < offset + size ∧ isGood 16 bad x then 0xFF else bytes x)
    | _ => (0,bytes)

theorem smallBurner_works (bad : Nat → Bool) : Works (smallBurner bad) where
  blocks := succ_pos 15
  write := fun _ _ _ _ => rfl
  erase := fun bytes offset size data _ _ => by
    refine ⟨rfl,fun x above below good => if_pos ⟨above,below,good⟩,fun x outside => if_neg fun wrong => ?_⟩
    omega

def data : jz_sfcnand_partition := ⟨"data",48,32,MTD_MODE⟩

theorem data_burnable (bad : Nat → Bool) : Burnable (smallBurner bad) 1 data where
  found := rfl
  mode := rfl
  start := ⟨2,rfl⟩
  whole := ⟨3,rfl⟩
  below := by decide
  apart := by
    intro j first p found
    obtain rfl : j = 0 := by omega
    cases found
    decide
  plain := fun _ => rfl

def boot : State := ⟨fun _ => 0,[],0,-1⟩

theorem two_chunks_stored : ∃ s s',
    calls (smallBurner (· == 48)) [⟨0,0,List.replicate 16 1,0⟩] boot = some s ∧
    burn (smallBurner (· == 48)) data 0 [List.replicate 16 2,List.replicate 16 3] s = some ([0,0],s') ∧
    List.replicate 16 2 ++ List.replicate 16 3 <+: (goodPlaces (smallBurner (· == 48)) data).map s'.bytes := by
  have unbroken : Unbroken (smallBurner (· == 48)) data 0 [List.replicate 16 2,List.replicate 16 3] :=
    ⟨by decide,⟨0,rfl⟩,⟨32,by decide⟩,by decide,⟨1,rfl⟩,⟨64,by decide⟩,trivial⟩
  have elsewhere : ∀ w ∈ [(⟨0,0,List.replicate 16 1,0⟩ : Write)], ∀ p,
      get_partion_index (smallBurner (· == 48)) ((w.partition+w.offset) % 2 ^ 32) w.data.length ≠ some (1,p) := by
    intro w only p wrong
    rw [mem_singleton.mp only] at wrong
    cases wrong
  obtain ⟨s',burned,stored,-⟩ := @burn_stores_image _ 1 data (smallBurner_works (· == 48)) (data_burnable _) _ boot _ rfl (by decide) elsewhere
    (fun chip => absurd chip Bool.false_ne_true) _ unbroken
  exact ⟨_,s',rfl,burned,stored⟩

/-- All blocks of the partition are bad: the chunk is dropped, and the call returns 0. -/
theorem chunk_lost : ∃ s', burn (smallBurner (fun o => 32 ≤ o ∧ o < 80)) data 0 [List.replicate 16 2] boot = some ([0],s') ∧
    ¬ List.replicate 16 2 <+: (goodPlaces (smallBurner (fun o => 32 ≤ o ∧ o < 80)) data).map s'.bytes := by
  refine ⟨_,rfl,fun stored => ?_⟩
  have none : goodPlaces (smallBurner (fun o => 32 ≤ o ∧ o < 80)) data = [] := by decide
  rw [none,map_nil,prefix_nil] at stored
  cases stored

end UBoot.ClonerBurn
