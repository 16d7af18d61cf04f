import UBoot.GptRestore
import UBoot.PartitionsTab

/-!
The image that `gpt_creator` makes, as `disk/part_efi.c` reads it. For a text without rejected partitions and a header in
block 1, the partitions are found where the text has them exactly if the text is not too long for the buffers, names
at least one partition, and no suffix is hidden behind a blank. Where partitions may overlap the table is said next to it
(`image_decodes_iff`).
-/
namespace UBoot.GptImage
open List CStrings CNumbers Memory Gpt GptCreator PartitionsTab GptRestore
open EnvCopies (crc32)

/-! ### Writing the image -/

def written (disk : Nat → UInt8) (files : List UInt8 × List UInt8) : Nat → UInt8 := store (store disk 0 files.1) 512 files.2

theorem init_mbr_length (blocks lba : BitVec 32) (custom : Bool) : (init_mbr blocks lba custom).length = 512 := load_length ..

theorem init_mbr_valid (blocks lba : BitVec 32) (custom : Bool) : is_pmbr_valid (init_mbr blocks lba custom) = true := by
  have stored : ∀ mem, mem = store (store (store (store (store (fun _ => 0) 0x1be [0x00,0xff,0xff,0xff]) 0x1c2 [0xee,0xff,0xff,0xff])
      0x1c6 [0x01,0x00,0x00,0x00]) 0x1ca (leBytes blocks)) 0x1fe [0x55,0xaa] → load mem (0+510) 2 = leBytes MSDOS_MBR_SIGNATURE ∧
        mem (0+450) = EFI_PMBR_OSTYPE_EFI_GPT ∧ load mem (0+454) 4 = leBytes (1 : BitVec 32) := by
    rintro mem rfl
    refine ⟨?_,?_,?_⟩
    · exact load_store_of_length rfl
    · rw [store_outside (.inl (by decide)),store_outside (.inl (by decide)),store_outside (.inl (by decide))]
      exact store_inside (by decide : 0 < ([0xee,0xff,0xff,0xff] : List UInt8).length)
    · rw [load_store_apart (.inl (by decide)),load_store_apart (.inl (by decide))]
      exact load_store_of_length rfl
  obtain ⟨signature,kind,start⟩ := stored _ rfl
  rw [init_mbr]
  cases custom with
  | true => exact pmbr_valid_of signature kind start
  | false =>
    simp only [Bool.false_eq_true,if_false]
    refine pmbr_valid_of ?_ ?_ ?_
    · exact (load_store_apart (.inr (show 432 + 8 ≤ 0 + 510 by decide))).trans signature
    · refine Eq.trans (store_outside (.inr ?_)) kind
      exact (show 432 + 8 ≤ 0 + 450 by decide)
    · exact (load_store_apart (.inr (show 432 + 8 ≤ 0 + 454 by decide))).trans start

section
variable {disk : Nat → UInt8} {mbr : List UInt8} {h : GptHeader} {array : List UInt8}

theorem written_mbr (size : mbr.length = 512) : load (written disk (mbr,h.block ++ array)) 0 512 = mbr := by
  rw [written,load_store_apart (.inl (by decide)),load_store_of_length size]

theorem written_header : load (written disk (mbr,h.block ++ array)) 512 512 = h.block := by
  have whole : load (written disk (mbr,h.block ++ array)) 512 (h.block ++ array).length = h.block ++ array := load_store
  rw [← load_take (show 512 ≤ (h.block ++ array).length by simp),whole,take_left' h.block_length]

theorem written_array {n : Nat} (inside : n ≤ array.length) : load (written disk (mbr,h.block ++ array)) 1024 n = array.take n := by
  have whole : load (written disk (mbr,h.block ++ array)) 512 (h.block ++ array).length = h.block ++ array := load_store
  have rest := @load_drop (written disk (mbr,h.block ++ array)) 512 (h.block ++ array).length 512 (by simp)
  rw [whole,drop_left' h.block_length,length_append,h.block_length,Nat.add_sub_cancel_left] at rest
  exact (load_take inside).symm.trans (congrArg (List.take n) rest.symm)
end

/-! ### Reading the table -/

section
variable {dev : BlockDev} {blocks : BitVec 64} {get_uuid : Nat → Guid} {n : Nat} {array : List UInt8}

theorem count_toNat (few : n ≤ 128) : (BitVec.ofNat 32 n * 128).toNat = n * 128 := by
  rw [BitVec.toNat_mul,BitVec.toNat_ofNat,Nat.mod_eq_of_lt (by omega : n < 2 ^ 32)]
  exact Nat.mod_eq_of_lt (show n * 128 < 2 ^ 32 by omega)

theorem entries_read_count {h : GptHeader} (entryLba : h.partition_entry_lba = 2) (num : h.num_partition_entries = BitVec.ofNat 32 n)
    (entrySize : h.sizeof_partition_entry = 128) (some_ : 0 < n) (few : n ≤ 128) (room : 34 ≤ dev.lba.toNat) :
    alloc_read_gpt_entries dev h = some (some (load dev.disk 1024 (512 * BLOCK_CNT (n*128)))) := by
  have at2 : ((2 : BitVec 64).setWidth 32).toNat = 2 := by decide
  have size : BLOCK_CNT (n*128) ≤ 32 := by
    rw [BLOCK_CNT]
    omega
  have padded : PAD_TO_BLOCKSIZE (n*128) = 512 * BLOCK_CNT (n*128) := by
    rw [PAD_TO_BLOCKSIZE,Nat.mod_eq_of_lt (by omega),Nat.mul_comm]
  simp only [alloc_read_gpt_entries,num,entrySize,entryLba,count_toNat few,at2,
    block_read_inside (show 2 + BLOCK_CNT (n*128) ≤ dev.lba.toNat by omega),load_length,padded]
  rw [if_neg (by omega),if_neg (by omega)]

theorem table_valid (size : array.length = 16384) (some_ : 0 < n) (few : n ≤ 128) (same : blocks.toNat = dev.lba.toNat)
    (room : 34 ≤ dev.lba.toNat) (header : load dev.disk 512 512 = (setCrcs (fillHeader 1 blocks get_uuid n) array).block)
    (stored : ∀ k ≤ array.length, load dev.disk 1024 k = array.take k) :
    ∃ k, n * 128 ≤ k ∧ k ≤ 16384 ∧
      is_gpt_valid dev GPT_PRIMARY_PARTITION_TABLE_LBA = some (some (setCrcs (fillHeader 1 blocks get_uuid n) array,array.take k)) := by
  have enough : n * 128 ≤ 512 * BLOCK_CNT (n*128) ∧ 512 * BLOCK_CNT (n*128) ≤ 16384 := by
    rw [BLOCK_CNT]
    omega
  have stored' : dev.block_read (GPT_PRIMARY_PARTITION_TABLE_LBA.setWidth 32).toNat 1 =
      some (setCrcs (fillHeader 1 blocks get_uuid n) array).block := by
    rw [← header]
    exact block_read_inside (show 1 + 1 ≤ _ by omega)
  have bounds : ¬ (dev.lba.setWidth 64 < (34 : BitVec 64) ∨ dev.lba.setWidth 64 < blocks - 1) := by
    bv_omega
  have entries := @entries_read_count dev n (setCrcs (fillHeader 1 blocks get_uuid n) array) rfl rfl rfl some_ few room
  refine ⟨512 * BLOCK_CNT (n*128),enough.1,enough.2,?_⟩
  rw [sealed_valid_of stored' rfl rfl rfl bounds entries,stored _ (by omega)]
  have whole : (array.take (512 * BLOCK_CNT (n*128))).take (BitVec.ofNat 32 n * 128).toNat = array.take (BitVec.ofNat 32 n * 128).toNat := by
    rw [take_take,count_toNat few,Nat.min_eq_left enough.1]
  have checked : (crc32 0 ((array.take (512 * BLOCK_CNT (n*128))).take (BitVec.ofNat 32 n * 128).toNat)).toBitVec =
      (crc32 0 (array.take (BitVec.ofNat 32 n * 128).toNat)).toBitVec := by rw [whole]
  exact congrArg some (if_pos checked)

theorem table_info {h : GptHeader} {k : Nat} {entries : List GptEntry} {e : GptEntry} {i : Nat}
    (valid : is_gpt_valid dev GPT_PRIMARY_PARTITION_TABLE_LBA = some (some (h,(entryArray entries).take k)))
    (num : h.num_partition_entries.toNat = entries.length) (enough : entries.length * 128 ≤ k) (few : entries.length ≤ 128)
    (names : ∀ e ∈ entries, e.partition_name.length = PARTNAME_SZ) (found : entries[i]? = some e) (used : is_pte_valid e = true)
    (short : (toCString (print_efiname e)).length < 32) : get_partition_info_efi dev (i+1) = some (some (entryInfo e)) := by
  obtain ⟨inside,rfl⟩ := List.getElem?_eq_some_iff.mp found
  have piece : (((entryArray entries).take k).drop (128*i)).take 128 = entries[i].bytes := by
    rw [entryArray,take_take,drop_take,take_take,Nat.min_eq_left (by omega)]
    exact flatMap_piece (fun e member => GptEntry.bytes_length (names e member)) _ inside
  refine get_partition_info_piece valid (by omega) ?_ piece (names _ (getElem_mem inside)) used short
  rw [length_take,entryArray_length]
  omega
end

/-! ### Names -/

theorem ptnName_length (name : List UInt8) : (ptnName name).length = PARTNAME_SZ := by
  rw [ptnName,length_append,length_map,length_take,length_replicate]
  omega

theorem char_kept {c : UInt8} (small : c < 128) : UInt8.ofNat (c.toBitVec.signExtend 16).toNat = c := by
  have plus : c.toBitVec.msb = false := by
    rw [BitVec.msb_eq_decide]
    exact decide_eq_false fun large => absurd (show c.toNat < 128 from small) (by simpa using large)
  rw [BitVec.signExtend_eq_setWidth_of_msb_false plus]
  exact UInt8.ofNat_toNat

/-- What cannot be printed is read back as a dot. -/
def shown (c : UInt8) : UInt8 := if isprint c then c else 46

theorem shown_eq_self {c : UInt8} : shown c = c ↔ isprint c = true := by
  rw [shown]
  split
  case isTrue printed => exact ⟨fun _ => printed,fun _ => rfl⟩
  case isFalse other =>
    refine ⟨fun same => ?_,fun printed => absurd printed other⟩
    rw [← same]
    rfl

theorem print_name (e : Entry) (uuid : Guid) (short : e.name.bytes.length ≤ 31) :
    (toCString (print_efiname (e.gptEntry uuid))).bytes = e.name.bytes.map shown := by
  have chars : print_efiname (e.gptEntry uuid) = e.name.bytes.map shown ++ List.replicate (PARTNAME_SZ-e.name.bytes.length) 0 := by
    have limit : e.name.bytes.length ≤ PARTNAME_SZ := Nat.le_trans short (by decide)
    simp only [print_efiname,Entry.gptEntry,ptnName,map_append,map_map,take_of_length_le limit,map_replicate]
    congr 1
    apply map_congr_left
    intro c member
    have ordinary := e.name.ordinary c member
    have some_ : c ≠ 0 := (UInt8.ne_of_lt ordinary.1).symm
    simp only [Function.comp_apply,char_kept ordinary.2.1,shown]
    cases isprint c <;> simp [some_]
  have nonzero : ∀ c ∈ e.name.bytes.map shown, decide (c ≠ 0) = true := by
    intro c member
    obtain ⟨x,inside,rfl⟩ := mem_map.mp member
    refine decide_eq_true ?_
    rw [shown]
    split
    · exact (UInt8.ne_of_lt (e.name.ordinary x inside).1).symm
    · decide
  have room : PARTNAME_SZ - e.name.bytes.length = (35-e.name.bytes.length) + 1 := by
    rw [PARTNAME_SZ]
    omega
  show List.takeWhile _ _ = _
  rw [chars,takeWhile_append_of_pos nonzero,room,replicate_succ,takeWhile_cons_of_neg (by decide),append_nil]

theorem map_shown {name : List UInt8} : name.map shown = name ↔ ∀ c ∈ name, isprint c = true := by
  conv_lhs => rhs; rw [← map_id name]
  rw [map_inj_left]
  exact forall₂_congr fun c _ => shown_eq_self

/-! ### Places -/

theorem div512_toNat (v : BitVec 64) : (v / 512).toNat = v.toNat / 512 := BitVec.toNat_udiv

theorem last_toNat {e : Entry} (low : 34 ≤ e.first.toNat) : e.last.toNat + 1 = e.first.toNat + e.place.2.toNat / 512 := by
  have first : e.first.toNat = e.place.1.toNat / 512 := div512_toNat _
  have size : (e.place.2 / 512).toNat = e.place.2.toNat / 512 := div512_toNat _
  have sum : ∀ f s : BitVec 64, 34 ≤ f.toNat → f.toNat < 2 ^ 55 → s.toNat < 2 ^ 55 → (f + s - 1).toNat + 1 = f.toNat + s.toNat := by
    bv_omega
  exact sum _ _ low (by omega) (by omega)

theorem accepted_place {blocks : BitVec 64} {e : Entry} (some_ : 0 < blocks.toNat) (accepted : e.accepted (blocks-1) = true) :
    34 ≤ e.first.toNat ∧ e.first.toNat + e.place.2.toNat / 512 ≤ blocks.toNat ∧
      e.last.toNat + 1 = e.first.toNat + e.place.2.toNat / 512 := by
  simp only [Entry.accepted,Bool.and_eq_true,Bool.not_eq_true',decide_eq_false_iff_not] at accepted
  obtain ⟨⟨_,low⟩,high⟩ := accepted
  have low : 34 ≤ e.first.toNat := Nat.le_of_not_lt low
  have last := last_toNat low
  have limit : (blocks-1).toNat = blocks.toNat - 1 := by bv_omega
  rw [BitVec.lt_def] at high
  exact ⟨low,by omega,last⟩

theorem info_place {blocks : BitVec 64} {e : Entry} (uuid : Guid) (some_ : 0 < blocks.toNat) (small : blocks.toNat < 2 ^ 32)
    (accepted : e.accepted (blocks-1) = true) :
    (entryInfo (e.gptEntry uuid)).start.toNat = e.place.1.toNat / 512 ∧ (entryInfo (e.gptEntry uuid)).size.toNat = e.place.2.toNat / 512 := by
  obtain ⟨low,high,last⟩ := accepted_place some_ accepted
  have first : e.first.toNat = e.place.1.toNat / 512 := div512_toNat _
  have start : (e.first.setWidth 32).toNat = e.first.toNat := Nat.mod_eq_of_lt (by omega)
  refine ⟨start.trans first,?_⟩
  show ((e.last + 1 - (e.first.setWidth 32).setWidth 64).setWidth 32).toNat = _
  bv_omega

theorem Amount.number_le (a : Amount) : a.number ≤ a.value := by
  refine Nat.le_mul_of_pos_right _ ?_
  rcases a.suffix with _ | _ | _ | _ | _ | _ | _ <;> decide

theorem start_agrees {e : Entry} {blocks : Nat} (fits : e.place.1.toNat / 512 ≤ blocks) (small : blocks < 2 ^ 32) :
    e.place.1.toNat / 512 = e.start.value / 512 ↔ e.start.value < 2 ^ 64 := by
  refine ⟨fun same => by omega,fun bound => ?_⟩
  rw [← Amount.word_toNat e.start bound]
  rfl

theorem size_agrees {e : Entry} {blocks : Nat} (fits : e.place.2.toNat / 512 ≤ blocks) (small : blocks < 2 ^ 32) :
    e.place.2.toNat / 512 = e.size.value / 512 ↔
      e.size.value < 2 ^ 64 ∧ (e.beforeComma2.bytes = [] ∨ e.size.suffix = none ∨ e.size.number = 0) := by
  have clamped : ∀ {n : Nat}, n < 2 ^ 64 → (clamp n).toNat = n := by
    intro n bound
    rw [clamp,if_pos bound]
    exact Nat.mod_eq_of_lt bound
  have place : e.place.2 = if e.beforeComma2.bytes = [] then e.size.word else clamp e.size.number := rfl
  by_cases none_ : e.beforeComma2.bytes = []
  · rw [place,if_pos none_] at fits ⊢
    refine ⟨fun same => ⟨by omega,.inl none_⟩,fun both => ?_⟩
    rw [Amount.word_toNat e.size both.1]
  rw [place,if_neg none_] at fits ⊢
  have number := Amount.number_le e.size
  refine ⟨fun same => ?_,fun both => ?_⟩
  · have bound : e.size.value < 2 ^ 64 := by omega
    rw [clamped (by omega)] at same
    refine ⟨bound,.inr ?_⟩
    cases suffix : e.size.suffix with
    | none => exact .inl rfl
    | some s =>
      have factor : 1024 * e.size.number ≤ e.size.value := by
        rw [Amount.value,suffix,Nat.mul_comm]
        exact Nat.mul_le_mul_left _ (by cases s <;> decide)
      exact .inr (by omega)
  obtain ⟨bound,which⟩ := both
  rw [clamped (by omega)]
  rcases which with wrong | none_ | zero
  · exact absurd wrong none_
  · rw [Amount.value,none_]
    simp
  · rw [Amount.value,zero,Nat.zero_mul]

/-! ### What is read back -/

/-- The table is found valid, and each partition is found with the name, start and size of the text. -/
structure Decodes (t : Tab) (dev : BlockDev) : Prop where
  mbr : test_part_efi dev = true
  header : ∃ found, is_gpt_valid dev GPT_PRIMARY_PARTITION_TABLE_LBA = some (some found)
  found : ∀ (i : Nat) (e : Entry), t.entries[i]? = some e → ∃ info, get_partition_info_efi dev (i + 1) = some (some info) ∧
    info.name.bytes = e.name.bytes ∧ info.start.toNat = e.start.value / 512 ∧ info.size.toNat = e.size.value / 512

/-- A line that is read back as it stands there. -/
structure ReadableEntry (e : Entry) : Prop where
  short : e.value.length < 128
  printable : ∀ c ∈ e.name.bytes, isprint c = true
  start : e.start.value < 2 ^ 64
  size : e.size.value < 2 ^ 64
  suffix : e.beforeComma2.bytes = [] ∨ e.size.suffix = none ∨ e.size.number = 0

structure ReadableTab (t : Tab) : Prop where
  short : t.text.length < 2048
  some_ : t.entries ≠ []
  disk : 512 ≤ t.disk.value
  each : ∀ e ∈ t.entries, ReadableEntry e

section
variable {t : Tab} {get_uuid : Nat → Guid} {lba : BitVec 32}

theorem quiet_image (few : t.entries.length ≤ 128) (short : t.text.length < 2048) (each : ∀ e ∈ t.entries, e.value.length < 128)
    (quiet : ∀ out, main get_uuid t.text = some out → out.messages = []) :
    main get_uuid t.text = some ⟨[],tableOf get_uuid 0 t.entries,some (t.files get_uuid (tableOf get_uuid 0 t.entries))⟩ ∧
      ∀ e ∈ t.entries, e.accepted (t.diskBlocks-1) = true := by
  have all : t.entries.take 128 = t.entries := take_of_length_le few
  obtain ⟨messages,made,none_⟩ := main_made get_uuid short (by rwa [all])
  have silent : messages = [] := quiet _ made
  have accepted := none_.mp silent
  rw [Tab.accepted,filter_eq_self.mpr accepted,all,silent] at made
  exact ⟨made,by rwa [all] at accepted⟩

theorem diskBlocks_toNat (size : lba.toNat = t.disk.value / 512) : t.diskBlocks.toNat = lba.toNat := by
  rw [Tab.diskBlocks,div512_toNat,Amount.word_toNat t.disk (by omega),size]

theorem headerBlock_one (header : t.headerLba.value = 512) : t.headerBlock = 1 := by
  refine BitVec.eq_of_toNat_eq ?_
  rw [Tab.headerBlock,div512_toNat,Amount.word_toNat t.headerLba (by rw [header]; decide),header]
  rfl

theorem tableOf_length (get_uuid : Nat → Guid) : ∀ {es : List Entry} {n : Nat}, (tableOf get_uuid n es).length = es.length := by
  intro es
  induction es with
  | nil => exact rfl
  | cons e es ih =>
    intro n
    rw [tableOf,length_cons,length_cons,ih]

theorem tableOf_names (get_uuid : Nat → Guid) {es : List Entry} {n : Nat} : ∀ e ∈ tableOf get_uuid n es, e.partition_name.length = PARTNAME_SZ := by
  intro e member
  obtain ⟨i,found⟩ := mem_iff_getElem?.mp member
  rw [tableOf_getElem?] at found
  obtain ⟨line,_,rfl⟩ := Option.map_eq_some_iff.mp found
  exact ptnName_length _

theorem files_count {n : Nat} (count : min 128 t.entries.length = n) (entries : List GptEntry) : t.files get_uuid entries =
    (init_mbr ((t.diskBlocks-1).setWidth 32) (t.headerBlock.setWidth 32) t.customSignature,
      (setCrcs (fillHeader t.headerBlock t.diskBlocks get_uuid n) (entryArray entries)).block ++ entryArray entries) := by
  rw [Tab.files,count]

theorem image_read (disk : Nat → UInt8) (few : t.entries.length ≤ 128) (names : ∀ e ∈ t.entries, e.name.bytes.length ≤ 31)
    (header : t.headerLba.value = 512) (size : lba.toNat = t.disk.value / 512) (some_ : t.entries ≠ []) (blocks : 512 ≤ t.disk.value)
    (accepted : ∀ e ∈ t.entries, e.accepted (t.diskBlocks-1) = true) (dev : BlockDev)
    (dev_eq : dev = ⟨lba,written disk (t.files get_uuid (tableOf get_uuid 0 t.entries))⟩) :
    test_part_efi dev = true ∧ (∃ found, is_gpt_valid dev GPT_PRIMARY_PARTITION_TABLE_LBA = some (some found)) ∧
      ∀ (i : Nat) (e : Entry), t.entries[i]? = some e →
        get_partition_info_efi dev (i+1) = some (some (entryInfo (e.gptEntry (get_uuid (0 + i + 1))))) := by
  have same : t.diskBlocks.toNat = dev.lba.toNat := by
    rw [dev_eq]
    exact diskBlocks_toNat size
  have lba_eq : dev.lba = lba := by rw [dev_eq]
  have room : 34 ≤ dev.lba.toNat := by
    obtain ⟨e,es,first⟩ := exists_cons_of_ne_nil some_
    have place := accepted_place (by rw [same,lba_eq]; omega) (accepted e (by rw [first]; exact mem_cons_self))
    omega
  have one := headerBlock_one header
  have count : min 128 t.entries.length = t.entries.length := Nat.min_eq_right few
  rw [files_count count,one] at dev_eq
  obtain ⟨k,enough,_,valid⟩ := @table_valid dev t.diskBlocks get_uuid t.entries.length (entryArray (tableOf get_uuid 0 t.entries))
    (entryArray_length _) (length_pos_iff.mpr some_) few same room (by rw [dev_eq]; exact written_header)
    (fun k inside => by rw [dev_eq]; exact written_array inside)
  refine ⟨?_,⟨_,valid⟩,fun i e found => ?_⟩
  · have block : dev.block_read 0 1 = some (init_mbr ((t.diskBlocks-1).setWidth 32) ((1 : BitVec 64).setWidth 32) t.customSignature) := by
      rw [block_read_inside (by omega),dev_eq]
      exact congrArg some (written_mbr (init_mbr_length _ _ _))
    rw [test_part_efi,block]
    exact init_mbr_valid _ _ _
  have inTable : (tableOf get_uuid 0 t.entries)[i]? = some (e.gptEntry (get_uuid (0 + i + 1))) := by
    rw [tableOf_getElem?,found]
    rfl
  have member := mem_of_getElem? found
  refine table_info valid ?_ (by rw [tableOf_length]; exact enough) (by rw [tableOf_length]; exact few) (tableOf_names _) inTable (by rfl) ?_
  · rw [tableOf_length]
    exact Nat.mod_eq_of_lt (by omega)
  show (toCString _).bytes.length < 32
  rw [print_name e _ (names e member),length_map]
  exact Nat.lt_succ_of_le (names e member)
end

theorem empty_invalid {dev : BlockDev} {disk : Nat → UInt8} {mbr array : List UInt8} {header blocks : BitVec 64} {get_uuid : Nat → Guid}
    (dev_eq : dev.disk = written disk (mbr,(setCrcs (fillHeader header blocks get_uuid 0) array).block ++ array))
    {found : GptHeader × List UInt8} : is_gpt_valid dev GPT_PRIMARY_PARTITION_TABLE_LBA ≠ some (some found) := by
  obtain ⟨h,pte⟩ := found
  intro valid
  obtain ⟨buf,read,same,_,entries⟩ := is_gpt_valid_some valid
  rw [BlockDev.block_read] at read
  split at read
  · rw [dev_eq] at read
    have block : buf = (setCrcs (fillHeader header blocks get_uuid 0) array).block := (Option.some.inj read).symm.trans written_header
    rw [block,GptHeader.ofBytes_block] at same
    have none_ : alloc_read_gpt_entries dev h = some none := by
      have zero : (BitVec.ofNat 32 0 * 128).toNat = 0 := by decide
      rw [← same]
      unfold alloc_read_gpt_entries
      exact if_pos zero
    cases none_.symm.trans entries
  · cases read

section
variable {t : Tab} {get_uuid : Nat → Guid} {lba : BitVec 32}

theorem decodes_iff (disk : Nat → UInt8) (few : t.entries.length ≤ 128) (names : ∀ e ∈ t.entries, e.name.bytes.length ≤ 31)
    (header : t.headerLba.value = 512) (size : lba.toNat = t.disk.value / 512)
    (quiet : ∀ out, main get_uuid t.text = some out → out.messages = []) :
    (∃ out files, main get_uuid t.text = some out ∧ out.files = some files ∧ Decodes t ⟨lba,written disk files⟩) ↔ ReadableTab t := by
  have bound := lba.isLt
  have infos : ∀ (i : Nat) (e : Entry), 512 ≤ t.disk.value → e.accepted (t.diskBlocks-1) = true →
      (entryInfo (e.gptEntry (get_uuid (0 + i + 1)))).start.toNat = e.place.1.toNat / 512 ∧
      (entryInfo (e.gptEntry (get_uuid (0 + i + 1)))).size.toNat = e.place.2.toNat / 512 ∧
      e.place.1.toNat / 512 ≤ lba.toNat ∧ e.place.2.toNat / 512 ≤ lba.toNat := by
    intro i e blocks accepted
    have same := diskBlocks_toNat size
    have place := accepted_place (by omega) accepted
    have read := info_place (get_uuid (0 + i + 1)) (by omega) (by omega) accepted
    have first : e.first.toNat = e.place.1.toNat / 512 := div512_toNat _
    exact ⟨read.1,read.2,by omega,by omega⟩
  constructor
  · rintro ⟨out,files,made,has,decodes⟩
    obtain ⟨short,values⟩ := main_inside made
    rw [take_of_length_le few] at values
    obtain ⟨made',accepted⟩ := quiet_image few short values quiet
    obtain rfl := Option.some.inj (made.symm.trans made')
    obtain rfl : t.files get_uuid (tableOf get_uuid 0 t.entries) = files := Option.some.inj has
    have blocks : 512 ≤ t.disk.value := by
      by_contra none_
      have mbr := decodes.mbr
      rw [test_part_efi,BlockDev.block_read,if_neg (by show ¬ 0 + 1 ≤ lba.toNat; omega)] at mbr
      cases mbr
    have some_ : t.entries ≠ [] := by
      intro none_
      obtain ⟨found,valid⟩ := decodes.header
      have count : min 128 t.entries.length = 0 := by rw [none_]; rfl
      exact empty_invalid (congrArg (written disk) (files_count count _)) valid
    obtain ⟨_,_,found⟩ := image_read disk few names header size some_ blocks accepted _ rfl
    refine ⟨short,some_,blocks,fun e member => ?_⟩
    obtain ⟨i,at_⟩ := mem_iff_getElem?.mp member
    obtain ⟨info,read,name,start,length⟩ := decodes.found i e at_
    obtain rfl := Option.some.inj (Option.some.inj (read.symm.trans (found i e at_)))
    obtain ⟨start',length',fits,fits'⟩ := infos i e blocks (accepted e member)
    rw [start'] at start
    rw [length'] at length
    obtain ⟨sizeSmall,suffix⟩ := (size_agrees fits' bound).mp length
    refine ⟨values e member,?_,(start_agrees fits bound).mp start,sizeSmall,suffix⟩
    exact map_shown.mp ((print_name e _ (names e member)).symm.trans name)
  intro readable
  obtain ⟨made,accepted⟩ := quiet_image few readable.short (fun e member => (readable.each e member).short) quiet
  obtain ⟨mbr,valid,found⟩ := image_read disk few names header size readable.some_ readable.disk accepted _ rfl
  refine ⟨_,_,made,rfl,mbr,valid,fun i e at_ => ⟨_,found i e at_,?_,?_,?_⟩⟩
  · have member := mem_of_getElem? at_
    exact (print_name e _ (names e member)).trans (map_shown.mpr (readable.each e member).printable)
  · have member := mem_of_getElem? at_
    obtain ⟨start,_,fits,_⟩ := infos i e readable.disk (accepted e member)
    rw [start,start_agrees fits bound]
    exact (readable.each e member).start
  have member := mem_of_getElem? at_
  obtain ⟨_,length,_,fits⟩ := infos i e readable.disk (accepted e member)
  rw [length,size_agrees fits bound]
  exact ⟨(readable.each e member).size,(readable.each e member).suffix⟩
end

/-! ### Overlaps -/

/-- A partition that has no block in common with the header and the 32 blocks of entries behind it. -/
def Apart (header : BitVec 64) (e : GptEntry) : Prop :=
  e.ending_lba.toNat < e.starting_lba.toNat ∨ e.ending_lba.toNat < header.toNat ∨ header.toNat + 32 < e.starting_lba.toNat

theorem accepted_low {last_lba : BitVec 64} {e : Entry} (accepted : e.accepted last_lba = true) : 34 ≤ e.first.toNat := by
  simp only [Entry.accepted,Bool.and_eq_true,Bool.not_eq_true',decide_eq_false_iff_not] at accepted
  obtain ⟨⟨_,low⟩,_⟩ := accepted
  exact Nat.le_of_not_lt low

theorem made_accepted {get_uuid : Nat → Guid} {t : Tab} {out : Output} (made : main get_uuid t.text = some out) :
    ∀ e ∈ out.entries, ∃ line uuid, Entry.accepted (t.diskBlocks-1) line = true ∧ e = line.gptEntry uuid := by
  intro e member
  rw [main_entries made] at member
  obtain ⟨i,found⟩ := mem_iff_getElem?.mp member
  rw [tableOf_getElem?] at found
  obtain ⟨line,at_,same⟩ := Option.map_eq_some_iff.mp found
  exact ⟨line,_,(mem_filter.mp (mem_of_getElem? at_)).2,same.symm⟩

def shortName : Name := ⟨[97],by decide,by decide +kernel,⟨by decide +kernel,by decide +kernel⟩⟩

def lineOf (start size : Amount) (blanks : Blanks) : Entry :=
  ⟨noBlanks,shortName,noBlanks,noBlanks,start,noBlanks,noBlanks,size,blanks,some (noBlanks,.EMPTY),plainTail⟩

theorem lineOf_value_length (start size : Amount) (blanks : Blanks) :
    (lineOf start size blanks).value.length = start.text.length + size.text.length + blanks.bytes.length + 7 := by
  simp only [lineOf,Entry.value,length_append,length_cons,typeText,noBlanks,FsType.text,length_nil]
  omega

theorem plainTab_length (header disk start size : Amount) (blanks : Blanks) :
    (plainTab header disk [.inr (lineOf start size blanks)]).text.length =
      header.text.length + disk.text.length + start.text.length + size.text.length + blanks.bytes.length + 57 := by
  have value := lineOf_value_length start size blanks
  have property : (ascii "property").length = 8 := by decide +kernel
  have partition : (ascii "partition").length = 9 := by decide +kernel
  have headerName : (ascii "gpt_header_lba").length = 14 := by decide +kernel
  have diskName : (ascii "disk_size").length = 9 := by decide +kernel
  have lines : (plainTab header disk [.inr (lineOf start size blanks)]).lines = [ascii "property" ++ [colon],
      ascii "gpt_header_lba" ++ equalSign :: header.text,ascii "disk_size" ++ equalSign :: disk.text,ascii "partition" ++ [colon],
      97 :: equalSign :: (lineOf start size blanks).value] := by
    simp only [Tab.lines,plainTab,lineText,plainProperty,headerKey,diskKey,Property.text,Label.text,Note.text,noBlanks,plainTail,commentText,
      lineOf,shortName,Entry.text,map_nil,map_cons,nil_append,append_nil,cons_append]
  rw [Tab.text,lines]
  simp [List.intercalate,List.intersperse,value,property,partition,headerName,diskName]
  omega

theorem plainTab_made (get_uuid : Nat → Guid) {header disk start size : Amount} {blanks : Blanks}
    (short : header.text.length + disk.text.length + start.text.length + size.text.length + blanks.bytes.length < 121)
    (accepted : Entry.accepted (disk.word / 512 - 1) (lineOf start size blanks) = true) :
    ∃ files, main get_uuid (plainTab header disk [.inr (lineOf start size blanks)]).text =
      some ⟨[],[(lineOf start size blanks).gptEntry (get_uuid 1)],some files⟩ := by
  have value := lineOf_value_length start size blanks
  have text := plainTab_length header disk start size blanks
  obtain ⟨messages,made,none_⟩ := main_made get_uuid (by omega : (plainTab header disk [.inr (lineOf start size blanks)]).text.length < 2048)
    (by intro e member; rw [mem_singleton.mp member]; omega)
  have silent : messages = [] := none_.mpr (by intro e member; rw [mem_singleton.mp member]; exact accepted)
  have only : (plainTab header disk [.inr (lineOf start size blanks)]).accepted = [lineOf start size blanks] := by
    exact filter_eq_self.mpr (by intro e member; rw [mem_singleton.mp member]; exact accepted)
  rw [only,silent] at made
  exact ⟨_,made⟩

theorem line_taken {header disk start size : Amount}
    (short : header.text.length + disk.text.length + start.text.length + size.text.length < 121)
    (accepted : Entry.accepted (disk.word / 512 - 1) (lineOf start size noBlanks) = true) :
    ∃ (t : Tab) (get_uuid : Nat → Guid) (out : Output) (e : GptEntry), t.headerBlock = header.word / 512 ∧ t.diskBlocks = disk.word / 512 ∧
      main get_uuid t.text = some out ∧ e ∈ out.entries ∧ e.starting_lba = (lineOf start size noBlanks).first ∧
      e.ending_lba = (lineOf start size noBlanks).last := by
  obtain ⟨files,made⟩ := @plainTab_made (fun _ => Guid.ofBytes []) header disk start size noBlanks short accepted
  exact ⟨plainTab header disk [.inr (lineOf start size noBlanks)],fun _ => Guid.ofBytes [],_,
    (lineOf start size noBlanks).gptEntry (Guid.ofBytes []),rfl,rfl,made,mem_singleton.mpr rfl,rfl,rfl⟩

theorem amountOf_blocks {n : Nat} (small : n < 2 ^ 55) : ((amountOf (512*n)).word / 512).toNat = n := by
  rw [div512_toNat,Amount.word_toNat _ (by rw [amountOf_value (by omega)]; omega),amountOf_value (by omega)]
  omega

theorem oneBlock {n : Nat} (small : n < 2 ^ 55) :
    (lineOf (amountOf (512*n)) (amountOf (512*1)) noBlanks).first.toNat = n ∧
      (lineOf (amountOf (512*n)) (amountOf (512*1)) noBlanks).last.toNat = n := by
  have first : (lineOf (amountOf (512*n)) (amountOf (512*1)) noBlanks).first.toNat = n := amountOf_blocks small
  have one : ((lineOf (amountOf (512*n)) (amountOf (512*1)) noBlanks).place.2 / 512).toNat = 1 := amountOf_blocks (by decide)
  have sum : ∀ f s : BitVec 64, f.toNat < 2 ^ 55 → s.toNat = 1 → (f + s - 1).toNat = f.toNat := by
    bv_omega
  exact ⟨first,(sum _ _ (by omega) one).trans first⟩

theorem oneBlock_accepted {n : Nat} {blocks : BitVec 64} (low : 34 ≤ n) (small : n < 2 ^ 55) (room : 0 < blocks.toNat → n < blocks.toNat) :
    Entry.accepted (blocks-1) (lineOf (amountOf (512*n)) (amountOf (512*1)) noBlanks) = true := by
  obtain ⟨first,last⟩ := oneBlock small
  have limit : n ≤ (blocks-1).toNat := by
    rcases Nat.eq_zero_or_pos blocks.toNat with zero | some_
    · bv_omega
    · bv_omega
  simp only [Entry.accepted,Bool.and_eq_true,Bool.not_eq_true',decide_eq_false_iff_not,BitVec.lt_def,first,last]
  exact ⟨⟨rfl,Nat.not_lt_of_le low⟩,Nat.not_lt_of_le limit⟩

theorem block_taken {header blocks : BitVec 64} {n : Nat} (headerSmall : header.toNat < 2 ^ 55) (blocksSmall : blocks.toNat < 2 ^ 55)
    (low : 34 ≤ n) (small : n < 2 ^ 55) (room : 0 < blocks.toNat → n < blocks.toNat) :
    ∃ (t : Tab) (get_uuid : Nat → Guid) (out : Output) (e : GptEntry), t.headerBlock = header ∧ t.diskBlocks = blocks ∧
      main get_uuid t.text = some out ∧ e ∈ out.entries ∧ e.starting_lba.toNat = n ∧ e.ending_lba.toNat = n := by
  have length := fun n (bound : n < 2 ^ 55) => @amountOf_text_length (512*n) (by omega)
  have same : ∀ v : BitVec 64, v.toNat < 2 ^ 55 → (amountOf (512*v.toNat)).word / 512 = v := fun v bound =>
    BitVec.eq_of_toNat_eq (amountOf_blocks bound)
  have accepted := oneBlock_accepted low small room
  rw [← same blocks blocksSmall] at accepted
  have short : (amountOf (512*header.toNat)).text.length + (amountOf (512*blocks.toNat)).text.length + (amountOf (512*n)).text.length +
      (amountOf (512*1)).text.length < 121 := by
    have := length _ headerSmall
    have := length _ blocksSmall
    have := length _ small
    have := length 1 (by decide)
    omega
  obtain ⟨t,get_uuid,out,e,atHeader,onDisk,made,member,starting,ending⟩ := line_taken short accepted
  obtain ⟨first,last⟩ := oneBlock small
  exact ⟨t,get_uuid,out,e,atHeader.trans (same header headerSmall),onDisk.trans (same blocks blocksSmall),made,member,
    by rw [starting,first],by rw [ending,last]⟩

/-- For a place of the header and a size of the disk, all texts leave the table alone exactly if it is in front of the
    partitions or no partition can reach it. -/
theorem apart_iff {header blocks : BitVec 64} (headerSmall : header.toNat < 2 ^ 55) (blocksSmall : blocks.toNat < 2 ^ 55) :
    (∀ (t : Tab) (get_uuid : Nat → Guid) (out : Output), t.headerBlock = header → t.diskBlocks = blocks →
      main get_uuid t.text = some out → ∀ e ∈ out.entries, Apart header e) ↔
    header.toNat ≤ 1 ∨ (0 < blocks.toNat ∧ blocks.toNat ≤ max header.toNat 34) := by
  constructor
  · intro all
    by_contra reach
    push Not at reach
    -- one block where the header is, or right behind block 33
    obtain ⟨t,get_uuid,out,e,atHeader,onDisk,made,member,first,last⟩ :=
      block_taken headerSmall blocksSmall (Nat.le_max_right header.toNat 34) (by omega) reach.2
    have apart := all t get_uuid out atHeader onDisk made e member
    rw [Apart] at apart
    omega
  rintro condition t get_uuid out rfl rfl made e member
  obtain ⟨line,uuid,accepted,rfl⟩ := made_accepted made e member
  have low := accepted_low accepted
  rcases condition with front | ⟨some_,limit⟩
  · exact .inr (.inr (show t.headerBlock.toNat + 32 < line.first.toNat by omega))
  obtain ⟨_,fits,last⟩ := accepted_place some_ accepted
  show line.last.toNat < line.first.toNat ∨ line.last.toNat < t.headerBlock.toNat ∨ t.headerBlock.toNat + 32 < line.first.toNat
  omega

/-- An image without messages and with its header in block 1 is read back as the text says exactly if the text is
    readable; and for a place of the header and a size of the disk no partition overlaps the table in any image exactly if
    the table is in front of block 34 or no partition can reach it. -/
theorem image_decodes_iff {t : Tab} {get_uuid : Nat → Guid} {lba : BitVec 32} (disk : Nat → UInt8) (few : t.entries.length ≤ 128)
    (names : ∀ e ∈ t.entries, e.name.bytes.length ≤ 31) (header : t.headerLba.value = 512) (size : lba.toNat = t.disk.value / 512)
    (quiet : ∀ out, main get_uuid t.text = some out → out.messages = []) {place blocks : BitVec 64} (placeSmall : place.toNat < 2 ^ 55)
    (blocksSmall : blocks.toNat < 2 ^ 55) :
    ((∃ out files, main get_uuid t.text = some out ∧ out.files = some files ∧ Decodes t ⟨lba,written disk files⟩) ↔ ReadableTab t) ∧
    ((∀ (t : Tab) (get_uuid : Nat → Guid) (out : Output), t.headerBlock = place → t.diskBlocks = blocks →
      main get_uuid t.text = some out → ∀ e ∈ out.entries, Apart place e) ↔
      place.toNat ≤ 1 ∨ (0 < blocks.toNat ∧ blocks.toNat ≤ max place.toNat 34)) :=
  ⟨decodes_iff disk few names header size quiet,apart_iff placeSmall blocksSmall⟩

/-! ### Single partitions -/

def smallTab : Tab :=
  plainTab (amountOf (512 * 1)) (amountOf (512 * 100)) [.inr (lineOf (amountOf (512 * 34)) (amountOf (512 * 1)) noBlanks)]

theorem partition_decodes :
    (∃ out files, main (fun _ => Guid.ofBytes []) smallTab.text = some out ∧ out.files = some files ∧
      Decodes smallTab ⟨100,written (fun _ => 0) files⟩) ∧
    ∀ (t : Tab) (get_uuid : Nat → Guid) (out : Output), t.headerBlock = 1 → t.diskBlocks = 100 → main get_uuid t.text = some out →
      ∀ e ∈ out.entries, Apart 1 e := by
  have value : ∀ n : Nat, n < 2 ^ 55 → (amountOf (512*n)).value = 512 * n := fun n small => amountOf_value (by omega)
  have length : ∀ n : Nat, n < 2 ^ 55 → (amountOf (512*n)).text.length ≤ 20 := fun n small => amountOf_text_length (by omega)
  have one := length 1 (by decide)
  have hundred := length 100 (by decide)
  have start := length 34 (by decide)
  have accepted := @oneBlock_accepted 34 ((amountOf (512*100)).word / 512) (by decide) (by decide) fun _ => by
    decide
  obtain ⟨made,image⟩ := @plainTab_made (fun _ => Guid.ofBytes []) (amountOf (512*1)) (amountOf (512*100)) _ _ noBlanks
    (by show _ + 0 < 121; omega) accepted
  obtain ⟨decodes,apart⟩ := @image_decodes_iff smallTab (fun _ => Guid.ofBytes []) 100 (fun _ => 0) (by decide)
    (by intro e member; cases mem_singleton.mp member; decide) (value 1 (by decide)) (by
      show 100 = (amountOf (512*100)).value / 512
      rw [value 100 (by decide)]) (by
      intro out made
      cases (image.symm.trans made)
      rfl) 1 100 (by decide) (by decide)
  refine ⟨decodes.mpr ⟨?_,cons_ne_nil _ _,?_,?_⟩,apart.mpr (.inl (by decide))⟩
  · have text := plainTab_length (amountOf (512*1)) (amountOf (512*100)) (amountOf (512*34)) (amountOf (512*1)) noBlanks
    have none_ : noBlanks.bytes.length = 0 := rfl
    show (plainTab _ _ _).text.length < 2048
    omega
  · decide
  intro e member
  rw [mem_singleton.mp member]
  have text := lineOf_value_length (amountOf (512*34)) (amountOf (512*1)) noBlanks
  have none_ : noBlanks.bytes.length = 0 := rfl
  refine ⟨by omega,by decide +kernel,?_,?_,.inl rfl⟩
  · decide
  · decide

def megabytes (digit : UInt8) (is : isdigit digit = true) : Amount :=
  ⟨[digit],cons_ne_nil _ _,by intro c member; rwa [mem_singleton.mp member],some .m⟩

def oneBlank : Blanks := ⟨[32],by decide +kernel⟩

def movedTab : Tab := plainTab (megabytes 50 rfl) (megabytes 57 rfl) [.inr (lineOf (megabytes 49 rfl) (megabytes 52 rfl) noBlanks)]

def blankTab : Tab := plainTab (amountOf 512) (megabytes 57 rfl) [.inr (lineOf (megabytes 49 rfl) (megabytes 52 rfl) oneBlank)]

def emptyTab : Tab := plainTab (amountOf 512) (megabytes 57 rfl) []

/-- Without a message: a partition from block 2048 to 10239 takes the blocks of the table behind block 4096; four megabytes
    with a blank behind them are read back as no block; and a table without partitions is not valid. -/
theorem images_not_as_configured :
    (∃ files e, main (fun _ => Guid.ofBytes []) movedTab.text = some ⟨[],[e],some files⟩ ∧ movedTab.headerBlock = 4096 ∧
      e.starting_lba = 2048 ∧ e.ending_lba = 10239 ∧ ¬ Apart 4096 e) ∧
    (∃ files e info, main (fun _ => Guid.ofBytes []) blankTab.text = some ⟨[],[e],some files⟩ ∧
      get_partition_info_efi ⟨18432,written (fun _ => 0) files⟩ 1 = some (some info) ∧ info.size = 0 ∧
      blankTab.entries.map (fun e => e.size.value / 512) = [8192]) ∧
    ∃ files, main (fun _ => Guid.ofBytes []) emptyTab.text = some ⟨[],[],some files⟩ ∧
      ∀ found, is_gpt_valid ⟨18432,written (fun _ => 0) files⟩ GPT_PRIMARY_PARTITION_TABLE_LBA ≠ some (some found) := by
  refine ⟨?_,?_,?_⟩
  · obtain ⟨files,made⟩ := @plainTab_made (fun _ => Guid.ofBytes []) (megabytes 50 rfl) (megabytes 57 rfl) (megabytes 49 rfl) (megabytes 52 rfl)
      noBlanks (by decide) (by decide +kernel)
    refine ⟨files,_,made,by decide +kernel,by decide +kernel,by decide +kernel,?_⟩
    rw [Apart]
    decide +kernel
  · have accepted : Entry.accepted ((megabytes 57 rfl).word / 512 - 1) (lineOf (megabytes 49 rfl) (megabytes 52 rfl) oneBlank) = true := by
      decide +kernel
    obtain ⟨_,image⟩ := @plainTab_made (fun _ => Guid.ofBytes []) (amountOf 512) _ _ _ oneBlank (by decide +kernel) accepted
    obtain ⟨made,all⟩ := @quiet_image blankTab (fun _ => Guid.ofBytes []) (by decide) (by decide +kernel) (by
      intro e member
      rw [mem_singleton.mp member]
      decide +kernel) (by
      intro out made
      rw [← Option.some.inj (image.symm.trans made)])
    obtain ⟨_,_,found⟩ := @image_read blankTab (fun _ => Guid.ofBytes []) 18432 (fun _ => 0) (by decide) (by
      intro e member
      rw [mem_singleton.mp member]
      decide) (amountOf_value (by decide)) (by decide +kernel) (cons_ne_nil _ _) (by decide +kernel) all _ rfl
    refine ⟨_,_,_,made,found 0 _ rfl,?_,by decide +kernel⟩
    exact BitVec.eq_of_toNat_eq ((info_place _ (by decide +kernel) (by decide +kernel) accepted).2.trans (by decide +kernel))
  have short : emptyTab.text.length < 2048 := by decide +kernel
  obtain ⟨messages,made,none_⟩ := main_made (fun _ => Guid.ofBytes []) short (fun e member => (nomatch member))
  rw [none_.mpr fun e member => (nomatch member)] at made
  exact ⟨_,made,fun found => empty_invalid (congrArg (written _) (files_count rfl _))⟩

end UBoot.GptImage
