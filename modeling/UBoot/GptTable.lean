import UBoot.Gpt

/-!
What `gpt_restore` leaves on the device. Headers and entries survive being written and read,
the heap holds the two buffers as long as the stores behind the small buffer of the MBR miss
them, and the device ends with both copies of the table (`gpt_restore_iff`). What `is_gpt_valid`
says about a header that was sealed with its checksum depends on the entries alone (`sealed_valid`).
-/
namespace UBoot.Gpt
open List CStrings CNumbers Memory
open EnvCopies (crc32)

variable {dev : BlockDev} {entries : List GptEntry} {parts : List DiskPartition}

/-! ### Structures written and read -/

theorem Guid.ofBytes_append (g : Guid) (rest : List UInt8) : Guid.ofBytes (g.b ++ rest) = g := by
  obtain ⟨b,length⟩ := g
  have enough : 16 ≤ (b ++ rest).length := by simp [length]
  simp only [Guid.ofBytes,Guid.mk.injEq]
  rw [takeD_eq_take _ enough,take_left' length]

theorem Guid.drop_append (g : Guid) (rest : List UInt8) : (g.b ++ rest).drop 16 = rest := drop_left' g.length

@[simp] theorem GptHeader.bytes_length (h : GptHeader) : h.bytes.length = 92 := by
  simp [GptHeader.bytes,h.disk_guid.length]

theorem GptHeader.ofBytes_append (h : GptHeader) (rest : List UInt8) : GptHeader.ofBytes (h.bytes ++ rest) = h := by
  simp only [GptHeader.ofBytes,GptHeader.bytes,append_assoc,takeLe_leBytes (by decide : 8 ∣ 64),
    takeLe_leBytes (by decide : 8 ∣ 32),Guid.ofBytes_append,Guid.drop_append]

theorem chars_length (name : List (BitVec 16)) : (name.flatMap leBytes).length = 2 * name.length := by
  induction name with
  | nil => rfl
  | cons c name ih => simp [ih]; omega

theorem takeChars_append (name : List (BitVec 16)) (rest : List UInt8) :
    takeChars name.length (name.flatMap leBytes ++ rest) = name := by
  induction name with
  | nil => rfl
  | cons c name ih =>
    simp only [length_cons,flatMap_cons,append_assoc,takeChars,takeLe_leBytes (by decide : 8 ∣ 16),ih]

theorem GptEntry.bytes_length {e : GptEntry} (name : e.partition_name.length = PARTNAME_SZ) : e.bytes.length = 128 := by
  simp only [GptEntry.bytes,length_append,chars_length,leBytes_length,name,e.partition_type_guid.length,
    e.unique_partition_guid.length,PARTNAME_SZ]

theorem GptEntry.ofBytes_bytes {e : GptEntry} (name : e.partition_name.length = PARTNAME_SZ) :
    GptEntry.ofBytes e.bytes = e := by
  have chars : takeChars PARTNAME_SZ (e.partition_name.flatMap leBytes) = e.partition_name := by
    rw [← name]
    simpa using takeChars_append e.partition_name []
  simp only [GptEntry.ofBytes,GptEntry.bytes,Guid.ofBytes_append,Guid.drop_append,
    takeLe_leBytes (by decide : 8 ∣ 64),chars]

theorem flatMap_piece {α : Type*} {f : α → List UInt8} {k : Nat} {xs : List α} (len : ∀ x ∈ xs, (f x).length = k)
    (rest : List UInt8) {i : Nat} (inside : i < xs.length) :
    ((xs.flatMap f ++ rest).drop (k*i)).take k = f xs[i] := by
  induction xs generalizing i with
  | nil => simp at inside
  | cons x xs ih =>
    have first : (f x).length = k := len x (by simp)
    cases i with
    | zero =>
      rw [flatMap_cons,append_assoc,Nat.mul_zero,drop_zero,take_left' first]
      rfl
    | succ i =>
      have shift : k * (i+1) = k + k * i := by ring
      rw [flatMap_cons,append_assoc,shift,← drop_drop,drop_left' first,
        ih (fun y member => len y (by simp [member])) (by simpa using inside)]
      rfl

theorem flatMap_length {α : Type*} {f : α → List UInt8} {k : Nat} {xs : List α} (len : ∀ x ∈ xs, (f x).length = k) :
    (xs.flatMap f).length = k * xs.length := by
  induction xs with
  | nil => simp
  | cons x xs ih =>
    rw [flatMap_cons,length_append,len x (by simp),ih (fun y member => len y (by simp [member])),
      length_cons]
    ring

/-! ### The two buffers -/

def GptHeader.block (h : GptHeader) : List UInt8 := h.bytes ++ zeros 420

@[simp] theorem GptHeader.block_length (h : GptHeader) : h.block.length = 512 := by simp [GptHeader.block]

theorem GptHeader.ofBytes_block (h : GptHeader) : GptHeader.ofBytes h.block = h := h.ofBytes_append _

theorem zeros_unsigned : (GptHeader.ofBytes (zeros 512)).signature ≠ GPT_HEADER_SIGNATURE := by decide +kernel

def entryArray (entries : List GptEntry) : List UInt8 :=
  (entries.flatMap GptEntry.bytes ++ zeros 16384).take 16384

@[simp] theorem entryArray_length (entries : List GptEntry) : (entryArray entries).length = 16384 := by
  simp [entryArray]

/-- The heap holds the header at `a` and the entries at `b`. -/
structure Holds (mem : Nat → UInt8) (a b : Nat) (h : GptHeader) (array : List UInt8) : Prop where
  header : load mem a 512 = h.block
  array : load mem b 16384 = array

variable {mem : Nat → UInt8} {a b c : Nat} {h : GptHeader} {array : List UInt8}

theorem Holds.headerAt (holds : Holds mem a b h array) : headerAt mem a = h := by
  have start : load mem a 92 = h.bytes := by
    rw [← load_take (by decide : 92 ≤ 512),holds.header,GptHeader.block,take_left' h.bytes_length]
  rw [Gpt.headerAt,start]
  simpa using h.ofBytes_append []

theorem Holds.headerCrc (holds : Holds mem a b h array) (size : h.header_size = 92) :
    efi_crc32 mem a (Gpt.headerAt mem a).header_size.toNat = (crc32 0 h.bytes).toBitVec := by
  have start : load mem a 92 = h.bytes := by
    rw [← load_take (by decide : 92 ≤ 512),holds.header,GptHeader.block,take_left' h.bytes_length]
  rw [holds.headerAt,size]
  simp [efi_crc32,start]

theorem Holds.store_apart (holds : Holds mem a b h array) {x : Nat} {bytes : List UInt8}
    (hdr : a + 512 ≤ x ∨ x + bytes.length ≤ a) (arr : b + 16384 ≤ x ∨ x + bytes.length ≤ b) :
    Holds (store mem x bytes) a b h array :=
  ⟨by rw [load_store_apart hdr,holds.header],by rw [load_store_apart arr,holds.array]⟩

theorem Holds.change (holds : Holds mem a b h array) (apart : a + 512 ≤ b ∨ b + 16384 ≤ a)
    (f : GptHeader → GptHeader) : Holds (changeHeader mem a f) a b (f h) array := by
  rw [changeHeader,holds.headerAt]
  constructor
  · have rest : load mem (a+92) 420 = zeros 420 := by
      have := @load_drop mem a 512 92 (by decide)
      rw [holds.header,GptHeader.block,drop_left' h.bytes_length] at this
      exact this.symm
    rw [show 512 = 92 + 420 from rfl,load_add,load_store_of_length (f h).bytes_length,
      load_store_apart (.inr (by simp)),rest,GptHeader.block]
  · rw [load_store_apart (by simp; omega),holds.array]

/-! ### Writing the table -/

def GptHeader.sealed (h : GptHeader) : GptHeader := h.setCrc (crc32 0 (h.setCrc 0).bytes).toBitVec

section
variable (h : GptHeader)
@[simp] theorem GptHeader.sealed_signature : h.sealed.signature = h.signature := rfl
@[simp] theorem GptHeader.sealed_header_size : h.sealed.header_size = h.header_size := rfl
@[simp] theorem GptHeader.sealed_my_lba : h.sealed.my_lba = h.my_lba := rfl
@[simp] theorem GptHeader.sealed_first_usable_lba : h.sealed.first_usable_lba = h.first_usable_lba := rfl
@[simp] theorem GptHeader.sealed_last_usable_lba : h.sealed.last_usable_lba = h.last_usable_lba := rfl
@[simp] theorem GptHeader.sealed_num : h.sealed.num_partition_entries = h.num_partition_entries := rfl
@[simp] theorem GptHeader.sealed_sizeof : h.sealed.sizeof_partition_entry = h.sizeof_partition_entry := rfl
@[simp] theorem GptHeader.sealed_array_crc :
    h.sealed.partition_entry_array_crc32 = h.partition_entry_array_crc32 := rfl
end

def GptHeader.primary (h : GptHeader) (array : List UInt8) : GptHeader :=
  (h.setArrayCrc (crc32 0 array).toBitVec).sealed

/-- The header of the second table; it names the entries of the first. -/
def GptHeader.backup (h : GptHeader) (array : List UInt8) : GptHeader :=
  (h.setArrayCrc (crc32 0 array).toBitVec).swapLba.sealed

theorem Holds.seal (holds : Holds mem a b h array) (apart : a + 512 ≤ b ∨ b + 16384 ≤ a) (size : h.header_size = 92)
    (unsealed : h.setCrc 0 = h) :
    Holds (changeHeader mem a (·.setCrc (efi_crc32 mem a (Gpt.headerAt mem a).header_size.toNat))) a b h.sealed array := by
  have changed := holds.change apart (·.setCrc (efi_crc32 mem a (Gpt.headerAt mem a).header_size.toNat))
  rw [GptHeader.sealed,unsealed,← holds.headerCrc size]
  exact changed

/-- The heap after the stores into the MBR at `p`. -/
def mbrStores (mem : Nat → UInt8) (p : Nat) (lba : BitVec 32) : Nat → UInt8 :=
  store (store (store (store (store mem p (zeros 4)) (p + 510) (leBytes MSDOS_MBR_SIGNATURE))
    (p + 450) [EFI_PMBR_OSTYPE_EFI_GPT]) (p + 454) (leBytes (1 : BitVec 32))) (p + 458) (leBytes lba)

theorem set_protective_mbr_eq (dev : BlockDev) (mem : Nat → UInt8) (p : Nat) :
    set_protective_mbr dev mem (some p) =
      (dev.block_write 0 1 (load (mbrStores mem p dev.lba) p 512)).map fun dev' => (dev',mbrStores mem p dev.lba) := rfl

theorem pmbr_valid_of {mem : Nat → UInt8} {p : Nat} (signature : load mem (p+510) 2 = leBytes MSDOS_MBR_SIGNATURE)
    (kind : mem (p+450) = EFI_PMBR_OSTYPE_EFI_GPT) (start : load mem (p+454) 4 = leBytes (1 : BitVec 32)) :
    is_pmbr_valid (load mem p 512) = true := by
  have signature : (takeLe 16 ((load mem p 512).drop 510)).1 = MSDOS_MBR_SIGNATURE := by
    rw [load_drop (by decide),signature,← append_nil (leBytes _),takeLe_leBytes (by decide)]
  have kind : (load mem p 512)[450]? = some EFI_PMBR_OSTYPE_EFI_GPT := by
    rw [getElem?_eq_getElem (by simp),load_getElem,kind]
  have start : le32At (load mem p 512) 454 = 1 := by
    have tail : load mem (p+454) 58 = leBytes (1 : BitVec 32) ++ load mem (p+458) 54 := by
      rw [show 58 = 4 + 54 from rfl,load_add,start]
    rw [le32At,load_drop (by decide),tail,takeLe_leBytes (by decide)]
  have record : pmbr_part_valid (load mem p 512) 446 = true := by
    show (decide (_ = some EFI_PMBR_OSTYPE_EFI_GPT) && decide (le32At _ 454 = 1)) = true
    rw [kind,start]
    rfl
  simp only [is_pmbr_valid,signature,decide_true,Bool.true_and,any_eq_true]
  exact ⟨0,by decide,record⟩

/-- Whatever the heap held behind the buffer, the MBR that is written is valid. -/
theorem mbr_valid (mem : Nat → UInt8) (p : Nat) (lba : BitVec 32) :
    is_pmbr_valid (load (mbrStores mem p lba) p 512) = true := by
  refine pmbr_valid_of ?_ ?_ ?_
  · rw [mbrStores,load_store_apart (.inr (by simp)),load_store_apart (.inr (by simp)),
      load_store_apart (.inr (by simp)),load_store_of_length (by simp)]
  · rw [mbrStores,store_outside (.inl (by omega)),store_outside (.inl (by omega))]
    exact store_inside (by simp : 0 < [EFI_PMBR_OSTYPE_EFI_GPT].length)
  · rw [mbrStores,load_store_apart (.inl (by omega)),load_store_of_length (by simp)]

theorem Holds.mbrStores (holds : Holds mem a b h array) (lba : BitVec 32) (hdr : c + 512 ≤ a ∨ a + 512 ≤ c)
    (arr : c + 512 ≤ b ∨ b + 16384 ≤ c) : Holds (mbrStores mem c lba) a b h array := by
  have one : ∀ {mem : Nat → UInt8} (k : Nat) (bytes : List UInt8), k + bytes.length ≤ 512 →
      Holds mem a b h array → Holds (store mem (c+k) bytes) a b h array :=
    fun k bytes fits holds => holds.store_apart (by omega) (by omega)
  exact one 458 _ (by simp) (one 454 _ (by simp) (one 450 _ (by simp) (one 510 _ (by simp) (one 0 _ (by simp) holds))))

theorem write_gpt_table_eq (holds : Holds mem a b h array) (apart : a + 512 ≤ b ∨ b + 16384 ≤ a)
    (hdr : c + 512 ≤ a ∨ a + 512 ≤ c) (arr : c + 512 ≤ b ∨ b + 16384 ≤ c) (size : h.header_size = 92)
    (num : h.num_partition_entries = 128) (entrySize : h.sizeof_partition_entry = 128) (crc : h.header_crc32 = 0)
    (dev : BlockDev) :
    write_gpt_table dev mem a b (some c) =
      (dev.block_write 0 1 (load (mbrStores mem c dev.lba) c 512)).bind fun dev =>
      (dev.block_write 1 1 (h.primary array).block).bind fun dev =>
      (dev.block_write 2 32 array).bind fun dev =>
      (dev.block_write ((h.last_usable_lba+1).setWidth 32).toNat 32 array).bind fun dev =>
      dev.block_write (h.alternate_lba.setWidth 32).toNat 1 (h.backup array).block := by
  have count : ((128 : BitVec 32) * 128).toNat = 16384 := by decide
  have blocks : BLOCK_CNT ((128 : BitVec 32).toNat * 128) = 32 := by decide
  simp only [write_gpt_table,set_protective_mbr_eq,holds.headerAt,num,blocks]
  have atMbr := holds.mbrStores dev.lba hdr arr
  cases dev.block_write 0 1 (load (mbrStores mem c dev.lba) c 512) with
  | none => rfl
  | some dev' =>
    -- the buffers after each change of the header
    generalize mbrStores mem c dev.lba = mem₁ at atMbr
    have arrayCrc : efi_crc32 mem₁ b 16384 = (crc32 0 array).toBitVec := by rw [efi_crc32,atMbr.array]
    simp only [Option.map_some,Option.bind_some,atMbr.headerAt,num,entrySize,count,arrayCrc]
    have withArray := atMbr.change apart (·.setArrayCrc (crc32 0 array).toBitVec)
    generalize changeHeader mem₁ a (·.setArrayCrc (crc32 0 array).toBitVec) = mem₂ at withArray
    have first := withArray.seal apart size (by rw [← crc]; rfl)
    have swapped := first.change apart fun h => h.swapLba.setCrc 0
    have second := swapped.seal apart size rfl
    have resealed : ((h.setArrayCrc (crc32 0 array).toBitVec).sealed.swapLba.setCrc 0).sealed = h.backup array := rfl
    have sealedOnce : (h.setArrayCrc (crc32 0 array).toBitVec).sealed = h.primary array := rfl
    rw [resealed] at second
    rw [sealedOnce] at first
    have alternate : (h.backup array).my_lba = h.alternate_lba := rfl
    have last : (h.backup array).last_usable_lba = h.last_usable_lba := rfl
    simp only [first.header,first.array,second.headerAt,second.header,second.array,alternate,last]
    cases dev'.block_write 1 1 (h.primary array).block with
    | none => rfl
    | some dev₁ =>
      simp only [Option.bind_some]
      cases dev₁.block_write 2 32 array with
      | none => rfl
      | some dev₂ =>
        simp only [Option.bind_some]
        cases dev₂.block_write ((h.last_usable_lba+1).setWidth 32).toNat 32 array with
        | none => rfl
        | some dev₃ => rfl

/-! ### What the device holds in the end -/

theorem block_write_inside {start blkcnt : Nat} {buffer : List UInt8}
    (inside : start + blkcnt ≤ dev.lba.toNat) :
    dev.block_write start blkcnt buffer = some ⟨dev.lba,store dev.disk (512*start) buffer⟩ := if_pos inside

theorem block_write_some {dev' : BlockDev} {start blkcnt : Nat} {buffer : List UInt8}
    (done : dev.block_write start blkcnt buffer = some dev') :
    start + blkcnt ≤ dev.lba.toNat ∧ dev'.lba.toNat = dev.lba.toNat := by
  rw [BlockDev.block_write] at done
  split_ifs at done with inside
  cases done
  exact ⟨inside,rfl⟩

theorem block_read_inside {dev : BlockDev} {start blkcnt : Nat} (inside : start + blkcnt ≤ dev.lba.toNat) :
    dev.block_read start blkcnt = some (load dev.disk (512*start) (512*blkcnt)) := if_pos inside

/-- The disk after the five writes, for a device of `lba` blocks. -/
def written (disk : Nat → UInt8) (lba : Nat) (mbr first array second : List UInt8) : Nat → UInt8 :=
  store (store (store (store (store disk 0 mbr) 512 first) 1024 array) (512 * (lba - 33)) array) (512 * (lba - 1)) second

/-- The addresses of the three buffers, for `n` partitions. `calloc` keeps the buffers of header and
    entries apart; that the 512 bytes from the MBR on miss them is luck, as only 4 were allocated. -/
structure Heap.Apart (heap : Heap) (n a b c : Nat) : Prop where
  gpt_h : heap.gpt_h = some a
  gpt_e : heap.gpt_e = some b
  p_mbr : heap.p_mbr = some c
  buffers : a + 512 ≤ b ∨ b + max 16384 (128 * n) ≤ a
  mbrHeader : c + 512 ≤ a ∨ a + 512 ≤ c
  mbrEntries : c + 512 ≤ b ∨ b + 16384 ≤ c

theorem fillLoop_cons {last : BitVec 64} {offset : BitVec 32} {p : DiskPartition}
    : fillLoop last offset (p :: parts) = some entries ↔
      ¬ (p.start ≠ 0 ∧ p.start < offset) ∧ ¬ last ≤ (p.starting offset + p.size).setWidth 64 ∧
      ∃ guid, string_uuid p.uuid = some guid ∧ ∃ rest, fillLoop last (p.starting offset + p.size) parts = some rest ∧
        p.entry last offset parts guid :: rest = entries := by
  rw [fillLoop]
  by_cases overlap : p.start ≠ 0 ∧ p.start < offset
  · rw [if_pos overlap]
    exact iff_of_false (by simp) (fun goes => goes.1 overlap)
  rw [if_neg overlap]
  by_cases exceeds : last ≤ (p.starting offset + p.size).setWidth 64
  · rw [if_pos exceeds]
    exact iff_of_false (by simp) (fun goes => goes.2.1 exceeds)
  rw [if_neg exceeds]
  rw [and_iff_right overlap,and_iff_right exceeds]
  cases string_uuid p.uuid with
  | none => simp
  | some guid => simp [Option.map_eq_some_iff]

theorem fillLoop_entries {last : BitVec 64} {offset : BitVec 32}
    (filled : fillLoop last offset parts = some entries) :
    entries.length = parts.length ∧ ∀ e ∈ entries, e.partition_name.length = PARTNAME_SZ := by
  induction parts generalizing offset entries with
  | nil =>
    cases filled
    simp
  | cons p parts ih =>
    obtain ⟨-,-,guid,-,rest,others,rfl⟩ := fillLoop_cons.mp filled
    obtain ⟨count,names⟩ := ih others
    refine ⟨by simp [count],?_⟩
    intro e member
    rcases mem_cons.mp member with rfl | member
    · simp [DiskPartition.entry,entryName,p.name_length,PARTNAME_SZ]
    · exact names e member

/-- The heap with the buffers as `gpt_restore` fills them. -/
def Heap.filled (heap : Heap) (a b : Nat) (h : GptHeader) (entries : List GptEntry) : Nat → UInt8 :=
  store (store (store (store heap.mem a (zeros 512)) b (zeros 16384)) a h.bytes) b (entries.flatMap GptEntry.bytes)

theorem filled_holds {heap : Heap} {n : Nat} (apart : heap.Apart n a b c)
    (count : (entries.flatMap GptEntry.bytes).length = 128 * n) :
    Holds (heap.filled a b h entries) a b h (entryArray entries) := by
  rw [Heap.filled]
  have buffers := apart.buffers
  have clear : ∀ x, a ≤ x → x < a + 512 → store (store heap.mem a (zeros 512)) b (zeros 16384) x = 0 := by
    intro x low high
    obtain ⟨i,rfl⟩ := Nat.exists_eq_add_of_le low
    rw [store_outside (by simp; omega),store_inside (by simp; omega),zeros_getElem]
  constructor
  · rw [load_store_apart (by omega),show 512 = 92 + 420 from rfl,load_add,load_store_of_length h.bytes_length,
      load_store_apart (.inr (by simp)),load_zeros (fun x low high => clear x (by omega) (by omega)),GptHeader.block]
  have rest : load (store (store (store heap.mem a (zeros 512)) b (zeros 16384)) a h.bytes)
      (b + 128 * n) (16384 - 128 * n) = zeros (16384 - 128 * n) := by
    apply load_zeros
    intro x low high
    obtain ⟨i,rfl⟩ := Nat.exists_eq_add_of_le (by omega : b ≤ x)
    rw [store_outside (by simp; omega),store_inside (by simp; omega),zeros_getElem]
  rw [load_store_start,count,rest,entryArray]
  apply ext_getElem
  · simp only [length_take,length_append,count,zeros_length]
    omega
  · intro i _ _
    simp only [getElem_take,getElem_append,zeros_getElem]

def Heap.mbr (heap : Heap) (a b c : Nat) (lba : BitVec 32) (h : GptHeader) (entries : List GptEntry) : List UInt8 :=
  load (mbrStores (heap.filled a b h entries) c lba) c 512

/-- A header as `gpt_fill_header` makes it for a device of `lba` blocks. -/
structure GptHeader.Fresh (h : GptHeader) (lba : BitVec 32) : Prop where
  signature : h.signature = GPT_HEADER_SIGNATURE
  header_size : h.header_size = 92
  header_crc32 : h.header_crc32 = 0
  my_lba : h.my_lba = 1
  alternate_lba : h.alternate_lba = (lba - 1).setWidth 64
  first_usable_lba : h.first_usable_lba = 34
  last_usable_lba : h.last_usable_lba = (lba - 34).setWidth 64
  partition_entry_lba : h.partition_entry_lba = 2
  num_partition_entries : h.num_partition_entries = 128
  sizeof_partition_entry : h.sizeof_partition_entry = 128

theorem gpt_fill_header_fresh {guid : CString} (filled : gpt_fill_header dev guid = some h) :
    h.Fresh dev.lba := by
  obtain ⟨g,-,rfl⟩ := Option.map_eq_some_iff.mp filled
  exact ⟨rfl,rfl,rfl,rfl,rfl,rfl,rfl,rfl,rfl,rfl⟩

theorem gpt_restore_iff {heap : Heap} (apart : heap.Apart parts.length a b c)
    {dev' : BlockDev} {guid : CString} :
    gpt_restore heap dev guid parts = some dev' ↔
      ∃ h entries, gpt_fill_header dev guid = some h ∧ gpt_fill_pte h parts = some entries ∧ 34 ≤ dev.lba.toNat ∧
        dev' = ⟨dev.lba,written dev.disk dev.lba.toNat (heap.mbr a b c dev.lba h entries)
          (h.primary (entryArray entries)).block (entryArray entries) (h.backup (entryArray entries)).block⟩ := by
  simp only [gpt_restore,apart.gpt_h,apart.gpt_e,apart.p_mbr]
  cases header : gpt_fill_header dev guid with
  | none => simp
  | some h =>
    cases layout : gpt_fill_pte h parts with
    | none => simp [layout]
    | some entries =>
      obtain ⟨count,names⟩ := fillLoop_entries layout
      have length := flatMap_length fun e member => GptEntry.bytes_length (names e member)
      rw [count] at length
      have buffers := apart.buffers
      have fresh := gpt_fill_header_fresh header
      have table := write_gpt_table_eq (filled_holds apart length) (by omega) apart.mbrHeader apart.mbrEntries
        fresh.header_size fresh.num_partition_entries fresh.sizeof_partition_entry fresh.header_crc32 dev
      simp only [layout]
      change write_gpt_table dev (heap.filled a b h entries) a b (some c) = some dev' ↔ _
      rw [table,← Heap.mbr]
      by_cases room : 34 ≤ dev.lba.toNat
      · have behind : ((h.last_usable_lba+1).setWidth 32).toNat = dev.lba.toNat - 33 := by
          rw [fresh.last_usable_lba]
          bv_omega
        have final : (h.alternate_lba.setWidth 32).toNat = dev.lba.toNat - 1 := by
          rw [fresh.alternate_lba]
          bv_omega
        rw [behind,final,block_write_inside (by omega),Option.bind_some,block_write_inside (by simp only; omega),
          Option.bind_some,block_write_inside (by simp only; omega),Option.bind_some,
          block_write_inside (by simp only; omega),Option.bind_some,block_write_inside (by simp only; omega)]
        simp only [Nat.mul_zero,Nat.mul_one,Nat.reduceMul]
        rw [← written]
        constructor
        · intro done
          cases done
          exact ⟨h,entries,rfl,layout,room,rfl⟩
        rintro ⟨h',entries',sameHeader,sameLayout,-,rfl⟩
        cases sameHeader
        cases layout.symm.trans sameLayout
        rfl
      · -- the entries of the first table take the blocks up to 33
        constructor
        · intro done
          obtain ⟨dev₁,first,done⟩ := Option.bind_eq_some_iff.mp done
          obtain ⟨dev₂,second,done⟩ := Option.bind_eq_some_iff.mp done
          obtain ⟨dev₃,third,done⟩ := Option.bind_eq_some_iff.mp done
          have := block_write_some first
          have := block_write_some second
          have := block_write_some third
          omega
        · rintro ⟨-,-,-,-,enough,-⟩
          exact absurd enough room

/-! ### Reading a table -/

theorem entries_read {dev : BlockDev} (entryLba : h.partition_entry_lba = 2) (num : h.num_partition_entries = 128)
    (entrySize : h.sizeof_partition_entry = 128) (room : 34 ≤ dev.lba.toNat) :
    alloc_read_gpt_entries dev h = some (some (load dev.disk 1024 16384)) := by
  have count : ((128 : BitVec 32) * 128).toNat = 16384 := by decide
  have blocks : BLOCK_CNT 16384 = 32 := by decide
  have padded : PAD_TO_BLOCKSIZE 16384 = 16384 := by decide
  have at2 : ((2 : BitVec 64).setWidth 32).toNat = 2 := by decide
  simp only [alloc_read_gpt_entries,num,entrySize,entryLba,count,blocks,at2,block_read_inside (show 2 + 32 ≤ dev.lba.toNat by omega),
    load_length,padded]
  rw [if_neg (by decide),if_neg (by decide)]

/-- Whether a sealed header is found valid depends on the entries that it counts. -/
theorem sealed_valid_of {lba : BitVec 64} {pte : List UInt8}
    (block : dev.block_read (lba.setWidth 32).toNat 1 = some h.sealed.block)
    (signature : h.signature = GPT_HEADER_SIGNATURE) (size : h.header_size = 92) (mine : h.my_lba = lba)
    (bounds : ¬ (dev.lba.setWidth 64 < h.first_usable_lba ∨ dev.lba.setWidth 64 < h.last_usable_lba))
    (entries : alloc_read_gpt_entries dev h.sealed = some (some pte)) :
    is_gpt_valid dev lba =
      some (if (crc32 0 (pte.take (h.num_partition_entries*h.sizeof_partition_entry).toNat)).toBitVec =
        h.partition_entry_array_crc32 then some (h.sealed,pte) else none) := by
  have cleared : (((h.sealed.setCrc 0).bytes ++ h.sealed.block.drop 92).take 92) = (h.setCrc 0).bytes :=
    take_left' (GptHeader.bytes_length _)
  have checksum : (crc32 0 (h.setCrc 0).bytes).toBitVec = h.sealed.header_crc32 := rfl
  have size92 : h.header_size.toNat = 92 := congrArg BitVec.toNat size
  rw [is_gpt_valid,block]
  simp only [GptHeader.ofBytes_block,GptHeader.sealed_signature,GptHeader.sealed_header_size,GptHeader.sealed_my_lba,
    GptHeader.sealed_first_usable_lba,GptHeader.sealed_last_usable_lba,GptHeader.sealed_num,GptHeader.sealed_sizeof,
    GptHeader.sealed_array_crc,size92,cleared,checksum,entries,signature,mine]
  rw [if_neg (not_not.mpr rfl),if_neg (by decide),if_neg (not_not.mpr rfl),if_neg (not_not.mpr rfl),if_neg bounds]
  by_cases right : (crc32 0 (pte.take (h.num_partition_entries*h.sizeof_partition_entry).toNat)).toBitVec = h.partition_entry_array_crc32
  · rw [if_neg (not_not.mpr right),if_pos right]
  · rw [if_pos right,if_neg right]

theorem sealed_valid {lba : BitVec 64}
    (block : dev.block_read (lba.setWidth 32).toNat 1 = some h.sealed.block)
    (signature : h.signature = GPT_HEADER_SIGNATURE) (size : h.header_size = 92) (mine : h.my_lba = lba)
    (bounds : ¬ (dev.lba.setWidth 64 < h.first_usable_lba ∨ dev.lba.setWidth 64 < h.last_usable_lba))
    (entryLba : h.partition_entry_lba = 2) (num : h.num_partition_entries = 128)
    (entrySize : h.sizeof_partition_entry = 128) (room : 34 ≤ dev.lba.toNat) :
    is_gpt_valid dev lba =
      some (if (crc32 0 (load dev.disk 1024 16384)).toBitVec = h.partition_entry_array_crc32 then
        some (h.sealed,load dev.disk 1024 16384) else none) := by
  have count : ((128 : BitVec 32) * 128).toNat = 16384 := by decide
  have whole : (load dev.disk 1024 16384).take 16384 = load dev.disk 1024 16384 := take_of_length_le (by simp)
  rw [sealed_valid_of block signature size mine bounds (entries_read entryLba num entrySize room),num,entrySize,count,whole]

end UBoot.Gpt
