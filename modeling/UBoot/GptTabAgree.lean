import Mathlib
import UBoot.GptImage
import UBoot.GptTabRead

/-!
The partitions of `gpt_creator` and those of `gpt_tab_to_c.sh` for one text. They are the same exactly if the text fits into
the buffers, the array compiles, the script takes each line that makes an entry and reads the same blocks from it, and no
other line that it takes looks like a partition of the disk (`readers_agree_iff`).
-/
namespace UBoot.GptTabAgree
open List CStrings CNumbers Buffers Gpt GptCreator PartitionsTab GptImage GptTabRead
open GptTabToC (MmcPartitionData partition_tab spl_get_built_in_gpt_partition literal)

/-! ### Numbers in the array -/

/-- The literal is valid: behind a 0 it is octal. -/
def Valid (a : Amount) : Prop := a.digits.head? = some 48 → ∀ c ∈ a.digits, c < 56

def sectorCount (a : Amount) : Nat :=
  digitsValue (if a.digits.head? = some 48 then 8 else 10) a.digits * (a.suffix.map Suffix.sectors).getD 1 % 2 ^ 32

theorem literal_eq (a : Amount) : literal a.digits =
    if a.digits.head? = some 48 ∧ ¬ ∀ c ∈ a.digits, c < 56 then none
    else some (digitsValue (if a.digits.head? = some 48 then 8 else 10) a.digits) := by
  obtain ⟨c,rest,digits⟩ := exists_cons_of_ne_nil a.some_
  rw [digits]
  by_cases zero : c = 48
  · rw [zero]
    have all : ((48 :: rest : List UInt8).all (· < 56) = true) ↔ ∀ c ∈ (48 :: rest : List UInt8), c < 56 := by
      simp only [all_eq_true,decide_eq_true_eq]
    by_cases octal : ∀ c ∈ (48 :: rest : List UInt8), c < 56
    · rw [if_neg fun wrong => wrong.2 octal]
      exact if_pos (all.mpr octal)
    · rw [if_pos ⟨rfl,octal⟩]
      exact if_neg fun yes => octal (all.mp yes)
  have other : (c :: rest).head? ≠ some 48 := fun same => zero (Option.some.inj same)
  rw [if_neg fun wrong => other wrong.1,if_neg other]
  unfold literal
  split
  · cases ‹_ = []›
  · exact absurd (List.cons.inj ‹c :: rest = 48 :: _›).1 zero
  · rfl

theorem sectors_iff (a : Amount) (s : BitVec 32) : Amount.sectors a = some s ↔ Valid a ∧ s.toNat = sectorCount a := by
  rw [Amount.sectors,literal_eq,sectorCount]
  by_cases wrong : a.digits.head? = some 48 ∧ ¬ ∀ c ∈ a.digits, c < 56
  · rw [if_pos wrong]
    exact ⟨fun same => (by cases same),fun right => absurd (right.1 wrong.1) wrong.2⟩
  rw [if_neg wrong,Option.map_some,Option.some.injEq]
  refine ⟨fun same => ⟨fun zero => ?_,?_⟩,fun right => ?_⟩
  · by_contra octal
    exact wrong ⟨zero,octal⟩
  · rw [← same,BitVec.toNat_ofNat]
  · exact BitVec.eq_of_toNat_eq (by rw [BitVec.toNat_ofNat,right.2])

theorem sectors_valid {a : Amount} (valid : Valid a) : ∃ s, Amount.sectors a = some s ∧ s.toNat = sectorCount a := by
  have bits : (BitVec.ofNat 32 (sectorCount a)).toNat = sectorCount a := Nat.mod_eq_of_lt (Nat.mod_lt _ (by decide))
  exact ⟨_,(sectors_iff a _).mpr ⟨valid,bits⟩,bits⟩

/-! ### The array of a text -/

theorem generated_iff (e : Entry) (ds : List MmcPartitionData) : Entry.generated e = some ds ↔
    (Entry.reading e = .skipped ∧ ds = []) ∨ (Entry.reading e = .taken ∧ ∃ start size, Amount.sectors e.start = some start ∧
      Amount.sectors e.size = some size ∧ ds = [⟨e.name.bytes,start,size⟩]) := by
  rw [Entry.generated]
  cases Entry.reading e with
  | skipped =>
    refine ⟨fun same => .inl ⟨rfl,(Option.some.inj same).symm⟩,?_⟩
    rintro (⟨_,rfl⟩ | ⟨wrong,_⟩)
    · rfl
    · cases wrong
  | broken =>
    refine ⟨fun same => (by cases same),?_⟩
    rintro (⟨wrong,_⟩ | ⟨wrong,_⟩) <;> cases wrong
  | taken =>
    simp only [Option.bind_eq_bind,Option.bind_eq_some_iff,Option.some.injEq]
    refine ⟨?_,?_⟩
    · rintro ⟨start,first,size,second,whole⟩
      exact .inr ⟨trivial,start,size,first,second,whole.symm⟩
    rintro (⟨wrong,_⟩ | ⟨_,start,size,first,second,whole⟩)
    · cases wrong
    · exact ⟨start,first,size,second,whole.symm⟩

def Compiles (e : Entry) : Prop := Entry.reading e ≠ .broken ∧ (Entry.reading e = .taken → Valid e.start ∧ Valid e.size)

theorem compiles_iff (e : Entry) : (∃ ds, Entry.generated e = some ds) ↔ Compiles e := by
  have value : ∀ a : Amount, (∃ s, Amount.sectors a = some s) ↔ Valid a := by
    intro a
    refine ⟨fun ⟨s,found⟩ => ((sectors_iff a s).mp found).1,fun valid => ?_⟩
    obtain ⟨s,found,_⟩ := sectors_valid valid
    exact ⟨s,found⟩
  simp only [generated_iff,Compiles,← value]
  cases Entry.reading e with
  | skipped => simp
  | broken => simp
  | taken =>
    refine ⟨?_,fun ⟨_,valid⟩ => ?_⟩
    · rintro ⟨ds,⟨wrong,_⟩ | ⟨_,start,size,first,second,_⟩⟩
      · cases wrong
      · exact ⟨fun wrong => (nomatch wrong),fun _ => ⟨⟨start,first⟩,size,second⟩⟩
    · obtain ⟨⟨start,first⟩,size,second⟩ := valid rfl
      exact ⟨_,.inr ⟨rfl,start,size,first,second,rfl⟩⟩

section
variable {t : Tab} {table : List MmcPartitionData}

theorem same_line (distinct : (t.entries.map fun e => ptnName e.name.bytes).Nodup) {e e' : Entry} (member : e ∈ t.entries)
    (member' : e' ∈ t.entries) (same : ptnName e.name.bytes = ptnName e'.name.bytes) : e = e' :=
  inj_on_of_nodup_map distinct member member' same

theorem table_iff (plain : Tab.Plain t) : (∃ table, partition_tab t.text = some table) ↔ ∀ e ∈ Tab.seen t, Compiles e := by
  rw [partition_tab_text plain]
  refine ⟨fun ⟨table,made⟩ e member => ?_,fun each => ?_⟩
  · obtain ⟨parts,mapped,_⟩ := Option.map_eq_some_iff.mp made
    obtain ⟨i,inside,rfl⟩ := mem_iff_getElem.mp member
    obtain ⟨length,each⟩ := List.forall₂_iff_get.mp (mapM_relates.mp mapped)
    exact (compiles_iff _).mp ⟨_,each i inside (length ▸ inside)⟩
  · obtain ⟨parts,mapped⟩ := mapM_defined fun e member => (compiles_iff e).mpr (each e member)
    exact ⟨parts.flatten,by rw [mapped]; rfl⟩

theorem mem_table (plain : Tab.Plain t) (made : partition_tab t.text = some table) {data : MmcPartitionData} : data ∈ table ↔
    ∃ e ∈ Tab.seen t, Entry.reading e = .taken ∧ Amount.sectors e.start = some data.offset_sector ∧
      Amount.sectors e.size = some data.size_sector ∧ data.name = e.name.bytes := by
  rw [partition_tab_text plain] at made
  obtain ⟨parts,mapped,rfl⟩ := Option.map_eq_some_iff.mp made
  rw [mem_flatten]
  constructor
  · rintro ⟨ds,inside,member⟩
    obtain ⟨e,seen,generated⟩ := (mem_mapM mapped).mp inside
    rcases (generated_iff e ds).mp generated with ⟨_,rfl⟩ | ⟨taken,start,size,first,second,rfl⟩
    · cases member
    · obtain rfl := mem_singleton.mp member
      exact ⟨e,seen,taken,first,second,rfl⟩
  rintro ⟨e,seen,taken,first,second,name⟩
  have generated : Entry.generated e = some [data] := (generated_iff e _).mpr (.inr ⟨taken,_,_,first,second,by rw [← name]⟩)
  exact ⟨[data],(mem_mapM mapped).mpr ⟨e,seen,generated⟩,mem_singleton.mpr rfl⟩

theorem lookup_iff (plain : Tab.Plain t) (distinct : (t.entries.map fun e => ptnName e.name.bytes).Nodup)
    (made : partition_tab t.text = some table) {e : Entry} (member : e ∈ t.entries) (offset size : BitVec 32) :
    spl_get_built_in_gpt_partition table e.name.bytes = some (offset,size) ↔
      e ∈ Tab.seen t ∧ Entry.reading e = .taken ∧ Amount.sectors e.start = some offset ∧ Amount.sectors e.size = some size := by
  have source : ∀ data ∈ table, data.name = e.name.bytes → e ∈ Tab.seen t ∧ Entry.reading e = .taken ∧
      Amount.sectors e.start = some data.offset_sector ∧ Amount.sectors e.size = some data.size_sector := by
    intro data inside name
    obtain ⟨e',seen,taken,first,second,name'⟩ := (mem_table plain made).mp inside
    obtain rfl : e' = e := same_line distinct ((Tab.seen_sublist t).subset seen) member (by rw [← name',name])
    exact ⟨seen,taken,first,second⟩
  rw [spl_get_built_in_gpt_partition]
  refine ⟨fun found => ?_,fun ⟨seen,taken,first,second⟩ => ?_⟩
  · obtain ⟨data,at_,place⟩ := Option.map_eq_some_iff.mp found
    cases place
    exact source data (mem_of_find?_eq_some at_) (by simpa using find?_some at_)
  have inside : (⟨e.name.bytes,offset,size⟩ : MmcPartitionData) ∈ table := (mem_table plain made).mpr ⟨e,seen,taken,first,second,rfl⟩
  cases at_ : table.find? (·.name = e.name.bytes) with
  | none => exact absurd (decide_eq_true rfl) (find?_eq_none.mp at_ _ inside)
  | some data =>
    obtain ⟨_,_,first',second'⟩ := source data (mem_of_find?_eq_some at_) (by simpa using find?_some at_)
    cases first'.symm.trans first
    cases second'.symm.trans second
    rfl
end

/-! ### Agreement -/

/-- The array has each partition of the GPT at the same place, and the GPT has each partition of the array that has a type and
    whose sectors are behind the table and inside of the disk. -/
def Agree (t : Tab) (get_uuid : Nat → Guid) : Prop := ∃ out table, main get_uuid t.text = some out ∧ partition_tab t.text = some table ∧
  (∀ e ∈ out.entries, ∃ line ∈ t.entries, e.partition_name = ptnName line.name.bytes ∧
    ∃ offset size, spl_get_built_in_gpt_partition table line.name.bytes = some (offset,size) ∧
      offset.toNat = e.starting_lba.toNat ∧ e.ending_lba.toNat + 1 = e.starting_lba.toNat + size.toNat) ∧
  ∀ line ∈ t.entries, line.fstype ≠ none → ∀ offset size, spl_get_built_in_gpt_partition table line.name.bytes = some (offset,size) →
    34 ≤ offset.toNat → offset.toNat + size.toNat ≤ t.disk.value / 512 → ∃ e ∈ out.entries, e.partition_name = ptnName line.name.bytes

structure AgreeingTab (t : Tab) : Prop where
  short : t.text.length < 2048
  values : ∀ e ∈ t.entries.take 128, e.value.length < 128
  compiles : ∀ e ∈ Tab.seen t, Compiles e
  places : ∀ e ∈ t.accepted, e ∈ Tab.seen t ∧ Entry.reading e = .taken ∧
    sectorCount e.start = e.place.1.toNat / 512 ∧ sectorCount e.size = e.place.2.toNat / 512
  complete : ∀ e ∈ Tab.seen t, Entry.reading e = .taken → e.fstype ≠ none → 34 ≤ sectorCount e.start →
    sectorCount e.start + sectorCount e.size ≤ t.disk.value / 512 → e ∈ t.accepted

theorem mem_tableOf {get_uuid : Nat → Guid} {es : List Entry} {e : GptEntry} (member : e ∈ tableOf get_uuid 0 es) :
    ∃ line ∈ es, ∃ uuid, e = line.gptEntry uuid := by
  obtain ⟨i,found⟩ := mem_iff_getElem?.mp member
  rw [tableOf_getElem?] at found
  obtain ⟨line,at_,same⟩ := Option.map_eq_some_iff.mp found
  exact ⟨line,mem_of_getElem? at_,_,same.symm⟩

theorem tableOf_mem (get_uuid : Nat → Guid) {es : List Entry} {line : Entry} (member : line ∈ es) :
    ∃ uuid, line.gptEntry uuid ∈ tableOf get_uuid 0 es := by
  obtain ⟨i,at_⟩ := mem_iff_getElem?.mp member
  exact ⟨_,mem_of_getElem? (by rw [tableOf_getElem?,at_]; rfl)⟩

theorem accepted_mem {t : Tab} {e : Entry} (accepted : e ∈ t.accepted) : e ∈ t.entries ∧ 34 ≤ e.first.toNat := by
  obtain ⟨member,accepted⟩ := mem_filter.mp accepted
  exact ⟨mem_of_mem_take member,accepted_low accepted⟩

section
variable {t : Tab} {get_uuid : Nat → Guid} (plain : Tab.Plain t) (distinct : (t.entries.map fun e => ptnName e.name.bytes).Nodup)
include plain distinct

theorem agreeing_of_agree (agree : Agree t get_uuid) : AgreeingTab t := by
  obtain ⟨out,table,made,compiled,found,inside⟩ := agree
  obtain ⟨short,values⟩ := main_inside made
  rw [main_entries made] at found inside
  refine ⟨short,values,(table_iff plain).mp ⟨table,compiled⟩,fun e accepted => ?_,fun e seen taken type low high => ?_⟩
  · obtain ⟨member,low⟩ := accepted_mem accepted
    obtain ⟨uuid,entry⟩ := tableOf_mem get_uuid accepted
    obtain ⟨line,member',name,offset,size,lookup,start,last⟩ := found _ entry
    obtain rfl := same_line distinct member member' name
    obtain ⟨seen,taken,first,second⟩ := (lookup_iff plain distinct compiled member offset size).mp lookup
    have firstBlock : e.first.toNat = e.place.1.toNat / 512 := div512_toNat _
    have lastBlock := last_toNat low
    change offset.toNat = e.first.toNat at start
    change e.last.toNat + 1 = e.first.toNat + size.toNat at last
    refine ⟨seen,taken,?_,?_⟩
    · rw [← ((sectors_iff _ _).mp first).2,start,firstBlock]
    · rw [← ((sectors_iff _ _).mp second).2]
      omega
  have member := (Tab.seen_sublist t).subset seen
  obtain ⟨validStart,validSize⟩ := (((table_iff plain).mp ⟨table,compiled⟩) e seen).2 taken
  obtain ⟨offset,first,offset_eq⟩ := sectors_valid validStart
  obtain ⟨size,second,size_eq⟩ := sectors_valid validSize
  have lookup := (lookup_iff plain distinct compiled member offset size).mpr ⟨seen,taken,first,second⟩
  obtain ⟨entry,inTable,name⟩ := inside e member type offset size lookup (by omega) (by omega)
  obtain ⟨line,accepted,uuid,rfl⟩ := mem_tableOf inTable
  obtain rfl : line = e := same_line distinct (accepted_mem accepted).1 member name
  exact accepted

theorem agree_of_agreeing (agreeing : AgreeingTab t) : Agree t get_uuid := by
  obtain ⟨messages,made,_⟩ := main_made get_uuid agreeing.short agreeing.values
  obtain ⟨table,compiled⟩ := (table_iff plain).mpr agreeing.compiles
  refine ⟨_,table,made,compiled,fun entry inTable => ?_,fun line member type offset size lookup low high => ?_⟩
  · obtain ⟨line,accepted,uuid,rfl⟩ := mem_tableOf inTable
    obtain ⟨member,low⟩ := accepted_mem accepted
    obtain ⟨seen,taken,start,length⟩ := agreeing.places line accepted
    obtain ⟨validStart,validSize⟩ := (agreeing.compiles line seen).2 taken
    obtain ⟨offset,first,offset_eq⟩ := sectors_valid validStart
    obtain ⟨size,second,size_eq⟩ := sectors_valid validSize
    have firstBlock : line.first.toNat = line.place.1.toNat / 512 := div512_toNat _
    refine ⟨line,member,rfl,offset,size,(lookup_iff plain distinct compiled member offset size).mpr ⟨seen,taken,first,second⟩,?_,?_⟩
    · show offset.toNat = line.first.toNat
      omega
    · show line.last.toNat + 1 = line.first.toNat + size.toNat
      rw [last_toNat low,size_eq,length]
  obtain ⟨seen,taken,first,second⟩ := (lookup_iff plain distinct compiled member offset size).mp lookup
  have offset_eq := ((sectors_iff _ _).mp first).2
  have size_eq := ((sectors_iff _ _).mp second).2
  obtain ⟨uuid,entry⟩ := tableOf_mem get_uuid (agreeing.complete line seen taken type (by omega) (by omega))
  exact ⟨_,entry,rfl⟩
end

/-- The two tools agree on a text exactly if they read it alike. -/
theorem readers_agree_iff {t : Tab} (get_uuid : Nat → Guid) (plain : Tab.Plain t)
    (distinct : (t.entries.map fun e => ptnName e.name.bytes).Nodup) : Agree t get_uuid ↔ AgreeingTab t :=
  ⟨agreeing_of_agree plain distinct,agree_of_agreeing plain distinct⟩

def spacedLine (start size : Amount) : Entry :=
  ⟨noBlanks,shortName,oneBlank,oneBlank,start,noBlanks,oneBlank,size,noBlanks,some (oneBlank,.EMPTY),plainTail⟩

def spacedTab (start size : Amount) : Tab :=
  plainTab (amountOf 512) (megabytes 57 (by decide)) [.inr (spacedLine start size),.inl ⟨noBlanks,none⟩]

theorem spacedTab_plain (start size : Amount) : Tab.Plain (spacedTab start size) := by
  refine ⟨fun e member => ?_,fun p member => ?_⟩
  · obtain rfl := mem_singleton.mp member
    exact ⟨show ∀ c ∈ shortName.bytes, wordChar c = true by decide +kernel,show shortName.bytes.head? ≠ some 45 by decide⟩
  have amount : ∀ a : Amount, (92 : UInt8) ∉ a.text := fun a => a.apart (by decide) (by intro s; cases s <;> decide)
  rcases mem_cons.mp member with rfl | member
  · exact ⟨by decide +kernel,amount _⟩
  · obtain rfl := mem_singleton.mp member
    exact ⟨by decide +kernel,amount _⟩

/-- `a = 1m, 4m, EMPTY`. -/
theorem spaced_partition_agrees : Agree (spacedTab (megabytes 49 rfl) (megabytes 52 rfl)) fun _ => Guid.ofBytes [] := by
  have valid : ∀ (digit : UInt8) (is : isdigit digit = true), digit ≠ 48 → Valid (megabytes digit is) :=
    fun digit is other zero => absurd (Option.some.inj zero) other
  have accepted : spacedLine (megabytes 49 rfl) (megabytes 52 rfl) ∈ (spacedTab (megabytes 49 rfl) (megabytes 52 rfl)).accepted :=
    mem_filter.mpr ⟨mem_cons_self,by decide +kernel⟩
  refine (readers_agree_iff _ (spacedTab_plain _ _) (nodup_singleton _)).mpr ⟨by decide +kernel,?_,?_,?_,?_⟩
  · intro e member
    obtain rfl := mem_singleton.mp member
    decide
  · intro e member
    obtain rfl := mem_singleton.mp member
    exact ⟨by decide,fun _ => ⟨valid 49 rfl (by decide),valid 52 rfl (by decide)⟩⟩
  · intro e member
    obtain rfl := mem_singleton.mp (mem_filter.mp member).1
    exact ⟨mem_singleton.mpr rfl,by decide,by decide +kernel,by decide +kernel⟩
  intro e member _ _ _ _
  obtain rfl := mem_singleton.mp member
  exact accepted

/-- Both numbers of `a = 51200, 51200, EMPTY` are bytes in the GPT and sectors in the array. -/
theorem bare_numbers_differ : ∃ t : Tab, Tab.Plain t ∧ (t.entries.map fun e => ptnName e.name.bytes).Nodup ∧
    t.entries.map Entry.text = [ascii "a = 51200, 51200, EMPTY"] ∧ ¬ Agree t fun _ => Guid.ofBytes [] := by
  refine ⟨spacedTab (amountOf 51200) (amountOf 51200),spacedTab_plain _ _,nodup_singleton _,by decide +kernel,?_⟩
  rintro ⟨out,table,made,compiled,found,_⟩
  have accepted : spacedLine (amountOf 51200) (amountOf 51200) ∈ (spacedTab (amountOf 51200) (amountOf 51200)).accepted :=
    mem_filter.mpr ⟨mem_cons_self,by decide +kernel⟩
  obtain ⟨uuid,entry⟩ := tableOf_mem (fun _ => Guid.ofBytes []) accepted
  rw [main_entries made] at found
  obtain ⟨line,member,_,offset,size,lookup,start,_⟩ := found _ entry
  obtain rfl := mem_singleton.mp member
  obtain ⟨_,_,first,_⟩ := (lookup_iff (spacedTab_plain _ _) (nodup_singleton _) compiled member offset size).mp lookup
  have offset_eq : offset.toNat = 51200 := ((sectors_iff _ _).mp first).2.trans (by decide +kernel)
  have first_eq : (spacedLine (amountOf 51200) (amountOf 51200)).first.toNat = 100 := by decide +kernel
  change offset.toNat = (spacedLine (amountOf 51200) (amountOf 51200)).first.toNat at start
  omega

end UBoot.GptTabAgree
