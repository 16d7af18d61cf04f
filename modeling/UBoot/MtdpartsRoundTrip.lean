import UBoot.MtdpartsText

/-!
Whether `parse_mtdparts` gets back the devices that `generate_mtdparts` wrote. Every list of devices that
the commands can build is sorted and valid (`reached_ok`), but not every one is read back: a partition can
be smaller than the reader accepts, a generated name depends on whether the offset was written, and
partitions at the same offset come back in the opposite order (`round_trip_iff`).
-/
namespace UBoot.MtdpartsRoundTrip
open List CNumbers KeySort Mtdparts MtdpartsBounds MtdpartsText

variable {ids : List Mtdids} {devices : List Device} {part : Part} {dev : Device} {parts sorted : List Part}
  {rest p : List UInt8}

/-! ### What the commands keep -/

theorem nameParse_ok {size offset : BitVec 64} {name : Name}
    (parsed : nameParse size offset p = some (name,rest)) : name.auto_name = false → name.name ≠ [] ∧ 41 ∉ name.name := by
  rw [nameParse.eq_def] at parsed
  split at parsed
  · split_ifs at parsed with bracket empty
    cases parsed
    intro _
    refine ⟨empty,fun inside => ?_⟩
    have := mem_takeWhile_imp inside
    exact absurd this (by decide)
  cases parsed
  intro auto
  exact absurd auto (by simp [autoName])

theorem part_parse_name {partdef : List UInt8} {name : Name} (parsed : part_parse partdef = some (part,name,rest)) :
    NameOk part := by
  obtain ⟨⟨size,offset,p⟩,-,parsed⟩ := Option.bind_eq_some_iff.mp parsed
  obtain ⟨⟨name',p'⟩,named,parsed⟩ := Option.bind_eq_some_iff.mp parsed
  obtain ⟨ret,-,parsed⟩ := Option.bind_eq_some_iff.mp parsed
  cases parsed
  exact nameParse_ok named

theorem part_validate_ok {id : Mtdids} {valid : Part} (named : NameOk part) (accepted : part_validate id part = some valid) :
    PartOk id valid := by
  obtain ⟨filled,again,-⟩ := part_validate_some accepted
  refine ⟨again,?_⟩
  rw [filled]
  exact named

theorem partsLoop_ok {id : Mtdids} {fuel : Nat} {offset : BitVec 64}
    (parsed : partsLoop id fuel offset p = some (parts,rest)) : ∀ part ∈ parts, PartOk id part := by
  induction fuel generalizing offset p parts with
  | zero => cases parsed
  | succ fuel ih =>
    rw [partsLoop] at parsed
    split_ifs at parsed with ended
    · cases parsed
      simp
    obtain ⟨⟨part,name,next⟩,first,parsed⟩ := Option.bind_eq_some_iff.mp parsed
    obtain ⟨valid,accepted,parsed⟩ := Option.bind_eq_some_iff.mp parsed
    obtain ⟨⟨others,left⟩,later,parsed⟩ := Option.bind_eq_some_iff.mp parsed
    cases parsed
    intro other inside
    rcases mem_cons.mp inside with rfl | behind
    · refine part_validate_ok ?_ accepted
      exact (part_parse_name first : NameOk part)
    · exact ih later other behind

/-- Sorted by offset, with at most one partition at 0. -/
def Sorted (parts : List Part) : Prop := parts.Pairwise fun a b => place a ≤ place b ∧ b.offset ≠ 0

theorem part_sort_add_mem (added : part_sort_add parts part = some sorted) (other : Part) :
    other ∈ sorted ↔ other = part ∨ other ∈ parts := by
  rw [part_sort_add_eq added]
  exact mem_orderedInsert ..

theorem place_zero : place part = 0 ↔ part.offset = 0 :=
  ⟨fun zero => BitVec.eq_of_toNat_eq zero,fun zero => by rw [place,zero]; rfl⟩

theorem part_sort_add_sorted (before : Sorted parts)
    (added : part_sort_add parts part = some sorted) : Sorted sorted := by
  induction parts generalizing sorted with
  | nil =>
    cases added
    exact pairwise_singleton ..
  | cons pi parts ih =>
    obtain ⟨above,later⟩ := pairwise_cons.mp before
    rw [part_sort_add] at added
    split_ifs at added with zero le
    · cases added
      have le := place_le.mpr le
      refine pairwise_cons.mpr ⟨fun other inside => ?_,before⟩
      rcases mem_cons.mp inside with rfl | behind
      · refine ⟨le,fun start => zero ⟨?_,start⟩⟩
        have := place_zero.mpr start
        rw [place_zero.mp (by omega : place part = 0),start]
      · have := above other behind
        exact ⟨by omega,this.2⟩
    obtain ⟨others,addedLater,rfl⟩ := Option.map_eq_some_iff.mp added
    have less : ¬ place part ≤ place pi := fun above => le (place_le.mp above)
    refine pairwise_cons.mpr ⟨fun other inside => ?_,ih later addedLater⟩
    rcases (part_sort_add_mem addedLater other).mp inside with rfl | behind
    · refine ⟨by omega,fun start => ?_⟩
      have := place_zero.mpr start
      omega
    · exact above other behind

theorem foldlM_part_sort_add_sorted {before : List Part} (start : Sorted before)
    (folded : parts.foldlM part_sort_add before = some sorted) :
    Sorted sorted ∧ ∀ other, other ∈ sorted ↔ other ∈ parts ∨ other ∈ before := by
  induction parts generalizing before with
  | nil =>
    cases folded
    exact ⟨start,by simp⟩
  | cons part parts ih =>
    obtain ⟨next,added,folded⟩ := Option.bind_eq_some_iff.mp folded
    obtain ⟨ordered,same⟩ := ih (part_sort_add_sorted start added) folded
    refine ⟨ordered,fun other => ?_⟩
    rw [same,part_sort_add_mem added,mem_cons]
    tauto

theorem device_parse_ok {text : List UInt8}
    (parsed : device_parse ids devices text = some (dev,rest)) : DeviceOk ids dev := by
  obtain ⟨-,-,parsed⟩ := Option.bind_eq_some_iff.mp parsed
  obtain ⟨id,found,parsed⟩ := Option.bind_eq_some_iff.mp parsed
  obtain ⟨⟨parts,p⟩,loop,parsed⟩ := Option.bind_eq_some_iff.mp parsed
  obtain ⟨_,guarded,parsed⟩ := Option.bind_eq_some_iff.mp parsed
  obtain ⟨sorted,folded,parsed⟩ := Option.bind_eq_some_iff.mp parsed
  cases parsed
  have some_ : parts ≠ [] := by simpa using guarded
  obtain ⟨ordered,same⟩ := foldlM_part_sort_add_sorted List.Pairwise.nil folded
  have named : id.mtd_id = text.takeWhile (· ≠ 58) := by simpa using find?_some found
  refine ⟨by rw [named]; exact found,fun inside => ?_,?_,ordered,fun part inside => ?_⟩
  · rw [named] at inside
    exact absurd (mem_takeWhile_imp inside) (by decide)
  · obtain ⟨part,inside⟩ := exists_mem_of_ne_nil _ some_
    exact ne_nil_of_mem ((same part).mpr (.inl inside))
  rcases (same part).mp inside with inside | inside
  · exact partsLoop_ok loop part inside
  · exact absurd inside not_mem_nil

theorem ListOk.append (ok : ListOk ids devices) (new : DeviceOk ids dev)
    (fresh : device_find devices dev.id.type dev.id.num = none) : ListOk ids (devices ++ [dev]) := by
  constructor
  · intro other inside
    rcases mem_append.mp inside with old | last
    · exact ok.each other old
    · rw [mem_singleton.mp last]
      exact new
  rw [map_append]
  refine nodup_append.mpr ⟨ok.keys,nodup_singleton _,?_⟩
  rintro a inside b last rfl
  rw [mem_singleton.mp last] at inside
  exact device_find_none.mp fresh inside

theorem devicesLoop_ok {fuel : Nat} {result : List Device} (ok : ListOk ids devices)
    (parsed : devicesLoop ids fuel devices p = some result) : ListOk ids result := by
  induction fuel generalizing devices p with
  | zero => cases parsed
  | succ fuel ih =>
    rw [devicesLoop] at parsed
    split_ifs at parsed with ended
    · cases parsed
      exact ok
    obtain ⟨⟨dev,next⟩,first,parsed⟩ := Option.bind_eq_some_iff.mp parsed
    obtain ⟨_,guarded,parsed⟩ := Option.bind_eq_some_iff.mp parsed
    have fresh : device_find devices dev.id.type dev.id.num = none := by simpa using guarded
    exact ih (ListOk.append ok (device_parse_ok first) fresh) parsed

theorem nothing_ok (ids : List Mtdids) : ListOk ids [] := ⟨by simp,nodup_nil⟩

theorem parse_mtdparts_ok {text : List UInt8}
    (parsed : parse_mtdparts ids text = some devices) : ListOk ids devices := by
  obtain ⟨_,-,parsed⟩ := Option.bind_eq_some_iff.mp parsed
  exact devicesLoop_ok (nothing_ok ids) parsed

theorem part_add_ok {after : Device} (ok : DeviceOk ids dev) (named : NameOk part)
    (added : part_add dev part = some after) : DeviceOk ids after ∧ after.id = dev.id := by
  obtain ⟨valid,accepted,added⟩ := Option.bind_eq_some_iff.mp added
  obtain ⟨sorted,inserted,added⟩ := Option.bind_eq_some_iff.mp added
  cases added
  have same := part_sort_add_mem inserted
  refine ⟨⟨ok.found,ok.colon,?_,part_sort_add_sorted ok.sorted inserted,fun other inside => ?_⟩,rfl⟩
  · exact ne_nil_of_mem ((same valid).mpr (.inl rfl))
  rcases (same other).mp inside with rfl | old
  · exact part_validate_ok named accepted
  · exact ok.parts other old

theorem updateDevice_ok (ok : ListOk ids devices) (new : DeviceOk ids dev) :
    ListOk ids (updateDevice devices dev) := by
  constructor
  · intro other inside
    obtain ⟨old,before,rfl⟩ := mem_map.mp inside
    split_ifs
    · exact new
    · exact ok.each old before
  have keys : (updateDevice devices dev).map key = devices.map key := by
    rw [updateDevice,map_map]
    refine map_congr_left fun old _ => ?_
    simp only [Function.comp_apply]
    split_ifs with same
    · rw [key,key,same.1,same.2]
    · rfl
  rw [keys]
  exact ok.keys

theorem mtdparts_add_ok {after : List Device} {argv : AddArgs} (ok : ListOk ids devices)
    (added : mtdparts_add ids devices argv = some after) : ListOk ids after := by
  obtain ⟨⟨type,num,_⟩,-,added⟩ := Option.bind_eq_some_iff.mp added
  obtain ⟨id,-,added⟩ := Option.bind_eq_some_iff.mp added
  obtain ⟨tmpbuf,-,added⟩ := Option.bind_eq_some_iff.mp added
  obtain ⟨⟨dev,_⟩,parsed,added⟩ := Option.bind_eq_some_iff.mp added
  have new := device_parse_ok parsed
  simp only at added
  cases found : device_find devices dev.id.type dev.id.num with
  | none =>
    rw [found] at added
    cases added
    exact ListOk.append ok new found
  | some old =>
    rw [found] at added
    obtain ⟨part,first,added⟩ := Option.bind_eq_some_iff.mp added
    obtain ⟨changed,inserted,added⟩ := Option.bind_eq_some_iff.mp added
    cases added
    have named := (new.parts part (mem_of_mem_head? first)).name
    exact updateDevice_ok ok (part_add_ok (ok.each old (mem_of_find?_eq_some found)) named inserted).1

theorem part_del_ok (ok : ListOk ids devices) (i j : Nat) :
    ListOk ids (part_del devices i j) := by
  rw [part_del]
  cases found : devices[i]? with
  | none => exact ok
  | some dev =>
    have before := ok.each dev (mem_of_getElem? found)
    simp only
    split_ifs with single
    · exact ⟨fun other inside => ok.each other (mem_of_mem_eraseIdx inside),
        ok.keys.sublist ((eraseIdx_sublist ..).map key)⟩
    have left : DeviceOk ids { dev with parts := dev.parts.eraseIdx j } := by
      refine ⟨before.found,before.colon,fun empty => ?_,before.sorted.sublist (eraseIdx_sublist ..),fun part inside =>
        before.parts part (mem_of_mem_eraseIdx inside)⟩
      have shorter := congrArg List.length empty
      rw [length_eraseIdx] at shorter
      have := length_pos_iff.mpr before.inhabited
      split_ifs at shorter
      · have one : dev.parts.length = 1 := by simp only [length_nil] at shorter; omega
        exact single (by rw [one]; rfl)
      · simp only [length_nil] at shorter
        omega
    constructor
    · intro other inside
      rcases mem_or_eq_of_mem_set inside with old | rfl
      · exact ok.each other old
      · exact left
    obtain ⟨bound,rfl⟩ := List.getElem?_eq_some_iff.mp found
    have mapped : i < (devices.map key).length := by simpa using bound
    have same : key { devices[i] with parts := devices[i].parts.eraseIdx j } = (devices.map key)[i] := by
      simp [key]
    rw [map_set,same,set_getElem_self]
    exact ok.keys

theorem perform_ok (ok : ListOk ids devices) (op : Op) : ListOk ids (perform ids devices op) := by
  cases op with
  | init mtdparts =>
    rw [perform]
    cases parsed : parse_mtdparts ids mtdparts with
    | none => exact nothing_ok ids
    | some after => exact parse_mtdparts_ok parsed
  | add argv =>
    rw [perform]
    cases added : mtdparts_add ids devices argv with
    | none => exact ok
    | some after => exact mtdparts_add_ok ok added
  | del id =>
    rw [perform]
    cases found : find_dev_and_part devices id with
    | none => exact ok
    | some found => exact part_del_ok ok ..

def Reached (ids : List Mtdids) (devices : List Device) : Prop := ∃ ops : List Op, ops.foldl (perform ids) [] = devices

theorem reached_ok (reached : Reached ids devices) : ListOk ids devices := by
  obtain ⟨ops,rfl⟩ := reached
  have each : ∀ (ops : List Op) (devices : List Device), ListOk ids devices → ListOk ids (ops.foldl (perform ids) devices) := by
    intro ops
    induction ops with
    | nil => exact fun _ ok => ok
    | cons op ops ih => exact fun devices ok => ih _ (perform_ok ok op)
  exact each ops [] (nothing_ok ids)

/-! ### The round trip -/

/-- At each offset the partitions are the same list from both ends, once a name that was generated is the
    one that the reader generates. -/
def Mirrored (parts : List Part) : Prop :=
  ∀ part ∈ parts, group place (place part) (rereadAll none parts).reverse = group place (place part) parts

def RoundTrips (devices : List Device) : Prop :=
  devices ≠ [] ∧ ∀ dev ∈ devices, Readable dev.parts ∧ Mirrored dev.parts

theorem rereadParts_eq_iff (ok : DeviceOk ids dev) :
    rereadParts dev.parts = dev.parts ↔ Mirrored dev.parts := by
  constructor
  · intro equal part _
    rw [← group_sort,← rereadParts,equal]
  intro mirrored
  refine eq_of_group_eq (sort_sorted _) (ok.sorted.imp And.left) fun k => ?_
  rw [rereadParts,group_sort]
  by_cases here : ∃ part ∈ dev.parts, place part = k
  · obtain ⟨part,inside,rfl⟩ := here
    exact mirrored part inside
  · -- Nothing stands at this offset, before and after.
    have offsets : k ∉ dev.parts.map place := by simpa using here
    have again : k ∉ (rereadAll none dev.parts).map place := by
      have same : (rereadAll none dev.parts).map place = dev.parts.map place := by
        have := congrArg (List.map BitVec.toNat) (rereadAll_offsets none dev.parts)
        rwa [map_map,map_map] at this
      rwa [same]
    rw [group,group,filter_eq_nil_iff.mpr fun part inside => ?_,filter_eq_nil_iff.mpr fun part inside => ?_]
    · simpa using fun equal => offsets (mem_map.mpr ⟨part,inside,equal⟩)
    · simpa using fun equal => again (mem_map.mpr ⟨part,mem_reverse.mp inside,equal⟩)

theorem mapM_eq_self : devices.mapM rereadDevice = some devices ↔ ∀ dev ∈ devices, rereadDevice dev = some dev := by
  induction devices with
  | nil => simp
  | cons dev devices ih =>
    rw [mapM_cons,forall_mem_cons,← ih]
    cases rereadDevice dev with
    | none => simp
    | some again => cases devices.mapM rereadDevice <;> simp

theorem round_trip_iff {ids : List Mtdids} {devices : List Device} {text : List UInt8} (reached : Reached ids devices)
    (generated : generate_mtdparts devices MTDPARTS_MAXLEN = .ok text) :
    parse_mtdparts ids text = some devices ↔ RoundTrips devices := by
  have ok := reached_ok reached
  have each : ∀ dev ∈ devices, (rereadDevice dev = some dev ↔ Readable dev.parts ∧ Mirrored dev.parts) := by
    intro dev inside
    rw [← rereadParts_eq_iff (ok.each dev inside),rereadDevice]
    split_ifs with readable
    · simp only [Option.some.injEq,readable,true_and]
      exact ⟨congrArg Device.parts,fun equal => by rw [equal]⟩
    · simp [readable]
  rw [parse_generated ok generated,RoundTrips]
  by_cases none_ : devices = []
  · simp [none_]
  rw [if_neg none_,mapM_eq_self]
  exact ⟨fun all => ⟨none_,fun dev inside => (each dev inside).mp (all dev inside)⟩,
    fun all dev inside => (each dev inside).mpr (all.2 dev inside)⟩

/-- `mtdparts=a:4k(b),4k@64k(c)ro` -/
def gapText : List UInt8 :=
  mtdpartsPrefix ++ [97,58,52,107,40,98,41,44,52,107,64,54,52,107,40,99,41,114,111]

/-- The variable is read, written and read again. -/
theorem gap_round_trip :
    ∃ devices, perform [nandA] [] (.init gapText) = devices ∧ generate_mtdparts devices MTDPARTS_MAXLEN = .ok gapText ∧
      parse_mtdparts [nandA] gapText = some devices := by
  refine ⟨[⟨nandA,[⟨[98],false,4096,0,false⟩,⟨[99],false,4096,65536,true⟩]⟩],by decide +kernel,by decide +kernel,?_⟩
  have generated : generate_mtdparts [⟨nandA,[⟨[98],false,4096,0,false⟩,⟨[99],false,4096,65536,true⟩]⟩] MTDPARTS_MAXLEN = .ok gapText := by
    decide +kernel
  refine (round_trip_iff ⟨[.init gapText],by decide +kernel⟩ generated).mpr ⟨by simp,?_⟩
  intro dev inside
  rw [mem_singleton.mp inside]
  exact ⟨by decide,by unfold Mirrored; decide⟩

/-- `mtdparts=a:4k@64k(b),8k@64k(c)`: the variable that is written for it has the partitions in the
    opposite order, and reading that one turns them around again. -/
theorem same_offset_reversed :
    let ops := [Op.init (mtdpartsPrefix ++ [97,58,52,107,64,54,52,107,40,98,41,44,56,107,64,54,52,107,40,99,41])]
    let devices := ops.foldl (perform [nandA]) []
    devices = [⟨nandA,[⟨[99],false,8192,65536,false⟩,⟨[98],false,4096,65536,false⟩]⟩] ∧
    ∃ text, generate_mtdparts devices MTDPARTS_MAXLEN = .ok text ∧
      parse_mtdparts [nandA] text = some [⟨nandA,[⟨[98],false,4096,65536,false⟩,⟨[99],false,8192,65536,false⟩]⟩] := by
  refine ⟨by decide +kernel,mtdpartsPrefix ++ [97,58,56,107,64,54,52,107,40,99,41,44,52,107,64,54,52,107,40,98,41],
    by decide +kernel,by decide +kernel⟩

end UBoot.MtdpartsRoundTrip
