import UBoot.KeySort
import UBoot.MtdpartsBounds

/-!
What `parse_mtdparts` makes of a text that `generate_mtdparts` wrote: the partitions of each device in the
order of the text, with new names for those without a name, and sorted again (`parse_generated`).
-/
namespace UBoot.MtdpartsText
open List CNumbers KeySort Mtdparts MtdpartsBounds

variable {part : Part} {rest : List UInt8} {devices : List Device} {more : Bool} {parts : List Part} {dev : Device}
  {ids : List Mtdids} {prev : Option Part} {id : Mtdids} {size : BitVec 64}

/-! ### Sizes -/

/-- Characters that neither belong to a number nor scale it. -/
def Ends (rest : List UInt8) : Prop := ∀ c ∈ rest.head?, c = 64 ∨ c = 40 ∨ c = 114 ∨ c = 44 ∨ c = 59

theorem Ends.noDigit (ends : Ends rest) : NoDigit rest := by
  intro c first
  rcases ends c first with rfl | rfl | rfl | rfl | rfl <;> exact fun digit => absurd digit.1 (by decide)

theorem scale {k : Nat} (power : (2 ^ k : BitVec 64).toNat = 2 ^ k) (whole : size % 2 ^ k = 0)
    (positive : size ≠ 0) : size / 2 ^ k ≠ 0 ∧ (size / 2 ^ k) <<< k = size := by
  have remainder : size.toNat % 2 ^ k = 0 := by
    have := congrArg BitVec.toNat whole
    rwa [BitVec.toNat_umod,power] at this
  have exact_ : size.toNat / 2 ^ k * 2 ^ k = size.toNat := Nat.div_mul_cancel (Nat.dvd_of_mod_eq_zero remainder)
  constructor
  · intro zero
    apply positive
    apply BitVec.eq_of_toNat_eq
    have quotient := congrArg BitVec.toNat zero
    rw [BitVec.toNat_udiv,power] at quotient
    rw [← exact_,quotient]
    simp
  apply BitVec.eq_of_toNat_eq
  rw [BitVec.toNat_shiftLeft,BitVec.toNat_udiv,power,Nat.shiftLeft_eq,exact_]
  exact Nat.mod_eq_of_lt size.isLt

theorem memsize_parse_format (positive : size ≠ 0) (ends : Ends rest) :
    memsize_parse (memsize_format size ++ rest) = (size,rest) := by
  have suffix : ∀ c ∈ [103,109,107], NoDigit (c :: rest) := by
    intro c letter d first
    obtain rfl : c = d := by simpa using first
    have : ∀ c ∈ [103,109,107], ¬ (isxdigit c = true ∧ digitValue c < 10) := by decide +kernel
    exact this c letter
  rw [memsize_format]
  split_ifs with giga mega kilo
  · obtain ⟨nonzero,scaled⟩ := scale rfl giga positive
    obtain ⟨value,end_⟩ := strtoull_decimalText nonzero (suffix 103 (by decide))
    rw [append_assoc,singleton_append,memsize_parse,value,end_,scaled]
    rfl
  · obtain ⟨nonzero,scaled⟩ := scale rfl mega positive
    obtain ⟨value,end_⟩ := strtoull_decimalText nonzero (suffix 109 (by decide))
    rw [append_assoc,singleton_append,memsize_parse,value,end_,scaled]
    rfl
  · obtain ⟨nonzero,scaled⟩ := scale rfl kilo positive
    obtain ⟨value,end_⟩ := strtoull_decimalText nonzero (suffix 107 (by decide))
    rw [append_assoc,singleton_append,memsize_parse,value,end_,scaled]
    rfl
  obtain ⟨value,end_⟩ := strtoull_decimalText positive ends.noDigit
  rw [memsize_parse,value,end_]
  cases rest with
  | nil => rfl
  | cons c rest =>
    rcases ends c rfl with rfl | rfl | rfl | rfl | rfl <;> rfl

theorem memsize_format_cons (positive : size ≠ 0) : ∃ c rest, memsize_format size = c :: rest ∧ c ≠ 45 ∧ c ≠ 59 := by
  have decimal : ∀ v : BitVec 64, v ≠ 0 → ∃ c rest, decimalText v = c :: rest ∧ c ≠ 45 ∧ c ≠ 59 := by
    intro v nonzero
    obtain ⟨c,rest,equal,-⟩ := @numberText_head 20 v.toNat (by omega) (Nat.pos_of_ne_zero fun zero => nonzero (BitVec.eq_of_toNat_eq zero))
    have digit : isxdigit c = true := (numberText_digits c (equal ▸ mem_cons_self)).1
    refine ⟨c,rest,equal,?_,?_⟩ <;> (rintro rfl; exact absurd digit (by decide))
  have append : ∀ v : BitVec 64, v ≠ 0 → ∀ tail, ∃ c rest, decimalText v ++ tail = c :: rest ∧ c ≠ 45 ∧ c ≠ 59 := by
    intro v nonzero tail
    obtain ⟨c,rest,equal,other⟩ := decimal v nonzero
    exact ⟨c,rest ++ tail,by rw [equal,cons_append],other⟩
  rw [memsize_format]
  split_ifs with giga mega kilo
  · exact append _ (scale rfl giga positive).1 _
  · exact append _ (scale rfl mega positive).1 _
  · exact append _ (scale rfl kilo positive).1 _
  · exact decimal _ positive

/-! ### One partition -/

/-- What follows a definition that was written: the next one, another device, or nothing. -/
def Next (more : Bool) (rest : List UInt8) : Prop := more = false → rest = [] ∨ ∃ others, rest = 59 :: others

def piece (c : Bool) (text : List UInt8) : List UInt8 := if c then text else []

theorem optional_flatten (c : Bool) (text : List UInt8) : (MtdpartsBounds.optional c text).flatten = piece c text := by
  cases c <;> simp [MtdpartsBounds.optional,piece]

theorem nextParse_written (next : Next more rest) (size : BitVec 64) :
    nextParse size (piece more [44] ++ rest) = if more = true ∧ size = SIZE_REMAINING then none else some rest := by
  cases more with
  | true => simp [piece,nextParse]
  | false =>
    rcases next rfl with rfl | ⟨others,rfl⟩ <;> simp [piece,nextParse]

theorem ends_next (next : Next more rest) : ∀ c ∈ (piece more [44] ++ rest).head?, c = 44 ∨ c = 59 := by
  cases more with
  | true => simp [piece]
  | false => rcases next rfl with rfl | ⟨others,rfl⟩ <;> simp [piece]

theorem roParse_written (next : Next more rest) (ro : Bool) :
    roParse (piece ro [114,111] ++ (piece more [44] ++ rest)) = (ro,piece more [44] ++ rest) := by
  cases ro with
  | true => rfl
  | false =>
    have ends := ends_next next
    generalize piece more [44] ++ rest = tail at *
    cases tail with
    | nil => rfl
    | cons c tail => rcases ends c rfl with rfl | rfl <;> rfl

theorem ends_ro (next : Next more rest) (ro : Bool) :
    ∀ c ∈ (piece ro [114,111] ++ (piece more [44] ++ rest)).head?, c = 114 ∨ c = 44 ∨ c = 59 := by
  cases ro with
  | true => simp [piece]
  | false => exact fun c first => .inr (ends_next next c first)

def readName (part : Part) (offset : BitVec 64) : Name :=
  if part.auto_name then autoName part.size offset else userName part.name

/-- What is assumed of the name of a partition: a given name is not empty and has no closing bracket. -/
def NameOk (part : Part) : Prop := part.auto_name = false → part.name ≠ [] ∧ 41 ∉ part.name

theorem nameParse_written (ok : NameOk part) {tail : List UInt8} (ends : ∀ c ∈ tail.head?, c = 114 ∨ c = 44 ∨ c = 59)
    (offset : BitVec 64) :
    nameParse part.size offset (piece (!part.auto_name) (40 :: part.name ++ [41]) ++ tail) = some (readName part offset,tail) := by
  rw [readName]
  cases auto : part.auto_name with
  | true =>
    cases tail with
    | nil => rfl
    | cons c tail => rcases ends c rfl with rfl | rfl | rfl <;> rfl
  | false =>
    obtain ⟨some_,bracket⟩ := ok auto
    have outside : ∀ c ∈ part.name, decide (c ≠ 41) = true := by
      intro c inside
      have : c ≠ 41 := by rintro rfl; exact bracket inside
      simpa using this
    have shape : piece (!false) (40 :: part.name ++ [41]) ++ tail = 40 :: (part.name ++ 41 :: tail) := by
      simp [piece]
    have taken : (part.name ++ 41 :: tail).takeWhile (· ≠ 41) = part.name := by
      rw [takeWhile_append_of_pos outside,takeWhile_cons_of_neg (by decide),append_nil]
    have dropped : (part.name ++ 41 :: tail).dropWhile (· ≠ 41) = 41 :: tail := by
      rw [dropWhile_append_of_pos outside,dropWhile_cons_of_neg (by decide)]
    rw [shape,nameParse,if_neg (by simp),taken,if_neg some_,dropped]
    rfl

/-- The offset that is read where `prev` stands in front. -/
def readOffset (prev : Option Part) (part : Part) : BitVec 64 :=
  if hasOffset prev part then part.offset else OFFSET_NOT_SPECIFIED

theorem sizeParse_format (positive : part.size ≠ 0) {p : List UInt8} (ends : Ends p) :
    sizeParse (memsize_format part.size ++ p) = if part.size < MIN_PART_SIZE then none else (match p with
      | 64 :: p => some (part.size,memsize_parse p)
      | _ => some (part.size,OFFSET_NOT_SPECIFIED,p)) := by
  have parsed := memsize_parse_format positive ends
  obtain ⟨c,rest,equal,dash,-⟩ := memsize_format_cons positive
  rw [equal] at parsed ⊢
  rw [sizeParse.eq_def]
  split
  · rename_i other
    exact absurd (List.cons.inj other).1 dash
  · rw [parsed]
    split_ifs <;> rfl

theorem sizeParse_written (positive : part.size ≠ 0)
    (placed : hasOffset prev part = true → part.offset ≠ 0) {tail : List UInt8}
    (ends : ∀ c ∈ tail.head?, c = 40 ∨ c = 114 ∨ c = 44 ∨ c = 59) :
    sizeParse (memsize_format part.size ++ (piece (hasOffset prev part) (64 :: memsize_format part.offset) ++ tail)) =
      if part.size < MIN_PART_SIZE then none else some (part.size,readOffset prev part,tail) := by
  have later : Ends tail := fun c first => .inr (ends c first)
  cases gap : hasOffset prev part with
  | true =>
    have offset := memsize_parse_format (placed gap) later
    rw [piece,if_pos rfl,sizeParse_format positive (by intro c first; cases first; exact .inl rfl),readOffset,if_pos gap]
    simp only [cons_append,offset]
  | false =>
    rw [piece,if_neg Bool.false_ne_true,nil_append,sizeParse_format positive later,readOffset,gap]
    cases tail with
    | nil => rfl
    | cons c tail => rcases ends c rfl with rfl | rfl | rfl | rfl <;> rfl

/-- A partition as it is read behind `prev`: only a generated name can be another one. -/
def reread (prev : Option Part) (part : Part) : Part := { part with name := (readName part (readOffset prev part)).name }

theorem part_parse_written (positive : part.size ≠ 0)
    (placed : hasOffset prev part = true → part.offset ≠ 0) (ok : NameOk part) (next : Next more rest) :
    part_parse ((partPieces prev part more).flatten ++ rest) =
      if part.size < MIN_PART_SIZE ∨ more = true ∧ part.size = SIZE_REMAINING then none
      else some ({ reread prev part with offset := readOffset prev part },readName part (readOffset prev part),rest) := by
  have text : (partPieces prev part more).flatten ++ rest =
      memsize_format part.size ++ (piece (hasOffset prev part) (64 :: memsize_format part.offset) ++
        (piece (!part.auto_name) (40 :: part.name ++ [41]) ++ (piece part.ro [114,111] ++ (piece more [44] ++ rest)))) := by
    simp only [partPieces,flatten_append,optional_flatten,flatten_cons,flatten_nil,append_nil,append_assoc]
  have ends := ends_ro next part.ro
  have bracket : ∀ c ∈ (piece (!part.auto_name) (40 :: part.name ++ [41]) ++ (piece part.ro [114,111] ++
      (piece more [44] ++ rest))).head?, c = 40 ∨ c = 114 ∨ c = 44 ∨ c = 59 := by
    cases part.auto_name with
    | true => exact fun c first => .inr (ends c first)
    | false =>
      intro c first
      cases first
      exact .inl rfl
  have auto : (readName part (readOffset prev part)).auto_name = part.auto_name := by
    rw [readName]
    cases part.auto_name <;> rfl
  rw [text,part_parse,sizeParse_written positive placed bracket]
  by_cases small : part.size < MIN_PART_SIZE
  · rw [if_pos small,if_pos (.inl small)]
    rfl
  rw [if_neg small]
  simp only [Option.bind_eq_bind,Option.bind_some,nameParse_written ok ends,roParse_written next,nextParse_written next,small,
    false_or]
  split_ifs
  · rfl
  · simp only [Option.bind_some,auto,reread]

/-! ### The partitions of a device -/

theorem part_validate_some {valid : Part} (accepted : part_validate id part = some valid) :
    valid = { part with size := if part.size = SIZE_REMAINING then id.size - part.offset else part.size } ∧
    part_validate id valid = some valid ∧ valid.size ≠ 0 ∧ valid.offset ≠ OFFSET_NOT_SPECIFIED := by
  have equal : valid = { part with size := if part.size = SIZE_REMAINING then id.size - part.offset else part.size } ∧
      valid.offset < valid.offset + valid.size := by
    rw [part_validate] at accepted
    split_ifs at accepted with rest before ends behind blocks before ends behind blocks
    all_goals
      cases accepted
      simp only [rest,if_true,if_false,true_and]
      exact BitVec.not_le.mp ends
  obtain ⟨filled,grows⟩ := equal
  refine ⟨filled,?_,?_,?_⟩
  · have kept : (if valid.size = SIZE_REMAINING then { valid with size := id.size - valid.offset } else valid) = valid := by
      by_cases whole : part.size = SIZE_REMAINING
      · rw [filled]
        split_ifs <;> rfl
      · rw [if_neg whole] at filled
        rw [filled,if_neg whole]
    have same : (if part.size = SIZE_REMAINING then { part with size := id.size - part.offset } else part) = valid := by
      rw [filled]
      split_ifs <;> rfl
    rw [part_validate] at accepted ⊢
    simpa only [kept,same] using accepted
  · intro zero
    rw [zero] at grows
    exact absurd grows (by simp)
  intro last
  rw [last,BitVec.lt_def] at grows
  have : (OFFSET_NOT_SPECIFIED).toNat = 2 ^ 64 - 1 := rfl
  omega

theorem part_validate_named (id : Mtdids) (part : Part) (name : List UInt8) :
    part_validate id { part with name := name } = (part_validate id part).map fun valid => { valid with name := name } := by
  simp only [part_validate]
  by_cases whole : part.size = SIZE_REMAINING
  · split_ifs <;> rfl
  · split_ifs <;> rfl

theorem part_validate_reread (prev : Option Part) (valid : part_validate id part = some part) :
    part_validate id (reread prev part) = some (reread prev part) := by
  rw [reread,part_validate_named,valid]
  rfl

/-- Where the next partition starts unless it says otherwise. -/
def endOf : Option Part → BitVec 64
  | none => 0
  | some part => part.offset + part.size

theorem running_offset (prev : Option Part) (bounded : part.offset ≠ OFFSET_NOT_SPECIFIED) :
    (if readOffset prev part = OFFSET_NOT_SPECIFIED then endOf prev else readOffset prev part) = part.offset := by
  rw [readOffset]
  cases gap : hasOffset prev part with
  | true => rw [if_pos rfl,if_neg bounded]
  | false =>
    cases prev with
    | none =>
      rw [hasOffset,decide_eq_false_iff_not,not_not] at gap
      exact gap.symm
    | some prev => rwa [hasOffset,decide_eq_false_iff_not,not_not] at gap

/-- All sizes are accepted again, and only the last partition may take the rest of the flash. -/
def Readable : List Part → Prop
  | [] => True
  | part :: parts => MIN_PART_SIZE ≤ part.size ∧ (parts ≠ [] → part.size ≠ SIZE_REMAINING) ∧ Readable parts

instance decidableReadable : (parts : List Part) → Decidable (Readable parts)
  | [] => .isTrue trivial
  | part :: parts =>
    have := decidableReadable parts
    inferInstanceAs (Decidable (MIN_PART_SIZE ≤ part.size ∧ (parts ≠ [] → part.size ≠ SIZE_REMAINING) ∧ Readable parts))

def rereadAll : Option Part → List Part → List Part
  | _, [] => []
  | prev, part :: parts => reread prev part :: rereadAll (some part) parts

/-- What is known of the partitions of a device when they are written. -/
structure PartOk (id : Mtdids) (part : Part) : Prop where
  valid : part_validate id part = some part
  name : NameOk part

/-- Only the first partition can start at 0. -/
def Placed (prev : Option Part) (parts : List Part) : Prop :=
  (prev ≠ none → ∀ part ∈ parts, part.offset ≠ 0) ∧ parts.Pairwise fun _ b => b.offset ≠ 0

theorem Placed.offset (placed : Placed prev (part :: parts))
    (gap : hasOffset prev part = true) : part.offset ≠ 0 := by
  cases prev with
  | none => simpa [hasOffset] using gap
  | some prev => exact placed.1 (by simp) part mem_cons_self

theorem Placed.tail (placed : Placed prev (part :: parts)) :
    Placed (some part) parts :=
  ⟨fun _ => (pairwise_cons.mp placed.2).1,(pairwise_cons.mp placed.2).2⟩

theorem partsLoop_written (stop : rest = [] ∨ ∃ others, rest = 59 :: others) :
    ∀ (parts : List Part) (prev : Option Part) (part_cnt fuel : Nat), parts.length < fuel → Placed prev parts →
      (∀ part ∈ parts, PartOk id part) →
      partsLoop id fuel (endOf prev) ((partsPieces (part_cnt+parts.length) prev part_cnt parts).flatten ++ rest) =
        if Readable parts then some (rereadAll prev parts,rest) else none := by
  intro parts
  induction parts with
  | nil =>
    intro prev part_cnt fuel enough _ _
    obtain ⟨fuel,rfl⟩ := Nat.exists_eq_succ_of_ne_zero (Nat.ne_zero_of_lt enough)
    have ended : rest = [] ∨ rest.head? = some 59 := by
      rcases stop with rfl | ⟨others,rfl⟩
      · exact .inl rfl
      · exact .inr rfl
    rw [partsPieces,flatten_nil,nil_append,partsLoop,if_pos ended]
    exact (if_pos trivial).symm
  | cons part parts ih =>
    intro prev part_cnt fuel enough placed ok
    obtain ⟨fuel,rfl⟩ := Nat.exists_eq_succ_of_ne_zero (Nat.ne_zero_of_lt enough)
    have sound := ok part mem_cons_self
    obtain ⟨-,-,positive,bounded⟩ := part_validate_some sound.valid
    have others : ∀ part ∈ parts, PartOk id part := fun part inside => ok part (mem_cons_of_mem _ inside)
    have tail := ih (some part) (part_cnt+1) fuel (by simpa using enough) placed.tail others
    have counted : part_cnt + (part :: parts).length = part_cnt + 1 + parts.length := by
      rw [length_cons]
      omega
    have more : decide (part_cnt + 1 < part_cnt + 1 + parts.length) = decide (parts ≠ []) := by
      cases parts <;> simp
    rw [partsPieces,flatten_append,append_assoc,counted,more]
    generalize written : (partsPieces (part_cnt + 1 + parts.length) (some part) (part_cnt+1) parts).flatten ++ rest = p at tail ⊢
    have next : Next (decide (parts ≠ [])) p := by
      intro last
      have none_ : parts = [] := by simpa using last
      subst none_
      rw [← written]
      exact stop
    have begins : ¬ ((partPieces prev part (decide (parts ≠ []))).flatten ++ p = [] ∨
        ((partPieces prev part (decide (parts ≠ []))).flatten ++ p).head? = some 59) := by
      obtain ⟨c,text,equal,-,semicolon⟩ := memsize_format_cons positive
      simp [partPieces,equal,semicolon]
    rw [partsLoop,if_neg begins,part_parse_written positive placed.offset sound.name next]
    by_cases refused : part.size < MIN_PART_SIZE ∨ decide (parts ≠ []) = true ∧ part.size = SIZE_REMAINING
    · have unreadable : ¬ Readable (part :: parts) := by
        rintro ⟨large,notRest,-⟩
        rcases refused with small | ⟨some_,whole⟩
        · exact absurd small (BitVec.not_lt.mpr large)
        · exact notRest (by simpa using some_) whole
      rw [if_pos refused,if_neg unreadable]
      rfl
    have placedAgain : { { reread prev part with offset := readOffset prev part } with
        offset := if readOffset prev part = OFFSET_NOT_SPECIFIED then endOf prev else readOffset prev part } = reread prev part := by
      have : (if readOffset prev part = OFFSET_NOT_SPECIFIED then endOf prev else readOffset prev part) = part.offset :=
        running_offset prev bounded
      rw [this]
      rfl
    have valid := part_validate_reread prev sound.valid
    have readable : Readable (part :: parts) ↔ Readable parts := by
      obtain ⟨large,single⟩ := not_or.mp refused
      refine ⟨fun all => all.2.2,fun rest => ⟨BitVec.not_lt.mp large,fun some_ whole => single ⟨by simpa using some_,whole⟩,rest⟩⟩
    rw [if_neg refused]
    simp only [Option.bind_eq_bind,Option.bind_some,placedAgain,valid,readable]
    have continues : (reread prev part).offset + (reread prev part).size = endOf (some part) := rfl
    rw [continues,tail]
    split_ifs <;> rfl

def place (part : Part) : Nat := part.offset.toNat

theorem place_le {a b : Part} : place a ≤ place b ↔ a.offset ≤ b.offset := BitVec.le_def.symm

theorem part_sort_add_eq {sorted : List Part} (added : part_sort_add parts part = some sorted) :
    sorted = insert place part parts := by
  induction parts generalizing sorted with
  | nil =>
    cases added
    rfl
  | cons pi parts ih =>
    rw [part_sort_add] at added
    split_ifs at added with zero le
    · cases added
      rw [insert_cons,if_pos (place_le.mpr le)]
    · obtain ⟨later,addedLater,rfl⟩ := Option.map_eq_some_iff.mp added
      rw [insert_cons,if_neg fun above => le (place_le.mp above),ih addedLater]

theorem part_sort_add_nonzero (parts : List Part) (nonzero : part.offset ≠ 0) :
    part_sort_add parts part = some (insert place part parts) := by
  induction parts with
  | nil => rfl
  | cons pi parts ih =>
    rw [part_sort_add,if_neg fun zero => nonzero (zero.1.trans zero.2),insert_cons,ih]
    by_cases le : part.offset ≤ pi.offset
    · rw [if_pos le,if_pos (place_le.mpr le)]
    · rw [if_neg le,if_neg fun above => le (place_le.mp above)]
      rfl

theorem foldlM_part_sort_add (placed : Placed none parts) :
    parts.foldlM part_sort_add [] = some (sort place parts.reverse) := by
  have later : ∀ (parts sorted : List Part), (∀ part ∈ parts, part.offset ≠ 0) →
      parts.foldlM part_sort_add sorted = some (parts.foldl (fun sorted part => insert place part sorted) sorted) := by
    intro parts
    induction parts with
    | nil => exact fun _ _ => rfl
    | cons part parts ih =>
      intro sorted nonzero
      rw [foldlM_cons,part_sort_add_nonzero sorted (nonzero part mem_cons_self)]
      exact ih _ fun part inside => nonzero part (mem_cons_of_mem _ inside)
  rw [← foldl_insert]
  cases parts with
  | nil => rfl
  | cons part parts => exact later parts [part] (pairwise_cons.mp placed.2).1

theorem rereadAll_offsets (prev : Option Part) (parts : List Part) :
    (rereadAll prev parts).map Part.offset = parts.map Part.offset := by
  induction parts generalizing prev with
  | nil => rfl
  | cons part parts ih =>
    rw [rereadAll,map_cons,ih]
    rfl

def rereadParts (parts : List Part) : List Part := sort place (rereadAll none parts).reverse

theorem sort_rereadAll (placed : Placed none parts) :
    (rereadAll none parts).foldlM part_sort_add [] = some (rereadParts parts) := by
  refine foldlM_part_sort_add ⟨fun prev => absurd rfl prev,?_⟩
  have offsets : (parts.map Part.offset).Pairwise fun _ b => b ≠ 0 := pairwise_map.mpr placed.2
  rw [← rereadAll_offsets none] at offsets
  exact pairwise_map.mp offsets

/-! ### Devices -/

structure DeviceOk (ids : List Mtdids) (dev : Device) : Prop where
  found : id_find_by_mtd_id ids dev.id.mtd_id = some dev.id
  colon : 58 ∉ dev.id.mtd_id
  inhabited : dev.parts ≠ []
  sorted : dev.parts.Pairwise fun a b => place a ≤ place b ∧ b.offset ≠ 0
  parts : ∀ part ∈ dev.parts, PartOk dev.id part

theorem DeviceOk.placed (ok : DeviceOk ids dev) : Placed none dev.parts :=
  ⟨fun prev => absurd rfl prev,ok.sorted.imp And.right⟩

def rereadDevice (dev : Device) : Option Device := if Readable dev.parts then some ⟨dev.id,rereadParts dev.parts⟩ else none

def deviceText (dev : Device) : List UInt8 :=
  dev.id.mtd_id ++ 58 :: (partsPieces dev.parts.length none 0 dev.parts).flatten

theorem partsPieces_length (num_parts : Nat) (prev : Option Part) (part_cnt : Nat) {parts : List Part}
    (positive : ∀ part ∈ parts, part.size ≠ 0) : parts.length ≤ (partsPieces num_parts prev part_cnt parts).flatten.length := by
  induction parts generalizing prev part_cnt with
  | nil => exact Nat.zero_le _
  | cons part parts ih =>
    obtain ⟨c,text,equal,-⟩ := memsize_format_cons (positive part mem_cons_self)
    have := ih (some part) (part_cnt+1) fun part inside => positive part (mem_cons_of_mem _ inside)
    rw [partsPieces,partPieces,equal]
    simp only [flatten_append,flatten_cons,length_append,length_cons]
    omega

theorem device_parse_written (ok : DeviceOk ids dev)
    (fresh : device_find devices dev.id.type dev.id.num = none)
    (stop : rest = [] ∨ ∃ others, rest = 59 :: others) :
    device_parse ids devices (deviceText dev ++ rest) = (rereadDevice dev).map fun again => (again,rest.drop 1) := by
  have outside : ∀ c ∈ dev.id.mtd_id, decide (c ≠ 58) = true := by
    intro c inside
    have : c ≠ 58 := by rintro rfl; exact ok.colon inside
    simpa using this
  generalize written : (partsPieces dev.parts.length none 0 dev.parts).flatten = text
  have shape : deviceText dev ++ rest = dev.id.mtd_id ++ 58 :: (text ++ rest) := by
    rw [deviceText,written,append_assoc,cons_append]
  have taken : (dev.id.mtd_id ++ 58 :: (text ++ rest)).takeWhile (· ≠ 58) = dev.id.mtd_id := by
    rw [takeWhile_append_of_pos outside,takeWhile_cons_of_neg (by decide),append_nil]
  have dropped : (dev.id.mtd_id ++ 58 :: (text ++ rest)).dropWhile (· ≠ 58) = 58 :: (text ++ rest) := by
    rw [dropWhile_append_of_pos outside,dropWhile_cons_of_neg (by decide)]
  have start : firstOffset devices dev.id = endOf none := by
    rw [firstOffset,fresh]
    rfl
  have enough : dev.parts.length < (text ++ rest).length + 1 := by
    have := @partsPieces_length dev.parts.length none 0 dev.parts fun part inside =>
      (part_validate_some (ok.parts part inside).valid).2.2.1
    rw [written] at this
    rw [length_append]
    omega
  have loop := partsLoop_written stop dev.parts none 0 _ enough ok.placed ok.parts
  rw [Nat.zero_add,written] at loop
  have again : rereadAll none dev.parts ≠ [] := by
    have := congrArg List.length (rereadAll_offsets none dev.parts)
    rw [length_map,length_map] at this
    exact fun empty => ok.inhabited (eq_nil_of_length_eq_zero (by rw [← this,empty]; rfl))
  have colon : 58 ∈ dev.id.mtd_id ++ 58 :: (text ++ rest) := mem_append_right _ mem_cons_self
  rw [shape,device_parse,rereadDevice]
  by_cases readable : Readable dev.parts
  · rw [if_pos readable] at loop ⊢
    simp only [guard,if_pos colon,taken,dropped,ok.found,start,drop_succ_cons,drop_zero,loop,Option.bind_eq_bind,
      Option.pure_def,Option.bind_some,if_pos again,sort_rereadAll ok.placed,Option.map_some]
  rw [if_neg readable] at loop ⊢
  simp only [guard,if_pos colon,taken,dropped,ok.found,start,drop_succ_cons,drop_zero,loop,Option.bind_eq_bind,
    Option.pure_def,Option.bind_some,Option.bind_none,Option.map_none]

/-- Devices are told apart by type and number. -/
def key (dev : Device) : UInt8 × UInt8 := (dev.id.type,dev.id.num)

theorem device_find_none :
    device_find devices dev.id.type dev.id.num = none ↔ key dev ∉ devices.map key := by
  simp [device_find,key]

structure ListOk (ids : List Mtdids) (devices : List Device) : Prop where
  each : ∀ dev ∈ devices, DeviceOk ids dev
  keys : (devices.map key).Nodup

theorem pieces_cons (few : dev.parts.length < 2 ^ 16) (devices : List Device) :
    (pieces (dev :: devices)).flatten = deviceText dev ++ (piece (devices ≠ []) [59] ++ (pieces devices).flatten) := by
  simp only [pieces,flatten_append,optional_flatten,flatten_cons,append_assoc,
    Nat.mod_eq_of_lt few,deviceText,cons_append,nil_append]

theorem devicesLoop_written :
    ∀ (devices done : List Device) (fuel : Nat), devices.length < fuel → (∀ dev ∈ devices, DeviceOk ids dev) →
      (∀ dev ∈ devices, dev.parts.length < 2 ^ 16) → ((done ++ devices).map key).Nodup →
      devicesLoop ids fuel done (pieces devices).flatten = (devices.mapM rereadDevice).map (done ++ ·) := by
  intro devices
  induction devices with
  | nil =>
    intro done fuel enough _ _ _
    obtain ⟨fuel,rfl⟩ := Nat.exists_eq_succ_of_ne_zero (Nat.ne_zero_of_lt enough)
    simp [pieces,devicesLoop]
  | cons dev devices ih =>
    intro done fuel enough ok few distinct
    obtain ⟨fuel,rfl⟩ := Nat.exists_eq_succ_of_ne_zero (Nat.ne_zero_of_lt enough)
    have fresh : device_find done dev.id.type dev.id.num = none := by
      rw [map_append] at distinct
      exact device_find_none.mpr fun inside => (nodup_append.mp distinct).2.2 _ inside _ mem_cons_self rfl
    have stop : piece (devices ≠ []) [59] ++ (pieces devices).flatten = [] ∨
        ∃ others, piece (devices ≠ []) [59] ++ (pieces devices).flatten = 59 :: others := by
      cases devices with
      | nil => exact .inl rfl
      | cons _ _ => exact .inr ⟨_,rfl⟩
    have behind : (piece (devices ≠ []) [59] ++ (pieces devices).flatten).drop 1 = (pieces devices).flatten := by
      cases devices <;> rfl
    have begins : ¬ deviceText dev ++ (piece (devices ≠ []) [59] ++ (pieces devices).flatten) = [] := by
      simp [deviceText]
    rw [pieces_cons (few dev mem_cons_self),devicesLoop,if_neg begins,
      device_parse_written (ok dev mem_cons_self) fresh stop,behind,mapM_cons]
    by_cases readable : Readable dev.parts
    · have again := ih (done ++ [⟨dev.id,rereadParts dev.parts⟩]) fuel (by simpa using enough)
        (fun dev inside => ok dev (mem_cons_of_mem _ inside)) (fun dev inside => few dev (mem_cons_of_mem _ inside))
        (by simpa [key] using distinct)
      rw [rereadDevice,if_pos readable]
      simp only [Option.map_some,Option.bind_eq_bind,Option.bind_some,guard,if_pos fresh,Option.pure_def,again]
      cases devices.mapM rereadDevice with
      | none => rfl
      | some others => simp
    · rw [rereadDevice,if_neg readable]
      rfl

theorem generated_text {text : List UInt8} (some_ : devices ≠ [])
    (generated : generate_mtdparts devices MTDPARTS_MAXLEN = .ok text) :
    text = mtdpartsPrefix ++ (pieces devices).flatten ∧ (pieces devices).flatten.length < MTDPARTS_MAXLEN := by
  rw [generate_mtdparts,if_neg some_,putDevices_eq] at generated
  rcases foldlM_put (pieces devices) mtdpartsPrefix ((MTDPARTS_MAXLEN + 2 ^ 32 - 1) % 2 ^ 32) with
    ⟨fits,equal⟩ | ⟨k,-,-,-,equal⟩
  · rw [equal] at generated
    rw [upTo,take_length] at fits generated
    cases generated
    have : MTDPARTS_MAXLEN = 512 := rfl
    exact ⟨rfl,by omega⟩
  · rw [equal] at generated
    cases generated

theorem pieces_length (positive : ∀ dev ∈ devices, ∀ part ∈ dev.parts, part.size ≠ 0) :
    devices.length ≤ (pieces devices).flatten.length ∧ ∀ dev ∈ devices, dev.parts.length ≤ (pieces devices).flatten.length := by
  induction devices with
  | nil => exact ⟨Nat.zero_le _,by simp⟩
  | cons dev devices ih =>
    obtain ⟨many,each⟩ := ih fun dev inside => positive dev (mem_cons_of_mem _ inside)
    have first := partsPieces_length (dev.parts.length % 2 ^ 16) none 0 (positive dev mem_cons_self)
    have long : dev.parts.length + (pieces devices).flatten.length + 1 ≤ (pieces (dev :: devices)).flatten.length := by
      simp only [pieces,flatten_append,flatten_cons,length_append,length_cons]
      omega
    refine ⟨by rw [length_cons]; omega,fun other inside => ?_⟩
    rcases mem_cons.mp inside with rfl | later
    · omega
    · have := each other later
      omega

theorem parse_generated (ok : ListOk ids devices) {text : List UInt8}
    (generated : generate_mtdparts devices MTDPARTS_MAXLEN = .ok text) :
    parse_mtdparts ids text = if devices = [] then none else devices.mapM rereadDevice := by
  by_cases none_ : devices = []
  · subst none_
    cases generated
    rfl
  obtain ⟨rfl,short⟩ := generated_text none_ generated
  obtain ⟨many,each⟩ := pieces_length fun dev inside part within =>
    (part_validate_some ((ok.each dev inside).parts part within).valid).2.2.1
  have few : ∀ dev ∈ devices, dev.parts.length < 2 ^ 16 := by
    intro dev inside
    have := each dev inside
    have : MTDPARTS_MAXLEN = 512 := rfl
    omega
  have word : (mtdpartsPrefix ++ (pieces devices).flatten).take 9 = mtdpartsPrefix := rfl
  have behind : (mtdpartsPrefix ++ (pieces devices).flatten).drop 9 = (pieces devices).flatten := rfl
  have nonempty : (pieces devices).flatten ≠ [] := by
    intro empty
    rw [empty] at many
    exact none_ (eq_nil_of_length_eq_zero (Nat.le_zero.mp many))
  have loop := devicesLoop_written devices [] ((pieces devices).flatten.length + 1) (by omega) ok.each few ok.keys
  rw [parse_mtdparts,if_neg none_,behind,loop,guard,if_pos ⟨rfl,nonempty⟩]
  cases devices.mapM rereadDevice <;> rfl

end UBoot.MtdpartsText
