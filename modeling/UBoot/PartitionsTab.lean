import UBoot.GptCreator

/-!
The text of a `partitions.tab`: a group of properties and a group of partitions, with blanks and comments. What
`gpt_creator` reads from such a text is said by `main_text`: the properties, and start and size of each partition,
where blanks behind the size hide its suffix.
-/
namespace UBoot.PartitionsTab
open List CStrings CNumbers Memory Gpt GptCreator

variable {c : UInt8} {n : Nat} {name rest : List UInt8} {t : Tab}

/-! ### The text -/

structure Blanks where
  bytes : List UInt8
  blank : ∀ c ∈ bytes, c = space ∨ c = tab

/-- What stands behind a `#`. -/
structure Comment where
  bytes : List UInt8
  plain : ∀ c ∈ bytes, c ≠ 0 ∧ c ≠ newline

def commentText : Option Comment → List UInt8
  | none => []
  | some comment => hash :: comment.bytes

/-- A character that stands for itself in names and values. -/
def Ordinary (c : UInt8) : Prop := 0 < c ∧ c < 128 ∧ c ≠ newline ∧ c ≠ hash ∧ c ≠ colon ∧ c ≠ equalSign

instance : DecidablePred Ordinary := fun c => inferInstanceAs (Decidable (0 < c ∧ _))

def Tight (text : List UInt8) : Prop := (∀ c ∈ text.head?, trims c = false) ∧ ∀ c ∈ text.getLast?, trims c = false

structure Name where
  bytes : List UInt8
  some_ : bytes ≠ []
  ordinary : ∀ c ∈ bytes, Ordinary c
  tight : Tight bytes

inductive Suffix
  | k | K | m | M | g | G
deriving DecidableEq

def Suffix.char : Suffix → UInt8
  | .k => 107
  | .K => 75
  | .m => 109
  | .M => 77
  | .g => 103
  | .G => 71

def Suffix.factor : Suffix → Nat
  | .k | .K => 1024
  | .m | .M => 1024 * 1024
  | .g | .G => 1024 * 1024 * 1024

structure Amount where
  digits : List UInt8
  some_ : digits ≠ []
  decimal : ∀ c ∈ digits, isdigit c = true
  suffix : Option Suffix

def Amount.text (a : Amount) : List UInt8 := a.digits ++ (a.suffix.map Suffix.char).toList

def digitsValue (base : Nat) (digits : List UInt8) : Nat := digits.foldl (fun n c => base * n + (c.toNat - 48)) 0

def Amount.number (a : Amount) : Nat := digitsValue 10 a.digits

def Amount.value (a : Amount) : Nat := a.number * (a.suffix.map Suffix.factor).getD 1

inductive FsType
  | LINUX_FS
  | FAT_FS
  | EMPTY
deriving DecidableEq

def FsType.text : FsType → List UInt8
  | .LINUX_FS => [76,73,78,85,88,95,70,83]
  | .FAT_FS => [70,65,84,95,70,83]
  | .EMPTY => [69,77,80,84,89]

structure Note where
  blanks : Blanks
  comment : Option Comment

def Note.text (n : Note) : List UInt8 := n.blanks.bytes ++ commentText n.comment

/-- The end of a line: a comment does not touch what stands in front of it. -/
structure Tail extends Note where
  apart : comment ≠ none → blanks.bytes ≠ []

/-- `name:`. -/
structure Label where
  indent : Blanks
  tail : Tail

def Label.text (l : Label) (name : List UInt8) : List UInt8 := l.indent.bytes ++ (name ++ colon :: l.tail.text)

/-- `key = value`. -/
structure Property where
  indent : Blanks
  key : Name
  before : Blanks
  after : Blanks
  value : List UInt8
  ordinary : ∀ c ∈ value, Ordinary c
  tight : Tight value
  tail : Note

def Property.text (p : Property) : List UInt8 :=
  p.indent.bytes ++ (p.key.bytes ++ (p.before.bytes ++ equalSign :: (p.after.bytes ++ (p.value ++ p.tail.text))))

/-- `name = start, size, fstype`. The blanks are named after what stands next to them. -/
structure Entry where
  indent : Blanks
  name : Name
  beforeEqual : Blanks
  afterEqual : Blanks
  start : Amount
  beforeComma : Blanks
  afterComma : Blanks
  size : Amount
  beforeComma2 : Blanks
  fstype : Option (Blanks × FsType)
  tail : Tail

def typeText : Option (Blanks × FsType) → List UInt8
  | none => []
  | some (blanks,fstype) => blanks.bytes ++ fstype.text

def Entry.value (e : Entry) : List UInt8 :=
  e.start.text ++ (e.beforeComma.bytes ++ comma :: (e.afterComma.bytes ++ (e.size.text ++ (e.beforeComma2.bytes ++
    comma :: typeText e.fstype))))

def Entry.text (e : Entry) : List UInt8 :=
  e.indent.bytes ++ (e.name.bytes ++ (e.beforeEqual.bytes ++ equalSign :: (e.afterEqual.bytes ++ (e.value ++ e.tail.text))))

def lineText {α : Type} (text : α → List UInt8) : Note ⊕ α → List UInt8
  | .inl note => note.text
  | .inr line => text line

def marked {α : Type} (lines : List (Note ⊕ α)) : List α := lines.filterMap Sum.getRight?

/-- A text with properties and partitions. The last line has no newline; behind a newline at the end stands an empty one. -/
structure Tab where
  front : List Note
  property : Label
  properties : List (Note ⊕ Property)
  partition : Label
  partitions : List (Note ⊕ Entry)
  few : (marked properties).length ≤ 128
  headerLba : Amount
  disk : Amount
  headerLba_is : ((marked properties).find? (·.key.bytes = ascii "gpt_header_lba")).map (·.value) = some headerLba.text
  disk_is : ((marked properties).find? (·.key.bytes = ascii "disk_size")).map (·.value) = some disk.text

def Tab.entries (t : Tab) : List Entry := marked t.partitions

def Tab.lines (t : Tab) : List (List UInt8) :=
  t.front.map Note.text ++ (t.property.text (ascii "property") :: (t.properties.map (lineText Property.text) ++
    (t.partition.text (ascii "partition") :: t.partitions.map (lineText Entry.text))))

def Tab.text (t : Tab) : List UInt8 := [newline].intercalate t.lines

/-! ### Cutting and trimming -/

theorem strchr_at {front behind : List UInt8} (fresh : c ∉ front) : strchr (front ++ c :: behind) c = some (front,behind) := by
  have pass : ∀ x ∈ front, decide (x ≠ c) = true := fun x member => decide_eq_true fun same => fresh (same ▸ member)
  rw [strchr,if_pos (mem_append_right _ mem_cons_self),takeWhile_append_of_pos pass,dropWhile_append_of_pos pass,
    takeWhile_cons_of_neg (by simp),dropWhile_cons_of_neg (by simp),append_nil,tail_cons]

theorem strchr_none {text : List UInt8} (fresh : c ∉ text) : strchr text c = none := if_neg fresh

theorem Blanks.trims (b : Blanks) : ∀ c ∈ b.bytes, GptCreator.trims c = true := by
  intro c member
  rcases b.blank c member with rfl | rfl <;> rfl

theorem Blanks.apart (b : Blanks) (other : c ≠ space ∧ c ≠ tab) : c ∉ b.bytes := by
  intro member
  rcases b.blank c member with same | same
  · exact other.1 same
  · exact other.2 same

theorem str_trim_tight {text : List UInt8} (tight : Tight text) (b b' : Blanks) : str_trim (b.bytes ++ (text ++ b'.bytes)) = text := by
  have right : (b.bytes ++ (text ++ b'.bytes)).rdropWhile trims = (b.bytes ++ text).rdropWhile trims := by
    rw [List.rdropWhile,List.rdropWhile,← append_assoc,reverse_append,
      dropWhile_append_of_pos fun c member => b'.trims c (mem_reverse.mp member)]
  rw [str_trim,right]
  cases text with
  | nil =>
    rw [append_nil,rdropWhile_eq_nil_iff.mpr b.trims]
    rfl
  | cons c rest =>
    have kept : (b.bytes ++ c :: rest).rdropWhile trims = b.bytes ++ c :: rest := by
      refine rdropWhile_eq_self_iff.mpr fun nonempty => ?_
      rw [getLast_append_of_ne_nil nonempty (cons_ne_nil c rest),tight.2 _ (getLast?_eq_some_getLast _)]
      decide
    rw [kept,dropWhile_append_of_pos b.trims,dropWhile_cons_of_neg (by rw [tight.1 c rfl]; decide)]

theorem cut_comment {front : List UInt8} (fresh : hash ∉ front) (comment : Option Comment) :
    (front ++ commentText comment).takeWhile (· ≠ hash) = front := by
  have pass : ∀ x ∈ front, decide (x ≠ hash) = true := fun x member => decide_eq_true fun same => fresh (same ▸ member)
  rw [takeWhile_append_of_pos pass]
  cases comment with
  | none => exact append_nil front
  | some comment => rw [commentText,takeWhile_cons_of_neg (by simp),append_nil]

/-! ### Lines -/

theorem parseLine_note (groups : List Group) (note : Note) : parseLine groups note.text = some groups := by
  have cut : note.text.takeWhile (· ≠ hash) = note.blanks.bytes := cut_comment (note.blanks.apart (by decide)) _
  unfold parseLine
  simp only [cut,strchr_none (note.blanks.apart (by decide : colon ≠ space ∧ colon ≠ tab)),
    strchr_none (note.blanks.apart (by decide : equalSign ≠ space ∧ equalSign ≠ tab))]

theorem parseLine_label {groups : List Group} (few : groups.length < 10) (label : Label) (some_ : name ≠ [])
    (tight : Tight name) (plain : hash ∉ name ∧ colon ∉ name) : parseLine groups (label.text name) = some (⟨name,[]⟩ :: groups) := by
  have indent : hash ∉ label.indent.bytes ∧ colon ∉ label.indent.bytes := ⟨label.indent.apart (by decide),label.indent.apart (by decide)⟩
  have cut : (label.text name).takeWhile (· ≠ hash) = (label.indent.bytes ++ name) ++ colon :: label.tail.blanks.bytes := by
    have line : label.text name = ((label.indent.bytes ++ name) ++ colon :: label.tail.blanks.bytes) ++ commentText label.tail.comment := by
      simp only [Label.text,Note.text,append_assoc,cons_append]
    rw [line]
    refine cut_comment ?_ _
    simp only [mem_append,mem_cons,not_or]
    exact ⟨⟨indent.1,plain.1⟩,by decide,label.tail.blanks.apart (by decide)⟩
  have fresh : colon ∉ label.indent.bytes ++ name := by
    simp only [mem_append,not_or]
    exact ⟨indent.2,plain.2⟩
  have trimmed : str_trim (label.indent.bytes ++ name) = name := by
    simpa using str_trim_tight tight label.indent ⟨[],by simp⟩
  unfold parseLine
  simp only [cut,strchr_at fresh,trimmed]
  rw [if_neg some_,if_neg (by omega)]

theorem parseLine_item {group : Group} {earlier : List Group} {indent before after blanks : Blanks} {value : List UInt8} {comment : Option Comment}
    (some_ : name ≠ []) (tightName : Tight name) (tightValue : Tight value) (plainName : hash ∉ name ∧ colon ∉ name ∧ equalSign ∉ name)
    (plainValue : hash ∉ value ∧ colon ∉ value) :
    parseLine (group :: earlier) (indent.bytes ++ (name ++ (before.bytes ++ equalSign :: (after.bytes ++ (value ++ (blanks.bytes ++ commentText comment)))))) =
      if 128 ≤ group.items.length then none else some ({ group with items := group.items ++ [⟨name,value⟩] } :: earlier) := by
  have absent : ∀ b : Blanks, hash ∉ b.bytes ∧ colon ∉ b.bytes ∧ equalSign ∉ b.bytes := fun b =>
    ⟨b.apart (by decide),b.apart (by decide),b.apart (by decide)⟩
  have cut : (indent.bytes ++ (name ++ (before.bytes ++ equalSign :: (after.bytes ++ (value ++ (blanks.bytes ++ commentText comment)))))).takeWhile (· ≠ hash) =
      (indent.bytes ++ (name ++ before.bytes)) ++ equalSign :: (after.bytes ++ (value ++ blanks.bytes)) := by
    have line : indent.bytes ++ (name ++ (before.bytes ++ equalSign :: (after.bytes ++ (value ++ (blanks.bytes ++ commentText comment))))) =
        ((indent.bytes ++ (name ++ before.bytes)) ++ equalSign :: (after.bytes ++ (value ++ blanks.bytes))) ++ commentText comment := by
      simp only [append_assoc,cons_append]
    rw [line]
    refine cut_comment ?_ _
    simp only [mem_append,mem_cons,not_or]
    exact ⟨⟨(absent indent).1,plainName.1,(absent before).1⟩,by decide,(absent after).1,plainValue.1,(absent blanks).1⟩
  have noColon : colon ∉ (indent.bytes ++ (name ++ before.bytes)) ++ equalSign :: (after.bytes ++ (value ++ blanks.bytes)) := by
    simp only [mem_append,mem_cons,not_or]
    exact ⟨⟨(absent indent).2.1,plainName.2.1,(absent before).2.1⟩,by decide,(absent after).2.1,plainValue.2,(absent blanks).2.1⟩
  have fresh : equalSign ∉ indent.bytes ++ (name ++ before.bytes) := by
    simp only [mem_append,not_or]
    exact ⟨(absent indent).2.2,plainName.2.2,(absent before).2.2⟩
  unfold parseLine
  simp only [cut,strchr_none noColon,strchr_at fresh,str_trim_tight tightName,str_trim_tight tightValue]
  rw [if_neg some_]

/-! ### The whole text -/

def Property.item (p : Property) : Item := ⟨p.key.bytes,p.value⟩
def Entry.item (e : Entry) : Item := ⟨e.name.bytes,e.value⟩

theorem parseLines_notes (groups : List Group) (rest : List (List UInt8)) : ∀ notes : List Note,
    parseLines (notes.map Note.text ++ rest) groups = parseLines rest groups := by
  intro notes
  induction notes with
  | nil => rfl
  | cons note notes ih =>
    rw [map_cons,cons_append,parseLines,parseLine_note]
    exact ih

section
variable {α : Type} {text : α → List UInt8} {item : α → Item}

/-- The lines of `text` put an item each into the current group. -/
def Stores (text : α → List UInt8) (item : α → Item) : Prop := ∀ (x : α) (group : Group) (earlier : List Group),
  parseLine (group :: earlier) (text x) =
    if 128 ≤ group.items.length then none else some ({ group with items := group.items ++ [item x] } :: earlier)

theorem parseLines_items (stores : Stores text item) (earlier : List Group) (rest : List (List UInt8)) :
    ∀ (lines : List (Note ⊕ α)) (group : Group), group.items.length + (marked lines).length ≤ 128 →
    parseLines (lines.map (lineText text) ++ rest) (group :: earlier) =
      parseLines rest ({ group with items := group.items ++ (marked lines).map item } :: earlier) := by
  intro lines
  induction lines with
  | nil =>
    simp [marked]
  | cons line lines ih =>
    intro group room
    cases line with
    | inl note =>
      rw [map_cons,cons_append,lineText,parseLines,parseLine_note]
      exact ih group room
    | inr x =>
      have count : (marked (.inr x :: lines)).length = (marked lines).length + 1 := rfl
      rw [map_cons,cons_append,lineText,parseLines,stores x group earlier,if_neg (by omega)]
      simp only
      rw [ih _ (by simp only [length_append,length_cons,length_nil]; omega)]
      simp only [append_assoc]
      rfl

theorem parseLines_last (stores : Stores text item) (earlier : List Group) : ∀ (lines : List (Note ⊕ α)) (group : Group), group.items.length ≤ 128 →
    parseLines (lines.map (lineText text)) (group :: earlier) =
      { group with items := group.items ++ ((marked lines).map item).take (128-group.items.length) } :: earlier := by
  intro lines
  induction lines with
  | nil =>
    simp [marked,parseLines]
  | cons line lines ih =>
    intro group room
    cases line with
    | inl note =>
      rw [map_cons,lineText,parseLines,parseLine_note]
      exact ih group room
    | inr x =>
      rw [map_cons,lineText,parseLines,stores x group earlier]
      have next : (marked (.inr x :: lines)).map item = item x :: (marked lines).map item := rfl
      rw [next]
      by_cases full : 128 ≤ group.items.length
      · rw [if_pos full,show 128 - group.items.length = 0 by omega,take_zero,append_nil]
      have left : 128 - group.items.length = (128 - (group.items ++ [item x]).length) + 1 := by
        simp only [length_append,length_cons,length_nil]
        omega
      rw [if_neg full]
      simp only
      rw [ih _ (by simp only [length_append,length_cons,length_nil]; omega),left,take_succ_cons]
      simp only [append_assoc,cons_append,nil_append]
end

theorem Ordinary.plain {text : List UInt8} (ordinary : ∀ c ∈ text, Ordinary c) : hash ∉ text ∧ colon ∉ text ∧ equalSign ∉ text :=
  ⟨fun member => (ordinary _ member).2.2.2.1 rfl,fun member => (ordinary _ member).2.2.2.2.1 rfl,fun member => (ordinary _ member).2.2.2.2.2 rfl⟩

theorem properties_stored : Stores Property.text Property.item := fun p _ _ =>
  parseLine_item p.key.some_ p.key.tight p.tight (Ordinary.plain p.key.ordinary)
    ⟨(Ordinary.plain p.ordinary).1,(Ordinary.plain p.ordinary).2.1⟩

/-! ### Amounts -/

theorem Amount.apart (a : Amount) {x : UInt8} (digit : isdigit x = false) (unit : ∀ s, x ≠ Suffix.char s) : x ∉ a.text := by
  rw [Amount.text,mem_append,not_or]
  refine ⟨fun member => ?_,fun member => ?_⟩
  · rw [a.decimal x member] at digit
    cases digit
  cases suffix : a.suffix with
  | none =>
    rw [suffix] at member
    cases member
  | some s =>
    rw [suffix] at member
    exact unit s (mem_singleton.mp member)

theorem Amount.starts (a : Amount) : ∃ c rest, a.text = c :: rest ∧ isdigit c = true := by
  obtain ⟨c,rest,digits⟩ := exists_cons_of_ne_nil a.some_
  exact ⟨c,rest ++ (a.suffix.map Suffix.char).toList,by rw [Amount.text,digits]; rfl,a.decimal c (by rw [digits]; exact mem_cons_self)⟩

theorem isdigit_bounds (digit : isdigit c = true) : 48 ≤ c.toNat ∧ c.toNat ≤ 57 := by
  simp only [isdigit,Bool.and_eq_true,decide_eq_true_eq] at digit
  exact digit

theorem digit_not_trimmed (digit : isdigit c = true) : trims c = false := by
  have bounds := isdigit_bounds digit
  have large : ¬ signedChar c ≤ 32 := by
    rw [signedChar]
    omega
  rw [trims,decide_eq_false large,Bool.and_false]

/-- A number as `strtoull` gives it. -/
def clamp (n : Nat) : BitVec 64 := if n < 2 ^ 64 then BitVec.ofNat 64 n else BitVec.allOnes 64

theorem decimal_digits (a : Amount) (ends : ∀ c ∈ rest.head?, isdigit c = false) :
    GptCreator.decimal (a.digits ++ rest) = a.number := by
  have pass : (a.digits ++ rest).takeWhile isdigit = a.digits := by
    rw [takeWhile_append_of_pos a.decimal]
    cases rest with
    | nil => exact append_nil _
    | cons c rest => rw [takeWhile_cons_of_neg (by rw [ends c rfl]; decide),append_nil]
  rw [GptCreator.decimal,pass]
  rfl

theorem strtoull_digits (a : Amount) (ends : ∀ c ∈ rest.head?, isdigit c = false) :
    strtoull (a.digits ++ rest) = clamp a.number := by
  obtain ⟨c,digits,same⟩ := exists_cons_of_ne_nil a.some_
  have digit := isdigit_bounds (a.decimal c (by rw [same]; exact mem_cons_self))
  have skip : isspace c = false := by
    simp only [isspace,Bool.or_eq_false_iff,Bool.and_eq_false_iff,decide_eq_false_iff_not,UInt8.le_iff_toNat_le,← UInt8.toNat_inj]
    exact ⟨fun h => by have : c.toNat = 32 := h; omega,.inr fun h => by have : c.toNat ≤ 13 := h; omega⟩
  have number := decimal_digits a ends
  rw [same,cons_append] at number ⊢
  unfold strtoull
  rw [dropWhile_cons_of_neg (by rw [skip]; decide)]
  split
  case h_1 _ _ eq =>
    obtain ⟨rfl,_⟩ := List.cons.inj eq
    exact absurd digit.1 (by decide)
  case h_2 _ _ eq =>
    obtain ⟨rfl,_⟩ := List.cons.inj eq
    exact absurd digit.1 (by decide)
  case h_3 =>
    simp only [number]
    rfl

theorem parse_size_plain {sz : List UInt8} (last : ∀ s, sz.getLast? ≠ some (Suffix.char s)) : parse_size sz = strtoull sz := by
  unfold parse_size
  split
  case h_1 eq => exact absurd eq (last .k)
  case h_2 eq => exact absurd eq (last .K)
  case h_3 eq => exact absurd eq (last .m)
  case h_4 eq => exact absurd eq (last .M)
  case h_5 eq => exact absurd eq (last .g)
  case h_6 eq => exact absurd eq (last .G)
  case h_7 => rfl

theorem parse_size_suffix {sz : List UInt8} (s : Suffix) (last : sz.getLast? = some s.char) :
    parse_size sz = strtoull sz * BitVec.ofNat 64 s.factor := by
  unfold parse_size
  rw [last]
  cases s <;> rfl

theorem char_not_digit (s : Suffix) : isdigit s.char = false := by cases s <;> rfl

def Amount.word (a : Amount) : BitVec 64 := clamp a.number * BitVec.ofNat 64 ((a.suffix.map Suffix.factor).getD 1)

theorem parse_size_text (a : Amount) : parse_size a.text = a.word := by
  rw [Amount.word]
  cases suffix : a.suffix with
  | none =>
    have text : a.text = a.digits ++ [] := by rw [Amount.text,suffix]; rfl
    rw [parse_size_plain fun s last => ?_,text,strtoull_digits a (by simp)]
    · simp
    rw [text,append_nil] at last
    have digit := a.decimal _ (mem_of_getLast? last)
    rw [char_not_digit] at digit
    cases digit
  | some s =>
    have text : a.text = a.digits ++ [s.char] := by rw [Amount.text,suffix]; rfl
    rw [parse_size_suffix s (by rw [text,getLast?_concat]),text,strtoull_digits a fun c first => ?_]
    · rfl
    · cases first
      exact char_not_digit s

theorem parse_size_blanks (a : Amount) (b : Blanks) :
    parse_size (a.text ++ b.bytes) = if b.bytes = [] then a.word else clamp a.number := by
  split
  case isTrue none_ => rw [none_,append_nil,parse_size_text]
  case isFalse some_ =>
    obtain ⟨c,last⟩ := Option.isSome_iff_exists.mp (getLast?_isSome.mpr some_)
    have blank := b.blank c (mem_of_getLast? last)
    rw [parse_size_plain fun s same => ?_,Amount.text,append_assoc,strtoull_digits a fun x first => ?_]
    · cases suffix : a.suffix with
      | none =>
        rw [suffix] at first
        rcases b.blank x (mem_of_head? first) with rfl | rfl <;> rfl
      | some s =>
        rw [suffix] at first
        cases first
        exact char_not_digit s
    rw [getLast?_append,last] at same
    cases same
    rcases blank with same | same <;> cases s <;> cases same

theorem Amount.word_toNat (a : Amount) (small : a.value < 2 ^ 64) : a.word.toNat = a.value := by
  have factor : 1 ≤ (a.suffix.map Suffix.factor).getD 1 ∧ (a.suffix.map Suffix.factor).getD 1 < 2 ^ 64 := by
    rcases a.suffix with _ | _ | _ | _ | _ | _ | _ <;> decide
  have number : a.number < 2 ^ 64 := Nat.lt_of_le_of_lt (Nat.le_mul_of_pos_right _ factor.1) small
  rw [Amount.word,clamp,if_pos number,BitVec.toNat_mul,BitVec.toNat_ofNat,BitVec.toNat_ofNat,Nat.mod_eq_of_lt number,
    Nat.mod_eq_of_lt factor.2]
  exact Nat.mod_eq_of_lt small

/-! ### Partitions -/

theorem FsType.tight (t : FsType) : Tight t.text := by cases t <;> exact ⟨by decide +kernel,by decide +kernel⟩

theorem FsType.apart (t : FsType) {x : UInt8} (other : x < 65) : x ∉ t.text := by
  intro member
  have large : ∀ c ∈ t.text, 65 ≤ c := by cases t <;> decide +kernel
  exact absurd (large x member) (by simpa using other)

theorem typeText_apart (t : Option (Blanks × FsType)) {x : UInt8} (blank : x ≠ space ∧ x ≠ tab) (other : x < 65) : x ∉ typeText t := by
  cases t with
  | none => exact not_mem_nil
  | some t =>
    rw [typeText,mem_append,not_or]
    exact ⟨t.1.apart blank,t.2.apart other⟩

theorem Entry.value_apart (e : Entry) {x : UInt8} (blank : x ≠ space ∧ x ≠ tab) (sign : x ≠ comma) (digit : isdigit x = false) (other : x < 65) :
    x ∉ e.value := by
  have unit : ∀ s, x ≠ Suffix.char s := by
    rintro s rfl
    exact absurd other (by cases s <;> decide)
  simp only [Entry.value,mem_append,mem_cons,not_or]
  exact ⟨e.start.apart digit unit,e.beforeComma.apart blank,sign,e.afterComma.apart blank,e.size.apart digit unit,
    e.beforeComma2.apart blank,sign,typeText_apart e.fstype blank other⟩

theorem Amount.tight (a : Amount) : Tight a.text := by
  obtain ⟨c,rest,text,digit⟩ := a.starts
  refine ⟨fun x first => ?_,fun x last => ?_⟩
  · rw [text] at first
    cases first
    exact digit_not_trimmed digit
  have member : x ∈ a.digits ++ (a.suffix.map Suffix.char).toList := mem_of_getLast? last
  rcases mem_append.mp member with member | member
  · exact digit_not_trimmed (a.decimal x member)
  · obtain ⟨s,_,rfl⟩ := Option.map_eq_some_iff.mp (Option.mem_toList.mp member)
    cases s <;> rfl

theorem tight_append {text : List UInt8} (tight : Tight text) (some_ : text ≠ []) (ends : ∀ c ∈ rest.getLast?, trims c = false) :
    Tight (text ++ rest) := by
  refine ⟨fun c first => tight.1 c ?_,fun c last => ?_⟩
  · rwa [head?_append_of_ne_nil _ some_] at first
  rw [getLast?_append] at last
  cases found : rest.getLast? with
  | none =>
    rw [found] at last
    exact tight.2 c last
  | some x =>
    rw [found] at last
    cases last
    exact ends c found

theorem typeText_ends (front : List UInt8) (t : Option (Blanks × FsType)) : ∀ c ∈ (front ++ comma :: typeText t).getLast?, trims c = false := by
  intro c last
  cases t with
  | none =>
    rw [typeText,getLast?_concat] at last
    cases last
    rfl
  | some t =>
    obtain ⟨blanks,fstype⟩ := t
    have text : front ++ comma :: typeText (some (blanks,fstype)) = (front ++ comma :: blanks.bytes) ++ fstype.text := by
      simp only [typeText,append_assoc,cons_append]
    rw [text,getLast?_append_of_ne_nil _ (by cases fstype <;> exact cons_ne_nil _ _)] at last
    exact fstype.tight.2 c last

theorem Amount.text_ne_nil (a : Amount) : a.text ≠ [] := by
  obtain ⟨c,rest,text,_⟩ := a.starts
  rw [text]
  exact cons_ne_nil c rest

theorem Entry.value_tight (e : Entry) : Tight e.value := by
  refine tight_append e.start.tight e.start.text_ne_nil ?_
  have text : e.beforeComma.bytes ++ comma :: (e.afterComma.bytes ++ (e.size.text ++ (e.beforeComma2.bytes ++ comma :: typeText e.fstype))) =
      (e.beforeComma.bytes ++ comma :: (e.afterComma.bytes ++ (e.size.text ++ e.beforeComma2.bytes))) ++ comma :: typeText e.fstype := by
    simp only [append_assoc,cons_append]
  rw [text]
  exact typeText_ends _ _

theorem entries_stored : Stores Entry.text Entry.item := fun e _ _ =>
  parseLine_item e.name.some_ e.name.tight e.value_tight (Ordinary.plain e.name.ordinary)
    ⟨e.value_apart (by decide) (by decide) (by decide) (by decide),e.value_apart (by decide) (by decide) (by decide) (by decide)⟩

def Entry.place (e : Entry) : BitVec 64 × BitVec 64 :=
  (e.start.word,if e.beforeComma2.bytes = [] then e.size.word else clamp e.size.number)

theorem startsDigit_text (a : Amount) (rest : List UInt8) : startsDigit (a.text ++ rest) = true := by
  obtain ⟨c,more,text,digit⟩ := a.starts
  rw [text]
  exact digit

theorem parse_entry (e : Entry) :
    parse_partition_item e.value = if 128 ≤ e.value.length then none else some (e.fstype.map fun _ => e.place) := by
  have unit : ∀ s, comma ≠ Suffix.char s := by intro s; cases s <;> decide
  have fresh : comma ∉ e.start.text ++ e.beforeComma.bytes := by
    simp only [mem_append,not_or]
    exact ⟨e.start.apart (by decide) unit,e.beforeComma.apart (by decide)⟩
  have fresh2 : comma ∉ e.size.text ++ e.beforeComma2.bytes := by
    simp only [mem_append,not_or]
    exact ⟨e.size.apart (by decide) unit,e.beforeComma2.apart (by decide)⟩
  have first : strchr e.value comma = some (e.start.text ++ e.beforeComma.bytes,
      e.afterComma.bytes ++ (e.size.text ++ (e.beforeComma2.bytes ++ comma :: typeText e.fstype))) := by
    rw [Entry.value,← append_assoc]
    exact strchr_at fresh
  have start : str_trim (e.start.text ++ e.beforeComma.bytes) = e.start.text := str_trim_tight e.start.tight ⟨[],by simp⟩ _
  have rest : str_trim (e.afterComma.bytes ++ (e.size.text ++ (e.beforeComma2.bytes ++ comma :: typeText e.fstype))) =
      (e.size.text ++ e.beforeComma2.bytes) ++ comma :: typeText e.fstype := by
    have tight : Tight (e.size.text ++ (e.beforeComma2.bytes ++ comma :: typeText e.fstype)) :=
      tight_append e.size.tight e.size.text_ne_nil (typeText_ends _ _)
    simpa using str_trim_tight tight e.afterComma ⟨[],by simp⟩
  have digit : startsDigit e.start.text = true := by simpa using startsDigit_text e.start []
  have digit2 : startsDigit ((e.size.text ++ e.beforeComma2.bytes) ++ comma :: typeText e.fstype) = true := by
    rw [append_assoc]
    exact startsDigit_text e.size _
  have type : str_trim (typeText e.fstype) ≠ [] ↔ e.fstype ≠ none := by
    cases fstype : e.fstype with
    | none => exact ⟨fun other => absurd rfl other,fun other => absurd rfl other⟩
    | some t =>
      have trimmed : str_trim (t.1.bytes ++ (t.2.text ++ [])) = t.2.text := str_trim_tight t.2.tight t.1 ⟨[],by simp⟩
      rw [append_nil] at trimmed
      refine ⟨fun _ => Option.some_ne_none t,fun _ => ?_⟩
      rw [typeText,trimmed]
      cases t.2 <;> exact cons_ne_nil _ _
  rw [parse_partition_item]
  split
  · rfl
  simp only [first,Option.bind_eq_bind,Option.bind_some,start,digit,guard_true,rest,digit2,strchr_at fresh2,type,parse_size_text,
    parse_size_blanks,Entry.place]
  cases fstype : e.fstype with
  | none => simp
  | some t => simp

/-! ### What the tool reads -/

section
variable {x : UInt8} (ends : x = 0 ∨ x = newline)
include ends

theorem Blanks.oneLine (b : Blanks) : x ∉ b.bytes := b.apart (by rcases ends with rfl | rfl <;> decide)

theorem Note.oneLine (n : Note) : x ∉ n.text := by
  rw [Note.text,mem_append,not_or]
  refine ⟨n.blanks.oneLine ends,fun member => ?_⟩
  cases comment : n.comment with
  | none =>
    rw [comment] at member
    cases member
  | some c =>
    rw [comment] at member
    rcases mem_cons.mp member with rfl | member
    · rcases ends with wrong | wrong <;> cases wrong
    rcases ends with rfl | rfl
    · exact (c.plain 0 member).1 rfl
    · exact (c.plain newline member).2 rfl

theorem Ordinary.oneLine {text : List UInt8} (ordinary : ∀ c ∈ text, Ordinary c) : x ∉ text := by
  intro member
  rcases ends with rfl | rfl
  · exact absurd (ordinary 0 member).1 (by decide)
  · exact (ordinary newline member).2.2.1 rfl

theorem Label.oneLine (l : Label) (ordinary : ∀ c ∈ name, Ordinary c) : x ∉ l.text name := by
  simp only [Label.text,mem_append,mem_cons,not_or]
  exact ⟨l.indent.oneLine ends,Ordinary.oneLine ends ordinary,by rcases ends with rfl | rfl <;> decide,l.tail.toNote.oneLine ends⟩

theorem Property.oneLine (p : Property) : x ∉ p.text := by
  simp only [Property.text,mem_append,mem_cons,not_or]
  exact ⟨p.indent.oneLine ends,Ordinary.oneLine ends p.key.ordinary,p.before.oneLine ends,by rcases ends with rfl | rfl <;> decide,p.after.oneLine ends,
    Ordinary.oneLine ends p.ordinary,p.tail.oneLine ends⟩

theorem Entry.oneLine (e : Entry) : x ∉ e.text := by
  have value : x ∉ e.value := by
    rcases ends with rfl | rfl
    · exact e.value_apart (by decide) (by decide) (by decide) (by decide)
    · exact e.value_apart (by decide) (by decide) (by decide) (by decide)
  simp only [Entry.text,mem_append,mem_cons,not_or]
  exact ⟨e.indent.oneLine ends,Ordinary.oneLine ends e.name.ordinary,e.beforeEqual.oneLine ends,by rcases ends with rfl | rfl <;> decide,
    e.afterEqual.oneLine ends,value,e.tail.toNote.oneLine ends⟩

theorem lineText_ends {α : Type} {text : α → List UInt8} (each : ∀ line, x ∉ text line) (line : Note ⊕ α) : x ∉ lineText text line := by
  cases line with
  | inl note => exact note.oneLine ends
  | inr line => exact each line

theorem Tab.lines_end (t : Tab) : ∀ line ∈ t.lines, x ∉ line := by
  have property : ∀ c ∈ ascii "property", Ordinary c := by decide +kernel
  have partition : ∀ c ∈ ascii "partition", Ordinary c := by decide +kernel
  intro line member
  simp only [Tab.lines,mem_append,mem_cons,mem_map] at member
  rcases member with ⟨note,_,rfl⟩ | rfl | ⟨p,_,rfl⟩ | rfl | ⟨e,_,rfl⟩
  · exact note.oneLine ends
  · exact t.property.oneLine ends property
  · exact lineText_ends ends (Property.oneLine ends) p
  · exact t.partition.oneLine ends partition
  · exact lineText_ends ends (Entry.oneLine ends) e
end

theorem Tab.lines_some (t : Tab) : t.lines ≠ [] := append_ne_nil_of_right_ne_nil _ (cons_ne_nil _ _)

theorem Tab.splitOn_text (t : Tab) : t.text.splitOn newline = t.lines :=
  splitOn_intercalate newline (t.lines_end (.inr rfl)) t.lines_some

theorem intercalate_apart {sep x : UInt8} (other : x ≠ sep) : ∀ {lines : List (List UInt8)}, (∀ line ∈ lines, x ∉ line) →
    x ∉ [sep].intercalate lines := by
  intro lines
  induction lines with
  | nil => exact fun _ => not_mem_nil
  | cons line lines ih =>
    intro fresh
    have rest := ih fun line member => fresh line (mem_cons_of_mem _ member)
    cases lines with
    | nil => simpa [List.intercalate] using fresh line mem_cons_self
    | cons next lines =>
      have text : [sep].intercalate (line :: next :: lines) = line ++ sep :: [sep].intercalate (next :: lines) := by
        simp [List.intercalate,List.intersperse]
      rw [text,mem_append,mem_cons,not_or,not_or]
      exact ⟨fresh line mem_cons_self,other,rest⟩

theorem Tab.text_nul (t : Tab) : (0 : UInt8) ∉ t.text := intercalate_apart (by decide) (t.lines_end (.inl rfl))

theorem Tab.groups (t : Tab) : parse_config_file t.text =
    [⟨ascii "property",(marked t.properties).map Property.item⟩,⟨ascii "partition",(t.entries.map Entry.item).take 128⟩] := by
  have name : ∀ n ∈ [ascii "property",ascii "partition"], n ≠ [] ∧ Tight n ∧ hash ∉ n ∧ colon ∉ n := by
    unfold Tight
    decide +kernel
  obtain ⟨some₁,tight₁,plain₁⟩ := name (ascii "property") mem_cons_self
  obtain ⟨some₂,tight₂,plain₂⟩ := name (ascii "partition") (mem_cons_of_mem _ mem_cons_self)
  rw [parse_config_file,t.splitOn_text,Tab.lines,parseLines_notes,parseLines,parseLine_label (by decide) _ some₁ tight₁ plain₁]
  simp only
  rw [parseLines_items properties_stored _ _ _ _ (by simpa using t.few),parseLines,parseLine_label (by simp) _ some₂ tight₂ plain₂]
  simp only
  rw [parseLines_last entries_stored _ _ _ (Nat.zero_le _)]
  rfl

theorem Tab.property_value (t : Tab) (key : List UInt8) : get_item_value (parse_config_file t.text) (ascii "property") key =
    ((marked t.properties).find? (·.key.bytes = key)).map (·.value) := by
  have found : get_group (parse_config_file t.text) (ascii "property") = some ⟨ascii "property",(marked t.properties).map Property.item⟩ := by
    rw [t.groups]
    exact find?_cons_of_pos (decide_eq_true rfl)
  rw [get_item_value,get_item,found,Option.bind_eq_bind,Option.bind_some,find?_map,Option.map_map]
  rfl

theorem Tab.partition_items (t : Tab) : get_group (parse_config_file t.text) (ascii "partition") =
    some ⟨ascii "partition",(t.entries.map Entry.item).take 128⟩ := by
  have other : ascii "property" ≠ ascii "partition" := by decide +kernel
  rw [t.groups,get_group,find?_cons_of_neg (by simpa using other)]
  exact find?_cons_of_pos (decide_eq_true rfl)

def Tab.customSignature (t : Tab) : Bool :=
  (((marked t.properties).find? (·.key.bytes = ascii "custom_signature")).map (·.value)).any (· ≠ [])

def Tab.headerBlock (t : Tab) : BitVec 64 := t.headerLba.word / 512
def Tab.diskBlocks (t : Tab) : BitVec 64 := t.disk.word / 512

def Tab.files (t : Tab) (get_uuid : Nat → Guid) (entries : List GptEntry) : List UInt8 × List UInt8 :=
  (init_mbr ((t.diskBlocks - 1).setWidth 32) (t.headerBlock.setWidth 32) t.customSignature,
    (setCrcs (fillHeader t.headerBlock t.diskBlocks get_uuid (min 128 t.entries.length)) (entryArray entries)).block ++ entryArray entries)

theorem stringAt_buffer {file : List UInt8} (nul : (0 : UInt8) ∉ file) :
    stringAt (file.take 2048 ++ zeros (2048-file.length)) 0 = if 2048 ≤ file.length then none else some (toCString file) := by
  split
  case isTrue long =>
    rw [Nat.sub_eq_zero_of_le long,zeros,replicate_zero,append_nil]
    cases found : stringAt (file.take 2048) 0 with
    | none => rfl
    | some s =>
      have last := stringAt_nul found
      exact absurd (mem_of_mem_take (mem_of_getElem? last)) nul
  case isFalse short =>
    obtain ⟨rest,room⟩ : ∃ rest, zeros (2048-file.length) = 0 :: rest := ⟨_,by
      rw [show 2048 - file.length = (2047-file.length) + 1 by omega]
      exact zeros_succ _⟩
    rw [take_of_length_le (by omega),room]
    exact stringAt_eq drop_zero nul

theorem main_text (get_uuid : Nat → Guid) (t : Tab) : main get_uuid t.text =
    if 2048 ≤ t.text.length then none
    else (addItems (t.diskBlocks-1) get_uuid ((t.entries.map Entry.item).take 128) []).map fun (entries,messages) =>
      ⟨messages,entries,some (t.files get_uuid entries)⟩ := by
  have header := (t.property_value (ascii "gpt_header_lba")).trans t.headerLba_is
  have disk := (t.property_value (ascii "disk_size")).trans t.disk_is
  obtain ⟨c,rest,headerText,_⟩ := t.headerLba.starts
  obtain ⟨d,more,diskText,_⟩ := t.disk.starts
  have headerWord := parse_size_text t.headerLba
  have diskWord := parse_size_text t.disk
  rw [headerText] at header headerWord
  rw [diskText] at disk diskWord
  unfold GptCreator.main
  rw [stringAt_buffer t.text_nul]
  split
  · rfl
  simp only [Option.bind_eq_bind,Option.bind_some,toCString_bytes t.text_nul,header,disk,headerWord,diskWord,t.property_value,
    t.partition_items,Option.map_some,Option.getD_some,length_take,length_map]
  rw [Tab.diskBlocks]
  cases addItems (t.disk.word / 512 - 1) get_uuid ((t.entries.map Entry.item).take 128) [] with
  | none => rfl
  | some result => rfl

/-! ### The entries that are made -/

def Entry.first (e : Entry) : BitVec 64 := e.place.1 / 512
def Entry.last (e : Entry) : BitVec 64 := e.first + e.place.2 / 512 - 1

def Entry.accepted (last_lba : BitVec 64) (e : Entry) : Bool := e.fstype.isSome && !decide (e.first < 34) && !decide (last_lba < e.last)

def Entry.gptEntry (e : Entry) (uuid : Guid) : GptEntry where
  partition_type_guid := partition_type_uuid
  unique_partition_guid := uuid
  starting_lba := e.first
  ending_lba := e.last
  attributes := 0
  partition_name := ptnName e.name.bytes

/-- The entries for some lines, when `n` entries are there already. -/
def tableOf (get_uuid : Nat → Guid) : Nat → List Entry → List GptEntry
  | _, [] => []
  | n, e :: es => e.gptEntry (get_uuid (n + 1)) :: tableOf get_uuid (n + 1) es

section
variable {last_lba : BitVec 64} {get_uuid : Nat → Guid}

theorem addItems_step (partition : Item) (items : List Item) (entries : List GptEntry) :
    addItems last_lba get_uuid (partition :: items) entries = (parse_partition_item partition.value).bind fun parsed =>
      match add_ptn last_lba get_uuid entries ((parsed.getD (0,0)).1 / 512) ((parsed.getD (0,0)).1 / 512 + (parsed.getD (0,0)).2 / 512 - 1)
        partition.name with
      | .error message => (addItems last_lba get_uuid items entries).map fun (entries,messages) => (entries,message :: messages)
      | .ok entries => addItems last_lba get_uuid items entries := rfl

theorem addItems_cons {e : Entry} {items : List Item} {entries : List GptEntry} (short : e.value.length < 128) (room : entries.length < 128) :
    if e.accepted last_lba then addItems last_lba get_uuid (e.item :: items) entries =
      addItems last_lba get_uuid items (entries ++ [e.gptEntry (get_uuid (entries.length+1))])
    else ∃ message, addItems last_lba get_uuid (e.item :: items) entries =
      (addItems last_lba get_uuid items entries).map fun (entries,messages) => (entries,message :: messages) := by
  have parsed : parse_partition_item e.item.value = some (e.fstype.map fun _ => e.place) := by
    rw [Entry.item,parse_entry,if_neg (by omega)]
  rw [addItems_step,parsed,Entry.accepted,Option.bind_some]
  cases fstype : e.fstype with
  | none =>
    have low : (0 : BitVec 64) / 512 < 34 := by decide
    simp only [Option.map_none,Option.getD_none,add_ptn,if_pos low,Option.isSome_none,Bool.false_and,Bool.false_eq_true,if_false]
    exact ⟨_,rfl⟩
  | some t =>
    simp only [Option.map_some,Option.getD_some,add_ptn,Option.isSome_some,Bool.true_and]
    by_cases low : e.place.1 / 512 < 34
    · have first : e.first < 34 := low
      simp only [if_pos low,first,decide_true,Bool.not_true,Bool.false_and,Bool.false_eq_true,if_false]
      exact ⟨_,rfl⟩
    have first : ¬ e.first < 34 := low
    by_cases high : last_lba < e.place.1 / 512 + e.place.2 / 512 - 1
    · have last : last_lba < e.last := high
      simp only [if_neg low,if_pos high,last,decide_true,Bool.not_true,Bool.and_false,Bool.false_eq_true,if_false]
      exact ⟨_,rfl⟩
    have last : ¬ last_lba < e.last := high
    simp only [if_neg low,if_neg high,first,last,decide_false,Bool.not_false,Bool.and_true,if_true]
    rw [if_neg (by omega)]
    rfl

/-- The lines that are accepted make the entries, and there are messages for all others. -/
theorem addItems_entries : ∀ {es : List Entry} {entries : List GptEntry}, (∀ e ∈ es, e.value.length < 128) → entries.length + es.length ≤ 128 →
    ∃ messages, addItems last_lba get_uuid (es.map Entry.item) entries =
      some (entries ++ tableOf get_uuid entries.length (es.filter (Entry.accepted last_lba)),messages) ∧
      (messages = [] ↔ ∀ e ∈ es, e.accepted last_lba = true) := by
  intro es
  induction es with
  | nil => exact fun _ _ => ⟨[],by simp [addItems,tableOf],by simp⟩
  | cons e es ih =>
    intro entries short room
    rw [length_cons] at room
    have later := fun e member => short e (mem_cons_of_mem _ member)
    have one := @addItems_cons last_lba get_uuid e (es.map Entry.item) entries (short e mem_cons_self) (by omega)
    rw [map_cons]
    split at one
    case isTrue accepted =>
      obtain ⟨messages,added,none_⟩ := @ih (entries ++ [e.gptEntry (get_uuid (entries.length+1))]) later
        (by rw [length_append,length_singleton]; omega)
      refine ⟨messages,?_,?_⟩
      · rw [one,added,filter_cons_of_pos accepted,length_append,append_assoc]
        rfl
      · rw [none_,forall_mem_cons,and_iff_right accepted]
    case isFalse rejected =>
      obtain ⟨message,one⟩ := one
      obtain ⟨messages,added,_⟩ := @ih entries later (by omega)
      refine ⟨message :: messages,?_,?_⟩
      · rw [one,added,filter_cons_of_neg rejected]
        rfl
      · exact ⟨fun wrong => (nomatch wrong),fun all => absurd (all e mem_cons_self) rejected⟩

/-- A value that is too long for the array is copied past its end. -/
theorem addItems_long : ∀ {es : List Entry} {entries : List GptEntry}, (∃ e ∈ es, 128 ≤ e.value.length) →
    addItems last_lba get_uuid (es.map Entry.item) entries = none := by
  intro es
  induction es with
  | nil => rintro entries ⟨e,member,_⟩; cases member
  | cons e es ih =>
    intro entries long
    rw [map_cons,addItems_step,show parse_partition_item e.item.value = _ from parse_entry e]
    by_cases here : 128 ≤ e.value.length
    · rw [if_pos here]
      rfl
    have later : ∃ e ∈ es, 128 ≤ e.value.length := by
      obtain ⟨e',member,long⟩ := long
      rcases mem_cons.mp member with rfl | member
      · exact absurd long here
      · exact ⟨e',member,long⟩
    rw [if_neg here,Option.bind_some]
    split
    · rw [ih later]
      rfl
    · exact ih later
end

theorem tableOf_getElem? (get_uuid : Nat → Guid) : ∀ {es : List Entry} {n i : Nat},
    (tableOf get_uuid n es)[i]? = es[i]?.map fun e => e.gptEntry (get_uuid (n + i + 1)) := by
  intro es
  induction es with
  | nil => exact rfl
  | cons e es ih =>
    intro n i
    cases i with
    | zero => rfl
    | succ i => rw [tableOf,getElem?_cons_succ,getElem?_cons_succ,ih,show n + 1 + i = n + (i+1) by omega]

def Tab.accepted (t : Tab) : List Entry := (t.entries.take 128).filter (Entry.accepted (t.diskBlocks - 1))

/-- The tool has a result only if the text and the values that are read fit into their buffers. -/
theorem main_inside {get_uuid : Nat → Guid} {out : Output} (made : main get_uuid t.text = some out) :
    t.text.length < 2048 ∧ ∀ e ∈ t.entries.take 128, e.value.length < 128 := by
  rw [main_text,← map_take] at made
  split at made
  case isTrue => cases made
  case isFalse short =>
    refine ⟨Nat.lt_of_not_le short,?_⟩
    by_contra long
    push Not at long
    rw [addItems_long long] at made
    cases made

theorem main_made (get_uuid : Nat → Guid) (short : t.text.length < 2048) (each : ∀ e ∈ t.entries.take 128, e.value.length < 128) :
    ∃ messages, main get_uuid t.text = some ⟨messages,tableOf get_uuid 0 t.accepted,some (t.files get_uuid (tableOf get_uuid 0 t.accepted))⟩ ∧
      (messages = [] ↔ ∀ e ∈ t.entries.take 128, e.accepted (t.diskBlocks-1) = true) := by
  obtain ⟨messages,added,none_⟩ := @addItems_entries (t.diskBlocks-1) get_uuid (t.entries.take 128) [] each
    (by rw [length_nil,length_take]; omega)
  refine ⟨messages,?_,none_⟩
  rw [main_text,if_neg (Nat.not_le_of_lt short),← map_take,added]
  rfl

theorem main_entries {get_uuid : Nat → Guid} {out : Output} (made : main get_uuid t.text = some out) :
    out.entries = tableOf get_uuid 0 t.accepted := by
  obtain ⟨short,each⟩ := main_inside made
  obtain ⟨messages,made',_⟩ := main_made get_uuid short each
  rw [made] at made'
  rw [Option.some.inj made']

/-! ### Texts without blanks -/

def noBlanks : Blanks := ⟨[],by simp⟩

theorem numberText_isdigit {digits : Nat} : ∀ c ∈ numberText 10 digits n, isdigit c = true := by
  have digit : ∀ d < 10, isdigit (digitChar d) = true := by decide
  induction digits generalizing n with
  | zero => exact fun c member => (nomatch member)
  | succ digits ih =>
    intro c member
    rw [numberText] at member
    split at member
    case isTrue small =>
      rw [mem_singleton.mp member]
      exact digit n small
    case isFalse =>
      rcases mem_append.mp member with high | low
      · exact ih c high
      · rw [mem_singleton.mp low]
        exact digit _ (Nat.mod_lt n (by decide))

theorem digitsValue_numberText {digits : Nat} (fits : n < 10 ^ digits) : digitsValue 10 (numberText 10 digits n) = n := by
  have digit : ∀ d < 10, (digitChar d).toNat - 48 = d := by decide
  induction digits generalizing n with
  | zero =>
    exact (Nat.lt_one_iff.mp fits).symm
  | succ digits ih =>
    rw [numberText]
    split
    case isTrue small => exact (Nat.zero_add _).trans (digit n small)
    case isFalse =>
      rw [Nat.pow_succ,← Nat.div_lt_iff_lt_mul (by decide)] at fits
      have high := ih fits
      rw [digitsValue] at high
      rw [digitsValue,foldl_append,high,foldl_cons,digit _ (Nat.mod_lt n (by decide))]
      exact Nat.div_add_mod n 10

def amountOf (n : Nat) : Amount where
  digits := numberText 10 20 n
  some_ := by
    rw [numberText]
    split
    · exact cons_ne_nil _ _
    · exact append_ne_nil_of_right_ne_nil _ (cons_ne_nil _ _)
  decimal := numberText_isdigit
  suffix := none

theorem amountOf_value (small : n < 2 ^ 64) : (amountOf n).value = n := by
  show digitsValue 10 (numberText 10 20 n) * 1 = n
  rw [digitsValue_numberText (by omega),Nat.mul_one]

theorem amountOf_text_length {n : Nat} (small : n < 2 ^ 64) : (amountOf n).text.length ≤ 20 := by
  show (numberText 10 20 n ++ []).length ≤ 20
  rw [append_nil,numberText_length_le (by decide) (by omega) (by decide)]
  omega

theorem Amount.ordinary (a : Amount) : ∀ c ∈ a.text, Ordinary c := by
  intro c member
  rcases mem_append.mp member with member | member
  · have digit : ∀ n : Fin 256, isdigit (UInt8.ofNat n) = true → Ordinary (UInt8.ofNat n) := by decide +kernel
    have same : UInt8.ofNat c.toNat = c := UInt8.ofNat_toNat
    rw [← same]
    exact digit ⟨c.toNat,c.toNat_lt⟩ (by rw [same]; exact a.decimal c member)
  · obtain ⟨s,_,rfl⟩ := Option.map_eq_some_iff.mp (Option.mem_toList.mp member)
    cases s <;> decide

/-- `key=value`. -/
def plainProperty (key : Name) (a : Amount) : Property := ⟨noBlanks,key,noBlanks,noBlanks,a.text,a.ordinary,a.tight,⟨noBlanks,none⟩⟩

def headerKey : Name := ⟨ascii "gpt_header_lba",by decide +kernel,by decide +kernel,⟨by decide +kernel,by decide +kernel⟩⟩
def diskKey : Name := ⟨ascii "disk_size",by decide +kernel,by decide +kernel,⟨by decide +kernel,by decide +kernel⟩⟩

def plainTail : Tail := ⟨⟨noBlanks,none⟩,fun some_ => absurd rfl some_⟩

def plainTab (header disk : Amount) (partitions : List (Note ⊕ Entry)) : Tab where
  front := []
  property := ⟨noBlanks,plainTail⟩
  properties := [.inr (plainProperty headerKey header),.inr (plainProperty diskKey disk)]
  partition := ⟨noBlanks,plainTail⟩
  partitions := partitions
  few := by show 2 ≤ 128; decide
  headerLba := header
  disk := disk
  headerLba_is := by
    rfl
  disk_is := by
    rfl

end UBoot.PartitionsTab
