import UBoot.GptTabToC
import UBoot.PartitionsTab

/-!
What `gpt_tab_to_c.sh` reads from a text in the form of `PartitionsTab`. The spelling of a line decides whether it is
skipped, gives an expression that does not compile, or is taken (`Entry.reading`); `partition_tab_text` says what the array is.
-/
namespace UBoot.GptTabRead
open List CStrings CNumbers GptTabToC PartitionsTab
open GptCreator (colon comma ascii)

variable {w x : List UInt8} {c : UInt8} {l : Line} {some_ : Bool}

/-! ### Words -/

/-- A text that stays in one word. -/
structure Solid (w : List UInt8) : Prop where
  some_ : w ≠ []
  solid : ∀ c ∈ w, ifs c = false

theorem words_break (blank : ifs c = true) (x y : List UInt8) : words (x ++ c :: y) = words x ++ words y := by
  rw [words,splitOnP_append_cons x y blank,filter_append]
  rfl

theorem words_drop (blank : ∀ c ∈ x, ifs c = true) (y : List UInt8) : words (x ++ y) = words y := by
  induction x with
  | nil => rfl
  | cons c x ih =>
    rw [cons_append,← nil_append (c :: (x ++ y)),words_break (blank c mem_cons_self),
      ih fun d member => blank d (mem_cons_of_mem c member)]
    rfl

theorem Solid.words (s : Solid w) : words w = [w] := by
  rw [GptTabToC.words,splitOnP_eq_singleton s.solid]
  exact filter_eq_self.mpr fun v member => decide_eq_true (mem_singleton.mp member ▸ s.some_)

theorem Solid.append {v : List UInt8} (s : Solid w) (solid : ∀ c ∈ v, ifs c = false) : Solid (w ++ v) :=
  ⟨append_ne_nil_of_left_ne_nil s.some_ v,fun c member => (mem_append.mp member).elim (s.solid c) (solid c)⟩

theorem Solid.words_append (s : Solid w) (x : List UInt8) :
    GptTabToC.words (w ++ x) = (w ++ x.takeWhile (!ifs ·)) :: GptTabToC.words (x.dropWhile (!ifs ·)) := by
  have word : Solid (w ++ x.takeWhile (!ifs ·)) := s.append fun c member => by simpa using mem_takeWhile_imp member
  cases rest : x.dropWhile (!ifs ·) with
  | nil =>
    have whole := takeWhile_append_dropWhile (p := (!ifs ·)) (l := x)
    rw [rest,append_nil] at whole
    rw [whole] at word ⊢
    exact word.words
  | cons c y =>
    have blank : ifs c = true := by
      have stops := head_dropWhile_not (!ifs ·) (l := x) (by rw [rest]; exact cons_ne_nil c y)
      simpa [rest] using stops
    have whole : w ++ x = (w ++ x.takeWhile (!ifs ·)) ++ c :: y := by
      rw [append_assoc,← rest,takeWhile_append_dropWhile]
    have skip : GptTabToC.words (c :: y) = GptTabToC.words y := words_break blank [] y
    rw [whole,words_break blank,word.words,skip]
    rfl

theorem Blanks.ifs (b : Blanks) : ∀ c ∈ b.bytes, ifs c = true := by
  intro c member
  rcases b.blank c member with rfl | rfl <;> rfl

theorem words_apart {b : Blanks} {y : List UInt8} (apart : y ≠ [] → b.bytes ≠ []) (x : List UInt8) :
    words (x ++ (b.bytes ++ y)) = words x ++ words y := by
  cases blanks : b.bytes with
  | nil =>
    have none_ : y = [] := by
      by_contra some_
      exact apart some_ blanks
    rw [none_]
    simp [words]
  | cons c more =>
    have all := Blanks.ifs b
    rw [blanks] at all
    rw [cons_append,words_break (all c mem_cons_self),words_drop fun d member => all d (mem_cons_of_mem c member)]

/-- The words of a text that blanks may separate from the word in front of it. -/
def attach (b : Blanks) (w : List UInt8) (ws : List (List UInt8)) : List (List UInt8) :=
  if b.bytes = [] then (w ++ ws.headD []) :: ws.tail else w :: ws

theorem Solid.words_attach (s : Solid w) (b : Blanks) {v : List UInt8} (starts : Solid v) (x : List UInt8) :
    GptTabToC.words (w ++ (b.bytes ++ (v ++ x))) = attach b w (GptTabToC.words (v ++ x)) := by
  rw [attach]
  split
  case isTrue none_ =>
    rw [none_,nil_append,starts.words_append x,← append_assoc,(s.append starts.solid).words_append x,append_assoc]
    rfl
  case isFalse some_ => rw [words_apart (fun _ => some_),s.words]; rfl

/-! ### Sizes -/

theorem isdigit_ifs (digit : isdigit c = true) : ifs c = false := by
  have bounds := isdigit_bounds digit
  have other : ∀ x : UInt8, x.toNat < 48 → c ≠ x := by
    rintro x small rfl
    omega
  simp only [ifs,Bool.or_eq_false_iff,decide_eq_false_iff_not]
  exact ⟨⟨other space (by decide),other tab (by decide)⟩,other newline (by decide)⟩

theorem Amount.solid (a : Amount) : Solid a.text := by
  refine ⟨a.text_ne_nil,fun c member => ?_⟩
  rcases mem_append.mp member with member | member
  · exact isdigit_ifs (a.decimal c member)
  · obtain ⟨s,_,rfl⟩ := Option.map_eq_some_iff.mp (Option.mem_toList.mp member)
    cases s <;> rfl

theorem FsType.solid (t : FsType) : Solid t.text := by
  cases t <;> exact ⟨cons_ne_nil _ _,by decide +kernel⟩

theorem comma_solid : Solid [comma] := ⟨cons_ne_nil _ _,by decide +kernel⟩

theorem delete_r_char_comma (s : Solid w) : delete_r_char (words (w ++ [comma]) ++ [[comma]]) = (w,true) := by
  rw [(s.append comma_solid.solid).words]
  simp [delete_r_char,lastChar,cutLast]

theorem delete_r_char_other (s : Solid w) (last : w.getLast? ≠ some comma) :
    delete_r_char (words w ++ [[comma]]) = (w,false) := by
  have other : lastChar w ≠ [comma] := by
    intro same
    refine last ?_
    rw [lastChar] at same
    cases found : w.getLast? with
    | none =>
      rw [found] at same
      cases same
    | some c =>
      rw [found] at same
      rw [List.cons.inj same |>.1]
  rw [s.words]
  exact if_neg other

theorem delete_r_char_none : delete_r_char (words [] ++ [[comma]]) = ([comma],false) := by decide

theorem delete_r_char2_concat (w : List UInt8) (c x y : UInt8) :
    delete_r_char2 [w ++ [c],[x],[y]] = if c = x ∨ c = y then w else w ++ [c] := by
  simp only [delete_r_char2,getD_cons_zero,getD_cons_succ,lastChar,getLast?_concat,Option.toList_some,List.cons.injEq,and_true,
    cutLast,length_append,length_singleton,Nat.add_sub_cancel,take_left]
  by_cases first : c = x
  · simp [first]
  by_cases second : c = y
  · simp [second]
  · simp [first,second]

def unitText : Option Suffix → List UInt8
  | none => []
  | some .k | some .K => ascii "*KB_SECTOR"
  | some .m | some .M => ascii "*MB_SECTOR"
  | some .g | some .G => ascii "*GB_SECTOR"

def Amount.expression (a : Amount) : List UInt8 := a.digits ++ unitText a.suffix

theorem ascii_letters : ascii "b" = [98] ∧ ascii "B" = [66] ∧ ascii "g" = [103] ∧ ascii "G" = [71] ∧ ascii "m" = [109] ∧ ascii "M" = [77] ∧
    ascii "k" = [107] ∧ ascii "K" = [75] := by decide

theorem parse_size_amount (a : Amount) : parse_size (words a.text) = some (Amount.expression a) := by
  obtain ⟨b,B,g,G,m,M,k,K⟩ := ascii_letters
  have solid := Amount.solid a
  rw [solid.words,parse_size]
  simp only [getD_cons_zero,b,B,g,G,m,M,k,K]
  cases suffix : a.suffix with
  | none =>
    obtain ⟨w,c,digits⟩ : ∃ w c, a.digits = w ++ [c] := ⟨_,_,(dropLast_append_getLast a.some_).symm⟩
    have text : a.text = w ++ [c] := by rw [Amount.text,suffix,digits]; exact append_nil _
    have bounds := isdigit_bounds (a.decimal c (by rw [digits]; exact mem_append_right _ mem_cons_self))
    have other : ∀ x : UInt8, 57 < x.toNat → c ≠ x := by
      rintro x large rfl
      omega
    have kept : ∀ x y : UInt8, 57 < x.toNat → 57 < y.toNat → delete_r_char2 (words (w ++ [c]) ++ [[x],[y]]) = w ++ [c] := by
      intro x y large large'
      rw [text] at solid
      rw [solid.words]
      show delete_r_char2 [w ++ [c],[x],[y]] = _
      rw [delete_r_char2_concat,if_neg]
      exact fun same => same.elim (other x large) (other y large')
    rw [text]
    simp only [kept _ _ (show 57 < (98 : UInt8).toNat by decide) (show 57 < (66 : UInt8).toNat by decide),
      kept _ _ (show 57 < (103 : UInt8).toNat by decide) (show 57 < (71 : UInt8).toNat by decide),
      kept _ _ (show 57 < (109 : UInt8).toNat by decide) (show 57 < (77 : UInt8).toNat by decide),
      kept _ _ (show 57 < (107 : UInt8).toNat by decide) (show 57 < (75 : UInt8).toNat by decide)]
    simp [Amount.expression,suffix,unitText,digits]
  | some s =>
    have text : a.text = a.digits ++ [s.char] := by rw [Amount.text,suffix]; rfl
    rw [text] at solid ⊢
    have first : delete_r_char2 (words (a.digits ++ [s.char]) ++ [[98],[66]]) = a.digits ++ [s.char] := by
      rw [solid.words]
      show delete_r_char2 [a.digits ++ [s.char],[98],[66]] = _
      rw [delete_r_char2_concat,if_neg (by cases s <;> decide)]
    rw [first,solid.words]
    simp only [cons_append,nil_append,delete_r_char2_concat]
    cases s <;> simp [Suffix.char,Amount.expression,suffix,unitText,a.some_]

theorem delete_r_char2_keeps (s : Solid w) {x y : UInt8} (member : c ∈ w) (other : c ≠ x ∧ c ≠ y) :
    c ∈ delete_r_char2 (words w ++ [[x],[y]]) ∧ Solid (delete_r_char2 (words w ++ [[x],[y]])) := by
  obtain ⟨v,d,rfl⟩ : ∃ v d, w = v ++ [d] := ⟨_,_,(dropLast_append_getLast s.some_).symm⟩
  rw [s.words]
  show c ∈ delete_r_char2 [v ++ [d],[x],[y]] ∧ Solid (delete_r_char2 [v ++ [d],[x],[y]])
  rw [delete_r_char2_concat]
  split
  case isTrue cut =>
    have front : c ∈ v := by
      rcases mem_append.mp member with front | last
      · exact front
      rcases cut with rfl | rfl
      · exact absurd (mem_singleton.mp last) other.1
      · exact absurd (mem_singleton.mp last) other.2
    exact ⟨front,ne_nil_of_mem front,fun e member => s.solid e (mem_append_left _ member)⟩
  case isFalse => exact ⟨member,s⟩

/-- The letters that `parse_size` looks for. -/
def unitLetters : List UInt8 := [98,66,103,71,109,77,107,75]

theorem parse_size_keeps (s : Solid w) (member : c ∈ w) (other : c ∉ unitLetters) :
    ∃ x, parse_size (words w) = some x ∧ c ∈ x := by
  obtain ⟨b,B,g,G,m,M,k,K⟩ := ascii_letters
  simp only [unitLetters,mem_cons,not_mem_nil,or_false,not_or] at other
  obtain ⟨nb,nB,ng,nG,nm,nM,nk,nK⟩ := other
  have first := delete_r_char2_keeps s member ⟨nb,nB⟩
  rw [s.words] at first ⊢
  rw [parse_size]
  simp only [getD_cons_zero,b,B,g,G,m,M,k,K,s.words]
  have gb := (delete_r_char2_keeps first.2 first.1 ⟨ng,nG⟩).1
  have mb := (delete_r_char2_keeps first.2 first.1 ⟨nm,nM⟩).1
  have kb := (delete_r_char2_keeps first.2 first.1 ⟨nk,nK⟩).1
  rw [if_neg (by simp only [not_or]; exact ⟨ne_nil_of_mem gb,ne_nil_of_mem mb,ne_nil_of_mem kb⟩)]
  refine ⟨_,rfl,?_⟩
  split
  · exact mem_append_left _ kb
  split
  · exact mem_append_left _ mb
  split
  · exact mem_append_left _ gb
  · exact first.1

theorem initialiser_comma (member : comma ∈ x) : initialiser x = none := by
  have rest : comma ∈ x.dropWhile isdigit := by
    rw [← @takeWhile_append_dropWhile _ isdigit x,mem_append] at member
    rcases member with digits | rest
    · exact absurd (mem_takeWhile_imp digits) (by decide)
    · exact rest
  have factor : factorOf (x.dropWhile isdigit) = none := by
    have texts : ∀ text ∈ [[],ascii "*GB_SECTOR",ascii "*MB_SECTOR",ascii "*KB_SECTOR"], comma ∉ text := by decide
    generalize x.dropWhile isdigit = y at rest
    have other : ∀ text ∈ [[],ascii "*GB_SECTOR",ascii "*MB_SECTOR",ascii "*KB_SECTOR"], y ≠ text :=
      fun text member same => texts text member (same ▸ rest)
    simp only [forall_mem_cons] at other
    rw [factorOf,if_neg other.1,if_neg other.2.1,if_neg other.2.2.1,if_neg other.2.2.2.1]
  rw [initialiser,factor]
  cases literal (x.takeWhile isdigit) <;> rfl

def Suffix.sectors : Suffix → Nat
  | .k | .K => KB_SECTOR
  | .m | .M => MB_SECTOR
  | .g | .G => GB_SECTOR

def Amount.sectors (a : Amount) : Option (BitVec 32) :=
  (literal a.digits).map fun n => BitVec.ofNat 32 (n * (a.suffix.map Suffix.sectors).getD 1)

theorem initialiser_expression (a : Amount) : initialiser (Amount.expression a) = Amount.sectors a := by
  have stops : ∀ s, (unitText s).takeWhile isdigit = [] ∧ (unitText s).dropWhile isdigit = unitText s := by
    rintro (_ | _ | _ | _ | _ | _ | _) <;> decide
  have factor : factorOf (unitText a.suffix) = some ((a.suffix.map Suffix.sectors).getD 1) := by
    rcases a.suffix with _ | _ | _ | _ | _ | _ | _ <;> decide
  rw [initialiser,Amount.expression,takeWhile_append_of_pos a.decimal,dropWhile_append_of_pos a.decimal,(stops a.suffix).1,
    (stops a.suffix).2,append_nil,factor,Amount.sectors]
  cases literal a.digits <;> rfl

/-! ### One line -/

theorem words_chars (word : w ∈ words x) (member : c ∈ w) : c ∈ x := by
  induction size : x.length using Nat.strongRecOn generalizing x with
  | ind n ih =>
    cases x with
    | nil => cases word
    | cons d y =>
      by_cases blank : ifs d = true
      · have skip : words (d :: y) = words y := words_break blank [] y
        rw [skip] at word
        exact mem_cons_of_mem d (ih y.length (by rw [← size]; exact Nat.lt_succ_self _) word rfl)
      have starts : Solid [d] := ⟨cons_ne_nil d [],by simpa using blank⟩
      have split := starts.words_append y
      rw [singleton_append] at split
      rw [split] at word
      rcases mem_cons.mp word with rfl | word
      · exact mem_cons.mpr ((mem_cons.mp member).imp_right fun member => (takeWhile_sublist _).subset member)
      have shorter : (y.dropWhile (!ifs ·)).length < n := by
        rw [← size]
        exact Nat.lt_succ_of_le (dropWhile_sublist _).length_le
      exact mem_cons_of_mem d ((dropWhile_sublist _).subset (ih _ shorter word rfl))

def typeWords : Option (Blanks × FsType) → List (List UInt8)
  | none => [[comma]]
  | some (blanks,fstype) => attach blanks [comma] [fstype.text]

def Entry.sizeWords (e : Entry) : List (List UInt8) := attach e.beforeComma2 e.size.text (typeWords e.fstype)

theorem Entry.words_value (e : Entry) :
    words e.value = attach e.beforeComma e.start.text (attach e.afterComma [comma] (Entry.sizeWords e)) := by
  have type : words ([comma] ++ typeText e.fstype) = typeWords e.fstype := by
    cases e.fstype with
    | none => exact comma_solid.words
    | some t =>
      have text := comma_solid.words_attach t.1 (FsType.solid t.2) []
      rw [append_nil,(FsType.solid t.2).words] at text
      exact text
  have size := (Amount.solid e.size).words_attach e.beforeComma2 comma_solid (typeText e.fstype)
  rw [type] at size
  have sign := comma_solid.words_attach e.afterComma (Amount.solid e.size) (e.beforeComma2.bytes ++ ([comma] ++ typeText e.fstype))
  rw [size] at sign
  have start := (Amount.solid e.start).words_attach e.beforeComma comma_solid
    (e.afterComma.bytes ++ (e.size.text ++ (e.beforeComma2.bytes ++ ([comma] ++ typeText e.fstype))))
  rw [sign] at start
  exact start

/-- What the script makes of a line. -/
inductive Reading
  | skipped
  | broken
  | taken
deriving DecidableEq

def Entry.typeTouches (e : Entry) : Bool := e.fstype.any fun t => t.1.bytes = []

/-- The script wants blanks around the equal sign and next to the first comma, and a blank next to the second one when a type follows. -/
def Entry.reading (e : Entry) : Reading :=
  if e.beforeEqual.bytes = [] ∨ e.afterEqual.bytes = [] then .skipped
  else if e.beforeComma.bytes = [] ∧ e.afterComma.bytes = [] then
    if e.beforeComma2.bytes = [] then
      if Entry.typeTouches e then .skipped else .broken
    else if e.fstype.isNone ∧ e.tail.comment.isNone then .skipped else .broken
  else if e.beforeComma2.bytes = [] ∧ Entry.typeTouches e then .broken
  else .taken

def Entry.row (e : Entry) : Row := ⟨e.name.bytes,Amount.expression e.start,Amount.expression e.size⟩

def Outcome (e : Entry) (made : Option Row) : Prop :=
  match Entry.reading e with
  | .skipped => made = none
  | .broken => ∃ row, made = some row ∧ row.compile = none
  | .taken => made = some (Entry.row e)

/-- A word from which some size is read, whatever it is. -/
def Readable (w : List UInt8) : Prop := w = [] ∨ Solid w ∧ ∃ c ∈ w, c ∉ comma :: unitLetters

theorem sizeRow_readable (readable : Readable w) (str str2 : List UInt8) : ∃ str3, sizeRow str str2 w = some ⟨str,str2,str3⟩ := by
  rw [sizeRow]
  rcases readable with rfl | ⟨s,c,member,other⟩
  · obtain ⟨x,parsed,_⟩ := parse_size_keeps comma_solid mem_cons_self (by decide)
    exact ⟨x,by simp only [delete_r_char_none,if_neg (cons_ne_nil _ _),parsed,Option.map_some]⟩
  simp only [mem_cons,not_or] at other
  obtain ⟨v,kept,inside,solid⟩ : ∃ v, (delete_r_char (words w ++ [[comma]])).1 = v ∧ c ∈ v ∧ Solid v := by
    by_cases last : w.getLast? = some comma
    · obtain ⟨v,rfl⟩ := getLast?_eq_some_iff.mp last
      have front : c ∈ v := (mem_append.mp member).resolve_right fun wrong => other.1 (mem_singleton.mp wrong)
      have solid : Solid v := ⟨ne_nil_of_mem front,fun d member => s.solid d (mem_append_left _ member)⟩
      exact ⟨v,by rw [delete_r_char_comma solid],front,solid⟩
    · exact ⟨w,by rw [delete_r_char_other s last],member,s⟩
  obtain ⟨x,parsed,_⟩ := parse_size_keeps solid inside other.2
  exact ⟨x,by simp only [kept,if_neg solid.some_,parsed,Option.map_some]⟩

theorem FsType.readable (t : FsType) : Readable t.text := by
  refine .inr ⟨FsType.solid t,?_⟩
  cases t with
  | LINUX_FS => exact ⟨76,by decide,by decide⟩
  | FAT_FS => exact ⟨70,by decide,by decide⟩
  | EMPTY => exact ⟨69,by decide,by decide⟩

/-- The words of a comment, when `some_` says whether there is one. -/
def Comments (some_ : Bool) (more : List (List UInt8)) : Prop :=
  if some_ then ∃ p ws, more = (hash :: p) :: ws ∧ Solid (hash :: p) else more = []

theorem Comments.readable {more : List (List UInt8)} (comments : Comments some_ more) : Readable (more.headD []) := by
  cases some_ with
  | false =>
    cases (comments : more = [])
    exact .inl rfl
  | true =>
    obtain ⟨p,ws,rfl,solid⟩ := comments
    exact .inr ⟨solid,hash,mem_cons_self,by decide⟩

theorem Comments.not_comma {more : List (List UInt8)} (comments : Comments some_ more) : (more.headD []).head? ≠ some comma := by
  cases some_ with
  | false =>
    cases (comments : more = [])
    exact fun wrong => (nomatch wrong)
  | true =>
    obtain ⟨p,ws,rfl,_⟩ := comments
    exact fun wrong => absurd (Option.some.inj wrong) (by decide)

section
variable {line name word : List UInt8} {rest : List (List UInt8)} (lineWords : words line = name :: [equalSign] :: word :: rest)
include lineWords

theorem partitionLine_comma {start : List UInt8} (s : Solid start) (ends : word = start ++ [comma]) :
    partitionLine line = (parse_size (words start)).bind fun str2 => sizeRow name str2 (rest.headD []) := by
  have next : rest.getD 0 [] = rest.headD [] := by cases rest <;> rfl
  unfold partitionLine sizeWord get_word
  simp only [lineWords,getD_cons_zero,getD_cons_succ,ne_eq,not_true,if_false,ends,delete_r_char_comma s,if_neg s.some_,if_true,next]
  rfl

theorem partitionLine_other (s : Solid word) (last : word.getLast? ≠ some comma) :
    partitionLine line = (parse_size (words word)).bind fun str2 =>
      (if (rest.headD []).head? ≠ some comma then none
        else if rest.headD [] = [comma] then if rest.getD 1 [] = [] then none else some (rest.getD 1 [])
        else some (rest.headD []).tail).bind fun str3 => sizeRow name str2 str3 := by
  have next : rest.getD 0 [] = rest.headD [] := by cases rest <;> rfl
  unfold partitionLine sizeWord get_word
  simp only [lineWords,getD_cons_zero,getD_cons_succ,ne_eq,not_true,if_false,delete_r_char_other s last,if_neg s.some_,next,
    Bool.false_eq_true]
  rfl
end

theorem compile_start {row : Row} (member : comma ∈ row.partition_start) : row.compile = none := by
  rw [Row.compile,initialiser_comma member]
  rfl

theorem compile_size {row : Row} (member : comma ∈ row.partition_size) : row.compile = none := by
  rw [Row.compile,initialiser_comma member]
  cases initialiser row.partition_start <;> rfl

theorem typeWords_cases (e : Entry) :
    (Entry.typeTouches e = true ∧ ∃ t : FsType, typeWords e.fstype = [comma :: t.text] ∧ e.fstype.isNone = false) ∨
    (Entry.typeTouches e = false ∧ e.fstype.isNone = true ∧ typeWords e.fstype = [[comma]]) ∨
    (Entry.typeTouches e = false ∧ e.fstype.isNone = false ∧ ∃ t : FsType, typeWords e.fstype = [[comma],t.text]) := by
  rw [Entry.typeTouches]
  cases e.fstype with
  | none => exact .inr (.inl ⟨rfl,rfl,rfl⟩)
  | some type =>
    obtain ⟨blanks,t⟩ := type
    by_cases none_ : blanks.bytes = []
    · refine .inl ⟨decide_eq_true none_,t,?_,rfl⟩
      rw [typeWords,attach,if_pos none_]
      rfl
    · refine .inr (.inr ⟨decide_eq_false none_,rfl,t,?_⟩)
      rw [typeWords,attach,if_neg none_]

def Entry.glued (e : Entry) : List UInt8 := e.start.text ++ comma :: e.size.text

theorem Entry.glued_solid (e : Entry) : Solid (Entry.glued e) := by
  refine (Amount.solid e.start).append fun c member => ?_
  rcases mem_cons.mp member with rfl | member
  · rfl
  · exact (Amount.solid e.size).solid c member

theorem comma_mem_glued (e : Entry) : comma ∈ Entry.glued e := mem_append_right _ mem_cons_self

theorem Amount.comma (a : Amount) : comma ∉ a.text := a.apart (by decide) (by intro s; cases s <;> decide)

theorem FsType.comma (t : FsType) : comma ∉ t.text := t.apart (by decide)

theorem last_not_comma {w v : List UInt8} (some_ : v ≠ []) (fresh : comma ∉ v) : (w ++ v).getLast? ≠ some comma := by
  rw [getLast?_append_of_ne_nil w some_]
  exact fun last => fresh (mem_of_getLast? last)

theorem start_broken {name : List UInt8} (member : comma ∈ x) (readable : Readable w) : ∃ row, sizeRow name x w = some row ∧ row.compile = none := by
  obtain ⟨str3,made⟩ := sizeRow_readable readable name x
  exact ⟨_,made,compile_start member⟩

section
variable {e : Entry} {line name : List UInt8} {more : List (List UInt8)}

theorem partitionLine_glued (comments : Comments e.tail.comment.isSome more)
    (lineWords : words line = name :: [equalSign] :: (e.start.text ++ (comma :: (Entry.sizeWords e).headD [])) :: ((Entry.sizeWords e).tail ++ more)) :
    if e.beforeComma2.bytes = [] ∧ Entry.typeTouches e = true ∨ e.beforeComma2.bytes ≠ [] ∧ e.fstype.isNone ∧ e.tail.comment.isNone then
      partitionLine line = none
    else ∃ row, partitionLine line = some row ∧ row.compile = none := by
  obtain ⟨x,parsed,inside⟩ := parse_size_keeps (Entry.glued_solid e) (comma_mem_glued e) (by decide)
  rw [Entry.sizeWords,attach] at lineWords
  by_cases none_ : e.beforeComma2.bytes = []
  · rw [if_pos none_] at lineWords
    rcases typeWords_cases e with ⟨touches,t,type,_⟩ | ⟨apart,_,type⟩ | ⟨apart,_,t,type⟩
    · rw [if_pos (.inl ⟨none_,touches⟩)]
      have word : e.start.text ++ (comma :: (e.size.text ++ comma :: t.text)) = (Entry.glued e ++ [comma]) ++ t.text := by
        simp [Entry.glued]
      rw [type] at lineWords
      simp only [headD_cons,word,tail_cons,nil_append] at lineWords
      have solid : Solid ((Entry.glued e ++ [comma]) ++ t.text) := ((Entry.glued_solid e).append comma_solid.solid).append (FsType.solid t).solid
      rw [partitionLine_other lineWords solid (last_not_comma (FsType.solid t).some_ (FsType.comma t)),if_pos comments.not_comma]
      cases parse_size (words ((Entry.glued e ++ [comma]) ++ t.text)) <;> rfl
    · rw [if_neg (by simp [none_,apart])]
      have word : e.start.text ++ (comma :: (e.size.text ++ [comma])) = Entry.glued e ++ [comma] := by simp [Entry.glued]
      simp only [type,headD_cons,word,tail_cons,nil_append] at lineWords
      rw [partitionLine_comma lineWords (Entry.glued_solid e) rfl,parsed]
      exact start_broken inside comments.readable
    rw [if_neg (by simp [none_,apart])]
    have word : e.start.text ++ (comma :: (e.size.text ++ [comma])) = Entry.glued e ++ [comma] := by simp [Entry.glued]
    simp only [type,headD_cons,word,tail_cons,cons_append,nil_append] at lineWords
    rw [partitionLine_comma lineWords (Entry.glued_solid e) rfl,parsed]
    exact start_broken inside (FsType.readable t)
  rw [if_neg none_] at lineWords
  have word : e.start.text ++ (comma :: e.size.text) = Entry.glued e := rfl
  have last : (Entry.glued e).getLast? ≠ some comma := by
    rw [Entry.glued,← singleton_append,← append_assoc]
    exact last_not_comma e.size.text_ne_nil (Amount.comma e.size)
  simp only [headD_cons,word,tail_cons] at lineWords
  rw [partitionLine_other lineWords (Entry.glued_solid e) last,parsed]
  rcases typeWords_cases e with ⟨_,t,type,some_⟩ | ⟨_,nothing,type⟩ | ⟨_,some_,t,type⟩
  · rw [if_neg (by simp [none_,some_]),type]
    have other : comma :: t.text ≠ [comma] := fun same => (FsType.solid t).some_ (List.cons.inj same).2
    simp only [cons_append,headD_cons,head?_cons,ne_eq,not_true,if_false,if_neg other,tail_cons,Option.bind_some]
    exact start_broken inside (FsType.readable t)
  · rw [type]
    cases comment : e.tail.comment with
    | none =>
      rw [comment] at comments
      cases (comments : more = [])
      rw [if_pos (by simp [none_,nothing])]
      rfl
    | some c =>
      have readable := comments.readable
      rw [comment] at comments
      obtain ⟨p,ws,rfl,_⟩ := comments
      rw [if_neg (by simp [none_])]
      exact start_broken inside readable
  rw [if_neg (by simp [none_,some_]),type]
  simp only [cons_append,nil_append,headD_cons,head?_cons,ne_eq,not_true,if_false,if_true,getD_cons_succ,
    getD_cons_zero,if_neg (FsType.solid t).some_,Option.bind_some]
  exact start_broken inside (FsType.readable t)
end

section
variable {e : Entry} {line : List UInt8} {more : List (List UInt8)}

theorem sizeRow_sizeWords (e : Entry) :
    if e.beforeComma2.bytes = [] ∧ Entry.typeTouches e = true then
      ∃ row, sizeRow e.name.bytes (Amount.expression e.start) ((Entry.sizeWords e).headD []) = some row ∧ row.compile = none
    else sizeRow e.name.bytes (Amount.expression e.start) ((Entry.sizeWords e).headD []) = some (Entry.row e) := by
  have plain := delete_r_char_other (Amount.solid e.size) (by simpa using @last_not_comma [] _ e.size.text_ne_nil (Amount.comma e.size))
  rw [Entry.sizeWords,attach,sizeRow]
  by_cases none_ : e.beforeComma2.bytes = []
  · rw [if_pos none_,headD_cons]
    have cut : ∀ ws, typeWords e.fstype = [comma] :: ws → (delete_r_char (words (e.size.text ++ (typeWords e.fstype).headD []) ++ [[comma]])).1 = e.size.text := by
      intro ws type
      rw [type,headD_cons,delete_r_char_comma (Amount.solid e.size)]
    rcases typeWords_cases e with ⟨touches,t,type,_⟩ | ⟨touches,_,type⟩ | ⟨touches,_,t,type⟩
    · have word : e.size.text ++ comma :: t.text = (e.size.text ++ [comma]) ++ t.text := by simp
      have solid : Solid ((e.size.text ++ [comma]) ++ t.text) := ((Amount.solid e.size).append comma_solid.solid).append (FsType.solid t).solid
      obtain ⟨x,parsed,inside⟩ := parse_size_keeps solid (mem_append_left _ (mem_append_right _ mem_cons_self)) (by decide)
      rw [if_pos ⟨none_,touches⟩,type,headD_cons,word,
        delete_r_char_other solid (last_not_comma (FsType.solid t).some_ (FsType.comma t))]
      simp only [if_neg solid.some_,parsed,Option.map_some]
      exact ⟨_,rfl,compile_size inside⟩
    · simp only [if_neg (show ¬(e.beforeComma2.bytes = [] ∧ Entry.typeTouches e = true) by simp [touches]),cut _ type,if_neg e.size.text_ne_nil,
        parse_size_amount,Option.map_some]
      rfl
    simp only [if_neg (show ¬(e.beforeComma2.bytes = [] ∧ Entry.typeTouches e = true) by simp [touches]),cut _ type,if_neg e.size.text_ne_nil,
      parse_size_amount,Option.map_some]
    rfl
  rw [if_neg none_,headD_cons,if_neg (by simp [none_]),plain]
  simp only [if_neg e.size.text_ne_nil,parse_size_amount,Option.map_some]
  rfl

theorem partitionLine_apart (apart : ¬(e.beforeComma.bytes = [] ∧ e.afterComma.bytes = []))
    (lineWords : words line = e.name.bytes :: [equalSign] :: (words e.value ++ more)) :
    partitionLine line = sizeRow e.name.bytes (Amount.expression e.start) ((Entry.sizeWords e).headD []) := by
  obtain ⟨word,rest,size,some_⟩ : ∃ word rest, Entry.sizeWords e = word :: rest ∧ word ≠ [] := by
    rw [Entry.sizeWords,attach]
    split
    · exact ⟨_,_,rfl,append_ne_nil_of_left_ne_nil e.size.text_ne_nil _⟩
    · exact ⟨_,_,rfl,e.size.text_ne_nil⟩
  have last : e.start.text.getLast? ≠ some comma := by simpa using @last_not_comma [] _ e.start.text_ne_nil (Amount.comma e.start)
  rw [Entry.words_value,size,attach,attach] at lineWords
  rw [size]
  by_cases before : e.beforeComma.bytes = []
  · have after : e.afterComma.bytes ≠ [] := fun after => apart ⟨before,after⟩
    simp only [if_pos before,if_neg after,headD_cons,tail_cons,cons_append] at lineWords
    rw [partitionLine_comma lineWords (Amount.solid e.start) rfl,parse_size_amount]
    rfl
  rw [if_neg before] at lineWords
  by_cases after : e.afterComma.bytes = []
  · simp only [if_pos after,headD_cons,tail_cons,cons_append,nil_append] at lineWords
    have other : comma :: word ≠ [comma] := fun same => some_ (List.cons.inj same).2
    rw [partitionLine_other lineWords (Amount.solid e.start) last,parse_size_amount,headD_cons,
      if_neg other]
    rfl
  simp only [if_neg after,cons_append] at lineWords
  rw [partitionLine_other lineWords (Amount.solid e.start) last,parse_size_amount]
  simp only [headD_cons,head?_cons,ne_eq,not_true,if_false,if_true,getD_cons_succ,getD_cons_zero,if_neg some_,Option.bind_some]

theorem partitionLine_equal (comments : Comments e.tail.comment.isSome more) (touches : e.beforeEqual.bytes = [] ∨ e.afterEqual.bytes = [])
    (lineWords : words line = attach e.beforeEqual e.name.bytes (attach e.afterEqual [equalSign] (words e.value)) ++ more) :
    partitionLine line = none := by
  have fresh : equalSign ∉ e.value := e.value_apart (by decide) (by decide) (by decide) (by decide)
  have other : get_word line 1 ≠ [equalSign] := by
    rw [get_word,lineWords]
    by_cases before : e.beforeEqual.bytes = []
    · -- the first word holds the sign, and no word behind it is one
      have later : ∀ ws : List (List UInt8), (∀ w ∈ ws, w ∈ words e.value) → (ws ++ more).getD 0 [] ≠ [equalSign] := by
        intro ws inside same
        cases ws with
        | cons w ws =>
          have sign : equalSign ∈ w := by
            rw [cons_append,getD_cons_zero] at same
            rw [same]
            exact mem_cons_self
          exact fresh (words_chars (inside w mem_cons_self) sign)
        | nil =>
          cases comment : e.tail.comment.isSome with
          | false =>
            rw [comment] at comments
            cases (comments : more = [])
            cases same
          | true =>
            rw [comment] at comments
            obtain ⟨p,ws,rfl,_⟩ := comments
            cases same
      rw [attach,if_pos before]
      refine later _ fun w member => ?_
      rw [attach] at member
      split at member
      · exact mem_of_mem_tail member
      · exact member
    · -- the start is in the word with the sign
      have after := touches.resolve_left before
      obtain ⟨c,rest,text,_⟩ := e.start.starts
      obtain ⟨w,ws,value⟩ : ∃ w ws, words e.value = (c :: w) :: ws := by
        rw [Entry.words_value,attach]
        split
        · exact ⟨_,_,by rw [text]; rfl⟩
        · exact ⟨_,_,by rw [text]⟩
      rw [attach,if_neg before,attach,if_pos after,value]
      exact fun same => cons_ne_nil c w (List.cons.inj same).2
  rw [partitionLine,if_pos other]

theorem partitionLine_outcome (comments : Comments e.tail.comment.isSome more)
    (lineWords : words line = attach e.beforeEqual e.name.bytes (attach e.afterEqual [equalSign] (words e.value)) ++ more) :
    Outcome e (partitionLine line) := by
  rw [Outcome,Entry.reading]
  by_cases touches : e.beforeEqual.bytes = [] ∨ e.afterEqual.bytes = []
  · rw [if_pos touches]
    exact partitionLine_equal comments touches lineWords
  rw [if_neg touches]
  rw [not_or] at touches
  rw [attach,if_neg touches.1,attach,if_neg touches.2] at lineWords
  by_cases glued : e.beforeComma.bytes = [] ∧ e.afterComma.bytes = []
  · rw [if_pos glued]
    have one := @partitionLine_glued e line e.name.bytes more comments (by
      rw [lineWords,Entry.words_value,attach,if_pos glued.1,attach,if_pos glued.2]
      rfl)
    by_cases none_ : e.beforeComma2.bytes = []
    · by_cases type : Entry.typeTouches e = true
      · simpa [none_,type] using one
      · simpa [none_,type] using one
    by_cases nothing : e.fstype = none ∧ e.tail.comment = none
    · simpa [none_,nothing] using one
    · simpa [none_,nothing] using one
  rw [if_neg glued,partitionLine_apart glued lineWords]
  have row := sizeRow_sizeWords e
  by_cases type : e.beforeComma2.bytes = [] ∧ Entry.typeTouches e = true
  · rw [if_pos type] at row ⊢
    exact row
  · rw [if_neg type] at row ⊢
    exact row
end

/-! ### Lines -/

def unprotected : List UInt8 → List UInt8
  | [] => []
  | [92] => []
  | 92 :: c :: rest => c :: unprotected rest
  | c :: rest => c :: unprotected rest

/-- The text ends with a backslash that is not protected itself. -/
def openEnd : List UInt8 → Bool
  | [] => false
  | [92] => true
  | 92 :: _ :: rest => openEnd rest
  | _ :: rest => openEnd rest

theorem readLines_append (first line text : List UInt8) : readLines (first ++ line) text = (readLines line text).modifyHead (first ++ ·) := by
  fun_induction readLines line text with
  | case1 => rw [readLines,modifyHead_nil]
  | case2 => rw [readLines,modifyHead_nil]
  | case3 line rest ih => rw [readLines,if_pos rfl,ih]
  | case4 line c rest other ih => rw [readLines,if_neg other,append_assoc,ih]
  | case5 line rest notLast notPair _ =>
    rw [readLines,if_pos rfl,modifyHead_cons]
    · exact notLast
    · exact notPair
  | case6 line c rest _ _ other ih =>
    rw [readLines,if_neg other,append_assoc]
    all_goals assumption

theorem readLines_newline {l : List UInt8} (fresh : newline ∉ l) (line rest : List UInt8) :
    readLines line (l ++ newline :: rest) =
      if openEnd l then readLines (line ++ unprotected l) rest else (line ++ unprotected l) :: readLines [] rest := by
  fun_induction openEnd l generalizing line with
  | case1 => simp [readLines,unprotected,newline]
  | case2 => simp [readLines,unprotected]
  | case3 c l ih =>
    simp only [mem_cons,not_or] at fresh
    rw [cons_append,cons_append,readLines,if_neg (Ne.symm fresh.2.1),ih fresh.2.2,append_assoc]
    rfl
  | case4 c l notLast notPair ih =>
    simp only [mem_cons,not_or] at fresh
    have other : c ≠ 92 := by
      rintro rfl
      cases l with
      | nil => exact notLast rfl rfl
      | cons d l => exact notPair d l rfl rfl
    rw [cons_append,readLines,if_neg (Ne.symm fresh.1),ih fresh.2,unprotected]
    all_goals simp [other]

theorem readLines_last {l : List UInt8} (fresh : newline ∉ l) (line : List UInt8) : readLines line l = [] := by
  fun_induction readLines line l with
  | case1 => rfl
  | case2 => rfl
  | case3 line rest ih => simp at fresh
  | case4 line c rest other ih =>
    simp only [mem_cons,not_or] at fresh
    exact ih fresh.2.2
  | case5 => simp at fresh
  | case6 line c rest _ _ other ih =>
    simp only [mem_cons,not_or] at fresh
    exact ih fresh.2

theorem unprotected_append (fresh : 92 ∉ x) (y : List UInt8) : unprotected (x ++ y) = x ++ unprotected y := by
  induction x with
  | nil => rfl
  | cons c x ih =>
    simp only [mem_cons,not_or] at fresh
    rw [cons_append,unprotected,ih fresh.2]
    · rfl
    · exact fun same _ => fresh.1 same.symm
    · exact fun _ _ same _ => fresh.1 same.symm

theorem openEnd_plain (fresh : 92 ∉ x) : openEnd x = false := by
  induction x with
  | nil => rfl
  | cons c x ih =>
    simp only [mem_cons,not_or] at fresh
    rw [openEnd,ih fresh.2]
    · exact fun same _ => fresh.1 same.symm
    · exact fun _ _ same _ => fresh.1 same.symm

inductive Line
  | note (n : Note)
  | property (p : Property)
  | propertyLabel (l : Label)
  | partitionLabel (l : Label)
  | entry (e : Entry)

def Line.front : Line → List UInt8
  | .note n => n.blanks.bytes
  | .property p => p.indent.bytes ++ (p.key.bytes ++ (p.before.bytes ++ equalSign :: (p.after.bytes ++ (p.value ++ p.tail.blanks.bytes))))
  | .propertyLabel l => l.indent.bytes ++ (ascii "property" ++ colon :: l.tail.blanks.bytes)
  | .partitionLabel l => l.indent.bytes ++ (ascii "partition" ++ colon :: l.tail.blanks.bytes)
  | .entry e => e.indent.bytes ++ (e.name.bytes ++ (e.beforeEqual.bytes ++ equalSign :: (e.afterEqual.bytes ++ (e.value ++ e.tail.blanks.bytes))))

def Line.comment : Line → Option Comment
  | .note n => n.comment
  | .property p => p.tail.comment
  | .propertyLabel l | .partitionLabel l => l.tail.comment
  | .entry e => e.tail.comment

def Line.text (l : Line) : List UInt8 := l.front ++ commentText l.comment

def Tab.allLines (t : Tab) : List Line :=
  t.front.map .note ++ (.propertyLabel t.property :: (t.properties.map (Sum.elim .note .property) ++
    (.partitionLabel t.partition :: t.partitions.map (Sum.elim .note .entry))))

theorem Tab.lines_eq (t : Tab) : t.lines = (Tab.allLines t).map Line.text := by
  have property : ∀ x : Note ⊕ Property, lineText Property.text x = Line.text (Sum.elim .note .property x) := by
    rintro (n | p)
    · rfl
    · simp only [lineText,Property.text,Note.text,Sum.elim_inr,Line.text,Line.front,Line.comment,append_assoc,cons_append]
  have entry : ∀ x : Note ⊕ Entry, lineText Entry.text x = Line.text (Sum.elim .note .entry x) := by
    rintro (n | e)
    · rfl
    · simp only [lineText,Entry.text,Note.text,Sum.elim_inr,Line.text,Line.front,Line.comment,append_assoc,cons_append]
  have first : t.property.text (ascii "property") = Line.text (.propertyLabel t.property) := by
    simp only [Label.text,Note.text,Line.text,Line.front,Line.comment,append_assoc,cons_append]
  have second : t.partition.text (ascii "partition") = Line.text (.partitionLabel t.partition) := by
    simp only [Label.text,Note.text,Line.text,Line.front,Line.comment,append_assoc,cons_append]
  simp only [Tab.lines,Tab.allLines,map_append,map_cons,map_map,first,second]
  congr 1
  congr 2
  · exact map_congr_left fun x _ => property x
  · congr 1
    exact map_congr_left fun x _ => entry x

/-- The lines that start a line of the script: the last one is not read, and a line with a backslash at its end takes in the next one. -/
def kept : List Line → List Line
  | [] => []
  | [_] => []
  | l :: l' :: ls => if openEnd l.text then (kept (l' :: ls)).modifyHead fun _ => l else l :: kept (l' :: ls)

/-- What is read as the line of `l`. -/
def Reads (l : Line) (s : List UInt8) : Prop :=
  ∃ more, s = l.front ++ more ∧ if l.comment.isSome then ∃ x, more = hash :: x else more = []

theorem unprotected_reads (fresh : 92 ∉ l.front) : Reads l (unprotected l.text) := by
  rw [Line.text,unprotected_append fresh]
  refine ⟨_,rfl,?_⟩
  cases l.comment with
  | none => rfl
  | some comment => exact ⟨unprotected comment.bytes,unprotected_append (x := [hash]) (by decide) comment.bytes⟩

theorem Reads.joined {s : List UInt8} (fresh : 92 ∉ l.front) (joins : openEnd l.text = true) (reads : Reads l s) (next : List UInt8) :
    Reads l (s ++ next) := by
  obtain ⟨more,rfl,comment⟩ := reads
  refine ⟨more ++ next,append_assoc _ _ _,?_⟩
  cases some_ : l.comment with
  | none =>
    rw [Line.text,some_,commentText,append_nil,openEnd_plain fresh] at joins
    cases joins
  | some c =>
    rw [some_] at comment
    obtain ⟨x,rfl⟩ := comment
    exact ⟨x ++ next,rfl⟩

theorem readLines_kept : ∀ {lines : List Line}, (∀ l ∈ lines, 92 ∉ l.front) → (∀ l ∈ lines, newline ∉ l.text) →
    List.Forall₂ Reads (kept lines) (readLines [] ([newline].intercalate (lines.map Line.text))) := by
  intro lines
  induction lines with
  | nil => exact fun _ _ => .nil
  | cons l lines ih =>
    intro fresh oneLine
    have rest := ih (fun k member => fresh k (mem_cons_of_mem l member)) fun k member => oneLine k (mem_cons_of_mem l member)
    have here := oneLine l mem_cons_self
    cases lines with
    | nil =>
      have text : [newline].intercalate ([l].map Line.text) = l.text := by simp [List.intercalate]
      rw [text,readLines_last here]
      exact .nil
    | cons k lines =>
      have text : [newline].intercalate ((l :: k :: lines).map Line.text) = l.text ++ newline :: [newline].intercalate ((k :: lines).map Line.text) := by
        simp [List.intercalate]
      have reads := unprotected_reads (fresh l mem_cons_self)
      rw [text,readLines_newline here,kept,nil_append]
      by_cases joins : openEnd l.text = true
      · have whole := readLines_append (unprotected l.text) [] ([newline].intercalate ((k :: lines).map Line.text))
        rw [append_nil] at whole
        rw [if_pos joins,if_pos joins,whole]
        generalize kept (k :: lines) = ks at rest
        generalize readLines [] _ = ss at rest
        cases rest with
        | nil => exact .nil
        | cons _ later => exact .cons (reads.joined (fresh l mem_cons_self) joins _) later
      · rw [if_neg joins,if_neg joins]
        exact .cons reads rest

/-! ### The loop -/

/-- The characters of names that a shell, a file name and a string of C leave alone. -/
def wordChar (c : UInt8) : Bool := (48 ≤ c && c ≤ 57) || (65 ≤ c && c ≤ 90) || (97 ≤ c && c ≤ 122) || c = 95 || c = 46 || c = 45

/-- Names are words, and properties have no backslashes. -/
def Line.Plain : Line → Prop
  | .property p => 92 ∉ p.key.bytes ∧ 92 ∉ p.value
  | .entry e => (∀ c ∈ e.name.bytes, wordChar c = true) ∧ e.name.bytes.head? ≠ some 45
  | _ => True

theorem wordChar_apart {name : List UInt8} (plain : ∀ c ∈ name, wordChar c = true) {x : UInt8} (other : wordChar x = false) : x ∉ name := by
  intro member
  rw [plain x member] at other
  cases other

theorem name_solid {e : Entry} (plain : Line.Plain (.entry e)) : Solid e.name.bytes := by
  refine ⟨e.name.some_,fun c member => ?_⟩
  have other : ∀ x, wordChar x = false → c ≠ x := by
    rintro x other rfl
    exact wordChar_apart plain.1 other member
  simp only [ifs,Bool.or_eq_false_iff,decide_eq_false_iff_not]
  exact ⟨⟨other space (by decide),other tab (by decide)⟩,other newline (by decide)⟩

theorem Line.Plain.front (plain : l.Plain) : 92 ∉ l.front := by
  have blanks : ∀ b : Blanks, (92 : UInt8) ∉ b.bytes := fun b => b.apart (by decide)
  cases l with
  | note n => exact blanks _
  | property p =>
    simp only [Line.front,mem_append,mem_cons,not_or]
    exact ⟨blanks _,plain.1,blanks _,by decide,blanks _,plain.2,blanks _⟩
  | propertyLabel l =>
    simp only [Line.front,mem_append,mem_cons,not_or]
    exact ⟨blanks _,by decide,by decide,blanks _⟩
  | partitionLabel l =>
    simp only [Line.front,mem_append,mem_cons,not_or]
    exact ⟨blanks _,by decide,by decide,blanks _⟩
  | entry e =>
    have amount : ∀ a : Amount, (92 : UInt8) ∉ a.text := fun a => a.apart (by decide) (by intro s; cases s <;> decide)
    have type : (92 : UInt8) ∉ typeText e.fstype := by
      cases e.fstype with
      | none => exact not_mem_nil
      | some t =>
        rw [typeText,mem_append,not_or]
        exact ⟨blanks _,by cases t.2 <;> decide⟩
    simp only [Line.front,Entry.value,mem_append,mem_cons,not_or]
    exact ⟨blanks _,wordChar_apart plain.1 (by decide),blanks _,by decide,blanks _,
      ⟨amount _,blanks _,by decide,blanks _,amount _,blanks _,by decide,type⟩,blanks _⟩

theorem comment_words {more : List UInt8} (comment : if some_ then ∃ x, more = hash :: x else more = []) :
    Comments some_ (words more) := by
  cases some_ with
  | false =>
    cases (comment : more = [])
    rfl
  | true =>
    obtain ⟨x,rfl⟩ := comment
    have solid : Solid [hash] := ⟨cons_ne_nil _ _,by decide +kernel⟩
    exact ⟨_,_,solid.words_append x,solid.append fun c member => by simpa using mem_takeWhile_imp member⟩

section
variable {s : List UInt8} {ss : List (List UInt8)}

theorem tabLoop_skip (other : get_word s 0 ≠ ascii "partition:") : tabLoop false (s :: ss) = tabLoop false ss := by
  rw [tabLoop]
  simp only [if_neg other,if_true]

theorem tabLoop_comment (comment : (get_word s 0).head? = some hash) (found : Bool) : tabLoop found (s :: ss) = tabLoop found ss := by
  have other : get_word s 0 ≠ ascii "partition:" := by
    intro same
    rw [same] at comment
    exact absurd comment (by decide)
  cases found with
  | false => exact tabLoop_skip other
  | true =>
    rw [tabLoop]
    simp only [if_neg other,comment,if_true,Bool.true_eq_false,if_false]

theorem tabLoop_line (other : get_word s 0 ≠ ascii "partition:") (comment : (get_word s 0).head? ≠ some hash)
    (ends : (get_word s 0).getLast? ≠ some colon) : tabLoop true (s :: ss) = (partitionLine s).toList ++ tabLoop true ss := by
  rw [tabLoop]
  simp only [if_neg other,if_neg comment,if_neg ends,Bool.true_eq_false,if_false]

theorem tabLoop_note {n : Note} (reads : Reads (.note n) s) (found : Bool) : tabLoop found (s :: ss) = tabLoop found ss := by
  obtain ⟨more,rfl,comment⟩ := reads
  have line : words (Line.front (.note n) ++ more) = words more := words_drop (Blanks.ifs n.blanks) more
  have comments := comment_words comment
  cases some_ : (Line.note n).comment.isSome with
  | true =>
    rw [some_] at comments
    obtain ⟨p,ws,words_,_⟩ := comments
    exact tabLoop_comment (by rw [get_word,line,words_]; rfl) found
  | false =>
    rw [some_] at comments
    have none_ : ∀ i, get_word (Line.front (.note n) ++ more) i = [] := by
      intro i
      rw [get_word,line,show words more = [] from comments]
      rfl
    have skipped : partitionLine (Line.front (.note n) ++ more) = none := by
      rw [partitionLine,if_pos (by rw [none_]; exact (cons_ne_nil _ _).symm)]
    have other : get_word (Line.front (.note n) ++ more) 0 ≠ ascii "partition:" := by
      rw [none_]
      decide
    cases found with
    | false => exact tabLoop_skip other
    | true =>
      rw [tabLoop_line other (by rw [none_]; exact fun wrong => (nomatch wrong)) (by rw [none_]; exact fun wrong => (nomatch wrong)),skipped]
      rfl

theorem mem_takeWhile_of_behind {p : UInt8 → Bool} {front behind : List UInt8} {x y : UInt8} (member : x ∈ (front ++ y :: behind).takeWhile p)
    (fresh : x ∉ front) : y ∈ (front ++ y :: behind).takeWhile p := by
  rw [takeWhile_append] at member ⊢
  split
  case isTrue whole =>
    rw [if_pos whole] at member
    have later := (mem_append.mp member).resolve_left fresh
    by_cases holds : p y = true
    · rw [takeWhile_cons_of_pos holds]
      exact mem_append_right _ mem_cons_self
    · rw [takeWhile_cons_of_neg holds] at later
      cases later
  case isFalse stops =>
    rw [if_neg stops] at member
    exact absurd ((takeWhile_sublist p).subset member) fresh

theorem first_not_label {front behind : List UInt8} (b : Blanks) (starts : ifs c = false) (fresh : colon ∉ c :: front) :
    get_word (b.bytes ++ (c :: front ++ equalSign :: behind)) 0 ≠ ascii "partition:" := by
  have solid : Solid [c] := ⟨cons_ne_nil c [],by simpa using starts⟩
  have word := solid.words_append (front ++ equalSign :: behind)
  rw [singleton_append] at word
  rw [get_word,words_drop (Blanks.ifs b),cons_append,word,getD_cons_zero]
  intro same
  have label : colon ∈ ascii "partition:" ∧ equalSign ∉ ascii "partition:" := by decide
  rw [← same] at label
  simp only [singleton_append,mem_cons,not_or] at label fresh
  exact label.2.2 (mem_takeWhile_of_behind (label.1.resolve_left fresh.1) fresh.2)

theorem tabLoop_property {p : Property} (reads : Reads (.property p) s) : tabLoop false (s :: ss) = tabLoop false ss := by
  obtain ⟨more,rfl,_⟩ := reads
  obtain ⟨c,key,name⟩ := exists_cons_of_ne_nil p.key.some_
  have starts : ifs c = false := by
    have tight := p.key.tight.1 c (by rw [name]; rfl)
    have other : ∀ x, GptCreator.trims x = true → c ≠ x := by
      rintro x trimmed rfl
      rw [trimmed] at tight
      cases tight
    simp only [ifs,Bool.or_eq_false_iff,decide_eq_false_iff_not]
    exact ⟨⟨other space rfl,other tab rfl⟩,other newline rfl⟩
  have fresh : colon ∉ c :: (key ++ p.before.bytes) := by
    rw [← cons_append,← name,mem_append,not_or]
    exact ⟨(Ordinary.plain p.key.ordinary).2.1,p.before.apart (by decide)⟩
  have line : Line.front (.property p) ++ more =
      p.indent.bytes ++ (c :: (key ++ p.before.bytes) ++ equalSign :: (p.after.bytes ++ (p.value ++ p.tail.blanks.bytes) ++ more)) := by
    simp only [Line.front,name,append_assoc,cons_append]
  exact tabLoop_skip (line ▸ first_not_label p.indent starts fresh)

theorem label_words {l : Label} {name more : List UInt8} (solid : Solid (name ++ [colon])) (apart : more ≠ [] → l.tail.blanks.bytes ≠ []) :
    words ((l.indent.bytes ++ (name ++ colon :: l.tail.blanks.bytes)) ++ more) = (name ++ [colon]) :: words more := by
  have line : (l.indent.bytes ++ (name ++ colon :: l.tail.blanks.bytes)) ++ more = l.indent.bytes ++ ((name ++ [colon]) ++ (l.tail.blanks.bytes ++ more)) := by
    simp only [append_assoc,cons_append,nil_append]
  rw [line,words_drop (Blanks.ifs l.indent),words_apart apart,solid.words]
  rfl

theorem comment_apart {t : Tail} {more : List UInt8} (comment : if t.comment.isSome then ∃ x, more = hash :: x else more = []) :
    more ≠ [] → t.blanks.bytes ≠ [] := by
  intro some_
  refine t.apart fun none_ => some_ ?_
  rw [none_] at comment
  exact comment

theorem label_solid : Solid (ascii "property" ++ [colon]) ∧ Solid (ascii "partition" ++ [colon]) := by
  refine ⟨⟨by decide +kernel,by decide +kernel⟩,⟨by decide +kernel,by decide +kernel⟩⟩

theorem tabLoop_propertyLabel {l : Label} (reads : Reads (.propertyLabel l) s) : tabLoop false (s :: ss) = tabLoop false ss := by
  obtain ⟨more,rfl,comment⟩ := reads
  refine tabLoop_skip ?_
  rw [get_word,Line.front,label_words label_solid.1 (comment_apart comment),getD_cons_zero]
  decide +kernel

theorem tabLoop_partitionLabel {l : Label} (reads : Reads (.partitionLabel l) s) (found : Bool) : tabLoop found (s :: ss) = tabLoop true ss := by
  obtain ⟨more,rfl,comment⟩ := reads
  have label : ascii "partition" ++ [colon] = ascii "partition:" := by decide
  rw [tabLoop,get_word,Line.front,label_words label_solid.2 (comment_apart comment),getD_cons_zero,label]
  simp only [if_true]

theorem entry_words {e : Entry} (plain : Line.Plain (.entry e)) {more : List UInt8} (apart : more ≠ [] → e.tail.blanks.bytes ≠ []) :
    words (Line.front (.entry e) ++ more) = attach e.beforeEqual e.name.bytes (attach e.afterEqual [equalSign] (words e.value)) ++ words more := by
  have sign : Solid [equalSign] := ⟨cons_ne_nil _ _,by decide +kernel⟩
  have line : Line.front (.entry e) ++ more =
      e.indent.bytes ++ ((e.name.bytes ++ (e.beforeEqual.bytes ++ ([equalSign] ++ (e.afterEqual.bytes ++ e.value)))) ++ (e.tail.blanks.bytes ++ more)) := by
    simp only [Line.front,append_assoc,cons_append,nil_append]
  have value : words ([equalSign] ++ (e.afterEqual.bytes ++ e.value)) = attach e.afterEqual [equalSign] (words e.value) :=
    sign.words_attach e.afterEqual (Amount.solid e.start) _
  rw [line,words_drop (Blanks.ifs e.indent),words_apart apart,(name_solid plain).words_attach e.beforeEqual sign,value]

theorem entry_first {e : Entry} (plain : Line.Plain (.entry e)) (reads : Reads (.entry e) s) :
    get_word s 0 ≠ ascii "partition:" ∧ (get_word s 0).head? ≠ some hash ∧ (get_word s 0).getLast? ≠ some colon := by
  obtain ⟨more,rfl,comment⟩ := reads
  obtain ⟨c,name,start⟩ := exists_cons_of_ne_nil e.name.some_
  have value : colon ∉ e.value := e.value_apart (by decide) (by decide) (by decide) (by decide)
  obtain ⟨w,word,inside⟩ : ∃ w, get_word (Line.front (.entry e) ++ more) 0 = e.name.bytes ++ w ∧ colon ∉ w := by
    rw [get_word,entry_words plain (comment_apart comment),attach]
    split
    · refine ⟨_,rfl,?_⟩
      rw [attach]
      split
      · rw [headD_cons,mem_append,not_or]
        refine ⟨by decide,fun member => ?_⟩
        cases found : words e.value with
        | nil =>
          rw [found] at member
          cases member
        | cons first ws =>
          have inside : first ∈ words e.value := by
            rw [found]
            exact mem_cons_self
          rw [found] at member
          exact value (words_chars inside member)
      · exact (by decide : colon ∉ [equalSign])
    · exact ⟨[],(append_nil _).symm,not_mem_nil⟩
  have fresh : colon ∉ e.name.bytes ++ w := by
    rw [mem_append,not_or]
    exact ⟨(Ordinary.plain e.name.ordinary).2.1,inside⟩
  rw [word]
  refine ⟨fun same => fresh (same ▸ by decide),?_,fun last => fresh (mem_of_getLast? last)⟩
  rw [start]
  exact fun first => (Ordinary.plain e.name.ordinary).1 (start ▸ mem_cons.mpr (.inl (Option.some.inj first).symm))
end

/-! ### The array -/

def Entry.generated (e : Entry) : Option (List MmcPartitionData) :=
  match Entry.reading e with
  | .skipped => some []
  | .broken => none
  | .taken => do some [⟨e.name.bytes,← Amount.sectors e.start,← Amount.sectors e.size⟩]

theorem Outcome.compile {e : Entry} {made : Option Row} (outcome : Outcome e made) : made.toList.mapM Row.compile = Entry.generated e := by
  rw [Entry.generated]
  rw [Outcome] at outcome
  cases reading : Entry.reading e with
  | skipped =>
    rw [reading] at outcome
    cases (outcome : made = none)
    rfl
  | broken =>
    rw [reading] at outcome
    obtain ⟨row,rfl,fails⟩ := outcome
    simp [fails]
  | taken =>
    rw [reading] at outcome
    cases (outcome : made = some (Entry.row e))
    simp only [Option.toList_some,mapM_cons,mapM_nil,Row.compile,Entry.row,initialiser_expression]
    cases Amount.sectors e.start with
    | none => rfl
    | some start => cases Amount.sectors e.size <;> rfl

/-- The partitions among the lines that are read, when `found` says whether the label was read before. -/
def seenFrom : Bool → List Line → List Entry
  | _, [] => []
  | found, l :: ls =>
    match l with
    | .partitionLabel _ => seenFrom true ls
    | .entry e => if found then e :: seenFrom found ls else seenFrom found ls
    | _ => seenFrom found ls

def Tab.seen (t : Tab) : List Entry := seenFrom false (kept (Tab.allLines t))

/-- Lines that may stand behind the label of the partitions. -/
def Line.behind : Line → Bool
  | .note _ | .entry _ => true
  | _ => false

theorem tabLoop_compile : ∀ {ls : List Line} {ss : List (List UInt8)} {found : Bool}, List.Forall₂ Reads ls ss → (∀ l ∈ ls, l.Plain) →
    (found = true → ∀ l ∈ ls, l.behind = true) → ls.Pairwise (fun l k => (∃ label, l = .partitionLabel label) → k.behind = true) →
    (tabLoop found ss).mapM Row.compile = ((seenFrom found ls).mapM Entry.generated).map List.flatten := by
  intro ls
  induction ls with
  | nil =>
    intro ss found reads _ _ _
    cases reads
    rfl
  | cons l ls ih =>
    intro ss found reads plain inside ordered
    obtain ⟨s,ss,read,later,rfl⟩ := List.forall₂_cons_left_iff.mp reads
    obtain ⟨labels,order⟩ := pairwise_cons.mp ordered
    have plainLater := fun k member => plain k (mem_cons_of_mem l member)
    have insideLater : found = true → ∀ k ∈ ls, k.behind = true := fun yes k member => inside yes k (mem_cons_of_mem l member)
    have before : l.behind = false → found = false := by
      intro no
      by_contra yes
      have := inside (by simpa using yes) l mem_cons_self
      rw [no] at this
      cases this
    cases l with
    | note n =>
      rw [tabLoop_note read]
      exact ih later plainLater insideLater order
    | property p =>
      cases before rfl
      rw [tabLoop_property read]
      exact ih later plainLater insideLater order
    | propertyLabel label =>
      cases before rfl
      rw [tabLoop_propertyLabel read]
      exact ih later plainLater insideLater order
    | partitionLabel label =>
      rw [tabLoop_partitionLabel read]
      exact ih later plainLater (fun _ k member => labels k member ⟨label,rfl⟩) order
    | entry e =>
      have plain := plain (.entry e) mem_cons_self
      obtain ⟨other,comment,ends⟩ := entry_first plain read
      cases found with
      | false =>
        rw [tabLoop_skip other]
        exact ih later plainLater insideLater order
      | true =>
        have outcome : Outcome e (partitionLine s) := by
          obtain ⟨more,rfl,behind⟩ := read
          exact partitionLine_outcome (comment_words behind) (entry_words plain (comment_apart behind))
        rw [tabLoop_line other comment ends,mapM_append,outcome.compile,ih later plainLater insideLater order,seenFrom,if_pos rfl,mapM_cons]
        cases Entry.generated e with
        | none => rfl
        | some data => cases (seenFrom true ls).mapM Entry.generated <;> rfl

theorem kept_sublist : ∀ ls : List Line, (kept ls).Sublist ls := by
  intro ls
  fun_induction kept ls with
  | case1 => exact .slnil
  | case2 l => exact nil_sublist _
  | case3 l k ls joins ih =>
    cases found : kept (k :: ls) with
    | nil => exact nil_sublist _
    | cons first later =>
      rw [found] at ih
      exact (List.Sublist.trans (sublist_cons_self first later) ih).cons_cons l
  | case4 l k ls _ ih => exact ih.cons_cons l

/-- Names are words that no tool changes, and properties have no backslashes. -/
structure Tab.Plain (t : Tab) : Prop where
  names : ∀ e ∈ t.entries, (∀ c ∈ e.name.bytes, wordChar c = true) ∧ e.name.bytes.head? ≠ some 45
  properties : ∀ p ∈ marked t.properties, 92 ∉ p.key.bytes ∧ 92 ∉ p.value

theorem mem_marked {α : Type} {lines : List (Note ⊕ α)} {x : α} (member : .inr x ∈ lines) : x ∈ marked lines :=
  mem_filterMap.mpr ⟨.inr x,member,rfl⟩

theorem Tab.Plain.lines {t : Tab} (plain : Tab.Plain t) : ∀ l ∈ Tab.allLines t, l.Plain := by
  intro l member
  simp only [Tab.allLines,mem_append,mem_cons,mem_map] at member
  rcases member with ⟨n,_,rfl⟩ | rfl | ⟨n | p,member,rfl⟩ | rfl | ⟨n | e,member,rfl⟩
  · trivial
  · trivial
  · trivial
  · exact plain.properties p (mem_marked member)
  · trivial
  · trivial
  · exact plain.names e (mem_marked member)

theorem Tab.lines_ordered (t : Tab) :
    (Tab.allLines t).Pairwise fun l k => (∃ label, l = .partitionLabel label) → k.behind = true := by
  have behind : ∀ k ∈ t.partitions.map (Sum.elim Line.note Line.entry), k.behind = true := by
    intro k member
    obtain ⟨n | e,_,rfl⟩ := mem_map.mp member <;> rfl
  -- a pair with no label in front is in order
  have others : ∀ {ls : List Line} {rest : List Line}, (∀ l ∈ ls, ¬ ∃ label, l = .partitionLabel label) →
      rest.Pairwise (fun l k => (∃ label, l = .partitionLabel label) → k.behind = true) →
      (ls ++ rest).Pairwise fun l k => (∃ label, l = .partitionLabel label) → k.behind = true := by
    intro ls rest none_ ordered
    induction ls with
    | nil => exact ordered
    | cons l ls ih =>
      exact pairwise_cons.mpr ⟨fun k _ label => absurd label (none_ l mem_cons_self),ih fun k member => none_ k (mem_cons_of_mem l member)⟩
  have partitions := @others (t.partitions.map (Sum.elim Line.note Line.entry)) [] (by
    rintro l member ⟨label,rfl⟩
    exact Bool.false_ne_true (behind _ member)) .nil
  rw [append_nil] at partitions
  refine others ?_ (pairwise_cons.mpr ⟨fun k _ label => ?_,others ?_ (pairwise_cons.mpr ⟨fun k member _ => behind k member,partitions⟩)⟩)
  · rintro l member ⟨label,rfl⟩
    obtain ⟨n,_,wrong⟩ := mem_map.mp member
    cases wrong
  · obtain ⟨label,wrong⟩ := label
    cases wrong
  · rintro l member ⟨label,rfl⟩
    obtain ⟨n | p,_,wrong⟩ := mem_map.mp member <;> cases wrong

theorem partition_tab_text {t : Tab} (plain : Tab.Plain t) :
    partition_tab t.text = ((Tab.seen t).mapM Entry.generated).map List.flatten := by
  have kept := kept_sublist (Tab.allLines t)
  have oneLine : ∀ l ∈ Tab.allLines t, newline ∉ l.text := fun l member =>
    t.lines_end (.inr rfl) l.text (by rw [Tab.lines_eq]; exact mem_map_of_mem member)
  have reads := readLines_kept (fun l member => (plain.lines l member).front) oneLine
  rw [← Tab.lines_eq] at reads
  exact tabLoop_compile reads (fun l member => plain.lines l (kept.subset member)) (fun wrong => (nomatch wrong)) ((Tab.lines_ordered t).sublist kept)

theorem seenFrom_sublist : ∀ {ls : List Line} {found : Bool}, (seenFrom found ls).Sublist (ls.filterMap fun | .entry e => some e | _ => none) := by
  intro ls
  induction ls with
  | nil => exact .slnil
  | cons l ls ih =>
    intro found
    cases l with
    | entry e =>
      cases found with
      | false => exact ih.cons e
      | true => exact ih.cons_cons e
    | note n => exact ih
    | property p => exact ih
    | propertyLabel l => exact ih
    | partitionLabel l => exact ih

theorem Tab.seen_sublist (t : Tab) : (Tab.seen t).Sublist t.entries := by
  have entries : (Tab.allLines t).filterMap (fun | .entry e => some e | _ => none) = t.entries := by
    have notes : ∀ notes : List Note, (notes.map Line.note).filterMap (fun | .entry e => some e | _ => none) = [] := by
      simp
    have properties : (t.properties.map (Sum.elim Line.note Line.property)).filterMap (fun | .entry e => some e | _ => none) = [] := by
      simp
    simp only [Tab.allLines,filterMap_append,filterMap_cons,notes,properties,nil_append,Tab.entries,marked,filterMap_map]
    congr 1
    funext line
    cases line <;> rfl
  rw [← entries]
  exact seenFrom_sublist.trans ((kept_sublist _).filterMap _)

end UBoot.GptTabRead
