import UBoot.Commands

/-!
Command strings: words, blanks, single-quoted text, escaped characters and references to variables, in parts that
are separated by semicolons. The parser passes on the words of each part (`parser_runs_command`), unless there is
an escaped backslash in front of a character that means something, a quoted text that ends with a backslash, an
empty part or a part with too many words.
-/
namespace UBoot.CommandText
open List CStrings Commands

variable {part : List Tok} {c prev : UInt8} {m : Macro} {rest : List (List Tok)}

/-! ### Command strings -/

/-- A character without a meaning of its own, or a blank. -/
def ordinary (c : UInt8) : Bool := c ≠ 0 && c ≠ quote && c ≠ semicolon && c ≠ backslash && c ≠ dollar

inductive Tok
  | char (c : UInt8) (ok : ordinary c = true)
  | quoted (text : List UInt8) (ok : quote ∉ text ∧ 0 ∉ text)
  | escaped (c : UInt8) (ok : c ≠ 0)
  | reference (brace : Bool) (name : List UInt8) (ok : ∀ c ∈ name, ordinary c = true ∧ closes c = false)

def Tok.text : Tok → List UInt8
  | .char c _ => [c]
  | .quoted text _ => quote :: (text ++ [quote])
  | .escaped c _ => [backslash,c]
  | .reference brace name _ => dollar :: (if brace then 123 else 40) :: (name ++ [if brace then 125 else 41])

/-- A token without quotes and backslashes, and with the value of the variable. -/
def Tok.expand (getenv : List UInt8 → Option (List UInt8)) : Tok → List UInt8
  | .char c _ => [c]
  | .quoted text _ => text
  | .escaped c _ => [c]
  | .reference _ name _ => (getenv name).getD []

def partText (part : List Tok) : List UInt8 := part.flatMap Tok.text

def expandPart (getenv : List UInt8 → Option (List UInt8)) (part : List Tok) : List UInt8 := part.flatMap (Tok.expand getenv)

def commandText (parts : List (List Tok)) : List UInt8 := [semicolon].intercalate (parts.map partText)

def wordsOf (text : List UInt8) : List (List UInt8) := (text.splitOnP isblank).filter (· ≠ [])

variable {σ : Type}

/-- The words of the parts are executed in order. A part with too many words is not executed. -/
def runParts (sh : Shell σ) : σ → List (List Tok) → σ × List (List (List UInt8))
  | s, [] => (s,[])
  | s, part :: rest =>
    let argv := wordsOf (expandPart (sh.getenv s) part)
    if argv = [] ∨ CONFIG_SYS_MAXARGS < argv.length then runParts sh s rest
    else
      let state := (sh.cmd_process s argv).1
      if sh.had_ctrlc state then (state,[argv])
      else
        let later := runParts sh state rest
        (later.1,argv :: later.2)

/-- Something holds of each part that is executed, in the state in which it is. -/
def Along (sh : Shell σ) (P : σ → List Tok → Prop) : σ → List (List Tok) → Prop
  | _, [] => True
  | s, part :: rest =>
    P s part ∧
      let argv := wordsOf (expandPart (sh.getenv s) part)
      if argv = [] then Along sh P s rest
      else sh.had_ctrlc (sh.cmd_process s argv).1 = true ∨ Along sh P (sh.cmd_process s argv).1 rest

instance decidableAlong (sh : Shell σ) (P : σ → List Tok → Prop) [∀ s part, Decidable (P s part)] :
    ∀ s parts, Decidable (Along sh P s parts)
  | _, [] => .isTrue trivial
  | s, part :: rest =>
    have := decidableAlong sh P s rest
    have := decidableAlong sh P (sh.cmd_process s (wordsOf (expandPart (sh.getenv s) part))).1 rest
    inferInstanceAs (Decidable (P s part ∧
      if wordsOf (expandPart (sh.getenv s) part) = [] then Along sh P s rest
      else sh.had_ctrlc (sh.cmd_process s (wordsOf (expandPart (sh.getenv s) part))).1 = true ∨
        Along sh P (sh.cmd_process s (wordsOf (expandPart (sh.getenv s) part))).1 rest))

/-! ### Words -/

theorem wordsOf_blank (blank : isblank c = true) (text : List UInt8) : wordsOf (c :: text) = wordsOf text := by
  have split := splitOnP_append_cons [] text blank
  rw [nil_append] at split
  rw [wordsOf,split]
  rfl

theorem wordsOf_skip (text : List UInt8) : wordsOf (text.dropWhile isblank) = wordsOf text := by
  induction text with
  | nil => rfl
  | cons c text ih =>
    by_cases blank : isblank c = true
    · rw [dropWhile_cons_of_pos blank,ih,wordsOf_blank blank]
    · rw [dropWhile_cons_of_neg blank]

theorem wordsOf_word {word : List UInt8} (nonempty : word ≠ []) (free : ∀ c ∈ word, isblank c = false) :
    wordsOf word = [word] ∧ ∀ c rest, isblank c = true → wordsOf (word ++ c :: rest) = word :: wordsOf rest := by
  have single : word.splitOnP isblank = [word] :=
    splitOnP_eq_singleton free
  refine ⟨by rw [wordsOf,single,filter_cons_of_pos (by simpa using nonempty),filter_nil],fun c rest blank => ?_⟩
  rw [wordsOf,splitOnP_append_cons _ _ blank,single,filter_append,filter_cons_of_pos (by simpa using nonempty)]
  rfl

theorem parseWords_eq (n : Nat) : ∀ line, parseWords n line = (wordsOf line).take n := by
  induction n with
  | zero => intro line; rfl
  | succ n ih =>
    intro line
    rw [parseWords,← wordsOf_skip line]
    generalize stripped : line.dropWhile isblank = text
    by_cases empty : text = []
    · rw [empty]; rfl
    rw [if_neg empty]
    have first := head?_dropWhile_not isblank line
    rw [stripped] at first
    have split := takeWhile_append_dropWhile (p := fun c => !isblank c) (l := text)
    have free : ∀ c ∈ text.takeWhile fun c => !isblank c, isblank c = false := fun c member => by
      simpa using mem_takeWhile_imp member
    have nonempty : (text.takeWhile fun c => !isblank c) ≠ [] := by
      obtain ⟨c,rest,rfl⟩ := exists_cons_of_ne_nil empty
      rw [takeWhile_cons_of_pos (by simpa using first)]
      exact cons_ne_nil _ _
    have behind := head?_dropWhile_not (fun c => !isblank c) text
    obtain ⟨alone,followed⟩ := wordsOf_word nonempty free
    cases rest : text.dropWhile fun c => !isblank c with
    | nil =>
      rw [rest,append_nil] at split
      rw [split] at alone ⊢
      rw [alone,take_succ_cons,take_nil]
    | cons c rest' =>
      rw [rest] at behind split
      have blank : isblank c = true := by simpa using behind
      have cut := followed c rest' blank
      rw [split] at cut
      rw [cut,take_succ_cons,← ih]

/-! ### One token -/

/-- Everything but a character loses its meaning behind an escaped backslash, and a quoted text must not end
    with a backslash. -/
def Clean : Bool → List Tok → Prop
  | _, [] => True
  | afterSlash, tok :: rest =>
    (afterSlash = true → ∃ c ok, tok = .char c ok) ∧ (∀ text ok, tok = .quoted text ok → text.getLast? ≠ some backslash) ∧
      Clean (match tok with | .escaped c _ => decide (c = backslash) | _ => false) rest

def Tok.last : Tok → UInt8
  | .char c _ => c
  | .quoted _ _ => quote
  | .escaped c _ => c
  | .reference brace _ _ => if brace then 125 else 41

variable {getenv : List UInt8 → Option (List UInt8)}

theorem ordinary_ne {d : UInt8} (ok : ordinary c = true) (special : ordinary d = false) : c ≠ d := by
  rintro rfl
  rw [ok] at special
  cases special

theorem ordinary_quote : ordinary quote = false := by decide
theorem ordinary_semicolon : ordinary semicolon = false := by decide
theorem ordinary_backslash : ordinary backslash = false := by decide
theorem ordinary_dollar : ordinary dollar = false := by decide

theorem last_backslash (tok : Tok) : tok.last = backslash →
    (match tok with | .escaped c _ => decide (c = backslash) | _ => false) = true := by
  cases tok with
  | char c ok => exact fun slash => absurd slash (ordinary_ne ok ordinary_backslash)
  | quoted text ok => exact fun slash => absurd slash (show quote ≠ backslash by decide)
  | escaped c ok => exact fun slash => decide_eq_true slash
  | reference brace name ok =>
    cases brace
    · exact fun slash => absurd slash (show (41 : UInt8) ≠ backslash by decide)
    · exact fun slash => absurd slash (show (125 : UInt8) ≠ backslash by decide)

/-! ### Replacing variables -/

theorem macroLoop_cons (room : m.room ≠ 0)
    (plain : ¬ (m.state ≠ .forQuote ∧ c = backslash ∧ m.prev ≠ backslash)) (rest : List UInt8) :
    macroLoop getenv m (c :: rest) = macroLoop getenv (macroChar getenv m m.prev c [c]) rest := by
  cases rest with
  | nil => rw [macroLoop.eq_2,if_neg room,if_neg plain,macroLoop]
  | cons d rest => rw [macroLoop,if_neg room,if_neg plain]

theorem macroLoop_escaped {d : UInt8} (room : m.room ≠ 0) (state : m.state ≠ .forQuote) (prev : m.prev ≠ backslash)
    (rest : List UInt8) :
    macroLoop getenv m (backslash :: d :: rest) = macroLoop getenv (macroChar getenv m backslash d [backslash,d]) rest := by
  rw [macroLoop,if_neg room,if_pos ⟨state,rfl,prev⟩]

theorem room_ne (fits : m.output.length < CONFIG_SYS_CBSIZE) : m.room ≠ 0 := by
  rw [Macro.room]
  omega

theorem quoted_loop (name rest : List UInt8) : ∀ (text output : List UInt8) (prev : UInt8), quote ∉ text →
    output.length + text.length < CONFIG_SYS_CBSIZE →
    macroLoop getenv ⟨.forQuote,prev,name,output⟩ (text ++ rest) =
      macroLoop getenv ⟨.forQuote,text.getLast?.getD prev,name,output ++ text⟩ rest := by
  intro text
  induction text with
  | nil => intro output prev _ _; rw [append_nil]; rfl
  | cons c text ih =>
    intro output prev free fits
    simp only [mem_cons,not_or] at free
    have length : output.length + (text.length+1) < CONFIG_SYS_CBSIZE := fits
    rw [cons_append,macroLoop_cons (room_ne (show output.length < _ by omega)) (fun escape => escape.1 rfl),macroChar]
    simp only
    rw [if_neg fun closed => free.1 closed.1.symm,ih (output ++ [c]) c free.2 (by rw [length_append,length_singleton]; omega),
      append_assoc]
    cases text with
    | nil => rfl
    | cons d text => rfl

theorem name_loop (rest output : List UInt8) (fits : output.length < CONFIG_SYS_CBSIZE) : ∀ (name read : List UInt8) (prev : UInt8),
    (∀ c ∈ name, ordinary c = true ∧ closes c = false) →
    ∃ last, macroLoop getenv ⟨.forClose,prev,read,output⟩ (name ++ rest) = macroLoop getenv ⟨.forClose,last,read ++ name,output⟩ rest := by
  intro name
  induction name with
  | nil => intro read prev _; exact ⟨prev,by rw [nil_append,append_nil]⟩
  | cons c name ih =>
    intro read prev all
    obtain ⟨ok,open_⟩ := all c mem_cons_self
    obtain ⟨last,later⟩ := ih (read ++ [c]) c fun d member => all d (mem_cons_of_mem c member)
    refine ⟨last,?_⟩
    rw [cons_append,macroLoop_cons (room_ne fits) (fun escape => ordinary_ne ok ordinary_backslash escape.2.1),macroChar]
    simp only [open_,Bool.false_eq_true,if_false]
    rw [later,append_assoc,singleton_append]

theorem macro_token (tok : Tok) {afterSlash : Bool} {rest : List Tok} (clean : Clean afterSlash (tok :: rest)) {m : Macro}
    (state : m.state = .forDollar) (prev : m.prev = backslash → afterSlash = true)
    (fits : m.output.length + (tok.expand getenv).length < CONFIG_SYS_CBSIZE) (behind : List UInt8) :
    ∃ name, macroLoop getenv m (tok.text ++ behind) =
      macroLoop getenv ⟨.forDollar,tok.last,name,m.output ++ tok.expand getenv⟩ behind := by
  obtain ⟨current,before,name,output⟩ := m
  simp only at state prev fits
  subst state
  have room : output.length < CONFIG_SYS_CBSIZE := by omega
  have meaning : (∀ c ok, tok ≠ .char c ok) → before ≠ backslash := by
    intro other slash
    obtain ⟨c,ok,equal⟩ := clean.1 (prev slash)
    exact other c ok equal
  cases tok with
  | char c ok =>
    refine ⟨name,?_⟩
    rw [Tok.text,singleton_append,macroLoop_cons (room_ne room) (fun escape => ordinary_ne ok ordinary_backslash escape.2.1),
      macroChar]
    rw [if_neg fun opened => ordinary_ne ok ordinary_quote opened.1,if_neg fun refers => ordinary_ne ok ordinary_dollar refers.1]
    rfl
  | quoted text ok =>
    have plain := meaning fun _ _ equal => by cases equal
    have closing : text.getLast?.getD quote ≠ backslash := by
      cases last : text.getLast? with
      | none => decide
      | some c => exact fun slash => clean.2.1 text ok rfl (by rw [last]; exact congrArg some slash)
    have length : output.length + text.length < CONFIG_SYS_CBSIZE := fits
    refine ⟨name,?_⟩
    rw [Tok.text,cons_append,macroLoop_cons (room_ne room) (fun escape => absurd escape.2.1 (by decide)),macroChar]
    simp only
    rw [if_pos ⟨trivial,plain⟩,append_assoc,quoted_loop name _ text output quote ok.1 length,singleton_append,
      macroLoop_cons (room_ne (by rw [length_append]; exact length)) (fun escape => escape.1 rfl),macroChar]
    simp only
    rw [if_pos ⟨trivial,closing⟩]
    rfl
  | escaped c ok =>
    have plain := meaning fun _ _ equal => by cases equal
    refine ⟨name,?_⟩
    rw [Tok.text,cons_append,singleton_append,macroLoop_escaped (room_ne room) (by simp) plain,macroChar]
    rw [if_neg fun opened => opened.2 rfl,if_neg fun refers => refers.2 rfl]
    rfl
  | reference brace read ok =>
    have plain := meaning fun _ _ equal => by cases equal
    have opened : opens (if brace then 123 else 40) = true := by cases brace <;> decide
    have closed : closes (if brace then 125 else 41) = true := by cases brace <;> decide
    have noEscape : (if brace then (123 : UInt8) else 40) ≠ backslash ∧ (if brace then (125 : UInt8) else 41) ≠ backslash := by
      cases brace <;> decide
    rw [Tok.text,cons_append,macroLoop_cons (room_ne room) (fun escape => absurd escape.2.1 (by decide)),macroChar]
    simp only
    rw [if_neg fun opened => absurd opened.1 (by decide),if_pos ⟨trivial,plain⟩,cons_append,
      macroLoop_cons (room_ne room) (fun escape => noEscape.1 escape.2.1),macroChar]
    rw [if_pos opened,append_assoc]
    obtain ⟨last,named⟩ := @name_loop getenv ([if brace then 125 else 41] ++ behind) output room read [] (if brace then 123 else 40) ok
    refine ⟨read,?_⟩
    rw [named,singleton_append,
      macroLoop_cons (room_ne room) (fun escape => noEscape.2 escape.2.1),macroChar]
    have value : output.length + ((getenv read).getD []).length < CONFIG_SYS_CBSIZE := fits
    have whole : ((getenv read).getD []).take (CONFIG_SYS_CBSIZE-output.length) = (getenv read).getD [] :=
      take_of_length_le (by omega)
    rw [if_pos closed,dropLast_singleton,append_nil]
    change macroLoop getenv ⟨.forDollar,_,read,output ++ ((getenv read).getD []).take (CONFIG_SYS_CBSIZE-output.length)⟩ behind = _
    rw [whole]
    rfl

theorem macro_part : ∀ (part : List Tok) (afterSlash : Bool) (m : Macro), Clean afterSlash part → m.state = .forDollar →
    (m.prev = backslash → afterSlash = true) → m.output.length + (expandPart getenv part).length < CONFIG_SYS_CBSIZE →
    (macroLoop getenv m (partText part)).output = m.output ++ expandPart getenv part := by
  intro part
  induction part with
  | nil => intro _ m _ _ _ _; exact (append_nil _).symm
  | cons tok part ih =>
    intro afterSlash m clean state prev fits
    have split : expandPart getenv (tok :: part) = tok.expand getenv ++ expandPart getenv part := flatMap_cons
    rw [split,length_append] at fits
    obtain ⟨name,first⟩ := @macro_token getenv tok afterSlash part clean m state prev (by omega) (partText part)
    have later := ih _ ⟨.forDollar,tok.last,name,m.output ++ tok.expand getenv⟩ clean.2.2 rfl (last_backslash tok)
      (by rw [length_append]; omega)
    rw [split,← append_assoc,← later,← first]
    rfl

theorem process_macros_part (clean : Clean false part)
    (fits : (expandPart getenv part).length < CONFIG_SYS_CBSIZE) :
    process_macros getenv (partText part) = expandPart getenv part := by
  have output := @macro_part getenv part false ⟨.forDollar,0,[],[]⟩ clean rfl (fun slash => absurd slash (by decide))
    (by rw [length_nil,Nat.zero_add]; exact fits)
  rw [nil_append] at output
  rw [process_macros,if_neg (room_ne (by rw [output]; exact fits)),output]

/-! ### Finding separators -/

theorem findSep_cons {atStart inquotes now : Bool}
    (toggles : (if c = quote ∧ prev ≠ backslash then !inquotes else inquotes) = now)
    (stays : ¬ (now = false ∧ c = semicolon ∧ atStart = false ∧ prev ≠ backslash)) (behind : List UInt8) :
    findSep atStart prev inquotes (c :: behind) = (c :: (findSep false c now behind).1,(findSep false c now behind).2) := by
  rw [findSep,toggles]
  rw [if_neg stays]

theorem findSep_quoted (behind : List UInt8) : ∀ (text : List UInt8) (prev : UInt8), quote ∉ text →
    findSep false prev true (text ++ behind) =
      (text ++ (findSep false (text.getLast?.getD prev) true behind).1,(findSep false (text.getLast?.getD prev) true behind).2) := by
  intro text
  induction text with
  | nil => intro prev _; rfl
  | cons c text ih =>
    intro prev free
    simp only [mem_cons,not_or] at free
    have last : (c :: text).getLast?.getD prev = text.getLast?.getD c := by
      cases text with
      | nil => rfl
      | cons d text => rfl
    rw [cons_append,findSep_cons (if_neg fun closed => free.1 closed.1.symm) (fun separates => Bool.noConfusion separates.1),
      ih c free.2,last,cons_append]

theorem findSep_ordinary (ok : ordinary c = true) (atStart : Bool) (prev : UInt8) (behind : List UInt8) :
    findSep atStart prev false (c :: behind) = (c :: (findSep false c false behind).1,(findSep false c false behind).2) :=
  findSep_cons (if_neg fun opened => ordinary_ne ok ordinary_quote opened.1)
    (fun separates => ordinary_ne ok ordinary_semicolon separates.2.1) behind

theorem findSep_name (behind : List UInt8) : ∀ (name : List UInt8) (prev : UInt8), (∀ c ∈ name, ordinary c = true) →
    ∃ last, findSep false prev false (name ++ behind) = (name ++ (findSep false last false behind).1,(findSep false last false behind).2) := by
  intro name
  induction name with
  | nil => intro prev _; exact ⟨prev,rfl⟩
  | cons c name ih =>
    intro prev all
    obtain ⟨last,later⟩ := ih c fun d member => all d (mem_cons_of_mem c member)
    exact ⟨last,by rw [cons_append,findSep_ordinary (all c mem_cons_self),later,cons_append]⟩

theorem findSep_token (tok : Tok) {afterSlash : Bool} {rest : List Tok} (clean : Clean afterSlash (tok :: rest)) {atStart : Bool}
    (slash : prev = backslash → afterSlash = true) (behind : List UInt8) :
    findSep atStart prev false (tok.text ++ behind) =
      (tok.text ++ (findSep false tok.last false behind).1,(findSep false tok.last false behind).2) := by
  have meaning : (∀ c ok, tok ≠ .char c ok) → prev ≠ backslash := by
    intro other equal
    obtain ⟨c,ok,same⟩ := clean.1 (slash equal)
    exact other c ok same
  cases tok with
  | char c ok => exact findSep_ordinary ok atStart prev behind
  | quoted text ok =>
    have plain := meaning fun _ _ equal => by cases equal
    have closing : text.getLast?.getD quote ≠ backslash := by
      cases last : text.getLast? with
      | none => decide
      | some c => exact fun slash => clean.2.1 text ok rfl (by rw [last]; exact congrArg some slash)
    rw [Tok.text,cons_append,findSep_cons (if_pos ⟨rfl,plain⟩) (fun separates => Bool.noConfusion separates.1),
      append_assoc,Bool.not_false,findSep_quoted _ text quote ok.1,singleton_append,
      findSep_cons (if_pos ⟨rfl,closing⟩) (fun separates => absurd separates.2.1 (by decide)),cons_append,append_assoc]
    rfl
  | escaped c ok =>
    rw [Tok.text,cons_append,
      findSep_cons (if_neg fun opened => absurd opened.1 (by decide)) (fun separates => absurd separates.2.1 (by decide)),
      singleton_append,findSep_cons (if_neg fun opened => opened.2 rfl) (fun separates => separates.2.2.2 rfl)]
    rfl
  | reference brace name ok =>
    have first : ordinary (if brace then 123 else 40) = true := by cases brace <;> decide
    have final : ordinary (if brace then 125 else 41) = true := by cases brace <;> decide
    obtain ⟨last,named⟩ := findSep_name ([if brace then 125 else 41] ++ behind) name (if brace then 123 else 40)
      fun c member => (ok c member).1
    rw [Tok.text,cons_append,
      findSep_cons (if_neg fun opened => absurd opened.1 (by decide)) (fun separates => absurd separates.2.1 (by decide)),
      cons_append,findSep_ordinary first,append_assoc,named,singleton_append,findSep_ordinary final]
    simp only [cons_append,append_assoc,nil_append]
    rfl

def lastOf (prev : UInt8) (part : List Tok) : UInt8 := (part.getLast?.map Tok.last).getD prev

theorem findSep_part (behind : List UInt8) : ∀ (part : List Tok) (afterSlash atStart : Bool) (prev : UInt8), Clean afterSlash part →
    (prev = backslash → afterSlash = true) →
    findSep atStart prev false (partText part ++ behind) =
      (partText part ++ (findSep (atStart && part.isEmpty) (lastOf prev part) false behind).1,
        (findSep (atStart && part.isEmpty) (lastOf prev part) false behind).2) := by
  intro part
  induction part with
  | nil => intro _ atStart prev _ _; rw [isEmpty_nil,Bool.and_true]; rfl
  | cons tok part ih =>
    intro afterSlash atStart prev clean slash
    have split : partText (tok :: part) = tok.text ++ partText part := flatMap_cons
    have last : lastOf prev (tok :: part) = lastOf tok.last part := by
      cases part with
      | nil => rfl
      | cons next part => rfl
    rw [split,append_assoc,findSep_token tok clean slash,ih _ false tok.last clean.2.2 (last_backslash tok),last,
      isEmpty_cons,Bool.and_false,Bool.false_and,append_assoc]

/-! ### The commands -/

/-- The parts are clean; each one in front of a semicolon is not empty and does not end with an escaped backslash. -/
def Written : List (List Tok) → Prop
  | [] => True
  | [part] => Clean false part
  | part :: next :: rest => Clean false part ∧ part ≠ [] ∧ lastOf 0 part ≠ backslash ∧ Written (next :: rest)

def Short (sh : Shell σ) (s : σ) (part : List Tok) : Prop := (expandPart (sh.getenv s) part).length < CONFIG_SYS_CBSIZE
deriving Decidable

def Few (sh : Shell σ) (s : σ) (part : List Tok) : Prop := (wordsOf (expandPart (sh.getenv s) part)).length ≤ CONFIG_SYS_MAXARGS
deriving Decidable

theorem Tok.text_ne_nil (tok : Tok) : tok.text ≠ [] := by
  cases tok <;> exact cons_ne_nil _ _

theorem partText_ne_nil (nonempty : part ≠ []) : partText part ≠ [] := by
  obtain ⟨tok,rest,rfl⟩ := exists_cons_of_ne_nil nonempty
  exact append_ne_nil_of_left_ne_nil tok.text_ne_nil _

theorem lastOf_prev (nonempty : part ≠ []) (prev : UInt8) : lastOf prev part = lastOf 0 part := by
  rw [lastOf,lastOf,getLast?_eq_some_getLast nonempty]
  rfl

theorem commandText_cons (part next : List Tok) (rest : List (List Tok)) :
    commandText (part :: next :: rest) = partText part ++ semicolon :: commandText (next :: rest) := by
  rw [commandText,commandText,map_cons,map_cons,intercalate_cons_cons,append_assoc,singleton_append]

def runPart (sh : Shell σ) (r : Running σ) (part : List Tok) : Running σ × Bool :=
  let argv := wordsOf (expandPart (sh.getenv r.state) part)
  if argv = [] then ({ r with rc := -1 },false)
  else
    let (state,rc,repeatable) := sh.cmd_process r.state argv
    (⟨state,if rc ≠ 0 then -1 else r.rc,r.repeatable && repeatable,r.calls ++ [argv]⟩,sh.had_ctrlc state)

theorem runToken_part {sh : Shell σ} {r : Running σ} (clean : Clean false part) (short : Short sh r.state part)
    (few : Few sh r.state part) : runToken sh r (partText part) = runPart sh r part := by
  have argv : parse_line (process_macros (sh.getenv r.state) (partText part)) = wordsOf (expandPart (sh.getenv r.state) part) := by
    rw [process_macros_part clean short,parse_line,parseWords_eq,take_of_length_le few]
  rw [runToken,argv]
  rfl

theorem findSep_semicolon (plain : prev ≠ backslash) (behind : List UInt8) :
    findSep false prev false (semicolon :: behind) = ([],some behind) := by
  exact if_pos ⟨rfl,rfl,rfl,plain⟩

theorem findSep_first (written : Written (part :: rest))
    (start : prev ≠ backslash) :
    findSep true prev false (commandText (part :: rest)) =
      (partText part,match rest with | [] => none | next :: rest => some (commandText (next :: rest))) := by
  cases rest with
  | nil =>
    have alone := findSep_part [] part false true prev written fun slash => absurd slash start
    have text : commandText [part] = partText part ++ [] := by rw [commandText,map_singleton,intercalate_singleton,append_nil]
    rw [text,alone,findSep,append_nil]
  | cons next rest =>
    obtain ⟨clean,nonempty,last,_⟩ := written
    have notEmpty : (true && part.isEmpty) = false := by simpa using nonempty
    rw [commandText_cons,findSep_part _ part false true prev clean (fun slash => absurd slash start),notEmpty,lastOf_prev nonempty,
      findSep_semicolon last,append_nil]

theorem Written.clean (written : Written (part :: rest)) : Clean false part := by
  cases rest with
  | nil => exact written
  | cons next rest => exact written.1

theorem Written.shorter {next : List Tok} (written : Written (part :: next :: rest)) :
    (commandText (next :: rest)).length + 1 < (commandText (part :: next :: rest)).length := by
  have positive := length_pos_iff.mpr (partText_ne_nil written.2.1)
  rw [commandText_cons,length_append,length_cons]
  omega

theorem runTokens_parts (sh : Shell σ) : ∀ (parts : List (List Tok)) (fuel : Nat) (prev : UInt8) (r : Running σ), Written parts →
    Along sh (Short sh) r.state parts → Along sh (Few sh) r.state parts → prev ≠ backslash → (commandText parts).length ≤ fuel →
    (runTokens sh fuel prev r (commandText parts)).1.state = (runParts sh r.state parts).1 ∧
      (runTokens sh fuel prev r (commandText parts)).1.calls = r.calls ++ (runParts sh r.state parts).2 := by
  intro parts
  induction parts with
  | nil =>
    intro fuel prev r _ _ _ _ _
    cases fuel <;> exact ⟨rfl,(append_nil _).symm⟩
  | cons part rest ih =>
    intro fuel prev r written short few start enough
    by_cases empty : commandText (part :: rest) = []
    · -- The last part is empty.
      have alone : part = [] ∧ rest = [] := by
        cases rest with
        | nil => exact ⟨by_contra fun nonempty => partText_ne_nil nonempty (by simpa [commandText] using empty),rfl⟩
        | cons next rest => exact absurd (congrArg List.length empty) (by rw [commandText_cons]; simp)
      obtain ⟨rfl,rfl⟩ := alone
      cases fuel <;> exact ⟨rfl,(append_nil _).symm⟩
    obtain ⟨fuel,rfl⟩ : ∃ n, fuel = n + 1 := Nat.exists_eq_succ_of_ne_zero (by
      have := length_pos_iff.mpr empty
      omega)
    rw [runTokens,if_neg empty,findSep_first written start]
    simp only
    rw [runToken_part written.clean short.1 few.1,runPart,runParts]
    by_cases noWords : wordsOf (expandPart (sh.getenv r.state) part) = []
    · have shortLater := short.2
      have fewLater := few.2
      simp only [noWords,if_true] at shortLater fewLater
      simp only [noWords,if_true,true_or,Bool.false_eq_true,if_false]
      cases rest with
      | nil => exact ⟨rfl,(append_nil _).symm⟩
      | cons next rest =>
        have := written.shorter
        exact ih fuel 0 { r with rc := -1 } written.2.2.2 shortLater fewLater (by decide) (by omega)
    have atMost : ¬ CONFIG_SYS_MAXARGS < (wordsOf (expandPart (sh.getenv r.state) part)).length := Nat.not_lt.mpr few.1
    have shortLater := short.2
    have fewLater := few.2
    simp only [noWords,if_false] at shortLater fewLater
    simp only [noWords,atMost,or_self,if_false]
    by_cases stopped : sh.had_ctrlc (sh.cmd_process r.state (wordsOf (expandPart (sh.getenv r.state) part))).1 = true
    · simp only [stopped,if_true]
      exact ⟨trivial,trivial⟩
    simp only [stopped,Bool.false_eq_true,if_false]
    cases rest with
    | nil => exact ⟨rfl,rfl⟩
    | cons next rest =>
      have := written.shorter
      obtain ⟨state,calls⟩ := ih fuel 0 ⟨(sh.cmd_process r.state (wordsOf (expandPart (sh.getenv r.state) part))).1,_,_,_⟩
        written.2.2.2 (shortLater.resolve_left stopped) (fewLater.resolve_left stopped) (by decide) (by omega)
      refine ⟨state,calls.trans ?_⟩
      rw [append_assoc,singleton_append]

theorem findSep_before (other : c ≠ quote) (prev : UInt8) (behind : List UInt8) :
    findSep true prev false (c :: behind) = findSep true 0 false (c :: behind) := by
  have toggles : ∀ p, (if c = quote ∧ p ≠ backslash then !false else false) = false := fun p => if_neg fun opened => other opened.1
  rw [findSep_cons (toggles prev) (fun separates => Bool.noConfusion separates.2.2.1),
    findSep_cons (toggles 0) (fun separates => Bool.noConfusion separates.2.2.1)]

theorem runTokens_before (sh : Shell σ) {before : UInt8} {str : List UInt8} (start : str.head? = some quote → before ≠ backslash) :
    ∃ prev ≠ backslash, ∀ fuel r, runTokens sh fuel before r str = runTokens sh fuel prev r str := by
  by_cases plain : before = backslash
  · refine ⟨0,by decide,fun fuel r => ?_⟩
    cases fuel with
    | zero => rfl
    | succ fuel =>
      cases str with
      | nil => rfl
      | cons c behind =>
        have other : c ≠ quote := fun same => start (congrArg some same) plain
        rw [runTokens,runTokens,findSep_before other]
  · exact ⟨before,plain,fun _ _ => rfl⟩

/-- The parser passes on the words of each part in order. -/
theorem parser_runs_command (sh : Shell σ) (before : UInt8) (parts : List (List Tok)) (s : σ)
    (length : (commandText parts).length < CONFIG_SYS_CBSIZE) (short : Along sh (Short sh) s parts)
    (start : (commandText parts).head? = some quote → before ≠ backslash) (written : Written parts) (few : Along sh (Few sh) s parts) :
    (builtin_run_command sh before (commandText parts) s).state = (runParts sh s parts).1 ∧
      (builtin_run_command sh before (commandText parts) s).calls = (runParts sh s parts).2 := by
  obtain ⟨prev,plain,same⟩ := runTokens_before sh start
  have run := runTokens_parts sh parts (commandText parts).length prev ⟨s,0,true,[]⟩ written short few plain (le_refl _)
  rw [builtin_run_command]
  by_cases empty : commandText parts = []
  · rw [if_pos empty]
    rw [empty] at run
    exact run
  rw [if_neg empty,if_neg (Nat.not_le.mpr length)]
  simp only [same]
  exact run

/-- The variable `a` is `b;c`, and the commands do nothing. -/
def oneVariable : Shell Unit :=
  ⟨fun _ name => if name = [97] then some [98,59,99] else none,fun _ _ => ((),0,true),fun _ => false⟩

def Tok.letter : Tok := .char 97 (by decide)
def Tok.blank : Tok := .char 32 (by decide)
def Tok.slash : Tok := .escaped backslash (by decide)
def Tok.variable : Tok := .reference true [97] (by decide +kernel)

/-- `a ${a};'a;' \\;` passes on `a`, the value of the variable as one word, and the two words of the second part. -/
theorem value_stays_one_word :
    (builtin_run_command oneVariable 0
      (commandText [[.letter,.blank,.variable],[.quoted [97,59] (by decide),.blank,.escaped semicolon (by decide)]]) ()).calls =
        [[[97],[98,59,99]],[[97,59],[59]]] :=
  (parser_runs_command oneVariable 0 [[.letter,.blank,.variable],[.quoted [97,59] (by decide),.blank,.escaped semicolon (by decide)]] ()
    (by decide) (by decide) (by decide) (by
      simp [Written,Clean,lastOf,Tok.letter,Tok.blank,Tok.variable,backslash,semicolon]
      exact ⟨by decide,fun text _ _ same => same ▸ by decide⟩) (by decide)).2

/-- A string that is short enough, also with its variables replaced, and is not run as it is written. -/
def Misread (before : UInt8) (parts : List (List Tok)) : Prop :=
  (commandText parts).length < CONFIG_SYS_CBSIZE ∧ Along oneVariable (Short oneVariable) () parts ∧
    (builtin_run_command oneVariable before (commandText parts) ()).calls ≠ (runParts oneVariable () parts).2

/-- An escaped backslash in front of a separator, a reference, a quoted text and another one; a quoted text that ends with a
    backslash; an empty part, first or later; 17 words; a quote behind a backslash that stands in front of the buffer. -/
theorem escapes_misread :
    Misread 0 [[.letter,.slash],[.letter]] ∧ Misread 0 [[.slash,.variable]] ∧ Misread 0 [[.slash,.quoted [97] (by decide)]] ∧
      Misread 0 [[.slash,.slash]] ∧ Misread 0 [[.quoted [97,backslash] (by decide)],[.letter]] ∧ Misread 0 [[],[.letter]] ∧
        Misread 0 [[.letter],[],[.letter]] ∧ Misread 0 [(List.replicate 17 [.letter,.blank]).flatten] ∧
          Misread backslash [[.quoted [97,59,97] (by decide)]] := by
  refine ⟨?_,?_,?_,?_,?_,?_,?_,?_,?_⟩ <;> refine ⟨?_,?_,?_⟩ <;> decide

end UBoot.CommandText
