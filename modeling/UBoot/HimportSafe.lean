import UBoot.EnvText

/-!
Which texts `himport_r` parses inside of its copy. The loops over blanks, comments,
names and values stop at NUL or the separator only, and the size is looked at between
two entries; so the text must be made of complete entries (`Complete`), down to its
end or to a NUL at the start of an entry (`himport_inside_iff`).
-/
namespace UBoot.HimportSafe
open List Option CStrings Hashtable Himport EnvText

variable {text name tail : List UInt8} {item : Item} {stop : UInt8}

/-! ### Complete entries -/

/-- A value with its terminator. A backslash takes the next character with it, unless
    that is NUL. -/
inductive Value (sep : UInt8) : List UInt8 → Prop
  | stop {c : UInt8} : c = 0 ∨ c = sep → Value sep [c]
  | plain {c : UInt8} {text : List UInt8} : ¬ (c = 0 ∨ c = sep) → c ≠ backslash → Value sep text → Value sep (c :: text)
  | escaped {d : UInt8} {text : List UInt8} : backslash ≠ sep → d ≠ 0 → Value sep text → Value sep (backslash :: d :: text)
  | slash : backslash ≠ sep → Value sep [backslash,0]

/-- A name and the character behind it, with no blanks in front and not a comment. -/
structure Named (sep : UInt8) (name : List UInt8) (stop : UInt8) : Prop where
  inside : ∀ c ∈ name, inName sep c = true
  ends : inName sep stop = false
  starts : ∀ c, (name ++ [stop]).head? = some c → isblank c = false ∧ c ≠ hash

/-- An entry followed by `rest`. A name that the separator ends must have a character
    behind that, which is looked at. -/
inductive Entry (sep : UInt8) (rest : List UInt8) : List UInt8 → Prop
  | comment {line : List UInt8} {stop : UInt8} : (line ++ [stop]).head? = some hash → (∀ c ∈ line, inLine sep c = true) →
      inLine sep stop = false → Entry sep rest (line ++ stop :: rest)
  | bare {name : List UInt8} : Named sep name 0 → Entry sep rest (name ++ 0 :: rest)
  | dropped {name : List UInt8} : Named sep name sep → sep ≠ 0 → sep ≠ equalSign → rest ≠ [] →
      Entry sep rest (name ++ sep :: rest)
  | emptied {name : List UInt8} {d : UInt8} : Named sep name equalSign → d = 0 ∨ equalSign = sep ∨ d = sep →
      Entry sep rest (name ++ equalSign :: d :: rest)
  | valued {name text : List UInt8} {d : UInt8} : Named sep name equalSign → name ≠ [] → ¬ (d = 0 ∨ equalSign = sep ∨ d = sep) →
      Value sep (d :: text) → Entry sep rest (name ++ equalSign :: (d :: text ++ rest))

def Blanks (blanks : List UInt8) : Prop := ∀ c ∈ blanks, isblank c = true

/-- Entries up to the end of the text, up to a NUL, or up to a value without a name, at
    which the import gives up. -/
inductive Complete (sep : UInt8) : List UInt8 → Prop
  | last {blanks text rest : List UInt8} : Blanks blanks → Entry sep rest text → rest = [] ∨ rest.head? = some 0 →
      Complete sep (blanks ++ text)
  | more {blanks text rest : List UInt8} : Blanks blanks → Entry sep rest text → Complete sep rest → Complete sep (blanks ++ text)
  | nameless {blanks text rest : List UInt8} {d : UInt8} : Blanks blanks → Named sep [] equalSign →
      ¬ (d = 0 ∨ equalSign = sep ∨ d = sep) → Value sep (d :: text) → Complete sep (blanks ++ equalSign :: (d :: text ++ rest))

/-! ### They are what the parser reads -/

section
variable {sep : UInt8} {rest : List UInt8}

theorem Value.parses (value : Value sep text) (rest : List UInt8) :
    ∃ v, parseValue sep (text ++ rest) = some (v,rest) := by
  induction value with
  | stop ends => exact ⟨[],parseValue_stop ends rest⟩
  | plain goes char _ ih =>
    obtain ⟨v,parsed⟩ := ih
    exact ⟨_,by rw [cons_append,parseValue_plain goes char,parsed]; rfl⟩
  | escaped other char _ ih =>
    obtain ⟨v,parsed⟩ := ih
    have goes : ¬ (backslash = 0 ∨ backslash = sep) := not_or.mpr ⟨by decide,other⟩
    exact ⟨_,by rw [cons_append,cons_append,parseValue_escaped goes char,parsed]; rfl⟩
  | slash other =>
    have goes : ¬ (backslash = 0 ∨ backslash = sep) := not_or.mpr ⟨by decide,other⟩
    refine ⟨[backslash],?_⟩
    rw [cons_append,singleton_append,parseValue_last goes (by simp),parseValue_stop (.inl rfl)]
    rfl

theorem value_of_parse (text : List UInt8) : ∀ {v rest : List UInt8}, parseValue sep text = some (v,rest) →
    ∃ w, Value sep w ∧ text = w ++ rest := by
  induction text using parseValue.induct sep with
  | case1 => intro v rest parsed; simp [parseValue] at parsed
  | case2 c after stops =>
    intro v rest parsed
    rw [parseValue_stop stops] at parsed
    cases parsed
    exact ⟨[c],.stop stops,rfl⟩
  | case3 goes =>
    intro v rest parsed
    rw [parseValue_lone goes] at parsed
    cases parsed
  | case4 d after char goes ih =>
    intro v rest parsed
    rw [parseValue_escaped goes char] at parsed
    obtain ⟨⟨v',rest'⟩,inner,same⟩ := map_eq_some_iff.mp parsed
    cases same
    obtain ⟨w,value,rfl⟩ := ih inner
    exact ⟨_,.escaped (not_or.mp goes).2 char value,rfl⟩
  | case5 d after nul goes ih =>
    intro v rest parsed
    obtain rfl : d = 0 := by simpa using nul
    rw [parseValue_last goes (by simp),parseValue_stop (.inl rfl)] at parsed
    cases parsed
    exact ⟨[backslash,0],.slash (not_or.mp goes).2,rfl⟩
  | case6 c after goes plain ih =>
    intro v rest parsed
    rw [parseValue_plain goes plain] at parsed
    obtain ⟨⟨v',rest'⟩,inner,same⟩ := map_eq_some_iff.mp parsed
    cases same
    obtain ⟨w,value,rfl⟩ := ih inner
    exact ⟨_,.plain goes plain value,rfl⟩

theorem parseItem_blanks {blanks : List UInt8} (blank : Blanks blanks) (text : List UInt8) :
    parseItem sep (blanks ++ text) = parseItem sep text := by
  rw [parseItem,parseItem,dropWhile_append_of_pos blank]

theorem parseItem_named (named : Named sep name stop) :
    parseItem sep (name ++ stop :: tail) = parseRest sep (toCString name) (stop :: tail) := by
  obtain ⟨c,text,split⟩ : ∃ c text, name ++ stop :: tail = c :: text := by cases name <;> exact ⟨_,_,rfl⟩
  have first : (name ++ [stop]).head? = some c := by
    cases name <;> simpa using congrArg List.head? split
  obtain ⟨notBlank,notHash⟩ := named.starts c first
  have noBlanks : (name ++ stop :: tail).dropWhile isblank = c :: text := by
    rw [split,dropWhile_cons_of_neg (by simpa using notBlank)]
  have notInName : ¬ inName sep stop = true := by simp [named.ends]
  rw [parseItem,noBlanks]
  simp only [notHash,if_false]
  rw [← split,parseField,takeWhile_append_of_pos named.inside,dropWhile_append_of_pos named.inside,
    takeWhile_cons_of_neg notInName,dropWhile_cons_of_neg notInName,append_nil]

theorem Named.nulFree (named : Named sep name stop) : 0 ∉ name := by
  intro nul
  simpa [inName] using named.inside 0 nul

theorem Entry.parses (entry : Entry sep rest text) :
    ∃ item, parseItem sep text = some (item,rest) ∧ Item.fatal item = false := by
  cases entry with
  | @comment line stop starts inside ends =>
    obtain ⟨tail,split⟩ : ∃ tail, line ++ stop :: rest = hash :: tail := by
      cases line with
      | nil =>
        obtain rfl : stop = hash := by simpa using starts
        exact ⟨rest,rfl⟩
      | cons c line =>
        obtain rfl : c = hash := by simpa using starts
        exact ⟨_,rfl⟩
    have noBlanks : (line ++ stop :: rest).dropWhile isblank = hash :: tail := by
      rw [split,dropWhile_cons_of_neg (by decide)]
    have stops : ¬ inLine sep stop = true := by simp [ends]
    refine ⟨.comment,?_,rfl⟩
    rw [parseItem,noBlanks]
    simp only [if_true]
    rw [← split,parseComment,dropWhile_append_of_pos inside,dropWhile_cons_of_neg stops]
  | @bare name named =>
    refine ⟨.delete (toCString name),?_,rfl⟩
    rw [parseItem_named named,parseRest.eq_def]
    simp only [if_true]
  | @dropped name named notNul notEqual some_ =>
    obtain ⟨d,after,rfl⟩ := exists_cons_of_ne_nil some_
    refine ⟨.delete (toCString name),?_,rfl⟩
    rw [parseItem_named named,parseRest,if_neg notNul]
    simp only [true_or,or_true,if_true,notEqual,if_false]
  | @emptied name d named ends =>
    refine ⟨.delete (toCString name),?_,rfl⟩
    rw [parseItem_named named,parseRest,if_neg (by decide)]
    simp only [ends,if_true]
  | @valued name text d named some_ goes value =>
    obtain ⟨v,parsed⟩ := value.parses rest
    rw [cons_append] at parsed
    refine ⟨.enter (toCString name) (toCString v),?_,?_⟩
    · rw [parseItem_named named,cons_append,parseRest,if_neg (by decide)]
      simp only [goes,if_false,parsed,map_some]
    · rw [Item.fatal,toCString_bytes named.nulFree]
      simpa using some_

theorem takeWhile_split (p : UInt8 → Bool) (ends : text.dropWhile p = stop :: tail) :
    (∀ c ∈ text.takeWhile p, p c = true) ∧ p stop = false ∧ text = text.takeWhile p ++ stop :: tail := by
  have found : text.dropWhile p ≠ [] := by rw [ends]; simp
  refine ⟨fun c member => mem_takeWhile_imp member,?_,?_⟩
  · have first := head_dropWhile_not p found
    simpa [ends] using first
  · conv_lhs => rw [← takeWhile_append_dropWhile (p := p) (l := text),ends]

def Nameless (sep : UInt8) (rest tail : List UInt8) : Prop :=
  ∃ d text, tail = d :: text ++ rest ∧ ¬ (d = 0 ∨ equalSign = sep ∨ d = sep) ∧ Value sep (d :: text)

theorem entry_of_rest (named : Named sep name stop)
    (parsed : parseRest sep (toCString name) (stop :: tail) = some (item,rest)) :
    (Item.fatal item = false ∧ Entry sep rest (name ++ stop :: tail)) ∨
      (Item.fatal item = true ∧ name = [] ∧ stop = equalSign ∧ Nameless sep rest tail) := by
  rw [parseRest.eq_def] at parsed
  simp only at parsed
  by_cases nul : stop = 0
  · subst nul
    cases parsed
    exact .inl ⟨rfl,.bare named⟩
  rw [if_neg nul] at parsed
  cases tail with
  | nil => cases parsed
  | cons d after =>
    have stops : stop = equalSign ∨ stop = sep := by
      have ends := named.ends
      simp only [inName,Bool.and_eq_false_iff,decide_eq_false_iff_not,not_not,ne_eq] at ends
      tauto
    dsimp only at parsed
    by_cases only : d = 0 ∨ stop = sep ∨ d = sep
    · rw [if_pos only] at parsed
      cases parsed
      refine .inl ⟨rfl,?_⟩
      by_cases equal : stop = equalSign
      · subst equal
        exact .emptied named only
      obtain rfl := stops.resolve_left equal
      rw [if_neg equal]
      exact .dropped named nul equal (by simp)
    rw [if_neg only] at parsed
    obtain rfl := stops.resolve_right fun same => only (.inr (.inl same))
    obtain ⟨⟨v,rest'⟩,inner,same⟩ := map_eq_some_iff.mp parsed
    cases same
    obtain ⟨w,value,split⟩ := value_of_parse _ inner
    obtain ⟨text,rfl⟩ : ∃ text, w = d :: text := by
      cases value <;> cases split <;> exact ⟨_,rfl⟩
    obtain rfl : after = text ++ rest' := by simpa using split
    have fatal : Item.fatal (.enter (toCString name) (toCString v)) = decide (name = []) := by
      rw [Item.fatal,toCString_bytes named.nulFree]
    rw [fatal]
    by_cases empty : name = []
    · exact .inr ⟨by simpa using empty,empty,rfl,d,text,rfl,only,value⟩
    · exact .inl ⟨by simpa using empty,.valued named empty only value⟩

theorem entry_of_parse (parsed : parseItem sep text = some (item,rest)) :
    ∃ blanks, Blanks blanks ∧
      ((Item.fatal item = false ∧ ∃ entry, text = blanks ++ entry ∧ Entry sep rest entry) ∨
        (Item.fatal item = true ∧ Named sep [] equalSign ∧ ∃ tail, text = blanks ++ equalSign :: tail ∧ Nameless sep rest tail)) := by
  rw [parseItem] at parsed
  cases skipped : text.dropWhile isblank with
  | nil => rw [skipped] at parsed; cases parsed
  | cons c tail =>
    rw [skipped] at parsed
    dsimp only at parsed
    obtain ⟨blank,notBlank,split⟩ := takeWhile_split isblank skipped
    refine ⟨text.takeWhile isblank,blank,?_⟩
    by_cases comment : c = hash
    · subst comment
      rw [parseComment] at parsed
      cases ended : (hash :: tail).dropWhile (inLine sep) with
      | nil => rw [ended] at parsed; cases parsed
      | cons stop after =>
        rw [ended] at parsed
        cases parsed
        obtain ⟨inside,ends,line⟩ := takeWhile_split (inLine sep) ended
        refine .inl ⟨rfl,_,split,?_⟩
        have starts : ((hash :: tail).takeWhile (inLine sep) ++ [stop]).head? = some hash := by
          have first := congrArg List.head? line
          cases taken : (hash :: tail).takeWhile (inLine sep) with
          | nil => rw [taken] at first; simpa using first.symm
          | cons b rest => rw [taken] at first; simpa using first.symm
        rw [line]
        exact .comment starts inside ends
    rw [if_neg comment,parseField] at parsed
    cases ended : (c :: tail).dropWhile (inName sep) with
    | nil => rw [ended] at parsed; simp [parseRest] at parsed
    | cons stop after =>
      rw [ended] at parsed
      obtain ⟨inside,ends,line⟩ := takeWhile_split (inName sep) ended
      have named : Named sep ((c :: tail).takeWhile (inName sep)) stop := by
        refine ⟨inside,ends,fun b first => ?_⟩
        obtain rfl : c = b := by
          have whole := congrArg List.head? line
          cases taken : (c :: tail).takeWhile (inName sep) with
          | nil => rw [taken] at first whole; simpa using whole.trans first
          | cons b rest => rw [taken] at first whole; simpa using whole.trans first
        exact ⟨notBlank,comment⟩
      rcases entry_of_rest named parsed with ⟨goes,entry⟩ | ⟨fatal,empty,rfl,nameless⟩
      · exact .inl ⟨goes,_,split,by rw [line]; exact entry⟩
      rw [empty] at named line
      rw [line] at split
      exact .inr ⟨fatal,named,after,split,nameless⟩

end

/-! ### The whole text -/

section
variable {sep : UInt8}

theorem Entry.shorter {rest : List UInt8} (entry : Entry sep rest text) : rest.length < text.length := by
  cases entry <;> simp <;> omega

/-- A complete text starts with an item; unless that ends the import, what is behind it
    is complete, or is not looked at. -/
theorem Complete.parses (complete : Complete sep text) :
    ∃ item rest, parseItem sep text = some (item,rest) ∧
      (Item.fatal item = true ∨ (rest.length < text.length ∧ ((rest = [] ∨ rest.head? = some 0) ∨ Complete sep rest))) := by
  cases complete with
  | @last blanks text rest blank entry ends =>
    obtain ⟨item,parsed,_⟩ := entry.parses
    refine ⟨item,rest,by rw [parseItem_blanks blank,parsed],.inr ⟨?_,.inl ends⟩⟩
    have := entry.shorter
    rw [length_append]; omega
  | @more blanks text rest blank entry later =>
    obtain ⟨item,parsed,_⟩ := entry.parses
    refine ⟨item,rest,by rw [parseItem_blanks blank,parsed],.inr ⟨?_,.inr later⟩⟩
    have := entry.shorter
    rw [length_append]; omega
  | @nameless blanks text rest d blank named goes value =>
    obtain ⟨v,parsed⟩ := value.parses rest
    rw [cons_append] at parsed
    refine ⟨.enter (toCString []) (toCString v),rest,?_,.inl rfl⟩
    rw [parseItem_blanks blank,cons_append,← nil_append (equalSign :: _),parseItem_named named,parseRest,if_neg (by decide)]
    simp only [goes,if_false,parsed,map_some]

/-- An item whose rest is not looked at, or is complete, starts a complete text. -/
theorem complete_of_parse {rest : List UInt8} (parsed : parseItem sep text = some (item,rest))
    (behind : Item.fatal item = false → (rest = [] ∨ rest.head? = some 0) ∨ Complete sep rest) : Complete sep text := by
  obtain ⟨blanks,blank,⟨goes,entry,rfl,isEntry⟩ | ⟨_,named,tail,rfl,d,value,rfl,goes,isValue⟩⟩ := entry_of_parse parsed
  · rcases behind goes with ends | later
    · exact .last blank isEntry ends
    · exact .more blank isEntry later
  · exact .nameless blank named goes isValue

/-! ### Texts that end with NUL -/

theorem parseValue_nul {text : List UInt8} : 0 ∈ text → parseValue sep text ≠ none := by
  induction text using parseValue.induct sep with
  | case1 => simp
  | case2 c after stops => rw [parseValue_stop stops]; simp
  | case3 goes => intro nul; exact absurd nul (by decide)
  | case4 d after char goes ih =>
    intro nul
    have later : 0 ∈ after := by simpa [show (0 : UInt8) ≠ backslash by decide,char.symm] using nul
    rw [parseValue_escaped goes char]
    simpa using ih later
  | case5 d after nul goes ih =>
    obtain rfl : d = 0 := by simpa using nul
    rw [parseValue_last goes (by simp),parseValue_stop (.inl rfl)]
    simp
  | case6 c after goes plain ih =>
    intro nul
    have char : c ≠ 0 := fun same => goes (.inl same)
    rw [parseValue_plain goes plain]
    simpa using ih (by simpa [char.symm] using nul)

theorem dropWhile_nul (p : UInt8 → Bool) (stops : p 0 = false) (nul : 0 ∈ text) : 0 ∈ text.dropWhile p := by
  rw [← takeWhile_append_dropWhile (p := p) (l := text)] at nul
  refine (mem_append.mp nul).resolve_left fun taken => ?_
  rw [mem_takeWhile_imp taken] at stops
  cases stops

theorem parseItem_nul {text : List UInt8} (nul : 0 ∈ text) : parseItem sep text ≠ none := by
  have behind := dropWhile_nul isblank (by decide) nul
  rw [parseItem]
  cases skipped : text.dropWhile isblank with
  | nil => rw [skipped] at behind; cases behind
  | cons c tail =>
    rw [skipped] at behind
    dsimp only
    split
    · have ended := dropWhile_nul (inLine sep) (by simp [inLine]) behind
      rw [parseComment]
      cases found : (c :: tail).dropWhile (inLine sep) with
      | nil => rw [found] at ended; cases ended
      | cons stop after => simp
    have ended := dropWhile_nul (inName sep) (by simp [inName]) behind
    rw [parseField]
    cases found : (c :: tail).dropWhile (inName sep) with
    | nil => rw [found] at ended; cases ended
    | cons stop after =>
      rw [found] at ended
      rw [parseRest.eq_def]
      by_cases isNul : stop = 0
      · simp [isNul]
      have later : 0 ∈ after := by simpa [Ne.symm isNul] using ended
      obtain ⟨d,after,rfl⟩ := exists_cons_of_ne_nil (ne_nil_of_mem later)
      have valued := @parseValue_nul sep _ later
      simp only [isNul,if_false]
      split
      · simp
      · simpa using valued

theorem Entry.suffix {rest : List UInt8} (entry : Entry sep rest text) : rest <:+ text := by
  cases entry with
  | @comment line stop => exact ⟨line ++ [stop],by simp⟩
  | @bare name => exact ⟨name ++ [0],by simp⟩
  | @dropped name => exact ⟨name ++ [sep],by simp⟩
  | @emptied name d => exact ⟨name ++ [equalSign,d],by simp⟩
  | @valued name text d => exact ⟨name ++ equalSign :: d :: text,by simp⟩

theorem complete_of_terminated (ends : text.getLast? = some 0) : Complete sep text := by
  induction length : text.length using Nat.strong_induction_on generalizing text with
  | _ n ih =>
    obtain ⟨⟨item,rest⟩,parsed⟩ := ne_none_iff_exists'.mp (@parseItem_nul sep _ (mem_of_getLast? ends))
    refine complete_of_parse parsed fun goes => ?_
    by_cases empty : rest = []
    · exact .inl (.inl empty)
    obtain ⟨blanks,_,⟨_,entry,rfl,isEntry⟩ | ⟨fatal,_⟩⟩ := entry_of_parse parsed
    · obtain ⟨front,rfl⟩ := isEntry.suffix
      have shorter := isEntry.shorter
      rw [← append_assoc,getLast?_append_of_ne_nil _ empty] at ends
      rw [length_append] at length
      exact .inr (ih rest.length (by omega) ends rfl)
    · rw [goes] at fatal; cases fatal

end

/-! ### The loop -/

/-- Where the parsing loop is: the table, the copy of the text and `dp`. -/
structure Turn where
  s : Importing
  data : List UInt8
  dp : Nat

/-- The turns of the loop, with `(dp < data + size) && *dp` between two of them. -/
inductive Reaches (hooks : Hooks) (sep : UInt8) (flag : Nat) (first : Turn) : Turn → Prop
  | first : Reaches hooks sep flag first first
  | next {turn : Turn} {item : Item} {data : List UInt8} {dp : Nat} {s : Importing} : Reaches hooks sep flag first turn →
      nextItem sep turn.data turn.dp = some (item,data,dp) → applyItem hooks flag turn.s item = some (s,true) →
      dp < data.length → data[dp]? ≠ some 0 → Reaches hooks sep flag first ⟨s,data,dp⟩

theorem Reaches.trans {hooks : Hooks} {sep : UInt8} {flag : Nat} {first second turn : Turn}
    (early : Reaches hooks sep flag first second) (late : Reaches hooks sep flag second turn) : Reaches hooks sep flag first turn := by
  induction late with
  | first => exact early
  | next _ next applied inside notNul ih => exact .next ih next applied inside notNul

/-- Every access of every turn is inside of the copy, whatever the table, the variables
    looked for and the flags. -/
def Inside (sep : UInt8) (env : List UInt8) : Prop :=
  ∀ hooks flag s turn, Reaches hooks sep flag ⟨s,env,0⟩ turn → nextItem sep turn.data turn.dp ≠ none

theorem nextItem_parses {sep : UInt8} {data data' : List UInt8} {dp dp' : Nat}
    (next : nextItem sep data dp = some (item,data',dp')) : parseItem sep (data.drop dp) = some (item,data'.drop dp') := by
  rw [← nextItem_eq,next]
  rfl

theorem nextItem_none_iff {sep : UInt8} {data : List UInt8} {dp : Nat} :
    nextItem sep data dp = none ↔ parseItem sep (data.drop dp) = none := by
  rw [← nextItem_eq,map_eq_none_iff]

theorem Complete.reached {hooks : Hooks} {sep : UInt8} {flag : Nat} {first turn : Turn}
    (complete : Complete sep (first.data.drop first.dp)) (reached : Reaches hooks sep flag first turn) :
    Complete sep (turn.data.drop turn.dp) := by
  induction reached with
  | first => exact complete
  | @next turn item data dp s _ next applied inside notNul ih =>
    have parsed := nextItem_parses next
    have goes : Item.fatal item = false := by simpa using applyItem_goes hooks flag turn.s item applied
    obtain ⟨item',rest,parsed',fatal | ⟨_,ends | later⟩⟩ := ih.parses
    all_goals
      rw [parsed] at parsed'
      cases parsed'
    · rw [goes] at fatal; cases fatal
    · rw [head?_drop,drop_eq_nil_iff] at ends
      rcases ends with short | nul
      · omega
      · exact absurd nul notNul
    · exact later

/-- The loop of `himport_r` runs through the items of a complete text. -/
theorem Complete.importLoop_eq {sep : UInt8} {env : List UInt8} (complete : Complete sep env) :
    ∃ items, ∀ hooks flag s, importLoop hooks sep flag (env.length+1) s env 0 = applyItems hooks flag s items := by
  have reads : ∀ (fuel : Nat) (text : List UInt8), text.length < fuel → Complete sep text →
      ∃ items, parseAll sep fuel text = some items := by
    intro fuel
    induction fuel with
    | zero => omega
    | succ fuel ih =>
      intro text short complete
      obtain ⟨item,rest,parsed,behind⟩ := complete.parses
      rw [parseAll,parsed]
      dsimp only
      split
      · exact ⟨_,rfl⟩
      next goes =>
        obtain ⟨shorter,ends | later⟩ := behind.resolve_left goes
        · rw [if_neg (by tauto)]
          exact ⟨_,rfl⟩
        obtain ⟨items,rests⟩ := ih rest (by omega) later
        rw [rests]
        split <;> exact ⟨_,rfl⟩
  obtain ⟨items,all⟩ := reads (env.length+1) env (by omega) complete
  refine ⟨items,fun hooks flag s => ?_⟩
  rw [EnvText.importLoop_eq,drop_zero,all,bind_some]

/-- A table that no entry of the text gets into: variables are looked for, and there
    are none of them left. -/
def unlisted : Importing := ⟨⟨fun _ => ⟨0,default⟩,0,0⟩,[none]⟩

theorem unlisted_applies (item : Item) : applyItem Hooks.none 0 unlisted item = some (unlisted,!Item.fatal item) := by
  cases item with
  | comment => rfl
  | delete name => rfl
  | enter name value =>
    by_cases empty : name.bytes = []
    · simp [applyItem,Item.fatal,empty]
    · simp [applyItem,Item.fatal,empty,drop_var_from_set,unlisted]

theorem complete_of_inside {sep : UInt8} : ∀ (n : Nat) (data : List UInt8) (dp : Nat), (data.drop dp).length ≤ n →
    (∀ turn, Reaches Hooks.none sep 0 ⟨unlisted,data,dp⟩ turn → nextItem sep turn.data turn.dp ≠ none) →
    Complete sep (data.drop dp) := by
  intro n
  induction n with
  | zero =>
    intro data dp short inside
    have empty : data.drop dp = [] := length_eq_zero_iff.mp (by omega)
    have none_ : parseItem sep (data.drop dp) = none := by rw [empty]; rfl
    exact absurd (nextItem_none_iff.mpr none_) (inside _ .first)
  | succ n ih =>
    intro data dp short inside
    obtain ⟨⟨item,data',dp'⟩,next⟩ := ne_none_iff_exists'.mp (inside _ .first)
    have parsed := nextItem_parses next
    refine complete_of_parse parsed fun goes => ?_
    by_cases ends : data'.drop dp' = [] ∨ (data'.drop dp').head? = some 0
    · exact .inl ends
    obtain ⟨some_,notNul⟩ := not_or.mp ends
    rw [head?_drop] at notNul
    rw [drop_eq_nil_iff,not_le] at some_
    have shorter : (data'.drop dp').length < (data.drop dp).length := by
      obtain ⟨blanks,_,⟨_,entry,split,isEntry⟩ | ⟨fatal,_⟩⟩ := entry_of_parse parsed
      · rw [split,length_append]
        have := isEntry.shorter
        omega
      · rw [goes] at fatal; cases fatal
    have applied := unlisted_applies item
    rw [goes] at applied
    refine .inr (ih data' dp' (by omega) fun turn reached => inside turn ?_)
    exact .trans (.next .first next applied some_ notNul) reached

/-- `himport_r` stays inside of its copy of the text exactly if that is complete. -/
theorem himport_inside_iff (sep : UInt8) (env : List UInt8) : Inside sep env ↔ Complete sep env := by
  constructor
  · intro inside
    have complete := complete_of_inside env.length env 0 (by simp) (fun turn => inside Hooks.none 0 unlisted turn)
    simpa using complete
  intro complete hooks flag s turn reached
  have behind := Complete.reached (by simpa using complete) reached
  obtain ⟨item,rest,parsed,_⟩ := behind.parses
  rw [ne_eq,nextItem_none_iff,parsed]
  simp

/-- `a=b` without a terminator, as three bytes that are imported with `-t`: the value
    is read on behind them. -/
theorem unterminated_value_read_on :
    ∃ turn, Reaches Hooks.none newline 0 ⟨unlisted,[97,equalSign,98],0⟩ turn ∧ nextItem newline turn.data turn.dp = none :=
  ⟨_,.first,by decide⟩

end UBoot.HimportSafe
