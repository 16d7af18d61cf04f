import UBoot.EnvAttrSearch

/-!
Attribute lists of the documented form: entries `name[:attributes]` separated by commas, with spaces around
the names and attributes. `env_attr_walk` sees all entries (`entries_listText`); `env_attr_lookup` sees the last
entry for a name, unless that is the first entry of the list and there are spaces in front of it (`lookup_listText`).
-/
namespace UBoot.EnvAttrAgree
open List CStrings EnvAttr EnvAttrSearch

/-! ### The form of a list -/

def plain (c : UInt8) : Bool := c ≠ comma && c ≠ colon && !isspace c

structure Word where
  bytes : List UInt8
  all : ∀ c ∈ bytes, plain c = true

structure Entry where
  before : Nat
  name : Word
  behind : Nat
  attributes : Option (Nat × Word × Nat)

def spaces (n : Nat) : List UInt8 := List.replicate n space

def Entry.tail (e : Entry) : List UInt8 :=
  match e.attributes with
  | none => []
  | some (before,word,behind) => colon :: (spaces before ++ (word.bytes ++ spaces behind))

def Entry.text (e : Entry) : List UInt8 := spaces e.before ++ (e.name.bytes ++ (spaces e.behind ++ e.tail))

def Entry.value (e : Entry) : List UInt8 :=
  match e.attributes with
  | none => []
  | some (_,word,_) => word.bytes

def listText : Entry → List Entry → List UInt8
  | e, [] => e.text
  | e, next :: rest => e.text ++ comma :: listText next rest

/-! ### Characters -/

theorem plain_space : plain space = false := by decide
theorem plain_comma : plain comma = false := by decide
theorem plain_colon : plain colon = false := by decide

theorem Word.ne (w : Word) {c d : UInt8} (member : c ∈ w.bytes) (special : plain d = false) : c ≠ d := by
  rintro rfl
  rw [w.all c member] at special
  cases special

theorem takeWhile_word (w : Word) {rest : List UInt8} (ends : ∀ c, rest.head? = some c → plain c = false) :
    (w.bytes ++ rest).takeWhile plain = w.bytes := by
  rw [takeWhile_append_of_pos w.all]
  cases rest with
  | nil => rw [takeWhile_nil,append_nil]
  | cons c rest => rw [takeWhile_cons_of_neg (by rw [ends c rfl]; decide),append_nil]

theorem dropWhile_spaces (n : Nat) (rest : List UInt8) :
    (spaces n ++ rest).dropWhile (· = space) = rest.dropWhile (· = space) :=
  dropWhile_append_of_pos fun c member => by rw [eq_of_mem_replicate member]; decide

theorem dropWhile_word {w : Word} {rest : List UInt8} (nonempty : w.bytes ≠ []) :
    (w.bytes ++ rest).dropWhile (· = space) = w.bytes ++ rest := by
  obtain ⟨c,w',equal⟩ := exists_cons_of_ne_nil nonempty
  have other : c ≠ space := w.ne (equal ▸ mem_cons_self) plain_space
  rw [equal,cons_append,dropWhile_cons_of_neg (by simpa using other)]

theorem spaces_length (n : Nat) : (spaces n).length = n := length_replicate

theorem comma_not_mem_word (w : Word) : comma ∉ w.bytes := fun member => w.ne member plain_comma rfl

theorem comma_not_mem_spaces (n : Nat) : comma ∉ spaces n := fun member =>
  absurd (eq_of_mem_replicate member) (by decide)

theorem Entry.comma_not_mem (e : Entry) : comma ∉ e.text := by
  simp only [Entry.text,mem_append,not_or]
  refine ⟨comma_not_mem_spaces _,comma_not_mem_word _,comma_not_mem_spaces _,?_⟩
  rw [Entry.tail]
  split
  · exact not_mem_nil
  · simp only [mem_cons,mem_append,not_or]
    exact ⟨by decide,comma_not_mem_spaces _,comma_not_mem_word _,comma_not_mem_spaces _⟩

theorem Entry.tail_head (e : Entry) : ∀ c, (spaces e.behind ++ e.tail).head? = some c → plain c = false := by
  intro c head
  cases behind : e.behind with
  | zero =>
    rw [behind,Entry.tail] at head
    split at head
    · cases head
    · cases head; exact plain_colon
  | succ n =>
    rw [behind] at head
    cases head
    exact plain_space

theorem Entry.tail_dropWhile (e : Entry) : (e.tail.dropWhile (· = space)) = e.tail := by
  rw [Entry.tail]
  split
  · rfl
  · exact dropWhile_cons_of_neg (by decide)

/-! ### Where the lookup finds a name -/

def NextOk (rest : List UInt8) : Prop := (rest.dropWhile (· = space)).head? ∈ [some colon,some comma,none]

/-- What stands in front of a match of the lookup, in a text that is a whole list or behind a comma. -/
def Front (whole : Bool) (pre : List UInt8) : Prop :=
  pre = [] ∨ (pre.reverse.dropWhile (· = space)).head? = some comma ∨
    (whole = false ∧ pre.reverse.dropWhile (· = space) = [])

structure Hit (whole : Bool) (list name : List UInt8) (q : Nat) : Prop where
  occurs : Occurs list name q
  front : Front whole (list.take q)
  next : NextOk (list.drop (q + name.length))

variable {name : Word} {whole : Bool} {q : Nat}

theorem hit_iff_isEntry {list : List UInt8} (nonempty : name.bytes ≠ []) :
    Hit true list name.bytes q ↔ Occurs list name.bytes q ∧ isEntry list name.bytes q = true := by
  have entry : ∀ _ : Occurs list name.bytes q, isEntry list name.bytes q = true ↔
      Front true (list.take q) ∧ NextOk (list.drop (q+name.bytes.length)) := by
    intro occurs
    have inside := occurs.lt nonempty
    have positive := length_pos_iff.mpr nonempty
    have start : list.take q = [] ↔ q = 0 := by
      rw [take_eq_nil_iff]
      exact ⟨fun either => either.resolve_right fun empty => by rw [empty,length_nil] at inside; omega,.inl⟩
    simp only [isEntry,Front,NextOk,start,Bool.and_eq_true,Bool.or_eq_true,decide_eq_true_eq,mem_cons,not_mem_nil,
      or_false,Bool.true_eq_false,false_and,or_assoc]
  constructor
  · rintro ⟨occurs,front,next⟩
    exact ⟨occurs,(entry occurs).mpr ⟨front,next⟩⟩
  · rintro ⟨occurs,found⟩
    exact ⟨occurs,((entry occurs).mp found).1,((entry occurs).mp found).2⟩

theorem nextOk_head {rest : List UInt8} (next : NextOk rest) : ∀ c, rest.head? = some c → plain c = false := by
  intro c head
  cases rest with
  | nil => cases head
  | cons d rest =>
    cases head
    by_cases blank : c = space
    · rw [blank]; exact plain_space
    rw [NextOk,dropWhile_cons_of_neg (by simpa using blank),head?_cons] at next
    simp only [mem_cons,Option.some.injEq,not_mem_nil,or_false,reduceCtorEq] at next
    rcases next with rfl | rfl
    · exact plain_colon
    · exact plain_comma

theorem nextOk_append_comma (x y : List UInt8) : NextOk (x ++ comma :: y) ↔ NextOk x := by
  rw [NextOk,NextOk,dropWhile_append]
  split
  next empty =>
    rw [isEmpty_iff.mp empty,dropWhile_cons_of_neg (by decide),head?_cons]
    decide
  next other =>
    rw [head?_append_of_ne_nil _ (by simpa using other)]

theorem front_append_comma (x pre : List UInt8) : Front whole (x ++ comma :: pre) ↔ Front false pre := by
  have start : (x ++ comma :: pre).reverse = pre.reverse ++ comma :: x.reverse := by simp
  rw [Front,Front,start,dropWhile_append]
  split
  next empty =>
    rw [isEmpty_iff.mp empty,dropWhile_cons_of_neg (by decide)]
    simp
  next other =>
    have nonempty : pre.reverse.dropWhile (· = space) ≠ [] := by simpa using other
    have notNil : pre ≠ [] := by rintro rfl; exact nonempty rfl
    rw [head?_append_of_ne_nil _ nonempty]
    simp [nonempty,notNil]

theorem occurs_append (nonempty : name.bytes ≠ []) {x y : List UInt8} :
    Occurs (x ++ comma :: y) name.bytes q ↔
      Occurs x name.bytes q ∨ ∃ q', q = x.length + 1 + q' ∧ Occurs y name.bytes q' := by
  constructor
  · intro occurs
    by_cases inside : q ≤ x.length
    · rw [Occurs,drop_append_of_le_length inside] at occurs
      by_cases short : name.bytes.length ≤ (x.drop q).length
      · exact .inl (prefix_of_prefix_length_le occurs (prefix_append _ _) short)
      have upTo : x.drop q ++ [comma] <+: x.drop q ++ comma :: y := ⟨y,by simp⟩
      have over_ := prefix_of_prefix_length_le upTo occurs (by rw [length_append,length_singleton]; omega)
      exact absurd (over_.subset (by simp)) (comma_not_mem_word name)
    obtain ⟨q',rfl⟩ := Nat.exists_eq_add_of_le (show x.length + 1 ≤ q by omega)
    refine .inr ⟨q',rfl,?_⟩
    rwa [Occurs,drop_append,drop_of_length_le (by omega),show x.length + 1 + q' - x.length = q' + 1 by omega] at occurs
  rintro (ahead | ⟨q',rfl,behind⟩)
  · have inside := ahead.lt nonempty
    rw [Occurs,drop_append_of_le_length (by omega)]
    exact ahead.trans (prefix_append _ _)
  · rw [Occurs,drop_append,drop_of_length_le (by omega),show x.length + 1 + q' - x.length = q' + 1 by omega]
    exact behind

theorem hit_append (nonempty : name.bytes ≠ []) {x y : List UInt8} :
    Hit whole (x ++ comma :: y) name.bytes q ↔
      Hit whole x name.bytes q ∨ ∃ q', q = x.length + 1 + q' ∧ Hit false y name.bytes q' := by
  have ahead : Occurs x name.bytes q → (Front whole ((x ++ comma :: y).take q) ↔ Front whole (x.take q)) ∧
      (NextOk ((x ++ comma :: y).drop (q+name.bytes.length)) ↔ NextOk (x.drop (q+name.bytes.length))) := by
    intro occurs
    have inside := occurs.lt nonempty
    rw [take_append_of_le_length (by omega),drop_append_of_le_length (by omega),nextOk_append_comma]
    exact ⟨Iff.rfl,Iff.rfl⟩
  have behind : ∀ q', (Front whole ((x ++ comma :: y).take (x.length + 1 + q')) ↔ Front false (y.take q')) ∧
      (x ++ comma :: y).drop (x.length + 1 + q' + name.bytes.length) = y.drop (q'+name.bytes.length) := by
    intro q'
    rw [take_append,show x.length + 1 + q' - x.length = q' + 1 by omega,take_succ_cons,front_append_comma,drop_append,
      drop_of_length_le (by omega),show x.length + 1 + q' + name.bytes.length - x.length = q' + name.bytes.length + 1 by omega]
    exact ⟨Iff.rfl,rfl⟩
  constructor
  · rintro ⟨occurs,front,next⟩
    rcases (occurs_append nonempty).mp occurs with here | ⟨q',rfl,there⟩
    · exact .inl ⟨here,(ahead here).1.mp front,(ahead here).2.mp next⟩
    · exact .inr ⟨q',rfl,there,(behind q').1.mp front,(behind q').2 ▸ next⟩
  rintro (⟨here,front,next⟩ | ⟨q',rfl,there,front,next⟩)
  · exact ⟨(occurs_append nonempty).mpr (.inl here),(ahead here).1.mpr front,(ahead here).2.mpr next⟩
  · exact ⟨(occurs_append nonempty).mpr (.inr ⟨q',rfl,there⟩),(behind q').1.mpr front,(behind q').2 ▸ next⟩

theorem front_entry {pre : List UInt8} (free : comma ∉ pre) :
    Front whole pre ↔ pre = spaces pre.length ∧ (whole = true → pre = []) := by
  have noComma : (pre.reverse.dropWhile (· = space)).head? ≠ some comma := by
    intro head
    have member := (dropWhile_sublist _).subset (mem_of_mem_head? head)
    exact free (mem_reverse.mp member)
  have blank : pre.reverse.dropWhile (· = space) = [] ↔ pre = spaces pre.length := by
    rw [spaces,eq_replicate_iff]
    simp
  rw [Front,blank]
  constructor
  · rintro (rfl | head | ⟨other,equal⟩)
    · exact ⟨rfl,fun _ => rfl⟩
    · exact absurd head noComma
    · exact ⟨equal,fun same => by rw [same] at other; cases other⟩
  rintro ⟨equal,first⟩
  cases whole with
  | true => exact .inl (first rfl)
  | false => exact .inr (.inr ⟨rfl,equal⟩)

theorem hit_entry (nonempty : name.bytes ≠ []) (e : Entry) :
    Hit whole e.text name.bytes q ↔ e.name.bytes = name.bytes ∧ q = e.before ∧ (whole = true → e.before = 0) := by
  constructor
  · rintro ⟨⟨rest,occurs⟩,front,next⟩
    have inside := Occurs.lt ⟨rest,occurs⟩ nonempty
    obtain ⟨blank,first⟩ := (front_entry fun member => e.comma_not_mem (mem_of_mem_take member)).mp front
    have length : (e.text.take q).length = q := by rw [length_take]; omega
    rw [length] at blank
    have behind : e.text.drop (q+name.bytes.length) = rest := by
      rw [← drop_drop,← occurs,drop_left]
    rw [behind] at next
    have whole_text : spaces q ++ (name.bytes ++ rest) = e.text := by
      rw [← blank,occurs,take_append_drop]
    -- Without the leading spaces both begin with their name.
    have stripped := congrArg (List.dropWhile (· = space)) whole_text
    rw [dropWhile_spaces,dropWhile_word nonempty,Entry.text,dropWhile_spaces] at stripped
    have named : e.name.bytes ≠ [] := by
      intro empty
      rw [empty,nil_append,dropWhile_spaces,Entry.tail] at stripped
      obtain ⟨c,w,equal⟩ := exists_cons_of_ne_nil nonempty
      rw [equal] at stripped
      split at stripped
      · cases stripped
      · exact name.ne (equal ▸ mem_cons_self) plain_colon (List.cons.inj stripped).1
    rw [dropWhile_word named] at stripped
    have names := congrArg (List.takeWhile plain) stripped
    rw [takeWhile_word name (nextOk_head next),takeWhile_word e.name e.tail_head] at names
    have place : q = e.before := by
      have lengths := congrArg List.length whole_text
      rw [Entry.text,stripped] at lengths
      simpa [spaces] using lengths
    refine ⟨names.symm,place,fun same => ?_⟩
    have empty := congrArg List.length (first same)
    rw [length] at empty
    exact place ▸ empty
  rintro ⟨names,rfl,first⟩
  have drop : e.text.drop e.before = name.bytes ++ (spaces e.behind ++ e.tail) := by
    rw [Entry.text,drop_left' (spaces_length _),names]
  refine ⟨⟨_,drop.symm⟩,?_,?_⟩
  · rw [front_entry fun member => e.comma_not_mem (mem_of_mem_take member),Entry.text,take_left' (spaces_length _),
      spaces_length]
    exact ⟨rfl,fun same => by rw [first same]; rfl⟩
  · rw [← drop_drop,drop,drop_left,NextOk,dropWhile_spaces,e.tail_dropWhile,Entry.tail]
    split <;> simp

theorem attributes_entry (e : Entry) {more : List UInt8} (ends : more = [] ∨ ∃ rest, more = comma :: rest) :
    attributesBehind ((spaces e.behind ++ e.tail) ++ more) = e.value := by
  rw [attributesBehind,append_assoc,dropWhile_spaces,Entry.tail,Entry.value]
  cases e.attributes with
  | none =>
    rcases ends with rfl | ⟨rest,rfl⟩
    · rfl
    · exact if_neg (by decide)
  | some parts =>
    obtain ⟨before,word,behind⟩ := parts
    simp only [cons_append,append_assoc]
    rw [dropWhile_cons_of_neg (by decide)]
    simp only [if_true,dropWhile_spaces]
    -- The attributes end at a space or at the comma.
    have ended : (spaces behind ++ more).takeWhile (fun c => c ≠ comma && c ≠ space) = [] := by
      cases behind with
      | succ n => exact takeWhile_cons_of_neg (by decide)
      | zero =>
        rcases ends with rfl | ⟨rest,rfl⟩
        · rfl
        · exact takeWhile_cons_of_neg (by decide)
    by_cases empty : word.bytes = []
    · rw [empty,nil_append,dropWhile_spaces]
      rcases ends with rfl | ⟨rest,rfl⟩
      · rfl
      · exact takeWhile_cons_of_neg (by decide)
    rw [dropWhile_word empty,takeWhile_append_of_pos,ended,append_nil]
    intro c member
    simp [word.ne member plain_comma,word.ne member plain_space]

/-! ### The lookup in a list -/

def lastValue (name : List UInt8) : List Entry → Option (List UInt8)
  | [] => none
  | e :: rest => (lastValue name rest).or (if e.name.bytes = name then some e.value else none)

/-- The only entry for a name is the first one and has spaces in front of it. -/
def Hidden (name : List UInt8) (e : Entry) (rest : List Entry) : Prop :=
  0 < e.before ∧ e.name.bytes = name ∧ lastValue name rest = none

instance (name : List UInt8) (e : Entry) (rest : List Entry) : Decidable (Hidden name e rest) :=
  inferInstanceAs (Decidable (_ ∧ _ ∧ _))

def seenValue (name : List UInt8) (e : Entry) (rest : List Entry) : Option (List UInt8) :=
  if Hidden name e rest then none else lastValue name (e :: rest)

theorem attributes_first (nonempty : name.bytes ≠ []) (e : Entry) {more : List UInt8}
    (ends : more = [] ∨ ∃ rest, more = comma :: rest) (hit : Hit whole e.text name.bytes q) :
    attributesBehind ((e.text ++ more).drop (q+name.bytes.length)) = e.value := by
  obtain ⟨names,rfl,_⟩ := (hit_entry nonempty e).mp hit
  rw [← attributes_entry e ends,← drop_drop,Entry.text,append_assoc,drop_left' (spaces_length _),names,
    append_assoc,drop_left]

theorem last_hit (nonempty : name.bytes ≠ []) : ∀ (rest : List Entry) (e : Entry) (whole : Bool) (r : Option Nat),
    Last (Hit whole (listText e rest) name.bytes) r →
    r.map (fun q => attributesBehind ((listText e rest).drop (q+name.bytes.length))) =
      if whole = true ∧ Hidden name.bytes e rest then none else lastValue name.bytes (e :: rest) := by
  intro rest
  induction rest with
  | nil =>
    intro e whole r last
    have here := fun q => @hit_entry name whole q nonempty e
    cases r with
    | none =>
      have absent := fun q => mt (here q).mpr (last q)
      by_cases names : e.name.bytes = name.bytes
      · have first : ¬ (whole = true → e.before = 0) := fun first => absent e.before ⟨names,rfl,first⟩
        rw [Classical.not_imp] at first
        rw [if_pos ⟨first.1,Nat.pos_of_ne_zero first.2,names,rfl⟩]
        rfl
      · simp [lastValue,names]
    | some q =>
      obtain ⟨names,_,first⟩ := (here q).mp last.1
      have value := attributes_first nonempty e (.inl rfl) last.1
      rw [append_nil] at value
      rw [if_neg fun both => absurd (first both.1) (Nat.pos_iff_ne_zero.mp both.2.1)]
      simp [lastValue,names,listText,value]
  | cons next rest ih =>
    intro e whole r last
    have split : ∀ q, Hit whole (listText e (next :: rest)) name.bytes q ↔ _ := fun q => @hit_append name whole q nonempty e.text _
    have here := fun q => @hit_entry name whole q nonempty e
    -- The last match is the last one behind the first entry, if there is one there.
    by_cases later : ∃ q', Hit false (listText next rest) name.bytes q'
    · obtain ⟨q',there⟩ := later
      cases r with
      | none => exact absurd ((split _).mpr (.inr ⟨q',rfl,there⟩)) (last _)
      | some q =>
        have above := last.2 _ ((split _).mpr (.inr ⟨q',rfl,there⟩))
        rcases (split q).mp last.1 with first | ⟨q'',rfl,found⟩
        · have inside := first.occurs.lt nonempty
          omega
        have value := ih next false (some q'') ⟨found,fun p hit => by
          have := last.2 _ ((split _).mpr (.inr ⟨p,rfl,hit⟩))
          omega⟩
        rw [if_neg fun both => Bool.false_ne_true both.1] at value
        have hasValue : lastValue name.bytes (next :: rest) ≠ none := by rw [← value]; exact Option.some_ne_none _
        rw [if_neg fun both => hasValue both.2.2.2,lastValue,← value,listText]
        simp only [Option.map_some,Option.some_or]
        rw [drop_append,drop_of_length_le (by omega),nil_append,
          show e.text.length + 1 + q'' + name.bytes.length - e.text.length = q'' + name.bytes.length + 1 by omega,
          drop_succ_cons]
    have none_later := fun q' hit => later ⟨q',hit⟩
    have noValue := ih next false none none_later
    rw [if_neg fun both => Bool.false_ne_true both.1,Option.map_none] at noValue
    rw [lastValue,← noValue,Option.none_or]
    cases r with
    | none =>
      have absent := fun q => mt (fun hit => (split q).mpr (.inl ((here q).mpr hit))) (last q)
      by_cases names : e.name.bytes = name.bytes
      · have first : ¬ (whole = true → e.before = 0) := fun first => absent e.before ⟨names,rfl,first⟩
        rw [Classical.not_imp] at first
        rw [if_pos ⟨first.1,Nat.pos_of_ne_zero first.2,names,noValue.symm⟩]
        rfl
      · rw [if_neg fun both => names both.2.2.1,if_neg names]
        rfl
    | some q =>
      rcases (split q).mp last.1 with first | ⟨q',_,found⟩
      · obtain ⟨names,_,atStart⟩ := (here q).mp first
        rw [if_neg fun both => absurd (atStart both.1) (Nat.pos_iff_ne_zero.mp both.2.1),if_pos names,Option.map_some,listText,
          attributes_first nonempty e (.inr ⟨_,rfl⟩) first]
      · exact absurd found (none_later q')

theorem hit_apart {list : List UInt8} (hit : Hit whole list name.bytes q) {p : Nat}
    (occurs : Occurs list name.bytes p) (less : q < p) : q + name.bytes.length ≤ p := by
  by_contra overlap
  obtain ⟨rest,equal⟩ := occurs
  -- The character behind the match belongs to the name.
  have member : list[q+name.bytes.length]? = name.bytes[q + name.bytes.length - p]? := by
    have drop : list[q+name.bytes.length]? = (list.drop p)[q + name.bytes.length - p]? := by
      rw [getElem?_drop]
      congr 1
      omega
    rw [drop,← equal,getElem?_append_left (by omega)]
  rw [getElem?_eq_getElem (show q + name.bytes.length - p < name.bytes.length by omega)] at member
  have special := nextOk_head hit.next _ (by rw [head?_drop]; exact member)
  rw [name.all _ (getElem_mem _)] at special
  cases special

theorem lookupLoop_last {list : List UInt8} (nonempty : name.bytes ≠ []) (fuel : Nat) : ∀ (start entry : Option Nat),
    Last (fun q => Occurs list name.bytes q ∧ Before name.bytes start q) entry →
    (∀ q, Hit true list name.bytes q → Before name.bytes start q) → (∀ p, entry = some p → p < fuel) →
    ∃ r, lookupLoop list name.bytes fuel entry = some r ∧ Last (Hit true list name.bytes) r := by
  induction fuel with
  | zero =>
    intro start entry last ahead enough
    cases entry with
    | none => exact ⟨none,rfl,fun q hit => last q ⟨hit.occurs,ahead q hit⟩⟩
    | some p => exact absurd (enough p rfl) (Nat.not_lt_zero p)
  | succ fuel ih =>
    intro start entry last ahead enough
    cases entry with
    | none => exact ⟨none,rfl,fun q hit => last q ⟨hit.occurs,ahead q hit⟩⟩
    | some p =>
      rw [lookupLoop]
      split
      next whole =>
        exact ⟨some p,rfl,(hit_iff_isEntry nonempty).mpr ⟨last.1.1,whole⟩,fun q hit => last.2 q ⟨hit.occurs,ahead q hit⟩⟩
      next notWhole =>
        refine ih (some p) _ (reverse_strstr_spec nonempty (some p)) (fun q hit s same => ?_) fun next found => ?_
        · cases same
          have atMost := last.2 q ⟨hit.occurs,ahead q hit⟩
          have other : q ≠ p := fun same => notWhole (same ▸ ((hit_iff_isEntry nonempty).mp hit).2)
          exact hit_apart hit last.1.1 (by omega)
        have := reverse_strstr_lt nonempty found
        have := enough p rfl
        omega

theorem lookup_listText {list key : CString} {e : Entry} {rest : List Entry} (form : list.bytes = listText e rest)
    (word : ∀ c ∈ key.bytes, plain c = true) (nonempty : key.bytes ≠ []) :
    env_attr_lookup list key = some ((seenValue key.bytes e rest).map toCString) := by
  have started := @reverse_strstr_spec list.bytes key.bytes nonempty none
  obtain ⟨r,found,last⟩ := @lookupLoop_last ⟨key.bytes,word⟩ list.bytes nonempty (list.length+1) none _ started
    (fun _ _ _ given => by cases given) (fun p given => by
      rw [given] at started
      have := started.1.1.lt nonempty
      simp only [CString.length]
      omega)
  rw [form] at last
  have value := @last_hit ⟨key.bytes,word⟩ nonempty rest e true r last
  simp only [true_and] at value
  rw [env_attr_lookup,found,seenValue,← value,← form,Option.map_map]
  rfl

/-! ### The entries that a walk sees -/

theorem strip_spaces (n : Nat) (rest : List UInt8) : (spaces n ++ rest).dropWhile isspace = rest.dropWhile isspace :=
  dropWhile_append_of_pos fun c member => by rw [eq_of_mem_replicate member]; decide

theorem strip_word {w rest : List UInt8} (all : ∀ c ∈ w, plain c = true) (nonempty : w ≠ []) :
    (w ++ rest).dropWhile isspace = w ++ rest := by
  obtain ⟨c,w,rfl⟩ := exists_cons_of_ne_nil nonempty
  have visible := all c mem_cons_self
  rw [plain,Bool.and_eq_true,Bool.not_eq_true'] at visible
  rw [cons_append,dropWhile_cons_of_neg (by rw [visible.2]; decide)]

theorem strim_word (a b : Nat) (w : Word) : strim (spaces a ++ (w.bytes ++ spaces b)) = w.bytes := by
  rw [strim,strip_spaces]
  by_cases empty : w.bytes = []
  · have blank : (spaces b).dropWhile isspace = [] := by simpa using strip_spaces b []
    rw [empty,nil_append,blank]
    rfl
  have back : (spaces b).reverse = spaces b := reverse_replicate
  have stripped := @strip_word w.bytes.reverse [] (fun c member => w.all c (mem_reverse.mp member)) (by simpa using empty)
  rw [append_nil] at stripped
  rw [strip_word w.all empty,reverse_append,back,strip_spaces,stripped,reverse_reverse]

def Entry.parts (e : Entry) : CString × Option CString :=
  (toCString e.name.bytes,e.attributes.map fun attributes => toCString attributes.2.1.bytes)

theorem entryParts_text (e : Entry) : entryParts e.text = e.parts := by
  have blank : ∀ n, ∀ c ∈ spaces n, c ≠ colon := fun n c member => by rw [eq_of_mem_replicate member]; decide
  have word : ∀ w : Word, ∀ c ∈ w.bytes, c ≠ colon := fun w c member => w.ne member plain_colon
  have free : ∀ c ∈ spaces e.before ++ (e.name.bytes ++ spaces e.behind), c ≠ colon := by
    intro c member
    simp only [mem_append] at member
    rcases member with inside | inside | inside
    · exact blank _ c inside
    · exact word _ c inside
    · exact blank _ c inside
  have positive : ∀ c ∈ spaces e.before ++ (e.name.bytes ++ spaces e.behind), decide (c ≠ colon) = true :=
    fun c member => decide_eq_true (free c member)
  have text : e.text = (spaces e.before ++ (e.name.bytes ++ spaces e.behind)) ++ e.tail := by simp [Entry.text]
  rw [entryParts,text,takeWhile_append_of_pos positive,dropWhile_append_of_pos positive,Entry.tail,Entry.parts]
  cases e.attributes with
  | none =>
    have absent : colon ∉ spaces e.before ++ (e.name.bytes ++ spaces e.behind) := fun member => free colon member rfl
    simp only [takeWhile_nil,append_nil,if_neg absent,strim_word,Option.map_none]
  | some attributes =>
    simp only [Option.map_some]
    rw [takeWhile_cons_of_neg (by decide),dropWhile_cons_of_neg (by decide),append_nil,strim_word,if_pos (by simp),
      drop_succ_cons,drop_zero,strim_word]

theorem listText_eq (e : Entry) (rest : List Entry) : listText e rest = [comma].intercalate ((e :: rest).map Entry.text) := by
  induction rest generalizing e with
  | nil => simp [listText]
  | cons next rest ih =>
    rw [listText,ih next]
    simp only [map_cons,intercalate_cons_cons,append_assoc,singleton_append]

theorem entries_listText {list : CString} {e : Entry} {rest : List Entry} (form : list.bytes = listText e rest) :
    entries list = ((e :: rest).map Entry.parts).filter fun entry => entry.1.bytes ≠ [] := by
  rw [entries,form,listText_eq,splitOn_intercalate comma ?_ (by simp),map_map]
  · congr 2
    exact funext entryParts_text
  intro text member
  obtain ⟨entry,_,rfl⟩ := mem_map.mp member
  exact entry.comma_not_mem

end UBoot.EnvAttrAgree
