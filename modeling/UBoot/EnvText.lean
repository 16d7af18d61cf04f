import Mathlib
import UBoot.Himport

/-!
The text of an environment as a grammar. `parseItem` reads one field off the front
of a text without a buffer; the in-place scanner of `himport_r` computes the same
items (`nextItem_eq`), so an import is the list of its items applied to the table
(`himport_eq`).
-/
namespace UBoot.EnvText
open List Buffers CStrings Hashtable Hexport Himport

/-- A value with its escapes undone, and the text after its terminator. `none` when
    the text ends before the value does. -/
def parseValue (sep : UInt8) : List UInt8 → Option (List UInt8 × List UInt8)
  | [] => none
  | c :: rest =>
    if c = 0 ∨ c = sep then some ([],rest)
    else if c = backslash then
      match rest with
      | [] => none
      | d :: after =>
        if d ≠ 0 then (parseValue sep after).map fun r => (d :: r.1,r.2)
        else (parseValue sep (d :: after)).map fun r => (c :: r.1,r.2)
    else (parseValue sep rest).map fun r => (c :: r.1,r.2)

def parseRest (sep : UInt8) (name : CString) : List UInt8 → Option (Item × List UInt8)
  | [] => none
  | c :: rest =>
    if c = 0 then some (.delete name,rest)
    else
      match rest with
      | [] => none
      | d :: after =>
        if d = 0 ∨ c = sep ∨ d = sep then some (.delete name,if c = equalSign then after else d :: after)
        else (parseValue sep (d :: after)).map fun r => (.enter name (toCString r.1),r.2)

def parseComment (sep : UInt8) (text : List UInt8) : Option (Item × List UInt8) :=
  match text.dropWhile (inLine sep) with
  | [] => none
  | _ :: rest => some (.comment,rest)

def parseField (sep : UInt8) (text : List UInt8) : Option (Item × List UInt8) :=
  parseRest sep (toCString (text.takeWhile (inName sep))) (text.dropWhile (inName sep))

def parseItem (sep : UInt8) (text : List UInt8) : Option (Item × List UInt8) :=
  match text.dropWhile isblank with
  | [] => none
  | c :: rest => if c = hash then parseComment sep (c :: rest) else parseField sep (c :: rest)

def Item.fatal : Item → Bool
  | .enter name _ => name.bytes = []
  | _ => false

/-- The items of a text, up to the end of the text or an empty field. -/
def parseAll (sep : UInt8) : Nat → List UInt8 → Option (List Item)
  | 0, _ => none
  | fuel+1, text =>
    match parseItem sep text with
    | none => none
    | some (item,rest) =>
      if Item.fatal item then some [item]
      else if rest ≠ [] ∧ rest.head? ≠ some 0 then (parseAll sep fuel rest).map (item :: ·)
      else some [item]

/-! ### Values -/

section
variable {sep : UInt8}

theorem parseValue_stop {c : UInt8} (stops : c = 0 ∨ c = sep) (rest : List UInt8) :
    parseValue sep (c :: rest) = some ([],rest) := by
  rw [parseValue.eq_def]
  simp only [stops,if_true]

theorem parseValue_lone (goes : ¬ (backslash = 0 ∨ backslash = sep)) : parseValue sep [backslash] = none := by
  simp [parseValue,goes]

theorem parseValue_escaped {d : UInt8} (goes : ¬ (backslash = 0 ∨ backslash = sep)) (char : d ≠ 0) (after : List UInt8) :
    parseValue sep (backslash :: d :: after) = (parseValue sep after).map fun r => (d :: r.1,r.2) := by
  rw [parseValue,if_neg goes]
  simp only [char,ne_eq,not_false_eq_true,if_true]

/-- A backslash that is the last character before a NUL stands for itself. -/
theorem parseValue_last {d : UInt8} (goes : ¬ (backslash = 0 ∨ backslash = sep)) (nul : ¬ d ≠ 0) (after : List UInt8) :
    parseValue sep (backslash :: d :: after) = (parseValue sep (d :: after)).map fun r => (backslash :: r.1,r.2) := by
  rw [parseValue,if_neg goes,if_pos rfl]
  simp only [nul,if_false]

theorem parseValue_plain {c : UInt8} (goes : ¬ (c = 0 ∨ c = sep)) (plain : c ≠ backslash) (rest : List UInt8) :
    parseValue sep (c :: rest) = (parseValue sep rest).map fun r => (c :: r.1,r.2) := by
  rw [parseValue.eq_def]
  simp only [goes,plain,if_false]

theorem nulFree_of_parseValue (text : List UInt8) : ∀ value rest, parseValue sep text = some (value,rest) → 0 ∉ value := by
  induction text using parseValue.induct sep with
  | case1 => intro value rest parsed; simp [parseValue] at parsed
  | case2 c after stops =>
    intro value rest parsed
    rw [parseValue_stop stops] at parsed
    cases parsed
    simp
  | case3 goes => intro value rest parsed; rw [parseValue_lone goes] at parsed; cases parsed
  | case4 d after char goes ih =>
    intro value rest parsed
    rw [parseValue_escaped goes char] at parsed
    obtain ⟨⟨tail,left⟩,parsedTail,same⟩ := Option.map_eq_some_iff.mp parsed
    cases same
    simpa [eq_comm] using ⟨char,ih _ _ parsedTail⟩
  | case5 d after nul goes ih =>
    intro value rest parsed
    rw [parseValue_last goes nul] at parsed
    obtain ⟨⟨tail,left⟩,parsedTail,same⟩ := Option.map_eq_some_iff.mp parsed
    cases same
    simpa [eq_comm] using ⟨(not_or.mp goes).1,ih _ _ parsedTail⟩
  | case6 c after goes plain ih =>
    intro value rest parsed
    rw [parseValue_plain goes plain] at parsed
    obtain ⟨⟨tail,left⟩,parsedTail,same⟩ := Option.map_eq_some_iff.mp parsed
    cases same
    simpa [eq_comm] using ⟨(not_or.mp goes).1,ih _ _ parsedTail⟩

/-- How the buffer stands when the value loop is done: the value before `sp`, the
    rest of the text behind the terminator at `dp`. -/
structure Copied (data : List UInt8) (sp : Nat) (value rest : List UInt8) (out : List UInt8 × Nat × Nat) : Prop where
  upTo : out.2.1 = sp + value.length
  before : out.1.take (sp + value.length) = data.take sp ++ value
  ends : ∃ c, out.1.drop out.2.2 = c :: rest
  behind : sp + value.length ≤ out.2.2

theorem Copied.cons {data : List UInt8} {sp : Nat} {c : UInt8} {value rest : List UInt8} {out : List UInt8 × Nat × Nat}
    (inside : sp < data.length) (copied : Copied (data.set sp c) (sp+1) value rest out) :
    Copied data sp (c :: value) rest out := by
  have shift : sp + (c :: value).length = sp + 1 + value.length := by simp only [length_cons]; omega
  refine ⟨by rw [shift]; exact copied.upTo,?_,copied.ends,by rw [shift]; exact copied.behind⟩
  rw [shift,copied.before,take_set,take_succ_eq_append_getElem inside,set_append_right _ _ (by simp)]
  simp [Nat.min_eq_left inside.le]

/-- The value loop in the buffer computes `parseValue`. It writes at or before the
    character it reads, so what it has still to read is untouched. -/
theorem copyValue_spec : ∀ (fuel : Nat) (data : List UInt8) (sp dp : Nat), sp ≤ dp → data.length < dp + fuel →
    (parseValue sep (data.drop dp) = none → copyValue sep fuel data sp dp = none) ∧
      ∀ value rest, parseValue sep (data.drop dp) = some (value,rest) →
        ∃ out, copyValue sep fuel data sp dp = some out ∧ Copied data sp value rest out := by
  intro fuel
  induction fuel with
  | zero =>
    intro data sp dp _ enough
    rw [drop_eq_nil_of_le (by omega)]
    exact ⟨fun _ => rfl,fun value rest parsed => by simp [parseValue] at parsed⟩
  | succ fuel ih =>
    intro data sp dp order enough
    cases suffix : data.drop dp with
    | nil =>
      rw [copyValue,getElem_of_drop_nil suffix]
      exact ⟨fun _ => rfl,fun value rest parsed => by simp [parseValue] at parsed⟩
    | cons c text =>
      have here := getElem_of_drop suffix
      have inside : sp < data.length := lt_of_le_of_lt order (lt_of_drop suffix)
      -- one character is written at sp and the loop goes on from next
      have goesOn : ∀ (x : UInt8) (next : Nat) (left : List UInt8), dp < next → data.drop next = left →
          copyValue sep (fuel+1) data sp dp = copyValue sep fuel (data.set sp x) (sp+1) next →
          parseValue sep (c :: text) = (parseValue sep left).map (fun r => (x :: r.1,r.2)) →
          (parseValue sep (c :: text) = none → copyValue sep (fuel+1) data sp dp = none) ∧
            ∀ value rest, parseValue sep (c :: text) = some (value,rest) →
              ∃ out, copyValue sep (fuel+1) data sp dp = some out ∧ Copied data sp value rest out := by
        intro x next left later leftIs loop parse
        obtain ⟨fails,copies⟩ := ih (data.set sp x) (sp+1) next (by omega) (by simp; omega)
        rw [drop_set_of_lt (by omega),leftIs] at fails copies
        rw [loop,parse]
        constructor
        · intro parsed
          exact fails (Option.map_eq_none_iff.mp parsed)
        intro value rest parsed
        obtain ⟨⟨tail,left⟩,parsedTail,same⟩ := Option.map_eq_some_iff.mp parsed
        cases same
        obtain ⟨out,run,copied⟩ := copies _ _ parsedTail
        exact ⟨out,run,copied.cons inside⟩
      by_cases stops : c = 0 ∨ c = sep
      · rw [copyValue,here,parseValue_stop stops]
        refine ⟨fun parsed => by simp at parsed,fun value rest parsed => ?_⟩
        cases parsed
        exact ⟨(data,sp,dp),by simp [stops],by simp,by simp,⟨c,suffix⟩,by simpa using order⟩
      have next := drop_next suffix
      by_cases slash : c = backslash
      · subst slash
        cases text with
        | nil =>
          rw [copyValue,here,parseValue_lone stops]
          have beyond := getElem_of_drop_nil next
          exact ⟨fun _ => by simp [stops,unescapeAt,beyond],fun value rest parsed => by simp at parsed⟩
        | cons d after =>
          have there := getElem_of_drop next
          by_cases char : d ≠ 0
          · refine goesOn d (dp+2) after (by omega) (drop_next next) ?_ (parseValue_escaped stops char after)
            rw [copyValue,here]
            simp [stops,unescapeAt,there,char,store,inside]
          refine goesOn backslash (dp+1) (d :: after) (by omega) next ?_ (parseValue_last stops char after)
          have nul : d = 0 := not_not.mp char
          rw [copyValue]
          simp [stops,unescapeAt,there,nul,here,store,inside]
      refine goesOn c (dp+1) text (by omega) next ?_ (parseValue_plain stops slash text)
      rw [copyValue]
      simp [stops,unescapeAt,slash,here,store,inside]

end

/-! ### Items -/

def remaining (turn : Item × List UInt8 × Nat) : Item × List UInt8 := (turn.1,turn.2.1.drop turn.2.2)

section
variable {pre name rest : List UInt8} {c : UInt8}

theorem name_middle (nulFree : 0 ∉ name) : stringAt (pre ++ (name ++ 0 :: rest)) pre.length = some (toCString name) :=
  stringAt_eq (by rw [drop_left]) nulFree

theorem deleteItem_eq (nulFree : 0 ∉ name) (other : c ≠ equalSign) :
    (deleteItem (pre ++ (name ++ c :: rest)) pre.length (pre.length+name.length)).map remaining =
      some (.delete (toCString name),rest) := by
  simp [deleteItem,other,store_middle,name_middle nulFree,remaining,drop_middle]

theorem deleteItem_equal (nulFree : 0 ∉ name) {d : UInt8} :
    (deleteItem (pre ++ (name ++ equalSign :: d :: rest)) pre.length (pre.length+name.length)).map remaining =
      some (.delete (toCString name),rest) := by
  have second : store (pre ++ (name ++ 0 :: d :: rest)) (pre.length + name.length + 1) 0 =
      some (pre ++ (name ++ 0 :: 0 :: rest)) := by
    have step := @store_middle _ pre (name ++ [0]) rest d 0
    simpa [Nat.add_assoc] using step
  have left : (pre ++ (name ++ 0 :: 0 :: rest)).drop (pre.length + name.length + 1 + 1) = rest := by
    rw [← drop_drop,drop_middle]
    rfl
  simp [deleteItem,store_middle,second,name_middle nulFree,remaining,left]

theorem enterItem_eq (sep : UInt8) (nulFree : 0 ∉ name) :
    (enterItem sep (pre ++ (name ++ c :: rest)) pre.length (pre.length+name.length)).map remaining =
      (parseValue sep rest).map fun r => (.enter (toCString name) (toCString r.1),r.2) := by
  rw [enterItem,store_middle,Option.bind_some]
  set data := pre ++ (name ++ 0 :: rest) with dataIs
  set start := pre.length + name.length + 1 with startIs
  have suffix : data.drop start = rest := drop_middle
  obtain ⟨fails,copies⟩ := @copyValue_spec sep (data.length+1) data start start (le_refl _) (by omega)
  rw [suffix] at fails copies
  cases parsed : parseValue sep rest with
  | none => rw [fails parsed]; rfl
  | some result =>
    obtain ⟨value,left⟩ := result
    obtain ⟨⟨after,sp,stop⟩,run,copied⟩ := copies value left parsed
    obtain ⟨upTo,before,⟨d,ends⟩,behind⟩ := copied
    simp only at upTo before ends behind
    have inside : sp < after.length := by have := lt_of_drop ends; omega
    -- the buffer as a whole: name, value and what is left, each terminated
    have whole : after.set sp 0 = pre ++ (name ++ 0 :: (value ++ 0 :: after.drop (sp+1))) := by
      have head : data.take start = pre ++ (name ++ [0]) := by
        have : data = (pre ++ (name ++ [0])) ++ rest := by simp [dataIs]
        rw [this,take_left' (by simp [startIs]; omega)]
      rw [set_eq_take_append_cons_drop,if_pos inside,upTo,before,head]
      simp
    have valueFree := nulFree_of_parseValue rest value left parsed
    have valueAt : stringAt (after.set sp 0) start = some (toCString value) :=
      stringAt_eq (by rw [whole,drop_middle]) valueFree
    have nameAt : stringAt (after.set sp 0) pre.length = some (toCString name) := by
      rw [whole]; exact name_middle nulFree
    have leftOver : (after.set sp 0).drop (stop+1) = left := by
      rw [drop_set_of_lt (by omega)]; exact drop_next ends
    simp [run,store,inside,nameAt,valueAt,remaining,leftOver]

end

theorem nameOnly_middle (sep : UInt8) {pre name after : List UInt8} {c d : UInt8} (char : c ≠ 0) :
    nameOnly sep (pre ++ (name ++ c :: d :: after)) (pre.length+name.length) =
      some (decide (d = 0 ∨ c = sep ∨ d = sep)) := by
  have next : (pre ++ (name ++ c :: d :: after))[pre.length + name.length + 1]? = some d := by
    simp [Nat.add_assoc]
  simp [nameOnly,char,next,Bool.or_assoc]

theorem rest_eq (sep : UInt8) {pre name : List UInt8} (nulFree : 0 ∉ name) (c : UInt8) (rest : List UInt8) :
    ((nameOnly sep (pre ++ (name ++ c :: rest)) (pre.length+name.length)).bind fun only =>
      if only then deleteItem (pre ++ (name ++ c :: rest)) pre.length (pre.length+name.length)
      else enterItem sep (pre ++ (name ++ c :: rest)) pre.length (pre.length+name.length)).map remaining =
        parseRest sep (toCString name) (c :: rest) := by
  by_cases nul : c = 0
  · subst nul
    have only : nameOnly sep (pre ++ (name ++ 0 :: rest)) (pre.length+name.length) = some true := by simp [nameOnly]
    rw [only,Option.bind_some,if_pos rfl,deleteItem_eq nulFree (by decide)]
    simp [parseRest]
  cases rest with
  | nil =>
    have outside : nameOnly sep (pre ++ (name ++ [c])) (pre.length+name.length) = none := by
      simp [nameOnly,nul,Nat.add_assoc]
    rw [outside]
    simp [parseRest,nul]
  | cons d after =>
    rw [nameOnly_middle sep nul,Option.bind_some,parseRest,if_neg nul]
    by_cases empty : d = 0 ∨ c = sep ∨ d = sep
    · rw [if_pos (decide_eq_true empty)]
      simp only [empty,if_true]
      by_cases equal : c = equalSign
      · subst equal
        rw [deleteItem_equal nulFree,if_pos rfl]
      · rw [deleteItem_eq nulFree equal,if_neg equal]
    · simp only [empty,if_false]
      exact enterItem_eq sep nulFree

theorem nulFree_name (sep : UInt8) (text : List UInt8) : 0 ∉ text.takeWhile (inName sep) := by
  intro nul
  have := mem_takeWhile_imp nul
  simp [inName] at this

theorem field_eq (sep : UInt8) {data text : List UInt8} {dp : Nat} (suffix : data.drop dp = text) (inside : dp ≤ data.length) :
    ((skipWhile (inName sep) data (data.length+1) dp).bind fun stop =>
      (nameOnly sep data stop).bind fun only =>
        if only then deleteItem data dp stop else enterItem sep data dp stop).map remaining = parseField sep text := by
  rw [parseField]
  cases ends : text.dropWhile (inName sep) with
  | nil => rw [skipWhile_none (by rw [suffix]; exact ends)]; rfl
  | cons c rest =>
    obtain ⟨found,_⟩ := @skipWhile_some _ (inName sep) data (data.length+1) dp c rest (by omega) (by rw [suffix]; exact ends)
    rw [suffix] at found
    have split : text.takeWhile (inName sep) ++ c :: rest = text := by rw [← ends,takeWhile_append_dropWhile]
    obtain ⟨pre,whole,length⟩ := split_at suffix inside
    rw [found,Option.bind_some,← rest_eq sep (nulFree_name sep text),split,length,← whole]

theorem nextItem_eq (sep : UInt8) (data : List UInt8) (dp : Nat) :
    (nextItem sep data dp).map remaining = parseItem sep (data.drop dp) := by
  rw [nextItem,parseItem]
  cases blanks : (data.drop dp).dropWhile isblank with
  | nil => rw [skipWhile_none blanks]; rfl
  | cons c rest =>
    obtain ⟨found,suffix⟩ := @skipWhile_some _ isblank data (data.length+1) dp c rest (by omega) blanks
    generalize dp + ((data.drop dp).takeWhile isblank).length = start at found suffix
    rw [found,Option.bind_some,getElem_of_drop suffix,Option.bind_some]
    dsimp only
    split
    next =>
      rw [parseComment]
      cases ends : (c :: rest).dropWhile (inLine sep) with
      | nil => rw [skipWhile_none (by rw [suffix]; exact ends)]; rfl
      | cons d after =>
        obtain ⟨stop,left⟩ := @skipWhile_some _ (inLine sep) data (data.length+1) start d after (by omega)
          (by rw [suffix]; exact ends)
        rw [stop]
        simp [remaining,drop_next left]
    next => exact field_eq sep suffix (lt_of_drop suffix).le

/-! ### Imports -/

/-- The items of a text applied to the table, up to one at which the import gives up. -/
def applyItems (hooks : Hooks) (flag : Nat) : Importing → List Item → Option (Importing × Bool)
  | s, [] => some (s,true)
  | s, item :: items =>
    match applyItem hooks flag s item with
    | none => none
    | some (s,false) => some (s,false)
    | some (s,true) => applyItems hooks flag s items

theorem applyItem_goes (hooks : Hooks) (flag : Nat) (s : Importing) (item : Item) {t : Importing} {goes : Bool}
    (applied : applyItem hooks flag s item = some (t,goes)) : goes = !Item.fatal item := by
  cases item with
  | comment => cases applied; rfl
  | delete name =>
    simp only [applyItem] at applied
    split at applied
    · obtain ⟨_,_,same⟩ := Option.map_eq_some_iff.mp applied
      cases same; rfl
    · cases applied; rfl
  | enter name value =>
    simp only [applyItem] at applied
    split at applied
    next empty => cases applied; simp [Item.fatal,empty]
    next named =>
      split at applied
      · obtain ⟨_,_,same⟩ := Option.map_eq_some_iff.mp applied
        cases same; simp [Item.fatal,named]
      · cases applied; simp [Item.fatal,named]

theorem importLoop_eq (hooks : Hooks) (sep : UInt8) (flag : Nat) : ∀ (fuel : Nat) (s : Importing) (data : List UInt8) (dp : Nat),
    importLoop hooks sep flag fuel s data dp = (parseAll sep fuel (data.drop dp)).bind (applyItems hooks flag s) := by
  intro fuel
  induction fuel with
  | zero => intro s data dp; rfl
  | succ fuel ih =>
    intro s data dp
    rw [importLoop,parseAll,← nextItem_eq]
    cases nextItem sep data dp with
    | none => rfl
    | some turn =>
      obtain ⟨item,data,dp⟩ := turn
      simp only [Option.map_some,remaining]
      have more : (data.drop dp ≠ [] ∧ (data.drop dp).head? ≠ some 0) ↔ (dp < data.length ∧ data[dp]? ≠ some 0) := by
        rw [head?_drop,ne_eq,drop_eq_nil_iff,not_le]
      cases applied : applyItem hooks flag s item with
      | none =>
        have stuck : ∀ items, applyItems hooks flag s (item :: items) = none := by
          intro items; simp only [applyItems,applied]
        dsimp only
        by_cases fatal : Item.fatal item = true
        · simp [fatal,stuck]
        rw [if_neg fatal]
        split
        · cases parseAll sep fuel (data.drop dp) <;> simp [stuck]
        · simp [stuck]
      | some result =>
        obtain ⟨t,goes⟩ := result
        have outcome := applyItem_goes hooks flag s item applied
        cases goes with
        | false =>
          have fatal : Item.fatal item = true := by simpa using outcome
          simp [fatal,applyItems,applied]
        | true =>
          have goesOn : Item.fatal item = false := by simpa using outcome
          simp only [goesOn,Bool.false_eq_true,if_false,more]
          split
          · rw [ih]
            cases parseAll sep fuel (data.drop dp) <;> simp [applyItems,applied]
          · simp [applyItems,applied]

/-! ### Fields -/

/-- A name that the importer reads as it stands. -/
structure Importable (sep : UInt8) (key : CString) : Prop where
  named : key.bytes ≠ []
  noEqual : equalSign ∉ key.bytes
  noSep : sep ∉ key.bytes
  first : ∀ c ∈ key.bytes.head?, c ≠ space ∧ c ≠ tab ∧ c ≠ hash

instance (sep : UInt8) (key : CString) : Decidable (Importable sep key) :=
  decidable_of_iff (key.bytes ≠ [] ∧ equalSign ∉ key.bytes ∧ sep ∉ key.bytes ∧
      ∀ c ∈ key.bytes.head?, c ≠ space ∧ c ≠ tab ∧ c ≠ hash)
    ⟨fun ⟨named,noEqual,noSep,first⟩ => ⟨named,noEqual,noSep,first⟩,
      fun ⟨named,noEqual,noSep,first⟩ => ⟨named,noEqual,noSep,first⟩⟩

/-- A field of a text: the name, the value as it is written and what it stands for. -/
structure Field where
  key : CString
  raw : List UInt8
  value : CString

def fieldText (sep : UInt8) (field : Field) : List UInt8 := field.key.bytes ++ equalSign :: field.raw ++ [sep]

def fieldsText (sep : UInt8) (fields : List Field) : List UInt8 := fields.flatMap (fieldText sep)

structure Field.Reads (sep : UInt8) (field : Field) : Prop where
  importable : Importable sep field.key
  starts : ∃ d tail, field.raw = d :: tail ∧ d ≠ 0 ∧ d ≠ sep
  parses : ∀ rest, parseValue sep (field.raw ++ sep :: rest) = some (field.value.bytes,rest)

theorem takeWhile_name {sep : UInt8} {key : CString} (importable : Importable sep key) (rest : List UInt8) :
    (key.bytes ++ equalSign :: rest).takeWhile (inName sep) = key.bytes ∧
      (key.bytes ++ equalSign :: rest).dropWhile (inName sep) = equalSign :: rest := by
  have all : ∀ c ∈ key.bytes, inName sep c = true := by
    intro c member
    have notEqual : c ≠ equalSign := fun same => importable.noEqual (same ▸ member)
    have notNul : c ≠ 0 := fun same => key.nulFree (same ▸ member)
    have notSep : c ≠ sep := fun same => importable.noSep (same ▸ member)
    simp [inName,notEqual,notNul,notSep]
  rw [takeWhile_append_of_pos all,dropWhile_append_of_pos all]
  simp [inName]

theorem parseItem_field {sep : UInt8} (notEqual : sep ≠ equalSign) {field : Field} (reads : field.Reads sep)
    (rest : List UInt8) : parseItem sep (fieldText sep field ++ rest) = some (.enter field.key field.value,rest) := by
  have shape : fieldText sep field ++ rest = field.key.bytes ++ equalSign :: (field.raw ++ sep :: rest) := by
    simp [fieldText]
  obtain ⟨c,tail,keyIs⟩ := exists_cons_of_ne_nil reads.importable.named
  obtain ⟨notSpace,notTab,notHash⟩ := reads.importable.first c (by rw [keyIs]; rfl)
  have noBlanks : (fieldText sep field ++ rest).dropWhile isblank = fieldText sep field ++ rest := by
    rw [shape,keyIs,cons_append,dropWhile_cons_of_neg (by simp [isblank,notSpace,notTab])]
  obtain ⟨d,after,rawIs,char,notSep⟩ := reads.starts
  have value := reads.parses rest
  obtain ⟨name,left⟩ := takeWhile_name reads.importable (field.raw ++ sep :: rest)
  have parsed : parseField sep (fieldText sep field ++ rest) = some (.enter field.key field.value,rest) := by
    rw [parseField,shape,name,left,rawIs,cons_append,parseRest,if_neg (by decide)]
    rw [rawIs,cons_append] at value
    simp only [char,notEqual.symm,notSep,or_self,if_false,value,Option.map_some,toCString_self]
  rw [parseItem,noBlanks]
  rw [shape,keyIs,cons_append] at parsed ⊢
  simp only [notHash,if_false]
  exact parsed

/-- What the importer makes of a list of fields. An empty text still makes it delete
    a variable without a name. -/
def fieldItems (fields : List Field) : List Item :=
  if fields = [] then [.delete (toCString [])] else fields.map fun field => .enter field.key field.value

theorem parseAll_some {sep : UInt8} (notEqual : sep ≠ equalSign) (pad : List UInt8) :
    ∀ (fields : List Field) (fuel : Nat), fields ≠ [] → fields.length ≤ fuel → (∀ field ∈ fields, field.Reads sep) →
      parseAll sep fuel (fieldsText sep fields ++ 0 :: pad) =
        some (fields.map fun field => .enter field.key field.value) := by
  intro fields
  induction fields with
  | nil => intro fuel some; exact absurd rfl some
  | cons field fields ih =>
    intro fuel _ enough reads
    obtain ⟨fuel,rfl⟩ : ∃ n, fuel = n + 1 := ⟨fuel-1,by simp at enough; omega⟩
    have here := reads field (by simp)
    have goesOn : Item.fatal (.enter field.key field.value) = false := by simp [Item.fatal,here.importable.named]
    rw [parseAll,fieldsText,flatMap_cons,append_assoc,parseItem_field notEqual here]
    simp only [goesOn,Bool.false_eq_true,if_false]
    change (if fieldsText sep fields ++ 0 :: pad ≠ [] ∧ (fieldsText sep fields ++ 0 :: pad).head? ≠ some 0 then
      (parseAll sep fuel (fieldsText sep fields ++ 0 :: pad)).map _ else _) = _
    cases fields with
    | nil => simp [fieldsText]
    | cons next fields =>
      have rest := ih fuel (by simp) (by simpa using enough) (fun other member => reads other (by simp [member]))
      obtain ⟨c,tail,keyIs⟩ := exists_cons_of_ne_nil (reads next (by simp)).importable.named
      have char : c ≠ 0 := by
        have := next.key.nulFree
        rw [keyIs] at this
        rintro rfl
        simp at this
      have head : (fieldsText sep (next :: fields) ++ 0 :: pad).head? = some c := by
        simp [fieldsText,fieldText,keyIs]
      rw [if_pos ⟨by simp,by rw [head]; simpa using char⟩,rest]
      rfl

/-- The items of a text of fields, whatever follows its terminator; an empty text is
    followed by another one. -/
theorem parseAll_fields {sep : UInt8} (notEqual : sep ≠ equalSign) {fields : List Field} {pad : List UInt8}
    (ends : fields = [] → pad = [] ∨ pad.head? = some 0) {fuel : Nat} (enough : fields.length < fuel)
    (reads : ∀ field ∈ fields, field.Reads sep) :
    parseAll sep fuel (fieldsText sep fields ++ 0 :: pad) = some (fieldItems fields) := by
  by_cases empty : fields = []
  · subst empty
    obtain ⟨fuel,rfl⟩ : ∃ n, fuel = n + 1 := ⟨fuel-1,by omega⟩
    have item : parseItem sep (0 :: pad) = some (.delete (toCString []),pad) := by
      have notBlank : isblank 0 = false := by decide
      have notName : inName sep 0 = false := by simp [inName]
      simp [parseItem,notBlank,parseField,notName,parseRest,show (0 : UInt8) ≠ hash by decide]
    have stops : ¬ (pad ≠ [] ∧ pad.head? ≠ some 0) := by
      rintro ⟨some,head⟩
      exact (ends rfl).elim some head
    rw [parseAll,fieldsText,flatMap_nil,nil_append,item]
    simp only [Item.fatal,stops]
    simp [fieldItems]
  · rw [parseAll_some notEqual pad fields fuel empty (by omega) reads,fieldItems,if_neg empty]

theorem length_le_fieldsText (sep : UInt8) (fields : List Field) : fields.length ≤ (fieldsText sep fields).length := by
  induction fields with
  | nil => simp
  | cons field fields ih =>
    have split : (fieldsText sep (field :: fields)).length =
        (fieldText sep field).length + (fieldsText sep fields).length := by simp [fieldsText]
    have some : 1 ≤ (fieldText sep field).length := by simp [fieldText]; omega
    rw [length_cons]; omega

end UBoot.EnvText
