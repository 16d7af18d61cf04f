import UBoot.EnvRoundTrip
import UBoot.FwEnvBlock

/-!
The stored environment between U-Boot and the tool on the host. `fw_env_write` puts
values into the block as they are and `himport_r` undoes escapes in them;
`hexport_r` escapes backslashes and `fw_getenv` and `getenv_f` take values as they
are.
-/
namespace UBoot.EnvReaders
open CStrings Hashtable Hexport Himport EnvText EnvImport EnvRoundTrip
open FwEnv FwEnvBlock HashtableMap Runs

/-! ### Values as they are stored -/

/-- What `himport_r` makes of a stored value. -/
def unescape : List UInt8 → List UInt8
  | [] => []
  | [c] => [c]
  | c :: d :: rest => if c = backslash then d :: unescape rest else c :: unescape (d :: rest)

theorem unescape_subset : ∀ (raw : List UInt8), ∀ c ∈ unescape raw, c ∈ raw := by
  intro raw
  induction raw using unescape.induct with
  | case1 => simp [unescape]
  | case2 c => simp [unescape]
  | case3 d rest ih =>
    intro c member
    rcases List.mem_cons.mp member with rfl | member
    · simp
    · simp [ih c member]
  | case4 e d rest plain ih =>
    intro c member
    rw [unescape,if_neg plain] at member
    rcases List.mem_cons.mp member with rfl | member
    · simp
    · exact List.mem_cons_of_mem _ (ih c member)

theorem parseValue_unescape (rest : List UInt8) : ∀ {raw : List UInt8}, 0 ∉ raw →
    parseValue 0 (raw ++ 0 :: rest) = some (unescape raw,rest) := by
  have goes : ¬ (backslash = 0 ∨ backslash = (0 : UInt8)) := by decide
  intro raw
  induction raw using unescape.induct with
  | case1 => intro _; exact parseValue_stop (.inl rfl) rest
  | case2 c =>
    intro nulFree
    have char : c ≠ 0 := by rintro rfl; simp at nulFree
    by_cases slash : c = backslash
    · subst slash
      rw [List.singleton_append,parseValue_last goes (by simp),parseValue_stop (.inl rfl)]
      rfl
    · rw [List.singleton_append,parseValue_plain (by simpa using char) slash,parseValue_stop (.inl rfl)]
      rfl
  | case3 d tail ih =>
    intro nulFree
    obtain ⟨_,char,free⟩ : (0 : UInt8) ≠ backslash ∧ 0 ≠ d ∧ 0 ∉ tail := by simpa using nulFree
    rw [List.cons_append,List.cons_append,parseValue_escaped goes char.symm,ih free]
    rfl
  | case4 c d tail plain ih =>
    intro nulFree
    have char : c ≠ 0 := by rintro rfl; simp at nulFree
    have free : 0 ∉ d :: tail := fun member => nulFree (List.mem_cons_of_mem _ member)
    rw [List.cons_append,parseValue_plain (by simpa using char) plain,ih free,unescape,if_neg plain]
    rfl

theorem unescape_length (raw : List UInt8) : (unescape raw).length ≤ raw.length := by
  induction raw using unescape.induct with
  | case1 => simp [unescape]
  | case2 c => simp [unescape]
  | case3 d rest ih => rw [unescape]; simp; omega
  | case4 c d rest plain ih => rw [unescape,if_neg plain]; simpa using ih

/-- A stored value is read as it is exactly when no backslash comes before its last
    character. -/
theorem unescape_eq_iff (raw : List UInt8) : unescape raw = raw ↔ backslash ∉ raw.dropLast := by
  induction raw using unescape.induct with
  | case1 => simp [unescape]
  | case2 c => simp [unescape]
  | case3 d rest ih =>
    have shorter := unescape_length rest
    rw [unescape]
    simp only [List.dropLast_cons_cons,List.mem_cons,true_or,not_true_eq_false,iff_false]
    intro same
    have := congrArg List.length same
    simp at this
    omega
  | case4 c d rest plain ih =>
    rw [unescape,if_neg plain]
    simp [ih,Ne.symm plain]

theorem escape_eq_iff {value : List UInt8} (nulFree : 0 ∉ value) : escape 0 value = value ↔ backslash ∉ value := by
  constructor
  · intro same
    have := congrArg List.length same
    rw [escape_length,escapedLength_nul nulFree] at this
    exact List.count_eq_zero.mp (by omega)
  intro free
  have plain : ∀ c ∈ value, escapeByte 0 c = [c] := by
    intro c member
    have char : c ≠ 0 := fun zero => nulFree (zero ▸ member)
    have notSlash : c ≠ backslash := fun slash => free (slash ▸ member)
    simp [escapeByte,char,notSlash]
  rw [escape,List.flatMap_congr plain]
  simp

theorem escape_nulFree {value : List UInt8} (nulFree : 0 ∉ value) : 0 ∉ escape 0 value := by
  intro nul
  obtain ⟨c,member,piece⟩ := List.mem_flatMap.mp nul
  have char : c ≠ 0 := fun zero => nulFree (zero ▸ member)
  rw [escapeByte] at piece
  split at piece
  next => simp [char.symm,show (0 : UInt8) ≠ backslash by decide] at piece
  next => simp [char.symm] at piece

/-! ### From the block to the table -/

def varField (v : Var) : Field := ⟨v.1,v.2.bytes,toCString (unescape v.2.bytes)⟩

theorem unescape_nulFree (value : CString) : 0 ∉ unescape value.bytes :=
  fun nul => value.nulFree (unescape_subset value.bytes 0 nul)

theorem varField_reads {v : Var} (importable : Importable 0 v.1) (valued : v.2.bytes ≠ []) : (varField v).Reads 0 := by
  refine ⟨importable,?_,fun rest => ?_⟩
  · obtain ⟨d,tail,valueIs⟩ := List.exists_cons_of_ne_nil valued
    have char : d ≠ 0 := by
      rintro rfl
      exact v.2.nulFree (by rw [valueIs]; simp)
    exact ⟨d,tail,valueIs,char,char⟩
  · change parseValue 0 (v.2.bytes ++ 0 :: rest) = some ((toCString (unescape v.2.bytes)).bytes,rest)
    rw [parseValue_unescape rest v.2.nulFree,toCString_bytes (unescape_nulFree v.2)]

theorem blockText_eq (vars : List Var) : blockText vars = fieldsText 0 (vars.map varField) := by
  rw [fieldsText,List.flatMap_map]
  rfl

/-- U-Boot finds the variable with that value once it has imported the block. -/
def SeenByUBoot (hooks : Hooks) (old : Option HsearchData) (data : List UInt8) (name value : CString) : Prop :=
  ∃ u, himport_r hooks old data 0 0 [] = some (some u,1) ∧ found u name = some value

/-- A block whose last variable is `name`, imported: that variable is read if there
    is a slot left for it, with its escapes undone. -/
theorem seen_iff {hooks : Hooks} (accepts : AcceptsCreates hooks) {vars : List Var} {data : List UInt8} {name value : CString}
    (block : Block (vars ++ [(name,value)]) data) (readable : ∀ v ∈ vars ++ [(name,value)], Importable 0 v.1 ∧ v.2.bytes ≠ [])
    (distinct : (vars.map Prod.fst).Nodup) (others : ∀ v ∈ vars, v.1 ≠ name) (old : Option HsearchData) :
    SeenByUBoot hooks old data name value ↔
      backslash ∉ value.bytes.dropLast ∧ ∀ made, hcreate_r (nent data.length) = some made → vars.length < made.size := by
  obtain ⟨made,created⟩ := @HashtableSize.hcreate_total (nent data.length) (by simp [nent,CONFIG_ENV_MAX_ENTRIES])
  obtain ⟨_,pad,text,_⟩ := block
  rw [blockText_eq] at text
  have reads : ∀ field ∈ (vars ++ [(name,value)]).map varField, field.Reads 0 := by
    intro field member
    obtain ⟨v,inVars,rfl⟩ := List.mem_map.mp member
    exact varField_reads (readable v inVars).1 (readable v inVars).2
  have names : (((vars ++ [(name,value)]).map varField).map Field.key).Nodup := by
    have keys : ((vars ++ [(name,value)]).map varField).map Field.key = vars.map Prod.fst ++ [name] := by
      simp [varField,Function.comp_def]
    rw [keys,List.nodup_append]
    refine ⟨distinct,by simp,fun k member l last => ?_⟩
    obtain ⟨v,inVars,rfl⟩ := List.mem_map.mp member
    rw [List.mem_singleton.mp last]
    exact others v inVars
  obtain ⟨u,imported,inv,contents⟩ := @himport_fields hooks accepts 0 (by decide) _ pad (by simp) reads names made
    (by rw [← text]; exact created) old
  rw [← text] at imported
  have same : toCString (unescape value.bytes) = value ↔ backslash ∉ value.bytes.dropLast := by
    rw [← unescape_eq_iff,CString.ext_iff,toCString_bytes (unescape_nulFree value)]
  have held : Holds u name value ↔ vars.length < made.size ∧ toCString (unescape value.bytes) = value := by
    rw [contents,List.map_append,List.map_cons,List.take_append]
    constructor
    · rintro ⟨field,member,keyed,is⟩
      rcases List.mem_append.mp member with early | last
      · obtain ⟨v,inVars,rfl⟩ := List.mem_map.mp (List.mem_of_mem_take early)
        exact absurd keyed (others v inVars)
      have room : 0 < made.size - (vars.map varField).length := by
        rcases Nat.eq_zero_or_pos (made.size - (vars.map varField).length) with none | room
        · rw [none] at last; simp at last
        · exact room
      obtain rfl : field = varField (name,value) := by simpa using List.mem_of_mem_take last
      exact ⟨by simpa using room,is⟩
    rintro ⟨room,is⟩
    refine ⟨varField (name,value),List.mem_append.mpr (.inr ?_),rfl,is⟩
    have : made.size - (vars.map varField).length = made.size - vars.length - 1 + 1 := by simp; omega
    rw [this]
    simp
  constructor
  · rintro ⟨u',imported',value'⟩
    rw [imported] at imported'
    cases imported'
    obtain ⟨room,is⟩ := held.mp ((found_iff inv name value).mp value')
    refine ⟨same.mp is,fun made' created' => ?_⟩
    rw [created] at created'
    cases created'
    exact room
  · rintro ⟨free,room⟩
    exact ⟨u,imported,(found_iff inv name value).mpr (held.mpr ⟨room made created,same.mpr free⟩)⟩

/-! ### From the table to the block -/

def entryVar (ep : ENTRY) : Var := (ep.key,toCString (escape 0 ep.data.bytes))

theorem envText_block (list : List ENTRY) : envText 0 list = blockText (list.map entryVar) := by
  rw [blockText,List.flatMap_map]
  refine List.flatMap_congr fun ep _ => ?_
  simp [entryText,entryVar,varText,toCString_bytes (escape_nulFree ep.data.nulFree)]

theorem exported_block {t : HsearchData} (inv : Inv t) (noEqual : ∀ i, Live t i → equalSign ∉ (t.table i).entry.key.bytes)
    {resp : Option (List UInt8)} {size n : Nat} {env : List UInt8} (buffer : Buffer resp size)
    (exported : hexport_r t 0 0 resp size [] = .done env n) {name value : CString} (held : found t name = some value) :
    ∃ vars, Block vars (env.take n) ∧ lookup name vars = some (toCString (escape 0 value.bytes)) := by
  have room : size = 0 ∨ totlen 0 (exportList t 0 []) + 1 ≤ size := by
    by_contra small
    have refused : size ≠ 0 ∧ size < totlen 0 (exportList t 0 []) + 1 := by omega
    simp [hexport_r,refused] at exported
  obtain ⟨list,perm,result⟩ := hexport_eq buffer room
  have fits : (envText 0 list).length + 1 ≤ exportSize t 0 size := by
    by_contra overruns
    rw [result,if_neg overruns] at exported
    cases exported
  rw [result,if_pos fits] at exported
  obtain ⟨rfl,rfl⟩ := Exported.done.inj exported
  rw [List.take_of_length_le (by simp; omega),envText_block]
  obtain ⟨ep,member,keyed,is⟩ := (exportList_holds name value).mpr ((found_iff inv name value).mp held)
  have inList : ep ∈ list := perm.mem_iff.mpr member
  have names : (list.map ENTRY.key).Nodup := (perm.map ENTRY.key).nodup_iff.mpr (exported_keys_nodup inv 0 [])
  obtain ⟨before,after,split⟩ := List.append_of_mem inList
  refine ⟨list.map entryVar,⟨?_,_,rfl,?_⟩,?_⟩
  · intro v inVars
    obtain ⟨other,otherIn,rfl⟩ := List.mem_map.mp inVars
    obtain ⟨i,live,rfl⟩ := mem_exportList.mp (perm.mem_iff.mp otherIn)
    exact noEqual i live
  · intro empty
    rw [split] at empty
    simp at empty
  have earlier : ∀ v ∈ before.map entryVar, v.1 ≠ name := by
    intro v inVars same
    obtain ⟨other,otherIn,rfl⟩ := List.mem_map.mp inVars
    rw [split,List.map_append,List.nodup_append] at names
    exact names.2.2 other.key (List.mem_map.mpr ⟨other,otherIn,rfl⟩) ep.key (by simp) (same.trans keyed.symm)
  have entry : entryVar ep = (name,toCString (escape 0 value.bytes)) := by rw [entryVar,keyed,is]
  rw [split,List.map_append,List.map_cons,entry]
  exact lookup_some earlier

theorem stored_eq_iff (value : CString) : toCString (escape 0 value.bytes) = value ↔ backslash ∉ value.bytes := by
  rw [← escape_eq_iff value.nulFree,CString.ext_iff,toCString_bytes (escape_nulFree value.nulFree)]

def Access.free : Access := ⟨fun _ => false,fun _ => false,fun _ => false,fun _ => false,fun _ => none⟩

/-- A block of sixteen bytes that holds `b=c`. -/
def smallBlock : List UInt8 := [98,equalSign,99,0,0,0,0,0,0,0,0,0,0,0,0,0]

theorem smallBlock_block : Block [(varB,varC)] smallBlock := by
  refine ⟨?_,List.replicate 11 0,by decide,by simp⟩
  intro v member
  obtain rfl : v = (varB,varC) := by simpa using member
  decide

def oneVariable (key data : CString) : Option (HsearchData × List (Call × Bool)) :=
  (hcreate_r 5).bind (performAll · [.enter Hooks.none key data 0])

def pathValue : CString := ⟨[120,backslash,121],by decide⟩

end UBoot.EnvReaders
