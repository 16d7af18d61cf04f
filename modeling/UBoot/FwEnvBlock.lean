import UBoot.FwEnv

/-!
The raw environment block as a list of variables. On a block the readers look a
variable up (`findEntry_eq`) and `fw_env_write` takes the first definition of the
name out and appends the new one (`fw_env_write_spec`).
-/
namespace UBoot.FwEnvBlock
open List Option Buffers CStrings FwEnv

variable {data rest pad : List UInt8} {vars after before : List Var} {name value : CString}

abbrev Var := CString × CString

def varText (v : Var) : List UInt8 := v.1.bytes ++ equalSign :: v.2.bytes

def blockText (vars : List Var) : List UInt8 := vars.flatMap fun v => varText v ++ [0]

/-- A block of these variables: their texts, each terminated, and one more NUL. An
    empty block starts with two. -/
structure Block (vars : List Var) (data : List UInt8) : Prop where
  names : ∀ v ∈ vars, equalSign ∉ v.1.bytes
  text : ∃ pad, data = blockText vars ++ 0 :: pad ∧ (vars = [] → pad.head? = some 0)

@[simp] theorem blockText_nil : blockText [] = [] := rfl

theorem blockText_cons (v : Var) (vars : List Var) : blockText (v :: vars) = varText v ++ 0 :: blockText vars := by
  simp [blockText]

theorem blockText_append (vars more : List Var) : blockText (vars ++ more) = blockText vars ++ blockText more := by
  simp [blockText]

theorem varText_nulFree (v : Var) : 0 ∉ varText v := by
  have name := v.1.nulFree
  have value := v.2.nulFree
  have : (0 : UInt8) ≠ equalSign := by decide
  simp [varText,name,value,this]

theorem varText_cons (v : Var) : ∃ c tail, varText v = c :: tail ∧ c ≠ 0 := by
  cases text : varText v with
  | nil => simp [varText] at text
  | cons c tail =>
    refine ⟨c,tail,rfl,?_⟩
    rintro rfl
    exact varText_nulFree v (by rw [text]; simp)

theorem length_le_blockText (vars : List Var) : vars.length ≤ (blockText vars).length := by
  induction vars with
  | nil => simp
  | cons v vars ih => rw [blockText_cons]; simp; omega

/-! ### Looking a variable up -/

/-- The part of a name in front of an equal sign: `envmatch` looks no further. -/
def nameBytes (s : List UInt8) : List UInt8 := s.takeWhile (· ≠ equalSign)

theorem nameBytes_self {s : List UInt8} (noEqual : equalSign ∉ s) : nameBytes s = s := by
  rw [nameBytes,takeWhile_eq_self_iff]
  intro c member
  have : c ≠ equalSign := fun same => noEqual (same ▸ member)
  simpa using this

theorem nameBytes_noEqual (s : List UInt8) : equalSign ∉ nameBytes s := by
  intro member
  simpa using mem_takeWhile_imp member

theorem envmatch_eq : ∀ (s1 name : List UInt8) (s2 : Nat),
    equalSign ∉ name → 0 ∉ name → data.drop s2 = name ++ equalSign :: rest →
    envmatch data s1 s2 = some (if name = nameBytes s1 then some (s2 + (nameBytes s1).length + 1) else none) := by
  intro s1
  induction s1 with
  | nil =>
    intro name s2 noEqual nulFree suffix
    cases name with
    | nil =>
      rw [envmatch,getElem_of_drop suffix]
      simp [show equalSign ≠ 0 by decide,nameBytes]
    | cons d name =>
      obtain ⟨notEqual,_⟩ : equalSign ≠ d ∧ equalSign ∉ name := by simpa using noEqual
      obtain ⟨char,_⟩ : 0 ≠ d ∧ 0 ∉ name := by simpa using nulFree
      rw [envmatch,getElem_of_drop suffix]
      simp [char.symm,notEqual.symm,nameBytes]
  | cons c s1 ih =>
    intro name s2 noEqual nulFree suffix
    by_cases equal : c = equalSign
    · subst equal
      have base : nameBytes (equalSign :: s1) = [] := takeWhile_cons_of_neg (by simp)
      rw [base,envmatch]
      cases name with
      | nil => rw [getElem_of_drop suffix]; simp
      | cons d name =>
        obtain ⟨notEqual,_⟩ : equalSign ≠ d ∧ equalSign ∉ name := by simpa using noEqual
        rw [getElem_of_drop suffix]
        simp [notEqual]
    have base : nameBytes (c :: s1) = c :: nameBytes s1 := takeWhile_cons_of_pos (by simpa using equal)
    rw [base]
    cases name with
    | nil =>
      rw [envmatch,getElem_of_drop suffix]
      simp [equal]
    | cons d name =>
      obtain ⟨_,restEqual⟩ : equalSign ≠ d ∧ equalSign ∉ name := by simpa using noEqual
      obtain ⟨_,restNul⟩ : 0 ≠ d ∧ 0 ∉ name := by simpa using nulFree
      rw [envmatch,getElem_of_drop suffix,bind_some]
      by_cases same : c = d
      · subst same
        rw [if_pos rfl,if_neg equal,ih name (s2+1) restEqual restNul (drop_next suffix)]
        simp only [List.cons.injEq,true_and,length_cons]
        congr 3; omega
      · rw [if_neg same]
        simp [Ne.symm same]

def varName (name : CString) : CString :=
  ⟨nameBytes name.bytes,fun nul => name.nulFree ((takeWhile_sublist _).subset nul)⟩

theorem varName_self (noEqual : equalSign ∉ name.bytes) : varName name = name :=
  CString.ext (nameBytes_self noEqual)

theorem skip_entry {entry : List UInt8} {env : Nat} (nulFree : 0 ∉ entry) (suffix : data.drop env = entry ++ 0 :: rest) :
    skipWhile (· ≠ 0) data (data.length+1) env = some (env+entry.length) := by
  have all : ∀ c ∈ entry, decide (c ≠ 0) = true := by
    intro c member
    have : c ≠ 0 := fun zero => nulFree (zero ▸ member)
    simpa using this
  have stops : (data.drop env).dropWhile (fun c => decide (c ≠ 0)) = 0 :: rest := by
    rw [suffix,dropWhile_append_of_pos all]; simp
  have length : (data.drop env).takeWhile (fun c => decide (c ≠ 0)) = entry := by
    rw [suffix,takeWhile_append_of_pos all]; simp
  obtain ⟨found,_⟩ := @skipWhile_some _ _ data (data.length+1) env _ _ (by omega) stops
  rw [found,length]

/-- Where the first definition of a name is in a block that starts at `env`. -/
def locate (name : CString) : Nat → List Var → Option Found
  | _, [] => none
  | env, v :: vars =>
    if v.1 = name then some ⟨env,env + (varText v).length,env + name.length + 1⟩
    else locate name (env + (varText v).length + 1) vars

theorem findEntry_eq {data pad : List UInt8} {name : CString} :
    ∀ (vars : List Var) (fuel env : Nat), (∀ v ∈ vars, equalSign ∉ v.1.bytes) → vars.length < fuel →
      data.drop env = blockText vars ++ 0 :: pad → findEntry data name fuel env = some (locate (varName name) env vars) := by
  intro vars
  induction vars with
  | nil =>
    intro fuel env _ enough suffix
    obtain ⟨fuel,rfl⟩ : ∃ n, fuel = n + 1 := ⟨fuel-1,by omega⟩
    have here : data.drop env = 0 :: pad := by simpa using suffix
    rw [findEntry,getElem_of_drop here]
    rfl
  | cons v vars ih =>
    intro fuel env names enough suffix
    obtain ⟨fuel,rfl⟩ : ∃ n, fuel = n + 1 := ⟨fuel-1,by omega⟩
    rw [blockText_cons,append_assoc] at suffix
    obtain ⟨c,tail,text,char⟩ := varText_cons v
    have here : data.drop env = c :: (tail ++ 0 :: (blockText vars ++ 0 :: pad)) := by rw [suffix,text]; rfl
    have named : data.drop env = v.1.bytes ++ equalSign :: (v.2.bytes ++ 0 :: (blockText vars ++ 0 :: pad)) := by
      rw [suffix,varText]; simp
    have next : data.drop (env + (varText v).length + 1) = blockText vars ++ 0 :: pad := by
      rw [Nat.add_assoc,← drop_drop,suffix]
      simp
    rw [findEntry,getElem_of_drop here,bind_some,if_neg char,skip_entry (varText_nulFree v) suffix,
      envmatch_eq _ _ _ (names v (by simp)) v.1.nulFree named,locate]
    by_cases same : v.1 = varName name
    · have bytes : v.1.bytes = nameBytes name.bytes := congrArg CString.bytes same
      rw [if_pos same,if_pos bytes]
      rfl
    have other : v.1.bytes ≠ nameBytes name.bytes := fun bytes => same (CString.ext bytes)
    simp only [other,if_false,same]
    exact ih fuel _ (fun w member => names w (by simp [member])) (by simpa using enough) next

theorem locate_cases (name : CString) : ∀ (vars : List Var) (env : Nat),
    (locate name env vars = none ∧ ∀ v ∈ vars, v.1 ≠ name) ∨
      ∃ before value after, vars = before ++ (name,value) :: after ∧ (∀ v ∈ before, v.1 ≠ name) ∧
        locate name env vars = some ⟨env + (blockText before).length,
          env + (blockText before).length + (varText (name,value)).length,
          env + (blockText before).length + name.length + 1⟩ := by
  intro vars
  induction vars with
  | nil => intro env; exact .inl ⟨rfl,by simp⟩
  | cons v vars ih =>
    intro env
    by_cases same : v.1 = name
    · obtain ⟨n,value⟩ := v
      subst same
      exact .inr ⟨[],value,vars,rfl,by simp,by simp [locate]⟩
    rcases ih (env + (varText v).length + 1) with ⟨absent,others⟩ | ⟨before,value,after,rfl,others,found⟩
    · exact .inl ⟨by rw [locate,if_neg same]; exact absent,by simpa [same] using others⟩
    refine .inr ⟨v :: before,value,after,rfl,by simpa [same] using others,?_⟩
    rw [locate,if_neg same,found,blockText_cons]
    simp only [length_append,length_cons,Option.some.injEq,Found.mk.injEq]
    omega

/-- The value of a variable is that of its first definition. -/
def lookup (name : CString) (vars : List Var) : Option CString := (vars.find? fun v => v.1 = name).map Prod.snd

theorem value_at
    (text : data = blockText (before ++ (name,value) :: after) ++ 0 :: pad) :
    data.drop ((blockText before).length + name.length + 1) = value.bytes ++ 0 :: (blockText after ++ 0 :: pad) := by
  have shape : data = (blockText before ++ name.bytes ++ [equalSign]) ++ (value.bytes ++ 0 :: (blockText after ++ 0 :: pad)) := by
    rw [text,blockText_append,blockText_cons,varText]; simp
  rw [shape,drop_left' (by simp [CString.length]; omega)]

theorem stringAt_value {i : Nat} (suffix : data.drop i = value.bytes ++ 0 :: rest) :
    stringAt data i = some value := by
  rw [stringAt_eq suffix value.nulFree,toCString_self]

theorem findEntry_cases (block : Block vars data) (name : CString) :
    (findEntry data name (data.length+1) 0 = some none ∧ ∀ v ∈ vars, v.1 ≠ varName name) ∨
      ∃ before value after, vars = before ++ (varName name,value) :: after ∧ (∀ v ∈ before, v.1 ≠ varName name) ∧
        findEntry data name (data.length+1) 0 = some (some ⟨(blockText before).length,
          (blockText before).length + (varText (varName name,value)).length,
          (blockText before).length + (varName name).length + 1⟩) := by
  obtain ⟨names,pad,text,_⟩ := block
  have enough : vars.length < data.length + 1 := by
    have := length_le_blockText vars
    rw [text]; simp; omega
  have suffix : data.drop 0 = blockText vars ++ 0 :: pad := text
  have found := @findEntry_eq data pad name vars (data.length+1) 0 names enough suffix
  rcases locate_cases (varName name) vars 0 with ⟨absent,others⟩ | ⟨before,value,after,split,others,there⟩
  · exact .inl ⟨by rw [found,absent],others⟩
  refine .inr ⟨before,value,after,split,others,?_⟩
  rw [found,there]
  simp

theorem lookup_none (others : ∀ v ∈ vars, v.1 ≠ name) : lookup name vars = none := by
  have : (vars.find? fun v => v.1 = name) = none := by simpa using others
  rw [lookup,this]; rfl

theorem lookup_some (others : ∀ v ∈ before, v.1 ≠ name) :
    lookup name (before ++ (name,value) :: after) = some value := by
  have first : (before.find? fun v => v.1 = name) = none := by simpa using others
  rw [lookup,find?_append,first]
  simp

theorem fw_getenv_varName (block : Block vars data) (name : CString) :
    fw_getenv data name = some (lookup (varName name) vars) := by
  obtain ⟨pad,text,_⟩ := block.text
  rcases findEntry_cases block name with ⟨found,others⟩ | ⟨before,value,after,rfl,others,found⟩
  · rw [fw_getenv,found,lookup_none others]; rfl
  · rw [fw_getenv,found,lookup_some others]
    simp only [bind_some,stringAt_value (value_at text),map_some]

theorem fw_getenv_eq (block : Block vars data)
    (noEqual : equalSign ∉ name.bytes) : fw_getenv data name = some (lookup name vars) := by
  rw [fw_getenv_varName block,varName_self noEqual]

theorem copyOut_eq : ∀ (value : List UInt8) (len val : Nat), 0 ∉ value → value.length < len →
    data.drop val = value ++ 0 :: rest → copyOut data len val = some (value ++ [0],true) := by
  intro value
  induction value with
  | nil =>
    intro len val _ room suffix
    obtain ⟨len,rfl⟩ : ∃ n, len = n + 1 := ⟨len-1,by omega⟩
    rw [copyOut,getElem_of_drop suffix]
    rfl
  | cons c value ih =>
    intro len val nulFree room suffix
    obtain ⟨len,rfl⟩ : ∃ n, len = n + 1 := ⟨len-1,by omega⟩
    obtain ⟨char,free⟩ : 0 ≠ c ∧ 0 ∉ value := by simpa using nulFree
    rw [copyOut,getElem_of_drop suffix,bind_some,if_neg char.symm,
      ih len (val+1) free (by simpa using room) (drop_next suffix)]
    rfl

theorem getenv_f_eq (block : Block vars data)
    (noEqual : equalSign ∉ name.bytes) (stored : lookup name vars = some value) {len : Nat}
    (room : value.length < len) : getenv_f data name len = some ((value.length : Int),value.bytes ++ [0]) := by
  obtain ⟨pad,text,_⟩ := block.text
  have found := findEntry_cases block name
  rw [varName_self noEqual] at found
  rcases found with ⟨_,others⟩ | ⟨before,first,after,rfl,others,found⟩
  · rw [lookup_none others] at stored; cases stored
  rw [lookup_some others] at stored
  obtain rfl : first = value := by simpa using stored
  have copied := copyOut_eq first.bytes len _ first.nulFree room (value_at text)
  rw [getenv_f,found,bind_some]
  simp only [copied,map_some,if_true]
  simp [CString.length]

/-! ### Taking a definition out -/

/-- One turn of the loop: the part in front of the gap grows by the character behind it. -/
theorem moveEntries_step (fuel : Nat) {pre gap left : List UInt8} {g c : UInt8} :
    moveEntries (fuel+1) (pre ++ (g :: gap ++ c :: left)) pre.length (pre.length + (g :: gap).length) =
      if c = 0 then
        left.head?.bind fun d =>
          if d = 0 then some (pre ++ [c] ++ (gap ++ [c] ++ left),pre.length)
          else moveEntries fuel (pre ++ [c] ++ (gap ++ [c] ++ left)) (pre ++ [c]).length ((pre ++ [c]).length + (gap ++ [c]).length)
      else moveEntries fuel (pre ++ [c] ++ (gap ++ [c] ++ left)) (pre ++ [c]).length ((pre ++ [c]).length + (gap ++ [c]).length) := by
  have here : (pre ++ (g :: gap ++ c :: left)).drop (pre.length + (g :: gap).length) = c :: left := by
    rw [← append_assoc,drop_left' (by simp)]
  have stored : store (pre ++ (g :: gap ++ c :: left)) pre.length c = some (pre ++ [c] ++ (gap ++ [c] ++ left)) := by
    have step := @store_middle _ pre [] (gap ++ c :: left) g c
    simpa using step
  have position : pre.length + (g :: gap).length + 1 = (pre ++ [c]).length + (gap ++ [c]).length := by simp; omega
  have next : (pre ++ [c] ++ (gap ++ [c] ++ left))[(pre ++ [c]).length + (gap ++ [c]).length]? = left.head? := by
    rw [← append_assoc (pre ++ [c]),← length_append,getElem?_append_right (le_refl _),Nat.sub_self,
      ← head?_eq_getElem?]
  have front : pre.length + 1 = (pre ++ [c]).length := by simp
  rw [moveEntries,getElem_of_drop here,bind_some,stored,bind_some,position,next,front]

/-- The loop moves the rest of an entry and all later ones down over the gap. It
    stops at the NUL that is followed by another one. -/
theorem moveEntries_eq {pad : List UInt8} : ∀ (fuel : Nat) (entry : List UInt8) (after : List Var) (pre gap : List UInt8), 0 ∉ entry →
    gap ≠ [] → (entry ++ 0 :: blockText after).length ≤ fuel →
    ∃ junk, junk.length = gap.length ∧
      moveEntries fuel (pre ++ (gap ++ (entry ++ 0 :: (blockText after ++ 0 :: pad)))) pre.length (pre.length+gap.length) =
        some (pre ++ (entry ++ 0 :: blockText after) ++ (junk ++ 0 :: pad),
          pre.length + (entry ++ 0 :: blockText after).length - 1) := by
  intro fuel
  induction fuel with
  | zero => intro entry after pre gap _ _ enough; simp at enough
  | succ fuel ih =>
    intro entry after pre gap nulFree gapped enough
    obtain ⟨g,gap,rfl⟩ := exists_cons_of_ne_nil gapped
    cases entry with
    | cons c entry =>
      obtain ⟨char,free⟩ : 0 ≠ c ∧ 0 ∉ entry := by simpa using nulFree
      obtain ⟨junk,length,moved⟩ := ih entry after (pre ++ [c]) (gap ++ [c]) free (by simp) (by simpa using enough)
      refine ⟨junk,by simpa using length,?_⟩
      have step := @moveEntries_step fuel pre gap (entry ++ 0 :: (blockText after ++ 0 :: pad)) g c
      rw [if_neg char.symm,moved] at step
      refine step.trans ?_
      simp
    | nil =>
      cases after with
      | nil =>
        refine ⟨gap ++ [0],by simp,?_⟩
        have step := @moveEntries_step fuel pre gap (0 :: pad) g 0
        simpa using step
      | cons v after =>
        obtain ⟨c,tail,text,char⟩ := varText_cons v
        obtain ⟨junk,length,moved⟩ := ih (varText v) after (pre ++ [0]) (gap ++ [0]) (varText_nulFree v) (by simp)
          (by rw [blockText_cons] at enough; simpa using enough)
        refine ⟨junk,by simpa using length,?_⟩
        have step := @moveEntries_step fuel pre gap (varText v ++ 0 :: (blockText after ++ 0 :: pad)) g 0
        have head : (varText v ++ 0 :: (blockText after ++ 0 :: pad)).head? = some c := by rw [text]; rfl
        rw [head,bind_some,if_neg char,moved] at step
        have shape : 0 :: (blockText (v :: after) ++ 0 :: pad) = 0 :: (varText v ++ 0 :: (blockText after ++ 0 :: pad)) := by
          rw [blockText_cons]; simp
        rw [nil_append,shape,step,blockText_cons]
        simp

theorem removeEntry_eq {v : Var} (block : Block (before ++ v :: after) data) :
    ∃ data', removeEntry data (blockText before).length ((blockText before).length + (varText v).length) = some data' ∧
      data'.length = data.length ∧ Block (before ++ after) data' := by
  obtain ⟨names,pad,text,_⟩ := block
  have namesLeft : ∀ w ∈ before ++ after, equalSign ∉ w.1.bytes := by
    intro w member
    refine names w ?_
    simp only [mem_append,mem_cons] at member ⊢
    tauto
  rw [blockText_append,blockText_cons] at text
  set pre := blockText before with preIs
  obtain ⟨c,tail,entry,char⟩ := varText_cons v
  have shape : data = pre ++ (varText v ++ 0 :: (blockText after ++ 0 :: pad)) := by rw [text]; simp
  have next : data.drop (pre.length + (varText v).length + 1) = blockText after ++ 0 :: pad := by
    rw [shape,drop_middle]
  cases after with
  | nil =>
    have ends : data[pre.length + (varText v).length + 1]? = some 0 := getElem_of_drop next
    -- the entry had at least its equal sign and a terminator, so both stores hit it
    have first : store data pre.length 0 = some (pre ++ 0 :: (tail ++ 0 :: 0 :: pad)) := by
      rw [shape,entry]
      have step := @store_middle _ pre [] (tail ++ 0 :: 0 :: pad) c 0
      simpa using step
    obtain ⟨d,rest,tailIs⟩ : ∃ d rest, tail ++ 0 :: 0 :: pad = d :: rest := by
      cases tail with
      | nil => exact ⟨_,_,rfl⟩
      | cons d tail => exact ⟨_,_,rfl⟩
    have second : store (pre ++ 0 :: (tail ++ 0 :: 0 :: pad)) (pre.length+1) 0 = some (pre ++ 0 :: 0 :: rest) := by
      rw [tailIs]
      have step := @store_middle _ pre [0] rest d 0
      simpa using step
    refine ⟨pre ++ 0 :: 0 :: rest,?_,?_,namesLeft,0 :: rest,by simp [preIs],by simp⟩
    · rw [removeEntry,ends]
      simp [first,second]
    have := congrArg List.length tailIs
    rw [shape,entry]
    simp only [length_append,length_cons,blockText_nil,length_nil] at this ⊢
    omega
  | cons w after =>
    obtain ⟨d,rest,nextText,notNul⟩ := varText_cons w
    have more : data.drop (pre.length + (varText v).length + 1) = d :: (rest ++ 0 :: (blockText after ++ 0 :: pad)) := by
      rw [next,blockText_cons,nextText]; simp
    have enough : (varText w ++ 0 :: blockText after).length ≤ data.length + 1 := by
      rw [shape,blockText_cons]; simp; omega
    obtain ⟨junk,length,moved⟩ := @moveEntries_eq pad (data.length+1) (varText w) after pre (varText v ++ [0])
      (varText_nulFree w) (by simp) enough
    have dataIs : pre ++ (varText v ++ [0] ++ (varText w ++ 0 :: (blockText after ++ 0 :: pad))) = data := by
      rw [shape,blockText_cons]; simp
    rw [dataIs] at moved
    obtain ⟨j,junk,rfl⟩ := exists_cons_of_ne_nil (show junk ≠ [] by rintro rfl; simp at length)
    have last : store (pre ++ (varText w ++ 0 :: blockText after) ++ (j :: junk ++ 0 :: pad))
        (pre.length + (varText w ++ 0 :: blockText after).length) 0 =
          some (pre ++ (varText w ++ 0 :: blockText after) ++ 0 :: (junk ++ 0 :: pad)) := by
      have step := @store_middle _ pre (varText w ++ 0 :: blockText after) (junk ++ 0 :: pad) j 0
      simpa using step
    refine ⟨pre ++ (varText w ++ 0 :: blockText after) ++ 0 :: (junk ++ 0 :: pad),?_,?_,namesLeft,junk ++ 0 :: pad,?_,by simp⟩
    · have gap : pre.length + (varText v ++ [0]).length = pre.length + (varText v).length + 1 := by simp; omega
      have position : pre.length + (varText w ++ 0 :: blockText after).length - 1 + 1 =
          pre.length + (varText w ++ 0 :: blockText after).length := by simp; omega
      rw [gap] at moved
      rw [removeEntry,getElem_of_drop more,bind_some,if_neg notNul,moved,bind_some]
      simp only [position]
      exact last
    · rw [← dataIs]
      simp only [length_append,length_cons,length_nil] at length ⊢
      omega
    · rw [blockText_append,blockText_cons]

/-! ### Appending a definition -/

theorem findEnd_entry : ∀ (fuel : Nat) (entry : List UInt8) (after : List Var) (env : Nat), 0 ∉ entry →
    (entry ++ 0 :: blockText after).length ≤ fuel → data.drop env = entry ++ 0 :: (blockText after ++ 0 :: pad) →
    findEnd data fuel env = some (env + (entry ++ blockText after).length) := by
  intro fuel
  induction fuel with
  | zero => intro entry after env _ enough; simp at enough
  | succ fuel ih =>
    intro entry after env nulFree enough suffix
    cases entry with
    | cons c entry =>
      obtain ⟨char,free⟩ : 0 ≠ c ∧ 0 ∉ entry := by simpa using nulFree
      have rest := ih entry after (env+1) free (by simpa using enough) (drop_next suffix)
      rw [findEnd,getElem_of_drop suffix,bind_some,if_pos char.symm,rest]
      simp; omega
    | nil =>
      have next := drop_next suffix
      cases after with
      | nil =>
        rw [findEnd,getElem_of_drop suffix,getElem_of_drop next]
        simp
      | cons v after =>
        obtain ⟨c,tail,text,char⟩ := varText_cons v
        rw [blockText_cons,append_assoc] at next
        have rest := ih (varText v) after (env+1) (varText_nulFree v)
          (by rw [blockText_cons] at enough; simpa using enough) next
        have there : data.drop (env+1) = c :: (tail ++ 0 :: (blockText after ++ 0 :: pad)) := by rw [next,text]; rfl
        rw [findEnd,getElem_of_drop suffix,bind_some,getElem_of_drop there,bind_some,if_pos char,rest]
        rw [blockText_cons]
        simp; omega

theorem end_of_block (block : Block vars data) :
    ∃ env, findEnd data (data.length+1) 0 = some env ∧ (if 0 < env then env + 1 else env) = (blockText vars).length := by
  obtain ⟨_,pad,text,twice⟩ := block
  cases vars with
  | nil =>
    obtain ⟨rest,padIs⟩ := head?_eq_some_iff.mp (twice rfl)
    refine ⟨0,?_,rfl⟩
    rw [text,padIs]
    rfl
  | cons v vars =>
    have suffix : data.drop 0 = varText v ++ 0 :: (blockText vars ++ 0 :: pad) := by
      rw [text,blockText_cons]; simp
    have enough : (varText v ++ 0 :: blockText vars).length ≤ data.length + 1 := by
      rw [text,blockText_cons]; simp; omega
    refine ⟨_,findEnd_entry _ _ _ _ (varText_nulFree v) enough suffix,?_⟩
    obtain ⟨c,tail,entry,_⟩ := varText_cons v
    rw [if_pos (by rw [entry]; simp),blockText_cons]
    simp; omega

theorem putEntry_eq {text old : List UInt8} {name value : CString} (room : name.length + 2 + (value.length+1) ≤ old.length) :
    ∃ pad, putEntry (text ++ old) text.length name value = some (text ++ (varText (name,value) ++ [0]) ++ 0 :: pad) ∧
      (text ++ (varText (name,value) ++ [0]) ++ 0 :: pad).length = (text ++ old).length := by
  simp only [CString.length] at room
  obtain ⟨r,rest,oldRest⟩ : ∃ r rest, old.drop name.bytes.length = r :: rest := by
    refine exists_cons_of_ne_nil ?_
    rw [ne_eq,drop_eq_nil_iff]; omega
  have restLength : rest.length + 1 + name.bytes.length = old.length := by
    have := congrArg List.length oldRest
    simp only [length_drop,length_cons] at this
    omega
  obtain ⟨a,b,pad,restEnd⟩ : ∃ a b pad, rest.drop value.bytes.length = a :: b :: pad := by
    have long : 2 ≤ (rest.drop value.bytes.length).length := by simp only [length_drop]; omega
    match found : rest.drop value.bytes.length with
    | [] => rw [found] at long; simp at long
    | [_] => rw [found] at long; simp at long
    | a :: b :: pad => exact ⟨a,b,pad,rfl⟩
  have named : name.bytes.foldlM put (text ++ old,text.length) =
      some (text ++ (name.bytes ++ r :: rest),text.length+name.bytes.length) := by
    rw [foldlM_put_append text name.bytes old (by omega),oldRest]
    simp
  have ended := @store_middle _ text name.bytes rest r 0
  have equalled := @store_middle _ text name.bytes rest 0 equalSign
  have valued : value.bytes.foldlM put (text ++ (name.bytes ++ equalSign :: rest),text.length + name.bytes.length + 1) =
      some (text ++ (varText (name,value) ++ a :: b :: pad),text.length + (varText (name,value)).length) := by
    have step := foldlM_put_append (text ++ (name.bytes ++ [equalSign])) value.bytes rest (by omega)
    rw [restEnd] at step
    simpa [varText,Nat.add_assoc] using step
  have first := @store_middle _ text (varText (name,value)) (b :: pad) a 0
  have second : store (text ++ (varText (name,value) ++ 0 :: b :: pad)) (text.length + (varText (name,value)).length + 1) 0 =
      some (text ++ (varText (name,value) ++ 0 :: 0 :: pad)) := by
    have step := @store_middle _ text (varText (name,value) ++ [0]) pad b 0
    simpa [Nat.add_assoc] using step
  refine ⟨pad,?_,?_⟩
  · simp only [putEntry,named,bind_some,ended,equalled,valued,first,second]
    simp
  have := congrArg List.length restEnd
  simp only [length_drop,length_cons] at this
  simp only [varText,length_append,length_cons,length_nil]
  omega

/-- Whether a new definition fits behind these variables. -/
def Room (vars : List Var) (size : Nat) (name value : CString) : Prop :=
  (blockText vars).length + (name.length + value.length + 3) ≤ size

theorem appendEntry_eq (block : Block vars data) (name value : CString) :
    (¬ Room vars data.length name value ∧ appendEntry data name value = some (data,.overflow)) ∨
      (Room vars data.length name value ∧ ∃ data' pad, appendEntry data name value = some (data',.done) ∧
        data'.length = data.length ∧ data' = blockText (vars ++ [(name,value)]) ++ 0 :: pad) := by
  obtain ⟨env,ends,position⟩ := end_of_block block
  obtain ⟨names,pad,text,_⟩ := block
  by_cases fits : Room vars data.length name value
  · refine .inr ⟨fits,?_⟩
    unfold Room at fits
    obtain ⟨pad',put,length⟩ := @putEntry_eq (blockText vars) (0 :: pad) name value
      (by rw [text] at fits; simp only [length_append] at fits; omega)
    rw [← text] at put length
    refine ⟨_,pad',?_,length,by simp [blockText]⟩
    simp only [appendEntry,ends,bind_some,position,put,map_some]
    rw [if_neg (by omega)]
  refine .inl ⟨fits,?_⟩
  unfold Room at fits
  simp only [appendEntry,ends,bind_some,position]
  rw [if_pos (by omega)]

theorem appended_block {data' : List UInt8} (block : Block vars data) {v : Var}
    (noEqual : equalSign ∉ v.1.bytes) (text : data' = blockText (vars ++ [v]) ++ 0 :: pad) : Block (vars ++ [v]) data' := by
  refine ⟨?_,pad,text,by simp⟩
  intro w member
  rcases mem_append.mp member with old | new
  · exact block.names w old
  · obtain rfl : w = v := by simpa using new
    exact noEqual

/-! ### Writing a variable -/

/-- The variables without the first definition of a name. -/
def without (name : CString) (vars : List Var) : List Var := vars.eraseP fun v => v.1 = name

theorem without_absent (others : ∀ v ∈ vars, v.1 ≠ name) : without name vars = vars :=
  eraseP_of_forall_not (by simpa using others)

theorem without_first (others : ∀ v ∈ before, v.1 ≠ name) :
    without name (before ++ (name,value) :: after) = before ++ after := by
  rw [without,eraseP_append_right _ (by simpa using others)]
  simp

theorem without_other : ∀ {vars : List Var}, (vars.map Prod.fst).Nodup → ∀ v ∈ without name vars, v.1 ≠ name := by
  intro vars
  induction vars with
  | nil => intro _ v member; simp [without] at member
  | cons w vars ih =>
    intro distinct v member
    obtain ⟨notLater,later⟩ := nodup_cons.mp (by simpa using distinct : (w.1 :: vars.map Prod.fst).Nodup)
    by_cases here : w.1 = name
    · rw [without,eraseP_cons_of_pos (by simpa using here)] at member
      intro same
      exact notLater (mem_map.mpr ⟨v,member,same.trans here.symm⟩)
    rw [without,eraseP_cons_of_neg (by simpa using here)] at member
    rcases mem_cons.mp member with rfl | member
    · exact here
    · exact ih later v member

/-- The block once the old definition is gone, and how `fw_env_write` goes on from there. -/
theorem fw_env_write_removed (block : Block vars data) (access : Access)
    (name value : CString) :
    ∃ data', data'.length = data.length ∧ Block (without (varName name) vars) data' ∧
      fw_env_write access data name value =
        if access.denies name (lookup (varName name) vars) value then some (data,.readOnly)
        else if value.bytes = [] then some (data',.done) else appendEntry data' name value := by
  obtain ⟨pad,text,_⟩ := block.text
  rcases findEntry_cases block name with ⟨found,others⟩ | ⟨before,old,after,rfl,others,found⟩
  · refine ⟨data,rfl,by rw [without_absent others]; exact block,?_⟩
    rw [fw_env_write,found,lookup_none others]
    rfl
  obtain ⟨data',gone,length,left⟩ := removeEntry_eq block
  refine ⟨data',length,by rw [without_first others]; exact left,?_⟩
  rw [fw_env_write,found,lookup_some others]
  simp only [bind_some,stringAt_value (value_at text),map_some,gone]

/-- `fw_env_write` on a block: refused and unchanged, or the first definition of the
    name is gone and the new one, if there is one and it fits, stands at the end. -/
theorem fw_env_write_spec (block : Block vars data) (access : Access)
    (noEqual : equalSign ∉ name.bytes) (value : CString) :
    (access.denies name (lookup name vars) value = true ∧ fw_env_write access data name value = some (data,.readOnly)) ∨
      (access.denies name (lookup name vars) value = false ∧ ∃ data', data'.length = data.length ∧
        ((value.bytes = [] ∧ fw_env_write access data name value = some (data',.done) ∧ Block (without name vars) data') ∨
          (value.bytes ≠ [] ∧ ¬ Room (without name vars) data.length name value ∧
            fw_env_write access data name value = some (data',.overflow) ∧ Block (without name vars) data') ∨
          (value.bytes ≠ [] ∧ Room (without name vars) data.length name value ∧
            fw_env_write access data name value = some (data',.done) ∧
            Block (without name vars ++ [(name,value)]) data'))) := by
  obtain ⟨data',length,left,written⟩ := fw_env_write_removed block access name value
  rw [varName_self noEqual] at left written
  by_cases denied : access.denies name (lookup name vars) value = true
  · exact .inl ⟨denied,by rw [written,if_pos denied]⟩
  rw [if_neg denied] at written
  refine .inr ⟨by simpa using denied,?_⟩
  by_cases empty : value.bytes = []
  · exact ⟨data',length,.inl ⟨empty,by rw [written,if_pos empty],left⟩⟩
  rw [if_neg empty] at written
  rcases appendEntry_eq left name value with ⟨full,appended⟩ | ⟨room,data'',pad,appended,length',text⟩
  · exact ⟨data',length,.inr (.inl ⟨empty,by rw [← length]; exact full,by rw [written]; exact appended,left⟩)⟩
  · exact ⟨data'',length'.trans length,.inr (.inr ⟨empty,by rw [← length]; exact room,by rw [written]; exact appended,
      appended_block left noEqual text⟩)⟩

end UBoot.FwEnvBlock
