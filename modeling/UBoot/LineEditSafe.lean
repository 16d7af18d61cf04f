import UBoot.LineEdit

/-!
The line editor stays inside its buffers, whatever keys are pressed in however many calls, except that the
completion copies a line of `CONFIG_SYS_CBSIZE` characters into a buffer of that size (`editing_inside_iff`).
-/
namespace UBoot.LineEditSafe
open List Nat Option Buffers CStrings Commands LineEdit

variable {l : Line} {names : Names} {behind : Nat → CString} {n : Nat} {stage : Stage}

/-! ### Buffers -/

theorem memmove_fits {data : List UInt8} {dest src n : Nat} (source : src + n ≤ data.length) (target : dest + n ≤ data.length) :
    ∃ after, memmove data dest src n = some after ∧ after.length = data.length := by
  rw [memmove,if_pos source]
  exact storeAll_fits (by simp only [length_take,length_drop]; omega)

theorem strcpy_fits {dest : List UInt8} {s : CString} (fits : s.length < dest.length) :
    ∃ after, strcpy dest s = some after ∧ after.length = dest.length ∧ after[s.length]? = some 0 := by
  have room : 0 + (s.bytes ++ [0]).length ≤ dest.length := by
    simpa [CString.length] using fits
  refine ⟨_,if_pos room,?_,?_⟩
  · simp only [length_append,length_take,length_drop] at room ⊢
    omega
  · simp [CString.length]

theorem skipWhile_stops {cond : UInt8 → Bool} {data : List UInt8} {e : Nat} {c : UInt8} (there : data[e]? = some c)
    (stops : cond c = false) : ∀ {fuel dp : Nat}, dp ≤ e → e < dp + fuel →
    ∃ r d, skipWhile cond data fuel dp = some r ∧ dp ≤ r ∧ r ≤ e ∧ data[r]? = some d ∧ cond d = false := by
  intro fuel
  induction fuel with
  | zero => omega
  | succ fuel ih =>
    intro dp start enough
    have inside : dp < data.length := lt_of_le_of_lt start (List.getElem?_eq_some_iff.mp there).1
    rw [skipWhile,getElem?_eq_getElem inside]
    by_cases goes : cond data[dp] = true
    · have other : dp ≠ e := fun same => by
        subst same
        rw [getElem?_eq_getElem inside,Option.some.injEq] at there
        rw [there,stops] at goes
        exact Bool.noConfusion goes
      obtain ⟨r,d,found,after,before,value,fails⟩ := @ih (dp+1) (by omega) (by omega)
      simp only [goes,if_true]
      exact ⟨r,d,found,by omega,before,value,fails⟩
    · simp only [goes,Bool.false_eq_true,if_false]
      exact ⟨dp,_,rfl,le_refl _,start,getElem?_eq_getElem inside,Bool.eq_false_iff.mpr goes⟩

/-! ### Completion -/

theorem make_argv_inside {e : Nat} : ∀ (n : Nat) (data : List UInt8) (s : Nat), data[e]? = some 0 → s ≤ e →
    ∃ after starts, make_argv n data s = some (after,starts) ∧ after.length = data.length ∧ after[e]? = some 0 ∧
      ∀ w ∈ starts, w ≤ e := by
  intro n
  induction n with
  | zero => intro data s nul _; exact ⟨data,[],rfl,rfl,nul,fun _ member => absurd member not_mem_nil⟩
  | succ n ih =>
    intro data s nul start
    have inside := (List.getElem?_eq_some_iff.mp nul).1
    obtain ⟨word,c,skipped,_,wordLe,wordChar,_⟩ :=
      @skipWhile_stops isblank data e 0 nul (by decide) data.length s start (by omega)
    rw [make_argv,skipped]
    by_cases noWord : data[word]? = some 0
    · exact ⟨data,[],by simp [noWord],rfl,nul,fun _ member => absurd member not_mem_nil⟩
    obtain ⟨behind,d,found,_,behindLe,behindChar,_⟩ :=
      @skipWhile_stops inWord data e 0 nul (by decide) data.length word wordLe (by omega)
    by_cases last : data[behind]? = some 0
    · refine ⟨data,[word],by simp [noWord,found,last],rfl,nul,fun w member => ?_⟩
      rw [mem_singleton.mp member]
      exact wordLe
    -- The NUL at the end is not touched, since the character at `behind` is a blank.
    have before : behind < e := lt_of_le_of_ne behindLe fun same => last (same ▸ nul)
    obtain ⟨after,starts,rest,length,still,bounds⟩ := ih (data.set behind 0) (behind+1)
      (by rw [getElem?_set_ne (Nat.ne_of_lt before)]; exact nul) before
    refine ⟨after,word :: starts,?_,by rw [length,length_set],still,fun w member => ?_⟩
    · simp [noWord,found,last,store_fits (show behind < data.length by omega),rest]
    rcases mem_cons.mp member with rfl | later
    · exact wordLe
    · exact bounds w later

theorem addName_fits {cmdv : List CString} (room : cmdv.length < maxv) (name : CString) :
    addName cmdv name = some (cmdv ++ [name]) := if_pos room

theorem endNames_fits {cmdv : List CString} (room : cmdv.length < maxv) : endNames cmdv = some cmdv := if_pos room

/-- `bufsz` is what is left of the buffer. -/
theorem envLoop_inside : ∀ (keys cmdv : List CString) (buf bufsz : Nat), buf + bufsz = varSize → cmdv.length ≤ maxv - 2 →
    ∃ names early, envLoop keys cmdv buf bufsz = some (names,early) ∧ names.length ≤ maxv - 2 := by
  intro keys
  induction keys with
  | nil => intro cmdv _ _ _ few; exact ⟨cmdv,false,rfl,few⟩
  | cons key rest ih =>
    intro cmdv buf bufsz room few
    rw [envLoop]
    by_cases stops : maxv - 2 ≤ cmdv.length ∨ bufsz < key.length + 1
    · exact ⟨cmdv,true,if_pos stops,few⟩
    have fits : ¬ varSize < buf + (key.length+1) := by omega
    have space : cmdv.length < maxv := by omega
    simp only [if_neg stops,if_neg fits,addName_fits space]
    exact ih _ _ _ (by omega) (by simp only [length_append,length_singleton]; omega)

theorem env_complete_inside (vars : List CString) (var : List UInt8) : ∃ cmdv, env_complete vars var = some cmdv := by
  obtain ⟨names,early,loop,few⟩ :=
    envLoop_inside (vars.filter fun key => var.isPrefixOf key.bytes) [] 0 varSize (zero_add _) (zero_le _)
  have sorted : (Qsort.qsort strcmp names.toArray).toList.length = names.length := by
    simpa using (Array.perm_iff_toList_perm.mp (Qsort.qsort_perm strcmp names.toArray)).length_eq
  simp only [maxv] at few
  rw [env_complete,loop]
  cases early with
  | false =>
    exact ⟨_,endNames_fits (by rw [maxv]; omega)⟩
  | true =>
    simp only [bind_eq_bind,bind_some,if_true,addName_fits (by rw [sorted,maxv]; omega)]
    exact ⟨_,endNames_fits (by rw [length_append,length_singleton,maxv]; omega)⟩

theorem cmdLoop_inside (cmd : List UInt8) : ∀ (commands : List Command) (cmdv : List CString), cmdv.length ≤ maxv - 2 →
    ∃ names, cmdLoop cmd commands cmdv = some names := by
  intro commands
  induction commands with
  | nil => intro cmdv few; exact ⟨cmdv,endNames_fits (by simp only [maxv] at few ⊢; omega)⟩
  | cons cmdtp rest ih =>
    intro cmdv few
    have space : cmdv.length < maxv := by simp only [maxv] at few ⊢; omega
    rw [cmdLoop]
    split
    · rw [addName_fits space,addName_fits space]
      split
      · exact ⟨_,endNames_fits (by simp only [maxv,length_append,length_singleton] at few ⊢; omega)⟩
      · exact ih _ (by simp only [length_append,length_singleton]; omega)
    · exact ih cmdv few

theorem complete_cmdv_inside (names : Names) (argv : List CString) (last_char : UInt8) :
    ∃ cmdv, complete_cmdv names argv last_char = some cmdv ∧ (argv = [] → cmdv = []) := by
  cases argv with
  | nil => exact ⟨[],rfl,fun _ => rfl⟩
  | cons cmd rest =>
    have some_ : ∃ cmdv, complete_cmdv names (cmd :: rest) last_char = some cmdv := by
      rw [complete_cmdv]
      split
      · split
        · exact ⟨[],rfl⟩
        split
        · unfold var_complete
          split
          · exact env_complete_inside _ _
          · exact env_complete_inside _ _
          · exact ⟨[],rfl⟩
        · exact ⟨[],rfl⟩
      · exact cmdLoop_inside _ _ _ (zero_le _)
    obtain ⟨cmdv,found⟩ := some_
    exact ⟨cmdv,found,fun none_ => absurd none_ (cons_ne_nil _ _)⟩

/-- A line that is not full, or not edited at the prompt, is copied and completed inside of the two buffers. -/
theorem cmd_auto_complete_inside (names : Names) (behind : Nat → CString) {buf tmp_buf : List UInt8} {n : Nat}
    (size : buf.length = CONFIG_SYS_CBSIZE + 1) (copySize : tmp_buf.length = CONFIG_SYS_CBSIZE) (nul : buf[n]? = some 0)
    (room : names.console = true → 0 ∈ buf.take CONFIG_SYS_CBSIZE) :
    ∃ after copy col, cmd_auto_complete names behind buf tmp_buf n = some (after,copy,col) ∧ after.length = buf.length ∧
      copy.length = tmp_buf.length ∧ n + col ≤ CONFIG_SYS_CBSIZE := by
  have position := (List.getElem?_eq_some_iff.mp nul).1
  rw [cmd_auto_complete]
  by_cases console : names.console = false
  · exact ⟨buf,tmp_buf,0,if_pos console,rfl,rfl,by omega⟩
  rw [if_neg console]
  obtain ⟨e,early,first⟩ := mem_iff_getElem.mp (room (Bool.eq_true_of_not_eq_false console))
  rw [getElem_take] at first
  rw [length_take] at early
  obtain ⟨text,found,short⟩ := stringAt_ends (List.getElem?_eq_some_iff.mpr ⟨_,first⟩) (zero_le e)
  obtain ⟨text',found',upTo⟩ := stringAt_ends nul (zero_le n)
  cases found.symm.trans found'
  obtain ⟨copy,copied,copyLength,copyNul⟩ := @strcpy_fits tmp_buf text (by omega)
  obtain ⟨cut,starts,made,cutLength,cutNul,bounds⟩ := make_argv_inside CONFIG_SYS_MAXARGS copy 0 copyNul (zero_le _)
  obtain ⟨argv,words⟩ := @mapM_defined _ _ (stringAt cut) starts fun w member =>
    let ⟨s,read,_⟩ := stringAt_ends cutNul (bounds w member)
    ⟨s,read⟩
  obtain ⟨cmdv,completions,nothing⟩ := complete_cmdv_inside names argv (text.bytes.getLast?.getD 0)
  simp only [found,copied,made,words,completions,bind_eq_bind,bind_some]
  have same : cut.length = tmp_buf.length := cutLength.trans copyLength
  by_cases none_ : cmdv = []
  · exact ⟨buf,cut,0,if_pos none_,rfl,same,by omega⟩
  rw [if_neg none_,getLast?_eq_some_getLast fun empty => none_ (nothing empty),bind_some]
  cases suggestion behind cmdv (argv.getLast _) with
  | none => exact ⟨buf,cut,0,rfl,rfl,same,by omega⟩
  | some more =>
    by_cases full : CONFIG_SYS_CBSIZE - 2 ≤ n + more.length
    · exact ⟨buf,cut,0,if_pos full,rfl,same,by omega⟩
    simp only [CONFIG_SYS_CBSIZE] at full size
    obtain ⟨after,stored,length⟩ := @storeAll_fits _ buf (more ++ [0]) text.length (by
      simp only [length_append,length_singleton]; omega)
    refine ⟨after,cut,more.length,?_,length,same,by simp only [CONFIG_SYS_CBSIZE]; omega⟩
    simp only [CONFIG_SYS_CBSIZE,if_neg full,stored,bind_some]

theorem cmd_auto_complete_overrun {buf tmp_buf : List UInt8}
    (size : buf.length = CONFIG_SYS_CBSIZE + 1) (copySize : tmp_buf.length = CONFIG_SYS_CBSIZE) (console : names.console = true)
    (full : 0 ∉ buf.take CONFIG_SYS_CBSIZE) : cmd_auto_complete names behind buf tmp_buf n = none := by
  rw [cmd_auto_complete,if_neg (by rw [console]; exact Bool.noConfusion)]
  cases found : stringAt buf 0 with
  | none => rfl
  | some text =>
    have long : CONFIG_SYS_CBSIZE ≤ text.length := by
      by_contra short
      have nul := stringAt_nul found
      rw [zero_add] at nul
      obtain ⟨inside,nul⟩ := List.getElem?_eq_some_iff.mp nul
      refine full (mem_iff_getElem.mpr ⟨text.length,?_,?_⟩)
      · rw [length_take]
        omega
      · rw [getElem_take,nul]
    have overrun : strcpy tmp_buf text = none := if_neg (by
      simp only [length_append,length_singleton,CString.length] at long ⊢
      omega)
    simp only [bind_eq_bind,bind_some,overrun,bind_none]

/-! ### History -/

structure Kept (h : History) : Prop where
  lines : h.hist_lines.length = HIST_MAX
  line : ∀ line ∈ h.hist_lines, line.length = HIST_SIZE + 1 ∧ 0 ∈ line
  last : h.hist_max < HIST_MAX
  add : h.hist_add_idx < HIST_MAX
  cur : h.hist_cur < HIST_MAX

theorem hist_init_kept {hist_lines : List (List UInt8)} (lines : hist_lines.length = HIST_MAX)
    (sizes : ∀ line ∈ hist_lines, line.length = HIST_SIZE + 1) : ∃ h, hist_init hist_lines = some h ∧ Kept h := by
  have stored : ∀ line ∈ hist_lines, store line 0 0 = some (line.set 0 0) := fun line member =>
    store_fits (by rw [sizes line member]; exact succ_pos _) 0
  obtain ⟨after,cleared⟩ := @mapM_defined _ _ (fun line => store line 0 0) hist_lines fun line member =>
    ⟨_,stored line member⟩
  have length : after.length = hist_lines.length := (mapM_relates.mp cleared).length_eq.symm
  refine ⟨⟨0,0,-1,after⟩,by rw [hist_init,cleared]; rfl,length.trans lines,fun line member => ?_,succ_pos _,succ_pos _,show (-1 : Int) < HIST_MAX by decide⟩
  obtain ⟨old,inside,value⟩ := (mem_mapM cleared).mp member
  cases (stored old inside).symm.trans value
  have positive : 0 < old.length := by rw [sizes old inside]; exact succ_pos _
  exact ⟨by rw [length_set,sizes old inside],mem_iff_getElem.mpr ⟨0,by simpa using positive,getElem_set_self _⟩⟩

theorem cread_add_to_hist_kept {h : History} (kept : Kept h) {line : CString} (short : line.length ≤ CONFIG_SYS_CBSIZE) :
    ∃ after, cread_add_to_hist h line = some after ∧ Kept after := by
  have index : h.hist_add_idx < h.hist_lines.length := by rw [kept.lines]; exact kept.add
  have size := (kept.line _ (getElem_mem index)).1
  obtain ⟨copy,copied,length,nul⟩ := @strcpy_fits h.hist_lines[h.hist_add_idx] line (by rw [size,HIST_SIZE]; omega)
  have last := kept.last
  rw [cread_add_to_hist,getElem?_eq_getElem index,bind_eq_bind,bind_some,copied]
  refine ⟨_,rfl,⟨length_set.trans kept.lines,fun line member => ?_,?_,?_,kept.cur⟩⟩
  · rcases mem_or_eq_of_mem_set member with old | rfl
    · exact kept.line line old
    · exact ⟨length.trans size,mem_of_getElem? nul⟩
  · show (if h.hist_max < _ then _ else _) < HIST_MAX
    split <;> split <;> omega
  · show (if HIST_MAX ≤ _ then _ else _) < HIST_MAX
    split <;> omega

theorem recalled_kept {h : History} (kept : Kept h) {found : History × Recalled} (asked : found = hist_prev h ∨ found = hist_next h) :
    Kept found.1 ∧ ∃ text, recalledText found.1 found.2 = some text ∧ text.length ≤ CONFIG_SYS_CBSIZE := by
  have last := kept.last
  have cur := kept.cur
  have inRange : Kept found.1 ∧ ∀ i, found.2 = .entry i → 0 ≤ i ∧ i < HIST_MAX := by
    rcases asked with rfl | rfl
    · rw [hist_prev]
      split
      · exact ⟨kept,fun i entry => Recalled.noConfusion entry⟩
      simp only
      generalize back : (if h.hist_cur - 1 < 0 then (h.hist_max : Int) else h.hist_cur - 1) = cur'
      have bounds : 0 ≤ cur' ∧ cur' < HIST_MAX := by rw [← back]; split <;> omega
      split
      · exact ⟨kept,fun i entry => Recalled.noConfusion entry⟩
      · exact ⟨{ kept with cur := bounds.2 },fun i entry => Recalled.entry.inj entry ▸ bounds⟩
    rw [hist_next]
    split
    · exact ⟨kept,fun i entry => Recalled.noConfusion entry⟩
    simp only
    generalize forth : (if (h.hist_max : Int) < h.hist_cur + 1 then 0 else h.hist_cur + 1) = cur'
    have bounds : 0 ≤ cur' ∧ cur' < HIST_MAX := by rw [← forth]; split <;> simp only [HIST_MAX] at * <;> omega
    refine ⟨{ kept with cur := bounds.2 },fun i entry => ?_⟩
    split at entry
    · exact Recalled.noConfusion entry
    · exact Recalled.entry.inj entry ▸ bounds
  refine ⟨inRange.1,?_⟩
  cases kind : found.2 with
  | null => exact ⟨_,rfl,zero_le _⟩
  | empty => exact ⟨_,rfl,zero_le _⟩
  | entry i =>
    obtain ⟨low,high⟩ := inRange.2 i kind
    have index : i.toNat < found.1.hist_lines.length := by rw [inRange.1.lines]; omega
    obtain ⟨size,nul⟩ := inRange.1.line _ (getElem_mem index)
    obtain ⟨e,inside,zero⟩ := mem_iff_getElem.mp nul
    obtain ⟨text,read,short⟩ := stringAt_ends (List.getElem?_eq_some_iff.mpr ⟨inside,zero⟩) (zero_le e)
    rw [size,HIST_SIZE] at inside
    refine ⟨text,?_,by omega⟩
    rw [recalledText,if_neg (by omega),getElem?_eq_getElem index]
    exact read

/-! ### Editing -/

structure Inside (l : Line) : Prop where
  size : l.buf.length = CONFIG_SYS_CBSIZE + 1
  cursor : l.num ≤ l.eol_num
  room : l.eol_num ≤ CONFIG_SYS_CBSIZE
  escape : l.esc_len ≤ 2
  saved : l.esc_save.length = 8
  copy : l.tmp_buf.length = CONFIG_SYS_CBSIZE
  hist : Kept l.hist

/-- A character is added inside of the buffer; what belongs to escape sequences stays. -/
theorem cread_add_char_inside (inside : Inside l) (ichar : UInt8) (insert : Bool) :
    ∃ after, cread_add_char ichar insert l = some after ∧ Inside after ∧ after.esc_len = l.esc_len ∧ after.esc_save = l.esc_save := by
  have size := inside.size
  have cursor := inside.cursor
  have room := inside.room
  rw [cread_add_char]
  by_cases full : (insert = true ∨ l.num = l.eol_num) ∧ CONFIG_SYS_CBSIZE - 1 < l.eol_num
  · exact ⟨l,if_pos full,inside,rfl,rfl⟩
  rw [if_neg full]
  simp only
  generalize last : (if insert = true ∨ l.num = l.eol_num then l.eol_num + 1 else l.eol_num) = eol_num
  have bounds : l.num < eol_num ∧ eol_num ≤ CONFIG_SYS_CBSIZE := by
    rw [← last]
    split
    case isTrue grows =>
      have : ¬ CONFIG_SYS_CBSIZE - 1 < l.eol_num := fun more => full ⟨grows,more⟩
      simp only [CONFIG_SYS_CBSIZE] at *
      omega
    case isFalse stays =>
      omega
  obtain ⟨moved,shifted,length⟩ : ∃ moved, makeRoom insert (eol_num-l.num) l = some moved ∧ moved.length = l.buf.length := by
    rw [makeRoom]
    split
    · exact memmove_fits (by omega) (by omega)
    · exact ⟨l.buf,rfl,rfl⟩
  rw [shifted,bind_eq_bind,bind_some,store_fits (by omega)]
  exact ⟨_,rfl,{ inside with size := by rw [length_set,length,size], cursor := bounds.1, room := bounds.2 },rfl,rfl⟩

theorem cread_add_str_inside (insert : Bool) : ∀ (strsize i : Nat) {l : Line}, Inside l → i + strsize ≤ 8 →
    ∃ after, cread_add_str Line.esc_save insert strsize i l = some after ∧ Inside after := by
  intro strsize
  induction strsize with
  | zero => intro i l inside _; exact ⟨l,rfl,inside⟩
  | succ strsize ih =>
    intro i l inside bound
    have saved := inside.saved
    obtain ⟨next,added,kept,_,_⟩ := cread_add_char_inside inside l.esc_save[i] insert
    rw [cread_add_str,getElem?_eq_getElem (by omega),bind_eq_bind,bind_some,added]
    exact ih (i+1) kept (by omega)

theorem cread_add_char_end (ichar : UInt8) (insert : Bool) (atEnd : l.eol_num = l.num) (room : l.num < CONFIG_SYS_CBSIZE)
    (size : l.buf.length = CONFIG_SYS_CBSIZE + 1) :
    cread_add_char ichar insert l = some { l with buf := l.buf.set l.num ichar, num := l.num + 1, eol_num := l.num + 1 } := by
  have notFull : ¬ CONFIG_SYS_CBSIZE - 1 < l.num := by omega
  have stays : makeRoom insert (l.num + 1 - l.num) l = some l.buf := if_neg (by omega)
  simp only [cread_add_char,atEnd,or_true,true_and,if_neg notFull,if_true,stays,bind_eq_bind,bind_some]
  rw [store_fits (by omega),bind_some]

theorem cread_add_str_initial : ∀ (strsize i : Nat) {l : Line}, l.num = i → l.eol_num = i → i + strsize ≤ CONFIG_SYS_CBSIZE →
    l.buf.length = CONFIG_SYS_CBSIZE + 1 →
    cread_add_str Line.buf true strsize i l = some { l with num := i + strsize, eol_num := i + strsize } := by
  intro strsize
  induction strsize with
  | zero =>
    rintro i l rfl same _ _
    cases l
    cases same
    rfl
  | succ strsize ih =>
    rintro i l rfl atEnd bound size
    have position : l.num < l.buf.length := by omega
    have added := cread_add_char_end l.buf[l.num] true atEnd (by omega) size
    rw [set_getElem_self] at added
    rw [cread_add_str,getElem?_eq_getElem position,bind_eq_bind,bind_some,added]
    have rest := @ih (l.num+1) { l with num := l.num + 1, eol_num := l.num + 1 } rfl rfl (by omega) size
    rw [add_assoc,add_comm 1] at rest
    exact rest

theorem escapes_inside (inside : Inside l) (ichar : UInt8) :
    ∃ after next, escapes ichar l = some (after,next) ∧ Inside after ∧ (l.esc_len = 0 → after = l ∧ next = some ichar) ∧
      (l.esc_len ≠ 0 → ∀ c, next = some c → arrowKey ichar = some c) := by
  have saved := inside.saved
  have escape := inside.escape
  rw [escapes]
  by_cases none_ : l.esc_len = 0
  · exact ⟨l,some ichar,if_pos none_,inside,fun _ => ⟨rfl,rfl⟩,fun some_ => absurd none_ some_⟩
  rw [if_neg none_]
  by_cases one : l.esc_len = 1
  · rw [if_pos one]
    split
    · rw [store_fits (by omega)]
      exact ⟨_,none,rfl,{ inside with saved := length_set.trans saved, escape := le_refl 2 },fun zero => absurd zero none_,
        fun _ _ given => nomatch given⟩
    obtain ⟨after,added,kept⟩ := cread_add_str_inside l.insert l.esc_len 0 inside (by omega)
    rw [added]
    exact ⟨_,none,rfl,{ kept with escape := zero_le 2 },fun zero => absurd zero none_,fun _ _ given => nomatch given⟩
  rw [if_neg one]
  cases known : arrowKey ichar with
  | some c => exact ⟨_,some c,rfl,{ inside with escape := zero_le 2 },fun zero => absurd zero none_,fun _ _ same => same⟩
  | none =>
    have stored : Inside { l with esc_save := l.esc_save.set l.esc_len ichar } :=
      { inside with saved := length_set.trans saved }
    obtain ⟨after,added,kept⟩ := cread_add_str_inside l.insert (l.esc_len+1) 0 stored (by omega)
    simp only [store_fits (show l.esc_len < l.esc_save.length by omega),bind_eq_bind,bind_some,added]
    exact ⟨_,none,rfl,{ kept with escape := zero_le 2 },fun zero => absurd zero none_,fun _ _ given => nomatch given⟩

theorem refreshToEol_inside (inside : Inside l) : Inside (refreshToEol l) := by
  rw [refreshToEol]
  split
  · exact { inside with cursor := le_refl _ }
  · exact inside

theorem eraseToEol_inside (inside : Inside l) : Inside (eraseToEol l) := by
  rw [eraseToEol]
  split
  · exact { inside with cursor := le_refl _, room := inside.cursor.trans inside.room }
  · exact inside

theorem deleteChar_inside (inside : Inside l) : ∃ after, deleteChar l = some after ∧ Inside after := by
  have size := inside.size
  have room := inside.room
  rw [deleteChar]
  split
  case isFalse => exact ⟨l,rfl,inside⟩
  case isTrue behind =>
    obtain ⟨moved,shifted,length⟩ : ∃ moved, closeGap (l.eol_num - l.num - 1) l = some moved ∧ moved.length = l.buf.length := by
      rw [closeGap]
      split
      · exact memmove_fits (by omega) (by omega)
      · exact ⟨l.buf,rfl,rfl⟩
    rw [shifted]
    exact ⟨_,rfl,{ inside with size := length.trans size, cursor := le_sub_one_of_lt behind, room := (sub_le _ _).trans room }⟩

theorem deleteBefore_inside (inside : Inside l) : ∃ after, deleteBefore l = some after ∧ Inside after := by
  have size := inside.size
  have room := inside.room
  have cursor := inside.cursor
  rw [deleteBefore]
  split
  case isFalse => exact ⟨l,rfl,inside⟩
  case isTrue some_ =>
    obtain ⟨moved,shifted,length⟩ := @memmove_fits l.buf (l.num-1) l.num (l.eol_num-l.num) (by omega) (by omega)
    rw [shifted]
    exact ⟨_,rfl,{ inside with size := length.trans size, cursor := Nat.sub_le_sub_right cursor 1, room := (Nat.sub_le _ _).trans room }⟩

theorem recallLine_inside (inside : Inside l) {found : History × Recalled}
    (asked : found = hist_prev l.hist ∨ found = hist_next l.hist) : ∃ after, recallLine found l = some after ∧ Inside after := by
  obtain ⟨kept,text,read,short⟩ := recalled_kept inside.hist asked
  rw [recallLine]
  split
  · exact ⟨_,rfl,{ inside with escape := zero_le 2, hist := kept }⟩
  obtain ⟨buf,copied,length,_⟩ := @strcpy_fits l.buf text (by rw [inside.size]; omega)
  rw [read,bind_eq_bind,bind_some,copied]
  exact ⟨_,rfl,refreshToEol_inside
    { inside with size := length.trans inside.size, cursor := zero_le _, room := short, escape := zero_le 2, hist := kept }⟩

def Full (names : Names) (l : Line) : Prop :=
  names.console = true ∧ l.num = CONFIG_SYS_CBSIZE ∧ 0 ∉ l.buf.take CONFIG_SYS_CBSIZE

/-- The terminator that is stored in front of the completion is found by it, unless the line fills the buffer. -/
theorem complete_inside (inside : Inside l) (notFull : ¬ Full names l) :
    ∃ after, complete names behind l = some after ∧ Inside after := by
  have size := inside.size
  have cursor := inside.cursor
  have room := inside.room
  rw [complete]
  split
  · exact ⟨l,rfl,inside⟩
  case isFalse atEnd =>
    have position : l.num < l.buf.length := by omega
    have length : (l.buf.set l.num 0).length = CONFIG_SYS_CBSIZE + 1 := length_set.trans size
    have nul : (l.buf.set l.num 0)[l.num]? = some 0 := by rw [getElem?_set_self position]
    obtain ⟨buf,copy,col,completed,bufLength,copyLength,short⟩ :=
      @cmd_auto_complete_inside names behind (l.buf.set l.num 0) l.tmp_buf l.num length inside.copy nul fun console => by
        by_cases last : l.num = CONFIG_SYS_CBSIZE
        · rw [take_set_of_le (le_of_eq last.symm)]
          exact by_contra fun free => notFull ⟨console,last,free⟩
        refine mem_iff_getElem.mpr ⟨l.num,?_,?_⟩
        · rw [length_take]; omega
        · rw [getElem_take,getElem_set_self]
    rw [store_fits position,bind_eq_bind,bind_some,completed]
    exact ⟨_,rfl,{ inside with
      size := bufLength.trans length, copy := copyLength.trans inside.copy, cursor := Nat.add_le_add_right cursor col,
      room := by show l.eol_num + col ≤ CONFIG_SYS_CBSIZE; omega }⟩

theorem complete_overrun (inside : Inside l) (full : Full names l) :
    complete names behind l = none := by
  obtain ⟨console,last,free⟩ := full
  have size := inside.size
  have room := inside.room
  rw [complete,if_neg (by omega),store_fits (by omega),bind_eq_bind,bind_some,
    cmd_auto_complete_overrun (length_set.trans size) inside.copy console (by rw [take_set_of_le (le_of_eq last.symm)]; exact free)]
  rfl

def Goes (result : Option Line) : Prop := ∃ after, result = some after ∧ Inside after

theorem Goes.ite {c : Prop} [Decidable c] {a b : Option Line} (first : c → Goes a) (second : ¬ c → Goes b) :
    Goes (if c then a else b) := by
  split
  case isTrue holds => exact first holds
  case isFalse fails => exact second fails

theorem editKey_inside {names : Names} {behind : Nat → CString} {ichar : UInt8} {l : Line} (inside : Inside l)
    (notFull : ichar = tab → ¬ Full names l) : Goes (editKey names behind ichar l) := by
  have escape : Goes (if l.esc_len = 0 then (store l.esc_save l.esc_len ichar).map fun esc_save => { l with esc_save := esc_save, esc_len := 1 }
      else some { l with esc_len := 0 }) := .ite
    (fun none_ => by
      rw [store_fits (by rw [inside.saved]; omega)]
      exact ⟨_,rfl,{ inside with saved := length_set.trans inside.saved, escape := le_succ 1 }⟩)
    fun _ => ⟨_,rfl,{ inside with escape := zero_le 2 }⟩
  have forward : Inside (if l.num < l.eol_num then { l with num := l.num + 1 } else l) := by
    split
    case isTrue before => exact { inside with cursor := before }
    case isFalse => exact inside
  obtain ⟨added,adds,stays,_⟩ := cread_add_char_inside inside ichar l.insert
  refine .ite (fun _ => escape) fun _ => .ite (fun _ => ⟨_,rfl,{ inside with cursor := zero_le _ }⟩) fun _ => ?_
  refine .ite (fun _ => ⟨_,rfl,forward⟩) fun _ => ?_
  refine .ite (fun _ => ⟨_,rfl,{ inside with cursor := (sub_le _ _).trans inside.cursor }⟩) fun _ => ?_
  refine .ite (fun _ => deleteChar_inside inside) fun _ => .ite (fun _ => ⟨_,rfl,eraseToEol_inside inside⟩) fun _ => ?_
  refine .ite (fun _ => ⟨_,rfl,refreshToEol_inside inside⟩) fun _ => .ite (fun _ => ⟨_,rfl,{ inside with }⟩) fun _ => ?_
  refine .ite (fun _ => ⟨_,rfl,eraseToEol_inside { inside with cursor := zero_le _ }⟩) fun _ => ?_
  refine .ite (fun _ => deleteBefore_inside inside) fun _ => .ite (fun _ => recallLine_inside inside (.inl rfl)) fun _ => ?_
  refine .ite (fun _ => recallLine_inside inside (.inr rfl)) fun _ => .ite (fun isTab => complete_inside inside (notFull isTab)) fun _ => ?_
  exact ⟨added,adds,stays⟩

theorem finish_inside (inside : Inside l) : ∃ after, finish l = some after ∧ Inside after ∧ 0 ∈ after.buf := by
  have size := inside.size
  have room := inside.room
  have position : l.eol_num < l.buf.length := by omega
  have nul : (l.buf.set l.eol_num 0)[l.eol_num]? = some 0 := by rw [getElem?_set_self position]
  obtain ⟨text,found,short⟩ := stringAt_ends nul (zero_le _)
  obtain ⟨hist,remembered,kept⟩ : ∃ hist, remember l.hist text = some hist ∧ Kept hist := by
    rw [remember]
    split
    · exact ⟨l.hist,rfl,inside.hist⟩
    · exact cread_add_to_hist_kept inside.hist (by omega)
  rw [finish,store_fits position,bind_eq_bind,bind_some,found,bind_eq_bind,bind_some,remembered]
  exact ⟨_,rfl,{ inside with size := length_set.trans size, hist := { kept with cur := Int.ofNat_lt.mpr kept.add } },
    mem_of_getElem? nul⟩

/-! ### Sessions -/

/-- Inside a call the buffers are kept, and until the first key the line is the string it was; a call ends with a string. -/
def StageInside : Stage → Prop
  | .idle _ l => Inside l ∧ 0 ∈ l.buf
  | .editing _ fresh l => Inside l ∧ (fresh = true → 0 ∈ l.buf)

/-- A call gets a buffer of the size it assumes, with a string in it. -/
def Fits : Event → Prop
  | .cread_line _ buf => buf.length = CONFIG_SYS_CBSIZE + 1 ∧ 0 ∈ buf
  | _ => True

/-- The tabulator key in a line that fills the buffer. -/
def Overruns : Stage → Event → Prop
  | .editing names _ l, .press p => p.ichar = tab ∧ l.esc_len = 0 ∧ Full names l
  | _, _ => False

theorem begin_inside {buf : List UInt8} (inside : Inside l)
    (size : buf.length = CONFIG_SYS_CBSIZE + 1) (nul : 0 ∈ buf) : ∃ stage, begin names buf l = some stage ∧ StageInside stage := by
  obtain ⟨e,position,zero⟩ := mem_iff_getElem.mp nul
  obtain ⟨initial,found,short⟩ := stringAt_ends (List.getElem?_eq_some_iff.mpr ⟨position,zero⟩) (zero_le e)
  have same := @cread_add_str_initial initial.length 0 { l with buf := buf, num := 0, eol_num := 0, insert := true, esc_len := 0 }
    rfl rfl (by omega) size
  rw [begin,found,bind_eq_bind,bind_some,same]
  refine ⟨_,rfl,⟨size,le_refl _,?_,zero_le 2,inside.saved,inside.copy,inside.hist⟩,fun _ => nul⟩
  show 0 + initial.length ≤ CONFIG_SYS_CBSIZE
  omega

theorem arrowKey_ne_tab {ichar c : UInt8} (known : arrowKey ichar = some c) : c ≠ tab := by
  rintro rfl
  revert known
  rw [arrowKey]
  repeat' split
  all_goals decide

theorem pressed_inside {p : Press} (inside : Inside l)
    (notFull : ¬ (p.ichar = tab ∧ l.esc_len = 0 ∧ Full names l)) : ∃ stage, pressed names p l = some stage ∧ StageInside stage := by
  rw [pressed]
  split
  · obtain ⟨after,finished,kept,nul⟩ := finish_inside inside
    rw [finished]
    exact ⟨_,rfl,kept,nul⟩
  obtain ⟨after,next,escaped,kept,plain,arrow⟩ := escapes_inside inside p.ichar
  rw [escaped,bind_eq_bind,bind_some]
  cases next with
  | none => exact ⟨_,rfl,kept,fun fresh => nomatch fresh⟩
  | some ichar =>
    simp only
    split
    · have position : 0 < after.buf.length := by rw [kept.size]; exact succ_pos _
      rw [store_fits position]
      exact ⟨_,rfl,{ kept with size := length_set.trans kept.size },
        mem_iff_getElem.mpr ⟨0,by rw [length_set]; exact position,getElem_set_self _⟩⟩
    obtain ⟨edited,done,stays⟩ := @editKey_inside names p.behind ichar after kept fun isTab full => by
      by_cases none_ : l.esc_len = 0
      · obtain ⟨rfl,same⟩ := plain none_
        exact notFull ⟨(Option.some.inj same).symm.trans isTab,none_,full⟩
      · exact arrowKey_ne_tab (arrow none_ ichar rfl) isTab
    rw [done]
    exact ⟨_,rfl,stays,fun fresh => nomatch fresh⟩

theorem pressed_overrun {p : Press} (inside : Inside l) (isTab : p.ichar = tab) (none_ : l.esc_len = 0)
    (full : Full names l) : pressed names p l = none := by
  have edits : editKey names p.behind tab l = complete names p.behind l := rfl
  rw [pressed,if_neg (by rw [isTab]; decide),escapes,if_pos none_,isTab,bind_eq_bind,bind_some]
  simp only
  rw [if_neg (by decide),edits,complete_overrun inside full,map_none]

theorem step_inside {e : Event} (inside : StageInside stage) (fits : Fits e) (ok : ¬ Overruns stage e) :
    ∃ next, step stage e = some next ∧ StageInside next := by
  cases stage with
  | idle ret l =>
    cases e with
    | cread_line names buf => exact begin_inside inside.1 fits.1 fits.2
    | press p => exact ⟨_,rfl,inside⟩
    | timeout => exact ⟨_,rfl,inside⟩
  | editing names fresh l =>
    cases e with
    | cread_line names buf => cases fresh <;> exact ⟨_,rfl,inside⟩
    | press p => cases fresh <;> exact pressed_inside inside.1 ok
    | timeout =>
      cases fresh with
      | false => exact ⟨_,rfl,inside⟩
      | true => exact ⟨_,rfl,inside.1,inside.2 rfl⟩

theorem step_overrun {e : Event} (inside : StageInside stage) (overrun : Overruns stage e) : step stage e = none := by
  cases stage with
  | idle ret l => exact overrun.elim
  | editing names fresh l =>
    cases e with
    | cread_line names buf => exact overrun.elim
    | timeout => exact overrun.elim
    | press p => cases fresh <;> exact pressed_overrun inside.1 overrun.1 overrun.2.1 overrun.2.2

/-- What holds of a session up to some event: all stages are inside of the buffers, and the session goes on exactly
    as long as the tabulator key is not pressed in a full line. -/
theorem editing_inside_iff {stage : Stage} (inside : StageInside stage) {events : List Event} (fits : ∀ e ∈ events, Fits e) :
    (∀ last, events.foldlM step stage = some last → StageInside last) ∧
      ((∃ last, events.foldlM step stage = some last) ↔
        ∀ before e after now, events = before ++ e :: after → before.foldlM step stage = some now → ¬ Overruns now e) := by
  induction events generalizing stage with
  | nil =>
    refine ⟨fun last same => Option.some.inj same ▸ inside,fun _ before e after now split => ?_,fun _ => ⟨stage,rfl⟩⟩
    exact absurd split.symm (append_ne_nil_of_right_ne_nil _ (cons_ne_nil _ _))
  | cons e events ih =>
    rw [foldlM_cons]
    by_cases overrun : Overruns stage e
    · rw [step_overrun inside overrun]
      refine ⟨fun last done => (nomatch done),fun ⟨last,done⟩ => (nomatch done),fun never => ?_⟩
      exact absurd overrun (never [] e events stage rfl rfl)
    obtain ⟨next,taken,kept⟩ := step_inside inside (fits e mem_cons_self) overrun
    obtain ⟨reached,goesOn⟩ := ih kept fun e member => fits e (mem_cons_of_mem _ member)
    rw [taken]
    refine ⟨reached,goesOn.trans ⟨fun never before f after now split there => ?_,fun never before f after now split there => ?_⟩⟩
    · cases before with
      | nil =>
        obtain ⟨rfl,_⟩ := List.cons.inj split
        cases there
        exact overrun
      | cons g before =>
        obtain ⟨rfl,rest⟩ := List.cons.inj split
        rw [foldlM_cons,taken] at there
        exact never before f after now rest there
    refine never (e :: before) f after now (by rw [split,cons_append]) ?_
    rw [foldlM_cons,taken]
    exact there

/-! ### Full lines -/

/-- The editor before the first call, with the history that `hist_init` leaves in cleared memory. -/
def clearedLine : Line :=
  ⟨List.replicate (CONFIG_SYS_CBSIZE + 1) 0,0,0,true,0,List.replicate 8 0,List.replicate CONFIG_SYS_CBSIZE 0,
    0,0,-1,List.replicate HIST_MAX (List.replicate (HIST_SIZE + 1) 0)⟩

def cleared : Stage := .idle 0 clearedLine

theorem cleared_inside : StageInside cleared := by
  refine ⟨⟨length_replicate,le_refl _,zero_le _,zero_le _,length_replicate,length_replicate,?_⟩,
    mem_replicate.mpr ⟨succ_ne_zero _,rfl⟩⟩
  refine ⟨length_replicate,fun line member => ?_,succ_pos _,succ_pos _,show (-1 : Int) < HIST_MAX by decide⟩
  rw [eq_of_mem_replicate member]
  exact ⟨length_replicate,mem_replicate.mpr ⟨succ_ne_zero _,rfl⟩⟩

def noNames : Names := ⟨[],[],true⟩

def emptyCall : Event := .cread_line noNames (List.replicate (CONFIG_SYS_CBSIZE + 1) 0)

def key (ichar : UInt8) : Event := .press ⟨ichar,fun _ => default⟩

theorem key_fits (ichar : UInt8) : Fits (key ichar) := trivial

theorem emptyCall_fits : Fits emptyCall := ⟨length_replicate,mem_replicate.mpr ⟨succ_ne_zero _,rfl⟩⟩

/-- A line is entered, recalled and deleted. -/
theorem recall_stays_inside :
    ∃ last, [emptyCall,key 97,key newline,emptyCall,key (CTL_CH 'p'),key DEL].foldlM step cleared = some last ∧ StageInside last := by
  have fits : ∀ e ∈ [emptyCall,key 97,key newline,emptyCall,key (CTL_CH 'p'),key DEL], Fits e := by
    simp [emptyCall_fits,key_fits]
  obtain ⟨reached,goesOn⟩ := editing_inside_iff cleared_inside fits
  obtain ⟨last,done⟩ := goesOn.mpr fun before e after now split _ overrun => by
    have member : e ∈ [emptyCall,key 97,key newline,emptyCall,key (CTL_CH 'p'),key DEL] := by rw [split]; simp
    have isTab : ∃ p, e = .press p ∧ p.ichar = tab := by
      cases now <;> cases e
      all_goals first | exact overrun.elim | exact ⟨_,rfl,overrun.1⟩
    obtain ⟨p,rfl,isTab⟩ := isTab
    simp only [mem_cons,not_mem_nil,emptyCall,key,Event.press.injEq,reduceCtorEq,or_false,false_or] at member
    rcases member with rfl | rfl | rfl | rfl <;> exact absurd isTab (by decide)
  exact ⟨last,done,reached last done⟩

def Typed (n : Nat) : Stage → Prop
  | .idle _ _ => False
  | .editing names _ l => names = noNames ∧ Inside l ∧ l.num = n ∧ l.eol_num = n ∧ l.insert = true ∧ l.esc_len = 0 ∧
      ∀ i < n, l.buf[i]? = some 97

theorem typed_next (room : n < CONFIG_SYS_CBSIZE) (typed : Typed n stage) :
    ∃ next, step stage (key 97) = some next ∧ Typed (n+1) next := by
  cases stage with
  | idle ret l => exact typed.elim
  | editing names fresh l =>
    obtain ⟨rfl,inside,rfl,atEnd,inserts,none_,letters⟩ := typed
    obtain ⟨after,added,stays,_⟩ := cread_add_char_inside inside 97 l.insert
    have adds := cread_add_char_end 97 l.insert atEnd room inside.size
    cases added.symm.trans adds
    have edits : editKey noNames (fun _ => default) 97 l = cread_add_char 97 l.insert l := rfl
    have taken : step (.editing noNames fresh l) (key 97) = pressed noNames ⟨97,fun _ => default⟩ l := by cases fresh <;> rfl
    rw [taken,pressed,escapes,if_pos none_,bind_eq_bind,bind_some]
    simp only
    rw [edits,adds]
    refine ⟨_,rfl,rfl,stays,rfl,rfl,inserts,none_,fun i below => ?_⟩
    by_cases last : l.num = i
    · rw [last,getElem?_set_self (by have := inside.size; omega)]
    · rw [getElem?_set_ne last]
      exact letters i (by omega)

theorem typed_all (room : n ≤ CONFIG_SYS_CBSIZE) :
    ∃ stage, (emptyCall :: List.replicate n (key 97)).foldlM step cleared = some stage ∧ Typed n stage := by
  induction n with
  | zero =>
    obtain ⟨inside,_⟩ := cleared_inside
    have initial : stringAt (List.replicate (CONFIG_SYS_CBSIZE+1) 0) 0 = some ⟨[],not_mem_nil⟩ :=
      @stringAt_eq _ [] _ _ rfl not_mem_nil
    have started : step cleared emptyCall = some (.editing noNames true clearedLine) := by
      rw [cleared,emptyCall,step,begin,initial]
      rfl
    rw [foldlM_cons,started]
    exact ⟨_,rfl,rfl,inside,rfl,rfl,rfl,rfl,fun i below => absurd below (not_lt_zero i)⟩
  | succ n ih =>
    obtain ⟨stage,reached,typed⟩ := ih (le_of_succ_le room)
    obtain ⟨next,taken,more⟩ := typed_next room typed
    refine ⟨next,?_,more⟩
    rw [replicate_succ',← cons_append,foldlM_append,reached,bind_eq_bind,bind_some,foldlM_cons,taken]
    rfl

/-- The tabulator key behind 1024 letters. -/
theorem full_line_overruns :
    (∀ e ∈ emptyCall :: List.replicate CONFIG_SYS_CBSIZE (key 97) ++ [key tab], Fits e) ∧
      (emptyCall :: List.replicate CONFIG_SYS_CBSIZE (key 97) ++ [key tab]).foldlM step cleared = none := by
  refine ⟨fun e member => ?_,?_⟩
  · simp only [cons_append,mem_cons,mem_append,mem_replicate,not_mem_nil,or_false] at member
    rcases member with rfl | ⟨_,rfl⟩ | rfl
    exacts [emptyCall_fits,key_fits _,key_fits _]
  obtain ⟨stage,reached,typed⟩ := typed_all (le_refl CONFIG_SYS_CBSIZE)
  rw [foldlM_append,reached,bind_eq_bind,bind_some,foldlM_cons]
  cases stage with
  | idle ret l => exact typed.elim
  | editing names fresh l =>
    obtain ⟨rfl,inside,atNum,_,_,none_,letters⟩ := typed
    have full : Full noNames l := by
      refine ⟨rfl,atNum,fun zero => ?_⟩
      obtain ⟨i,position,value⟩ := mem_iff_getElem.mp zero
      rw [getElem_take] at value
      rw [length_take] at position
      have letter := letters i (by omega)
      rw [getElem?_eq_getElem (by omega),value] at letter
      exact absurd letter (by decide)
    have taken : step (.editing noNames fresh l) (key tab) = pressed noNames ⟨tab,fun _ => default⟩ l := by cases fresh <;> rfl
    rw [taken,pressed_overrun inside rfl none_ full]
    rfl

end UBoot.LineEditSafe
