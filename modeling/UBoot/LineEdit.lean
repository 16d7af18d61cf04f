import UBoot.Commands
import UBoot.Qsort

/-!
The line editor of `common/main.c` (`CONFIG_CMDLINE_EDITING`) with its history, and the completion of
`common/command.c` (`CONFIG_AUTO_COMPLETE`). A store outside of a buffer gives `none`. What is printed is left out.
Names that are completed may be read behind their end; what is found there is a part of the key pressed.
-/
namespace UBoot.LineEdit
open Buffers CStrings Commands

def HIST_MAX : Nat := 20
def HIST_SIZE : Nat := CONFIG_SYS_CBSIZE

/-! ### Buffers -/

def memmove (data : List UInt8) (dest src n : Nat) : Option (List UInt8) :=
  if src + n ≤ data.length then storeAll data dest ((data.drop src).take n) else none

def strcpy (dest : List UInt8) (s : CString) : Option (List UInt8) := storeAll dest 0 (s.bytes ++ [0])

/-! ### History -/

structure History where
  hist_max : Nat
  hist_add_idx : Nat
  hist_cur : Int
  hist_lines : List (List UInt8)
deriving DecidableEq

def hist_init (hist_lines : List (List UInt8)) : Option History :=
  (hist_lines.mapM fun line => store line 0 0).map fun hist_lines => ⟨0,0,-1,hist_lines⟩

def cread_add_to_hist (h : History) (line : CString) : Option History := do
  let dest ← h.hist_lines[h.hist_add_idx]?
  let copy ← strcpy dest line
  let hist_add_idx := if HIST_MAX ≤ h.hist_add_idx + 1 then 0 else h.hist_add_idx + 1
  some ⟨if h.hist_max < hist_add_idx then hist_add_idx else h.hist_max,hist_add_idx,h.hist_cur,h.hist_lines.set h.hist_add_idx copy⟩

/-- The results of `hist_prev` and `hist_next`: NULL, the empty string or an entry. -/
inductive Recalled
  | null
  | empty
  | entry (i : Int)
deriving DecidableEq

def hist_prev (h : History) : History × Recalled :=
  if h.hist_cur < 0 then (h,.null)
  else
    let cur := if h.hist_cur - 1 < 0 then (h.hist_max : Int) else h.hist_cur - 1
    if cur = h.hist_add_idx then (h,.null) else ({ h with hist_cur := cur },.entry cur)

def hist_next (h : History) : History × Recalled :=
  if h.hist_cur < 0 ∨ h.hist_cur = h.hist_add_idx then (h,.null)
  else
    let cur := if h.hist_max < h.hist_cur + 1 then 0 else h.hist_cur + 1
    ({ h with hist_cur := cur },if cur = h.hist_add_idx then .empty else .entry cur)

/-! ### Names -/

/-- A command, and whether its `complete` is `var_complete` rather than NULL. -/
structure Command where
  name : CString
  completes : Bool

/-- The commands, the variables in the order of the hash table, and whether the prompt is `CONFIG_SYS_PROMPT`. -/
structure Names where
  commands : List Command
  vars : List CString
  console : Bool

/-- The part of a command in front of a length modifier. -/
def plainName (cmd : CString) : List UInt8 := cmd.bytes.takeWhile (· ≠ 46)

/-- The loop of `find_cmd_tbl`, with `cmdtp_temp` and `n_found`. -/
def findCmd (cmd : List UInt8) : List Command → Option Command → Nat → Option Command
  | [], found, n_found => if n_found = 1 then found else none
  | cmdtp :: rest, found, n_found =>
    if cmdtp.name.bytes.take cmd.length = cmd then
      if cmd.length = cmdtp.name.length then some cmdtp else findCmd cmd rest (some cmdtp) (n_found + 1)
    else findCmd cmd rest found n_found

def find_cmd (commands : List Command) (cmd : CString) : Option Command := findCmd (plainName cmd) commands none 0

/-- The size of `cmdv`. -/
def maxv : Nat := 20

/-- The size of the buffer for the names of variables. -/
def varSize : Nat := 512

def dots : CString := .ofString "..."

/-- `cmdv[n_found++] = name`. -/
def addName (cmdv : List CString) (name : CString) : Option (List CString) :=
  if cmdv.length < maxv then some (cmdv ++ [name]) else none

/-- `cmdv[n_found] = NULL`. -/
def endNames (cmdv : List CString) : Option (List CString) := if cmdv.length < maxv then some cmdv else none

/-- The loop of `env_complete` over the variables that match; the result tells whether it ended early. -/
def envLoop : List CString → List CString → Nat → Nat → Option (List CString × Bool)
  | [], cmdv, _, _ => some (cmdv,false)
  | key :: rest, cmdv, buf, bufsz =>
    let vallen := key.length + 1
    if maxv - 2 ≤ cmdv.length ∨ bufsz < vallen then some (cmdv,true)
    else if varSize < buf + vallen then none
    else do
      let cmdv ← addName cmdv key
      envLoop rest cmdv (buf + vallen) (bufsz - vallen)

def env_complete (vars : List CString) (var : List UInt8) : Option (List CString) := do
  let (cmdv,early) ← envLoop (vars.filter fun key => var.isPrefixOf key.bytes) [] 0 varSize
  let cmdv := (Qsort.qsort strcmp cmdv.toArray).toList
  let cmdv ← if early then addName cmdv dots else some cmdv
  endNames cmdv

/-- Nothing, or a blank, is in front of the cursor. -/
def startsWord (last_char : UInt8) : Bool := last_char = 0 || isblank last_char

def var_complete (vars : List CString) (argv : List CString) (last_char : UInt8) : Option (List CString) :=
  match startsWord last_char,argv with
  | true, [_] => env_complete vars []
  | false, [_,var] => env_complete vars var.bytes
  | _, _ => some []

/-- The loop over the commands that begin with `cmd`. -/
def cmdLoop (cmd : List UInt8) : List Command → List CString → Option (List CString)
  | [], cmdv => endNames cmdv
  | cmdtp :: rest, cmdv =>
    if cmdtp.name.bytes.take cmd.length = cmd then
      if maxv - 2 ≤ cmdv.length then do endNames (← addName cmdv dots)
      else do cmdLoop cmd rest (← addName cmdv cmdtp.name)
    else cmdLoop cmd rest cmdv

/-- The possible completions. Without a word, `n_found` stays 0 in the loop over all commands. -/
def complete_cmdv (names : Names) (argv : List CString) (last_char : UInt8) : Option (List CString) :=
  match argv with
  | [] => some []
  | cmd :: rest =>
    if rest ≠ [] ∨ startsWord last_char = true then
      match find_cmd names.commands cmd with
      | none => some []
      | some cmdtp => if cmdtp.completes then var_complete names.vars argv last_char else some []
    else cmdLoop (plainName cmd) names.commands []

/-! ### Completion -/

def inWord (c : UInt8) : Bool := c ≠ 0 && !isblank c

/-- The loop of `make_argv` over the copy of the line: where the words begin, and the copy with a NUL behind each. -/
def make_argv : Nat → List UInt8 → Nat → Option (List UInt8 × List Nat)
  | 0, data, _ => some (data,[])
  | n+1, data, s => do
    let word ← skipWhile isblank data data.length s
    if data[word]? = some 0 then some (data,[])
    else
      let behind ← skipWhile inWord data data.length word
      if data[behind]? = some 0 then some (data,[word])
      else
        let cut ← store data behind 0
        let (data,argv) ← make_argv n cut (behind + 1)
        some (data,word :: argv)

/-- The number of characters that two names begin with in common. -/
def commonLength : List UInt8 → List UInt8 → Nat
  | c :: cs, d :: ds => if c = d then commonLength cs ds + 1 else 0
  | _, _ => 0

def find_common_prefix : List CString → Nat
  | [] => 0
  | anchor :: rest => rest.foldl (fun len t => commonLength (anchor.bytes.take len) t.bytes) anchor.length

/-- What is appended to the line: the rest of the only name and a blank, or what all names have in common. `behind`
    is the text behind the end of the first name. -/
def suggestion (behind : Nat → CString) (cmdv : List CString) (last : CString) : Option (List UInt8) :=
  match cmdv with
  | [] => none
  | [name] => some ((if last.length ≤ name.length then name.bytes.drop last.length else (behind last.length).bytes) ++ [space])
  | name :: _ =>
    let j := find_common_prefix cmdv
    if last.length < j then some ((name.bytes.drop last.length).take (j - last.length)) else none

/-- The line buffer, the copy of it, and how far `*np` has moved. -/
def cmd_auto_complete (names : Names) (behind : Nat → CString) (buf tmp_buf : List UInt8) (n : Nat) :
    Option (List UInt8 × List UInt8 × Nat) :=
  if names.console = false then some (buf,tmp_buf,0)
  else do
    let text ← stringAt buf 0
    let tmp_buf ← strcpy tmp_buf text
    let (tmp_buf,starts) ← make_argv CONFIG_SYS_MAXARGS tmp_buf 0
    let argv ← starts.mapM (stringAt tmp_buf)
    let cmdv ← complete_cmdv names argv (text.bytes.getLast?.getD 0)
    if cmdv = [] then some (buf,tmp_buf,0)
    else do
      let last ← argv.getLast?
      match suggestion behind cmdv last with
      | none => some (buf,tmp_buf,0)
      | some more =>
        if CONFIG_SYS_CBSIZE - 2 ≤ n + more.length then some (buf,tmp_buf,0)
        else do
          let buf ← storeAll buf text.length (more ++ [0])
          some (buf,tmp_buf,more.length)

/-! ### Editing -/

/-- The local variables of `cread_line`, the copy of the line for the completion, and the history. -/
structure Line where
  buf : List UInt8
  num : Nat
  eol_num : Nat
  insert : Bool
  esc_len : Nat
  esc_save : List UInt8
  tmp_buf : List UInt8
  hist : History
deriving DecidableEq

def makeRoom (insert : Bool) (wlen : Nat) (l : Line) : Option (List UInt8) :=
  if insert = true ∧ 1 < wlen then memmove l.buf (l.num + 1) l.num (wlen - 1) else some l.buf

/-- `len` is `CONFIG_SYS_CBSIZE`. -/
def cread_add_char (ichar : UInt8) (insert : Bool) (l : Line) : Option Line :=
  if (insert = true ∨ l.num = l.eol_num) ∧ CONFIG_SYS_CBSIZE - 1 < l.eol_num then some l
  else
    let eol_num := if insert = true ∨ l.num = l.eol_num then l.eol_num + 1 else l.eol_num
    do
      let buf ← makeRoom insert (eol_num - l.num) l
      let buf ← store buf l.num ichar
      some { l with buf := buf, num := l.num + 1, eol_num := eol_num }

/-- Adding `strsize` characters from offset `i` of `str`, which is a buffer of the editor itself. -/
def cread_add_str (str : Line → List UInt8) (insert : Bool) : Nat → Nat → Line → Option Line
  | 0, _, l => some l
  | strsize+1, i, l => do
    let ichar ← (str l)[i]?
    let l ← cread_add_char ichar insert l
    cread_add_str str insert strsize (i + 1) l

def CTL_CH (c : Char) : UInt8 := UInt8.ofNat (c.toNat - 'a'.toNat + 1)

def DEL : UInt8 := 255
def DEL7 : UInt8 := 127
def ESC : UInt8 := 27

/-- The character that an escape sequence stands for; none if it is not known. -/
def arrowKey (ichar : UInt8) : Option UInt8 :=
  if ichar = 68 then some (CTL_CH 'b')
  else if ichar = 67 then some (CTL_CH 'f')
  else if ichar = 72 then some (CTL_CH 'a')
  else if ichar = 65 then some (CTL_CH 'p')
  else if ichar = 66 then some (CTL_CH 'n')
  else none

/-- Escape sequences; without a character the editor reads the next one. -/
def escapes (ichar : UInt8) (l : Line) : Option (Line × Option UInt8) :=
  if l.esc_len = 0 then some (l,some ichar)
  else if l.esc_len = 1 then
    if ichar = 91 then do
      let esc_save ← store l.esc_save l.esc_len ichar
      some ({ l with esc_save := esc_save, esc_len := 2 },none)
    else do
      let l ← cread_add_str Line.esc_save l.insert l.esc_len 0 l
      some ({ l with esc_len := 0 },none)
  else
    match arrowKey ichar with
    | some ichar => some ({ l with esc_len := 0 },some ichar)
    | none => do
      let esc_save ← store l.esc_save l.esc_len ichar
      let l ← cread_add_str Line.esc_save l.insert (l.esc_len + 1) 0 { l with esc_save := esc_save }
      some ({ l with esc_len := 0 },none)

/-- `ERASE_TO_EOL`. -/
def eraseToEol (l : Line) : Line := if l.num < l.eol_num then { l with eol_num := l.num } else l

/-- `REFRESH_TO_EOL`. -/
def refreshToEol (l : Line) : Line := if l.num < l.eol_num then { l with num := l.eol_num } else l

/-- The `wlen` characters behind the one at the cursor take its place. -/
def closeGap (wlen : Nat) (l : Line) : Option (List UInt8) :=
  if wlen ≠ 0 then memmove l.buf l.num (l.num + 1) wlen else some l.buf

/-- `CTL_CH('d')`. -/
def deleteChar (l : Line) : Option Line :=
  if l.num < l.eol_num then do
    let buf ← closeGap (l.eol_num - l.num - 1) l
    some { l with buf := buf, eol_num := l.eol_num - 1 }
  else some l

/-- `DEL`, `DEL7` and 8. -/
def deleteBefore (l : Line) : Option Line :=
  if l.num ≠ 0 then do
    let buf ← memmove l.buf (l.num - 1) l.num (l.eol_num - l.num)
    some { l with buf := buf, num := l.num - 1, eol_num := l.eol_num - 1 }
  else some l

def recalledText (h : History) : Recalled → Option CString
  | .null | .empty => some default
  | .entry i => if i < 0 then none else do stringAt (← h.hist_lines[i.toNat]?) 0

/-- `CTL_CH('p')` and `CTL_CH('n')`. -/
def recallLine (found : History × Recalled) (l : Line) : Option Line :=
  if found.2 = .null then some { l with esc_len := 0, hist := found.1 }
  else do
    let hline ← recalledText found.1 found.2
    let buf ← strcpy l.buf hline
    some (refreshToEol { l with buf := buf, num := 0, eol_num := hline.length, esc_len := 0, hist := found.1 })

def complete (names : Names) (behind : Nat → CString) (l : Line) : Option Line :=
  if l.num < l.eol_num then some l
  else do
    let buf ← store l.buf l.num 0
    let (buf,tmp_buf,col) ← cmd_auto_complete names behind buf l.tmp_buf l.num
    some { l with buf := buf, tmp_buf := tmp_buf, num := l.num + col, eol_num := l.eol_num + col }

/-- The `switch` over the character, for all characters that do not end the line. -/
def editKey (names : Names) (behind : Nat → CString) (ichar : UInt8) (l : Line) : Option Line :=
  if ichar = ESC then
    if l.esc_len = 0 then (store l.esc_save l.esc_len ichar).map fun esc_save => { l with esc_save := esc_save, esc_len := 1 }
    else some { l with esc_len := 0 }
  else if ichar = CTL_CH 'a' then some { l with num := 0 }
  else if ichar = CTL_CH 'f' then some (if l.num < l.eol_num then { l with num := l.num + 1 } else l)
  else if ichar = CTL_CH 'b' then some { l with num := l.num - 1 }
  else if ichar = CTL_CH 'd' then deleteChar l
  else if ichar = CTL_CH 'k' then some (eraseToEol l)
  else if ichar = CTL_CH 'e' then some (refreshToEol l)
  else if ichar = CTL_CH 'o' then some { l with insert := !l.insert }
  else if ichar = CTL_CH 'x' ∨ ichar = CTL_CH 'u' then some (eraseToEol { l with num := 0 })
  else if ichar = DEL ∨ ichar = DEL7 ∨ ichar = 8 then deleteBefore l
  else if ichar = CTL_CH 'p' then recallLine (hist_prev l.hist) l
  else if ichar = CTL_CH 'n' then recallLine (hist_next l.hist) l
  else if ichar = tab then complete names behind l
  else cread_add_char ichar l.insert l

/-- A line is remembered unless it is empty or begins with `!`. -/
def remember (h : History) (text : CString) : Option History :=
  if text.bytes = [] ∨ text.bytes.head? = some 33 then some h else cread_add_to_hist h text

/-- The end of `cread_line`. -/
def finish (l : Line) : Option Line := do
  let buf ← store l.buf l.eol_num 0
  let text ← stringAt buf 0
  let hist ← remember l.hist text
  some { l with buf := buf, hist := { hist with hist_cur := hist.hist_add_idx } }

/-! ### Sessions -/

/-- A key, and what stands in memory behind a name, from some offset on. -/
structure Press where
  ichar : UInt8
  behind : Nat → CString

/-- Between calls of `cread_line`, with the buffer and the result of the last one, or inside of a call. -/
inductive Stage
  | idle (ret : Int) (l : Line)
  | editing (names : Names) (fresh : Bool) (l : Line)

/-- A call, keys, and the end of the time to wait for the first key. -/
inductive Event
  | cread_line (names : Names) (buf : List UInt8)
  | press (p : Press)
  | timeout

def pressed (names : Names) (p : Press) (l : Line) : Option Stage :=
  if p.ichar = newline ∨ p.ichar = 13 then (finish l).map (.idle 0)
  else do
    let (l,ichar) ← escapes p.ichar l
    match ichar with
    | none => some (.editing names false l)
    | some ichar =>
      if ichar = CTL_CH 'c' then (store l.buf 0 0).map fun buf => .idle (-1) { l with buf := buf }
      else (editKey names p.behind ichar l).map (.editing names false)

/-- What is in the buffer when `cread_line` is called is edited. -/
def begin (names : Names) (buf : List UInt8) (l : Line) : Option Stage := do
  let initial ← stringAt buf 0
  let l ← cread_add_str Line.buf true initial.length 0 { l with buf := buf, num := 0, eol_num := 0, insert := true, esc_len := 0 }
  some (.editing names true l)

/-- Keys that are pressed between calls wait for the next call; these are the presses that follow it. -/
def step : Stage → Event → Option Stage
  | .idle _ l, .cread_line names buf => begin names buf l
  | .editing names _ l, .press p => pressed names p l
  | .editing _ true l, .timeout => some (.idle (-2) l)
  | stage, _ => some stage

end UBoot.LineEdit
