import UBoot.CStrings

/-!
The built-in command parser, `common/main.c` without `CONFIG_SYS_HUSH_PARSER`: a string is split into commands,
the variables in each command are replaced and the command is split into words. The commands themselves and the
environment are parameters; commands may change the environment. `malloc` succeeds.
-/
namespace UBoot.Commands
open CStrings

def CONFIG_SYS_CBSIZE : Nat := 1024
def CONFIG_SYS_MAXARGS : Nat := 16

def quote : UInt8 := 39
def semicolon : UInt8 := 59
def dollar : UInt8 := 36

/-- `(` and `{`. -/
def opens (c : UInt8) : Bool := c = 40 || c = 123

/-- `)` and `}`. -/
def closes (c : UInt8) : Bool := c = 41 || c = 125

/-! ### Words -/

/-- The loop of `parse_line`; no words are taken when `argv` is full. -/
def parseWords : Nat → List UInt8 → List (List UInt8)
  | 0, _ => []
  | n+1, line =>
    let line := line.dropWhile isblank
    if line = [] then []
    else
      let word := line.takeWhile fun c => !isblank c
      match line.dropWhile fun c => !isblank c with
      | [] => [word]
      | _ :: rest => word :: parseWords n rest

def parse_line (line : List UInt8) : List (List UInt8) := parseWords CONFIG_SYS_MAXARGS line

/-! ### Variables -/

/-- The states of `process_macros`: waiting for `$`, for an opening bracket, for a closing one and for a quote. -/
inductive Waiting
  | forDollar
  | forOpen
  | forClose
  | forQuote
deriving DecidableEq

/-- `state`, `prev`, the characters from `varname_start` on, and the output. -/
structure Macro where
  state : Waiting
  prev : UInt8
  name : List UInt8
  output : List UInt8
deriving DecidableEq

/-- `outputcnt`. -/
def Macro.room (m : Macro) : Nat := CONFIG_SYS_CBSIZE - m.output.length

/-- The `switch` for one character `c`, which was read from `raw`. -/
def macroChar (getenv : List UInt8 → Option (List UInt8)) (m : Macro) (prev c : UInt8) (raw : List UInt8) : Macro :=
  match m.state with
  | .forDollar =>
    if c = quote ∧ prev ≠ backslash then { m with state := .forQuote, prev := c }
    else if c = dollar ∧ prev ≠ backslash then { m with state := .forOpen, prev := c }
    else { m with output := m.output ++ [c], prev := c }
  | .forOpen =>
    if opens c then { m with state := .forClose, name := [], prev := c }
    else { m with state := .forDollar, output := m.output ++ [dollar,c].take m.room, prev := c }
  | .forClose =>
    if closes c then
      let envval := (getenv (m.name ++ raw.dropLast)).getD []
      { m with state := .forDollar, output := m.output ++ envval.take m.room, prev := c }
    else { m with name := m.name ++ raw, prev := c }
  | .forQuote =>
    if c = quote ∧ prev ≠ backslash then { m with state := .forDollar, prev := c }
    else { m with output := m.output ++ [c], prev := c }

/-- The loop over the input; a backslash and the character behind it are read together. -/
def macroLoop (getenv : List UInt8 → Option (List UInt8)) : Macro → List UInt8 → Macro
  | m, [] => m
  | m, [c] =>
    if m.room = 0 then m
    else if m.state ≠ .forQuote ∧ c = backslash ∧ m.prev ≠ backslash then m
    else macroChar getenv m m.prev c [c]
  | m, c :: d :: rest =>
    if m.room = 0 then m
    else if m.state ≠ .forQuote ∧ c = backslash ∧ m.prev ≠ backslash then
      macroLoop getenv (macroChar getenv m c d [c,d]) rest
    else macroLoop getenv (macroChar getenv m m.prev c [c]) (d :: rest)

/-- The text of a command with the variables replaced. A full buffer is terminated in its last byte. -/
def process_macros (getenv : List UInt8 → Option (List UInt8)) (input : List UInt8) : List UInt8 :=
  let m := macroLoop getenv ⟨.forDollar,0,[],[]⟩ input
  if m.room = 0 then m.output.dropLast else m.output

/-! ### Commands -/

/-- The environment, the commands and the interrupt key. A command has a result, and may be repeatable. -/
structure Shell (σ : Type) where
  getenv : σ → List UInt8 → Option (List UInt8)
  cmd_process : σ → List (List UInt8) → σ × Int × Bool
  had_ctrlc : σ → Bool

/-- The token up to a separator, and what stands behind it. `prev` is the byte in front. -/
def findSep : Bool → UInt8 → Bool → List UInt8 → List UInt8 × Option (List UInt8)
  | _, _, _, [] => ([],none)
  | atStart, prev, inquotes, c :: rest =>
    let inquotes := if c = quote ∧ prev ≠ backslash then !inquotes else inquotes
    if inquotes = false ∧ c = semicolon ∧ atStart = false ∧ prev ≠ backslash then ([],some rest)
    else
      let found := findSep false c inquotes rest
      (c :: found.1,found.2)

variable {σ : Type}

/-- The variables of `builtin_run_command`, and the argument lists that were passed on. -/
structure Running (σ : Type) where
  state : σ
  rc : Int
  repeatable : Bool
  calls : List (List (List UInt8))

def runToken (sh : Shell σ) (r : Running σ) (token : List UInt8) : Running σ × Bool :=
  let argv := parse_line (process_macros (sh.getenv r.state) token)
  if argv = [] then ({ r with rc := -1 },false)
  else
    let (state,rc,repeatable) := sh.cmd_process r.state argv
    (⟨state,if rc ≠ 0 then -1 else r.rc,r.repeatable && repeatable,r.calls ++ [argv]⟩,sh.had_ctrlc state)

/-- The loop over the tokens. A separator is overwritten with NUL before the next token is looked for. -/
def runTokens (sh : Shell σ) : Nat → UInt8 → Running σ → List UInt8 → Running σ × Bool
  | 0, _, r, _ => (r,false)
  | fuel+1, prev, r, str =>
    if str = [] then (r,false)
    else
      let (token,rest) := findSep true prev false str
      let (r,stopped) := runToken sh r token
      if stopped then (r,true)
      else match rest with
        | none => (r,false)
        | some str => runTokens sh fuel 0 r str

/-- What `builtin_run_command` returns, together with the state and the calls. -/
structure Result (σ : Type) where
  state : σ
  ret : Int
  calls : List (List (List UInt8))

/-- `before` is the byte in front of `cmdbuf`. -/
def builtin_run_command (sh : Shell σ) (before : UInt8) (cmd : List UInt8) (s : σ) : Result σ :=
  if cmd = [] then ⟨s,-1,[]⟩
  else if CONFIG_SYS_CBSIZE ≤ cmd.length then ⟨s,-1,[]⟩
  else
    let (r,stopped) := runTokens sh cmd.length before ⟨s,0,true,[]⟩ cmd
    ⟨r.state,if stopped then -1 else if r.rc ≠ 0 then r.rc else if r.repeatable then 1 else 0,r.calls⟩

def run_command (sh : Shell σ) (before : UInt8) (cmd : List UInt8) (s : σ) : σ × Int :=
  let result := builtin_run_command sh before cmd s
  (result.state,if result.ret = -1 then 1 else 0)

/-! ### Lists of commands -/

/-- The state, `rcode`, the line begun and the lines that were run. -/
structure Listing (σ : Type) where
  state : σ
  rcode : Int
  line : List UInt8
  lines : List (List UInt8)

/-- The loop of `builtin_run_command_list`, with `builtin_run_command` for a line as a parameter. -/
def listLoop (run : σ → List UInt8 → σ × Int) : Listing σ → List UInt8 → Listing σ
  | l, [] => l
  | l, c :: next =>
    if c = newline then
      if l.line ≠ [] then
        let (state,ret) := run l.state l.line
        if ret < 0 then { l with state := state, rcode := 1, lines := l.lines ++ [l.line] }
        else listLoop run ⟨state,l.rcode,[],l.lines ++ [l.line]⟩ next
      else listLoop run { l with line := [] } next
    else listLoop run { l with line := l.line ++ [c] } next

def builtin_run_command_list (run : σ → List UInt8 → σ × Int) (cmd : List UInt8) (s : σ) : σ × Int × List (List UInt8) :=
  let l := listLoop run ⟨s,0,[],[]⟩ cmd
  if l.rcode = 0 ∧ l.line ≠ [] then
    let (state,ret) := run l.state l.line
    (state,if 0 ≤ ret then 1 else 0,l.lines ++ [l.line])
  else (l.state,l.rcode,l.lines)

/-- `len` is missing for -1. The text ends with its first NUL. -/
def run_command_list (run : σ → List UInt8 → σ × Int) (cmd : List UInt8) (len : Option Nat) (s : σ) :
    σ × Int × List (List UInt8) :=
  let buff := match len with
    | none => cmd
    | some len => cmd.take len
  builtin_run_command_list run (toCString buff).bytes s

end UBoot.Commands
