import UBoot.EnvCopies
import UBoot.Runs

/-!
The redundant environment on SFC NAND, `common/env_sfcnand.c`. A copy fills one erase
block (`CONFIG_ENV_SECT_SIZE = CONFIG_ENV_SIZE`), so nothing around it is saved. The
flags byte says whether a copy is active: `saveenv` writes the other copy as the
active one and then rewrites the old one as obsolete. Every flash command goes
through `sfc_nand_ops`.
-/
namespace UBoot.EnvSfcnand
open List EnvCopies Runs

def ACTIVE_FLAG : UInt8 := 1
def OBSOLETE_FLAG : UInt8 := 0

def checkFlags (flags1 flags2 : UInt8) : Copy :=
  if flags1 = ACTIVE_FLAG ∧ flags2 = OBSOLETE_FLAG then .one
  else if flags1 = OBSOLETE_FLAG ∧ flags2 = ACTIVE_FLAG then .two
  else if flags1 = flags2 then .two
  else if flags1 = 0xFF then .two
  else .two

/-- The copy imported by `env_relocate_spec`, `none` for the default environment. -/
def env_relocate_spec (tmp_env1 tmp_env2 : EnvT) : Option (Copy × EnvT) :=
  selectCopy checkFlags (some tmp_env1) (some tmp_env2)

/-- The flash and `gd->env_valid`. -/
structure State where
  stored : Stored
  env_valid : Copy

/-- A reset: `env_init`, then `env_relocate_spec`. -/
def boot (s : State) : State :=
  match env_relocate_spec (s.stored .one) (s.stored .two) with
  | none => { s with env_valid := .one }
  | some (copy,_) => { s with env_valid := copy }

/-! ### The flash commands -/

/-- How a `nand` command ends. A failed one leaves anything in its copy or, for a
    read, in its buffer. -/
inductive Outcome
  | ok
  | failed (left : EnvT)
deriving DecidableEq

def erased (env : EnvT) : EnvT := ⟨0xffffffff,0xff,env.data.map fun _ => 0xff⟩

inductive Ops
  | read
  | write
  | erase
deriving DecidableEq

def runCommand (ops : Ops) (copy : Copy) (buf : EnvT) (outcome : Outcome) (stored : Stored) : EnvT × Stored :=
  match ops, outcome with
  | .read, .ok => (stored copy,stored)
  | .read, .failed left => (left,stored)
  | .write, .ok => (buf,Function.update stored copy buf)
  | .erase, .ok => (buf,Function.update stored copy (erased (stored copy)))
  | _, .failed left => (buf,Function.update stored copy left)

/-- The value returned, the buffer and the flash. A failure is printed and 0 is
    returned all the same. -/
def sfc_nand_ops (ops : Ops) (copy : Copy) (buf : EnvT) (outcome : Outcome) (stored : Stored) : Nat × EnvT × Stored :=
  (0,runCommand ops copy buf outcome stored)

/-! ### saveenv -/

/-- How the five commands of `saveenv` would end. -/
structure Outcomes where
  eraseNew : Outcome
  writeNew : Outcome
  readOld : Outcome
  eraseOld : Outcome
  writeOld : Outcome
deriving DecidableEq

def Outcomes.allOk (o : Outcomes) : Bool :=
  o.eraseNew = .ok && o.writeNew = .ok && o.readOld = .ok && o.eraseOld = .ok && o.writeOld = .ok

structure Issued where
  ops : Ops
  copy : Copy
  found : Stored
  outcome : Outcome

structure Saved where
  state : State
  ret : Nat
  issued : List Issued

/-- The copy at `env_new_offset`. -/
def State.new (s : State) : Copy := if s.env_valid = .one then .two else .one

/-- The copy at `env_offset`. -/
def State.old (s : State) : Copy := if s.env_valid = .one then .one else .two

def envNew (data : List UInt8) : EnvT := ⟨crc32 0 data,ACTIVE_FLAG,data⟩

/-- `saveenv` on the exported data, `none` if the export fails. The buffer `tmp_tmp`
    comes from `malloc`. -/
def saveenv (s : State) (exported : Option (List UInt8)) (tmp_tmp : EnvT) (o : Outcomes) : Saved :=
  match exported with
  | none => ⟨s,1,[]⟩
  | some data =>
    let env_new := envNew data
    let r1 := sfc_nand_ops .erase s.new env_new o.eraseNew s.stored
    let issued := [⟨.erase,s.new,s.stored,o.eraseNew⟩]
    if r1.1 ≠ 0 then ⟨⟨r1.2.2,s.env_valid⟩,r1.1,issued⟩
    else
      let r2 := sfc_nand_ops .write s.new env_new o.writeNew r1.2.2
      let issued := issued ++ [⟨.write,s.new,r1.2.2,o.writeNew⟩]
      if r2.1 ≠ 0 then ⟨⟨r2.2.2,s.env_valid⟩,r2.1,issued⟩
      else
        -- the value this read returns is not looked at
        let r3 := sfc_nand_ops .read s.old tmp_tmp o.readOld r2.2.2
        let tmp_tmp := { r3.2.1 with flags := OBSOLETE_FLAG }
        let r4 := sfc_nand_ops .erase s.old tmp_tmp o.eraseOld r3.2.2
        let issued := issued ++ [⟨.read,s.old,r2.2.2,o.readOld⟩,⟨.erase,s.old,r3.2.2,o.eraseOld⟩]
        if r4.1 ≠ 0 then ⟨⟨r4.2.2,s.env_valid⟩,r4.1,issued⟩
        else
          let r5 := sfc_nand_ops .write s.old tmp_tmp o.writeOld r4.2.2
          let issued := issued ++ [⟨.write,s.old,r4.2.2,o.writeOld⟩]
          if r5.1 ≠ 0 then ⟨⟨r5.2.2,s.env_valid⟩,r5.1,issued⟩
          else ⟨⟨r5.2.2,if s.env_valid = .two then .one else .two⟩,r5.1,issued⟩

/-! ### What one call does -/

theorem new_eq (s : State) : s.new = s.env_valid.other := by
  unfold State.new Copy.other
  cases s.env_valid <;> rfl

theorem old_eq (s : State) : s.old = s.env_valid := by
  unfold State.old
  cases s.env_valid <;> rfl

theorem envNew_crcOk (data : List UInt8) : (envNew data).crcOk = true := by simp [envNew,EnvT.crcOk]

theorem boot_stored (s : State) : (boot s).stored = s.stored := by
  unfold boot
  split <;> rfl

theorem boot_valid {s : State} {c : Copy} {image : EnvT}
    (chosen : env_relocate_spec (s.stored .one) (s.stored .two) = some (c,image)) : (boot s).env_valid = c := by
  simp only [boot,chosen]

def rewritten (s : State) (data : List UInt8) : Stored :=
  Function.update (Function.update s.stored s.env_valid.other (envNew data)) s.env_valid
    { s.stored s.env_valid with flags := OBSOLETE_FLAG }

@[simp] theorem rewritten_new (s : State) (data : List UInt8) : rewritten s data s.env_valid.other = envNew data := by
  simp [rewritten]

@[simp] theorem rewritten_old (s : State) (data : List UInt8) :
    rewritten s data s.env_valid = { s.stored s.env_valid with flags := OBSOLETE_FLAG } := by
  simp [rewritten]

/-- Whatever the commands do, a call past the export issues all five, returns 0 and
    switches copies. -/
theorem saveenv_switches (s : State) (data : List UInt8) (tmp_tmp : EnvT) (o : Outcomes) :
    (saveenv s (some data) tmp_tmp o).ret = 0 ∧
      (saveenv s (some data) tmp_tmp o).state.env_valid = s.env_valid.other ∧
      (saveenv s (some data) tmp_tmp o).issued.map (·.outcome) = [o.eraseNew,o.writeNew,o.readOld,o.eraseOld,o.writeOld] := by
  refine ⟨rfl,?_,rfl⟩
  simp only [saveenv,sfc_nand_ops,ne_eq,not_true_eq_false,if_false]
  cases s.env_valid <;> rfl

theorem allOk_iff (o : Outcomes) : o.allOk = true ↔ ∀ outcome ∈ [o.eraseNew,o.writeNew,o.readOld,o.eraseOld,o.writeOld], outcome = .ok := by
  simp [Outcomes.allOk,and_assoc]

/-- The new copy and the state of the old one after a call whose commands all succeed. -/
theorem saveenv_allOk (s : State) (data : List UInt8) (tmp_tmp : EnvT) {o : Outcomes} (ok : o.allOk = true) :
    (saveenv s (some data) tmp_tmp o).state = ⟨rewritten s data,s.env_valid.other⟩ := by
  obtain ⟨eraseNew,writeNew,readOld,eraseOld,writeOld⟩ := o
  simp only [allOk_iff,forall_mem_cons,not_mem_nil,false_implies,implies_true,and_true] at ok
  obtain ⟨rfl,rfl,rfl,rfl,rfl⟩ := ok
  have toggled : (if s.env_valid = .two then Copy.one else .two) = s.env_valid.other := by cases s.env_valid <;> rfl
  simp [saveenv,sfc_nand_ops,runCommand,new_eq,old_eq,rewritten,toggled]

/-! ### Failures -/

/-- A call of `saveenv`. -/
structure Call where
  exported : Option (List UInt8)
  tmp_tmp : EnvT
  outcomes : Outcomes

def Call.perform (call : Call) (s : State) : Saved := saveenv s call.exported call.tmp_tmp call.outcomes

/-- The call returns 0 only with its image in the target copy, and a failed command
    leaves `env_valid` alone. -/
def Truthful (s : State) (call : Call) : Prop :=
  ((call.perform s).ret = 0 → ∃ data, call.exported = some data ∧ (call.perform s).state.stored s.new = envNew data) ∧
  ((∃ command ∈ (call.perform s).issued, command.outcome ≠ .ok) → (call.perform s).state.env_valid = s.env_valid)

/-- `c` is the only copy with a right checksum. -/
def OnlyValid (stored : Stored) (c : Copy) : Prop := (stored c).crcOk = true ∧ (stored c.other).crcOk = false

/-- No erase command of the call hits the only valid copy. -/
def SparesOnlyCopy (s : State) (call : Call) : Prop :=
  ∀ command ∈ (call.perform s).issued, command.ops = .erase → ¬ OnlyValid command.found command.copy

/-- The export fails or every command succeeds. -/
def Call.Undisturbed (call : Call) : Prop := call.exported = none ∨ call.outcomes.allOk = true

/-- The export fails or the new image is written. -/
def Call.NewWritten (call : Call) : Prop := call.exported = none ∨ call.outcomes.writeNew = .ok

theorem truthful_iff (s : State) (call : Call) : Truthful s call ↔ call.Undisturbed := by
  obtain ⟨exported,tmp_tmp,o⟩ := call
  cases exported with
  | none => exact iff_of_true ⟨by simp [Call.perform,saveenv],by simp [Call.perform,saveenv]⟩ (.inl rfl)
  | some data =>
    obtain ⟨zero,switched,outcomes⟩ := saveenv_switches s data tmp_tmp o
    constructor
    · rintro ⟨_,unchanged⟩
      refine .inr ((allOk_iff o).mpr ?_)
      -- a failed command is among those issued, but the copies were switched
      rw [← outcomes]
      intro outcome issued
      obtain ⟨command,member,rfl⟩ := mem_map.mp issued
      by_contra failed
      have same := unchanged ⟨command,member,failed⟩
      exact Copy.other_ne _ (switched.symm.trans same)
    intro undisturbed
    have ok := undisturbed.resolve_left (by simp)
    constructor
    · intro _
      refine ⟨data,rfl,?_⟩
      rw [Call.perform,saveenv_allOk s data tmp_tmp ok,new_eq]
      exact rewritten_new s data
    rintro ⟨command,member,failed⟩
    have succeeded := (allOk_iff o).mp ok command.outcome
      (by exact mem_map_of_mem member)
    exact absurd succeeded failed

/-- The current copy is valid, or none is. -/
def Sound (s : State) : Prop := (s.stored s.env_valid).crcOk = true ∨ ∀ c, (s.stored c).crcOk = false

theorem boot_sound (s : State) : Sound (boot s) := by
  unfold Sound
  rw [boot_stored]
  cases chosen : env_relocate_spec (s.stored .one) (s.stored .two) with
  | none => exact .inr (selected_none_iff.mp chosen)
  | some pick => exact .inl (by rw [boot_valid chosen]; exact (selected_ok chosen).2)

theorem new_stays (s : State) (data : List UInt8) (tmp_tmp : EnvT) {o : Outcomes} (written : o.writeNew = .ok) :
    (saveenv s (some data) tmp_tmp o).state.stored s.env_valid.other = envNew data := by
  have afterRead : ∀ buf outcome stored, (runCommand .read s.env_valid buf outcome stored).2 = stored := by
    intro buf outcome stored
    cases outcome <;> rfl
  have elsewhere : ∀ ops buf outcome stored,
      (runCommand ops s.env_valid buf outcome stored).2 s.env_valid.other = stored s.env_valid.other := by
    intro ops buf outcome stored
    cases ops <;> cases outcome <;> simp [runCommand]
  simp only [saveenv,sfc_nand_ops,ne_eq,not_true_eq_false,if_false,old_eq,new_eq,elsewhere,afterRead]
  simp [runCommand,written]

theorem sound_step {s : State} (sound : Sound s) {call : Call} (written : call.NewWritten) :
    Sound (call.perform s).state := by
  obtain ⟨exported,tmp_tmp,o⟩ := call
  cases exported with
  | none => exact sound
  | some data =>
    refine .inl ?_
    rw [Call.perform,(saveenv_switches s data tmp_tmp o).2.1,new_stays s data tmp_tmp (written.resolve_left (by simp))]
    exact envNew_crcOk data

theorem spares_step {s : State} (sound : Sound s) {call : Call} (written : call.NewWritten) : SparesOnlyCopy s call := by
  obtain ⟨exported,tmp_tmp,o⟩ := call
  cases exported with
  | none => intro command member; simp [Call.perform,saveenv] at member
  | some data =>
    have ok : o.writeNew = .ok := written.resolve_left (by simp)
    rintro command member erase ⟨valid,alone⟩
    simp only [Call.perform,saveenv,sfc_nand_ops,ne_eq,not_true_eq_false,if_false,cons_append,nil_append,
      mem_cons,not_mem_nil,or_false] at member
    rcases member with rfl | rfl | rfl | rfl | rfl
    · -- the target: the current copy is valid or there is nothing to lose
      simp only [new_eq,Copy.other_other] at valid alone
      rcases sound with current | none
      · simp [current] at alone
      · simp [none] at valid
    · cases erase
    · cases erase
    · -- the old copy: the new image is there
      have written : (runCommand .read s.old tmp_tmp o.readOld
          (runCommand .write s.new (envNew data) o.writeNew (runCommand .erase s.new (envNew data) o.eraseNew s.stored).2).2).2
            s.old.other = envNew data := by
        rw [ok]
        cases o.readOld <;> simp [runCommand,old_eq,new_eq]
      simp [written,envNew_crcOk] at alone
    · cases erase

/-! ### Runs -/

inductive Event
  | boot
  | save (call : Call)

def next (s : State) : Event → State
  | .boot => boot s
  | .save call => (call.perform s).state

def Step (s : State) (event : Event) (t : State) : Prop := t = next s event

/-- Every call of the run that gets past the export writes its new image. -/
def Event.NewWritten : Event → Prop
  | .boot => True
  | .save call => call.NewWritten

theorem sound_run {start t : State} {events : List Event}
    (run : Run (Guarded (fun _ event => event.NewWritten) Step) (boot start) events t) : Sound t := by
  apply run.invariant (boot_sound start)
  rintro s event _ sound ⟨written,rfl⟩
  cases event with
  | boot => exact boot_sound s
  | save call => exact sound_step sound written

/-- After any run since a reset in which no write of a new image failed, a call of
    `saveenv` is truthful exactly if its export fails or all its commands succeed, and
    if its own image is written it does not erase the only valid copy. -/
theorem saveenv_truthful_iff {start t : State} {events : List Event}
    (run : Run (Guarded (fun _ event => event.NewWritten) Step) (boot start) events t) (call : Call) :
    (Truthful t call ↔ call.Undisturbed) ∧ (call.NewWritten → SparesOnlyCopy t call) :=
  ⟨truthful_iff t call,fun written => spares_step (sound_run run) written⟩

def firstOnly : State := ⟨fun c => match c with | .one => envNew [97,61,49,0] | .two => ⟨0,255,[255,255,255,255]⟩,.one⟩

def smooth (data : List UInt8) : Call := ⟨some data,⟨0,0,[]⟩,⟨.ok,.ok,.ok,.ok,.ok⟩⟩

/-- After one save the next one is truthful and erases no only copy. -/
theorem second_save_truthful :
    Truthful (next (boot firstOnly) (.save (smooth [97,61,50,0]))) (smooth [97,61,51,0]) ∧
      SparesOnlyCopy (next (boot firstOnly) (.save (smooth [97,61,50,0]))) (smooth [97,61,51,0]) := by
  have taken : Guarded (fun _ event => Event.NewWritten event) Step (boot firstOnly) (.save (smooth [97,61,50,0])) _ :=
    ⟨.inr rfl,rfl⟩
  obtain ⟨truthful,spares⟩ := saveenv_truthful_iff (Run.single taken) (smooth [97,61,51,0])
  exact ⟨truthful.mpr (.inr rfl),spares (.inr rfl)⟩

def badWrite : Call := ⟨some [97,61,50,0],⟨0,0,[]⟩,⟨.ok,.failed ⟨0,255,[255,255,255,255]⟩,.ok,.ok,.ok⟩⟩

/-- The failed write is reported as success, the copies are switched, and the next
    call erases the only valid copy. -/
theorem failed_write_reported_as_success :
    (badWrite.perform (boot firstOnly)).ret = 0 ∧
      (badWrite.perform (boot firstOnly)).state.stored .two = ⟨0,255,[255,255,255,255]⟩ ∧
      (boot firstOnly).env_valid = .one ∧ (badWrite.perform (boot firstOnly)).state.env_valid = .two ∧
      ∃ command ∈ ((smooth [97,61,51,0]).perform (badWrite.perform (boot firstOnly)).state).issued,
        command.ops = .erase ∧ command.copy = .one ∧ OnlyValid command.found .one := by
  unfold OnlyValid
  decide +kernel

end UBoot.EnvSfcnand
