import UBoot.EnvSfcnand
import UBoot.FwEnvFlash

/-!
U-Boot and the Linux tool on the same two copies in SFC NAND. `env_sfcnand.c` marks
the active copy with 1 and the obsolete one with 0; on NAND `fw_env.c` counts the same
byte up.
-/
namespace UBoot.EnvSharedNand
open EnvCopies CStrings Runs EnvSfcnand FwEnvFlash

/-- What the machine runs; U-Boot remembers `gd->env_valid`. -/
inductive Mode
  | uboot (env_valid : Copy)
  | linux

structure Machine where
  stored : Stored
  mode : Mode

/-- What happens. The two writers are noted with the copy they wrote and its image. -/
inductive Event
  | reboot
  | startLinux
  | saveenv (copy : Copy) (image : EnvT)
  | fw_setenv (copy : Copy) (image : EnvT)

inductive Step : Machine → Event → Machine → Prop
  | reboot (m : Machine) : Step m .reboot ⟨m.stored,.uboot (boot ⟨m.stored,.one⟩).env_valid⟩
  | startLinux (m : Machine) (env_valid : Copy) : m.mode = .uboot env_valid → Step m .startLinux ⟨m.stored,.linux⟩
  | saveenv (m : Machine) (s : EnvSfcnand.State) (data : List UInt8) (tmp_tmp : EnvT) (o : Outcomes) :
      m.mode = .uboot s.env_valid → s.stored = m.stored → o.allOk = true →
      Step m (.saveenv s.new (envNew data))
        ⟨(saveenv s (some data) tmp_tmp o).state.stored,.uboot (saveenv s (some data) tmp_tmp o).state.env_valid⟩
  | fw_setenv (m : Machine) (tool : Tool) (name : CString) (args : List CString) (environment : Environment) (after : Stored) :
      m.mode = .linux → tool.Nand → fw_env_open tool m.stored = some environment →
      fw_setenv tool m.stored name args = some (after,0) →
      Step m (.fw_setenv environment.dev_current.other (after environment.dev_current.other)) ⟨after,.linux⟩

/-- The copy and image written last by either of the two. -/
def lastWritten : List Event → Option (Copy × EnvT) :=
  List.foldl (fun last event => match event with
    | .saveenv copy image => some (copy,image)
    | .fw_setenv copy image => some (copy,image)
    | _ => last) none

theorem lastWritten_snoc (events : List Event) (event : Event) :
    lastWritten (events ++ [event]) = match event with
      | .saveenv copy image => some (copy,image)
      | .fw_setenv copy image => some (copy,image)
      | _ => lastWritten events := by
  rw [lastWritten,List.foldl_append]
  rfl

/-! ### The two ways to read the flags -/

/-- An active copy wins against an obsolete one, for U-Boot and for the tool. -/
theorem active_preferred (c : Copy) : Prefers checkFlags c ACTIVE_FLAG OBSOLETE_FLAG ∧
    Prefers FlagScheme.incremental.byFlags c ACTIVE_FLAG OBSOLETE_FLAG := by
  unfold Prefers
  cases c <;> decide

/-- For U-Boot the next serial wins in copy 2, and in copy 1 only if it is 1. -/
theorem next_preferred_iff (c : Copy) (flags : UInt8) : Prefers checkFlags c (flags+1) flags ↔ c = .two ∨ flags = 0 := by
  cases c
  all_goals
    simp only [Prefers,checkFlags,ACTIVE_FLAG,OBSOLETE_FLAG,← UInt8.toNat_inj,UInt8.toNat_add,flags_toNat,reduceCtorEq,
      false_or,true_or]
    split_ifs <;> simp <;> omega

/-! ### One write -/

/-- The condition on the copies `fw_setenv` finds: copy 2 is invalid or has the flags
    0, or copy 1 is the tool's choice and copy 2 will be written. -/
def SetOk (stored : Stored) : Prop :=
  (stored .two).crcOk = false ∨ (stored .two).flags = 0 ∨
    ((stored .one).crcOk = true ∧
      (((stored .one).flags = 0 ∧ (stored .two).flags = 255) ∨ (stored .two).flags ≤ (stored .one).flags))

theorem current_of_selected {stored : Stored} {c : Copy} {image : EnvT}
    (chosen : selected FlagScheme.incremental.byFlags stored = some (c,image)) : current stored = c := by
  simp [current,chosen]

theorem prefers_one_iff (flags1 flags2 : UInt8) : Prefers FlagScheme.incremental.byFlags .one flags1 flags2 ↔
    ¬ (flags1 = 255 ∧ flags2 = 0) ∧ ((flags1 = 0 ∧ flags2 = 255) ∨ flags2 ≤ flags1) := by
  simp only [Prefers,FlagScheme.byFlags,ge_iff_le]
  split_ifs with wraps ahead
  · simp [wraps]
  · simp only [true_iff]
    exact ⟨wraps,ahead.imp_left And.symm⟩
  simp only [false_iff]
  rintro ⟨_,first⟩
  exact ahead (first.imp_left And.symm)

theorem setOk_iff (stored : Stored) : SetOk stored ↔
    (stored (current stored)).crcOk = false ∨ (current stored).other = .two ∨ (stored (current stored)).flags = 0 := by
  unfold SetOk
  cases ok2 : (stored .two).crcOk with
  | false =>
    refine iff_of_true (.inl rfl) ?_
    cases ok1 : (stored .one).crcOk with
    | false => exact .inl (by cases current stored <;> assumption)
    | true =>
      have chosen := (@selected_iff FlagScheme.incremental.byFlags stored .one ok1).mpr (.inl ok2)
      exact .inr (.inl (by rw [current_of_selected chosen]; rfl))
  | true =>
    by_cases first : (stored .one).crcOk = true ∧
        Prefers FlagScheme.incremental.byFlags .one (stored .one).flags (stored .two).flags
    · obtain ⟨ok1,ahead⟩ := first
      have chosen := (@selected_iff FlagScheme.incremental.byFlags stored .one ok1).mpr (.inr ahead)
      rw [current_of_selected chosen]
      exact iff_of_true (.inr (.inr ⟨ok1,((prefers_one_iff _ _).mp ahead).2⟩)) (.inr (.inl rfl))
    have wins : (stored .one).crcOk = false ∨
        Prefers FlagScheme.incremental.byFlags .two (stored .two).flags (stored .one).flags := by
      rw [not_and_or,Bool.not_eq_true] at first
      refine first.imp_right fun behind => ?_
      revert behind
      simp only [Prefers]
      cases FlagScheme.incremental.byFlags (stored .one).flags (stored .two).flags <;> simp
    have chosen := (@selected_iff FlagScheme.incremental.byFlags stored .two ok2).mpr wins
    rw [current_of_selected chosen]
    simp only [ok2,Bool.true_eq_false,Copy.other,reduceCtorEq,false_or]
    refine ⟨?_,.inl⟩
    rintro (zero | ⟨ok1,ahead⟩)
    · exact zero
    · -- copy 1 is ahead and yet not chosen: the serial of copy 2 has just wrapped
      by_contra notZero
      exact first ⟨ok1,(prefers_one_iff _ _).mpr ⟨fun wraps => notZero wraps.2,ahead⟩⟩

theorem both_select_saved (s : EnvSfcnand.State) (data : List UInt8) :
    selected checkFlags (rewritten s data) = some (s.env_valid.other,envNew data) ∧
      selected FlagScheme.incremental.byFlags (rewritten s data) = some (s.env_valid.other,envNew data) := by
  have ok : (rewritten s data s.env_valid.other).crcOk = true := by rw [rewritten_new]; exact envNew_crcOk data
  have wins := active_preferred s.env_valid.other
  rw [← rewritten_new s data]
  refine ⟨(selected_iff ok).mpr (.inr ?_),(selected_iff ok).mpr (.inr ?_)⟩
  · rw [Copy.other_other,rewritten_new,rewritten_old]
    exact wins.1
  · rw [Copy.other_other,rewritten_new,rewritten_old]
    exact wins.2

/-- After a write by the tool it selects the new copy itself, and U-Boot does exactly
    under the condition. -/
theorem select_set (stored : Stored) (data : List UInt8) :
    let image : EnvT := ⟨crc32 0 data,(stored (current stored)).flags + 1,data⟩
    let after := Function.update stored (current stored).other image
    selected FlagScheme.incremental.byFlags after = some ((current stored).other,image) ∧
      (selected checkFlags after = some ((current stored).other,image) ↔ SetOk stored) := by
  intro image after
  have fresh : after (current stored).other = image := Function.update_self ..
  have kept : after (current stored) = stored (current stored) := Function.update_of_ne (by simp) ..
  have ok : (after (current stored).other).crcOk = true := by rw [fresh]; simp [image,EnvT.crcOk]
  have next : image.flags = (stored (current stored)).flags + 1 := rfl
  rw [← fresh,selected_iff ok,selected_iff ok,setOk_iff,Copy.other_other,kept,fresh]
  exact ⟨.inr (next_preferred ..),or_congr_right (next_preferred_iff ..)⟩

/-! ### Runs -/

/-- The condition on the machine a `fw_setenv` starts from. -/
def SetsInOrder (m : Machine) : Event → Prop
  | .fw_setenv _ _ => SetOk m.stored
  | _ => True

/-- Both sides select what was written last. -/
def Agree (events : List Event) (m : Machine) : Prop :=
  ∀ copy image, lastWritten events = some (copy,image) →
    selected checkFlags m.stored = some (copy,image) ∧
      selected FlagScheme.incremental.byFlags m.stored = some (copy,image)

theorem agree_step {events : List Event} {m n : Machine} {event : Event} (agree : Agree events m)
    (inOrder : SetsInOrder m event) (step : Step m event n) : Agree (events ++ [event]) n := by
  intro copy image last
  rw [lastWritten_snoc] at last
  cases step with
  | reboot => exact agree copy image last
  | startLinux => exact agree copy image last
  | saveenv s data tmp_tmp o running same ok =>
    obtain ⟨rfl,rfl⟩ : s.new = copy ∧ envNew data = image := by simpa using last
    rw [saveenv_allOk s data tmp_tmp ok,new_eq]
    exact both_select_saved s data
  | fw_setenv tool name args environment after running nand opened returned =>
    obtain ⟨read,opened'⟩ := fw_env_open_nand nand m.stored
    obtain ⟨data,rfl⟩ := fw_setenv_writes nand returned
    have device : environment.dev_current = current m.stored := by
      rw [opened] at opened'
      exact congrArg Environment.dev_current (Option.some.inj opened')
    rw [device] at last
    obtain ⟨rfl,rfl⟩ := Prod.mk.inj (Option.some.inj last)
    obtain ⟨tools,uboots⟩ := select_set m.stored data
    simp only [Function.update_self]
    exact ⟨uboots.mpr inOrder,tools⟩

/-- In every run of reboots, saves and `fw_setenv` calls from any contents of the
    copies, if each `fw_setenv` meets the condition, both readers select what was written
    last. -/
theorem both_select_last_written {start m : Machine} {events : List Event}
    (run : Run (Guarded SetsInOrder Step) start events m) {copy : Copy} {image : EnvT}
    (last : lastWritten events = some (copy,image)) :
    EnvSfcnand.env_relocate_spec (m.stored .one) (m.stored .two) = some (copy,image) ∧
      ∀ tool : Tool, tool.Nand → fw_env_open tool m.stored = some ⟨.incremental,copy,image⟩ := by
  have agree : Agree events m := by
    apply run.relates
    · intro copy image none
      simp [lastWritten] at none
    · rintro events s event t agree ⟨inOrder,step⟩
      exact agree_step agree inOrder step
  obtain ⟨uboots,tools⟩ := agree copy image last
  exact ⟨uboots,fun tool nand => fw_env_open_selected nand tools⟩

def nandTool : Tool :=
  ⟨[],fun _ => .nandflash,⟨fun _ => false,fun _ => false,fun _ => false,fun _ => false,fun _ => none⟩,fun _ _ => true⟩

/-- A block that holds `a=` and one digit. -/
def block (digit : UInt8) : List UInt8 := [97,61,digit,0,0,0,0,0]

def varA : CString := ⟨[97],by decide⟩
def two : CString := ⟨[50],by decide⟩

theorem tool_sets {stored : Stored} {c : Copy}
    (opened : fw_env_open nandTool stored = some ⟨.incremental,c,envNew (block 49)⟩) :
    fw_setenv nandTool stored varA [two] =
      some (Function.update stored c.other ⟨crc32 0 (block 50),2,block 50⟩,0) := by
  rw [fw_setenv,opened]
  rfl

def firstActive : Machine :=
  ⟨fun c => match c with | .one => envNew (block 49) | .two => ⟨crc32 0 (block 48),0,block 48⟩,.linux⟩

/-- The tool writes copy 2 and both select it. -/
theorem tool_write_selected :
    ∃ events m image, Run (Guarded SetsInOrder Step) firstActive events m ∧ lastWritten events = some (.two,image) ∧
      image.data = block 50 ∧ EnvSfcnand.env_relocate_spec (m.stored .one) (m.stored .two) = some (.two,image) ∧
      ∀ tool : Tool, tool.Nand → fw_env_open tool m.stored = some ⟨.incremental,.two,image⟩ := by
  have opened : fw_env_open nandTool firstActive.stored = some ⟨.incremental,.one,envNew (block 49)⟩ := by
    rw [fw_env_open_selected (fun _ => rfl)]
    decide +kernel
  have inOrder : SetOk firstActive.stored := .inr (.inl rfl)
  have step : Guarded SetsInOrder Step firstActive (.fw_setenv .two _) _ :=
    ⟨inOrder,.fw_setenv _ nandTool varA [two] _ _ rfl (fun _ => rfl) opened (tool_sets opened)⟩
  have run := Run.single step
  exact ⟨_,_,_,run,rfl,by decide +kernel,both_select_last_written run rfl⟩

def blank : Machine := ⟨fun _ => ⟨0,255,block 255⟩,.linux⟩

def afterSave : Stored := rewritten ⟨blank.stored,.one⟩ (block 49)

/-- First boot, `saveenv`, Linux, `fw_setenv`: the tool has written copy 1 and U-Boot
    goes on to select copy 2. -/
theorem tool_write_overlooked :
    ∃ events m image, Run Step blank events m ∧ lastWritten events = some (.one,image) ∧ image.data = block 50 ∧
      fw_env_open nandTool m.stored = some ⟨.incremental,.one,image⟩ ∧
      EnvSfcnand.env_relocate_spec (m.stored .one) (m.stored .two) = some (.two,envNew (block 49)) := by
  have booted : Step blank .reboot ⟨blank.stored,.uboot .one⟩ := by
    have first : (boot ⟨blank.stored,.one⟩).env_valid = .one := by decide +kernel
    have step := Step.reboot blank
    rwa [first] at step
  have saved : Step ⟨blank.stored,.uboot .one⟩ (.saveenv .two (envNew (block 49))) ⟨afterSave,.uboot .two⟩ := by
    have step := Step.saveenv ⟨blank.stored,.uboot .one⟩ ⟨blank.stored,.one⟩ (block 49) ⟨0,0,[]⟩
      ⟨.ok,.ok,.ok,.ok,.ok⟩ rfl rfl rfl
    rwa [saveenv_allOk _ _ _ rfl] at step
  have opened : fw_env_open nandTool afterSave = some ⟨.incremental,.two,envNew (block 49)⟩ := by
    rw [fw_env_open_selected (fun _ => rfl)]
    decide +kernel
  have run := ((Run.start.next booted).next saved).next (Step.startLinux _ .two rfl) |>.next
    (Step.fw_setenv ⟨afterSave,.linux⟩ nandTool varA [two] _ _ rfl (fun _ => rfl) opened (tool_sets opened))
  refine ⟨_,_,_,run,rfl,by decide +kernel,?_,by decide +kernel⟩
  rw [fw_env_open_selected (fun _ => rfl)]
  decide +kernel

end UBoot.EnvSharedNand
