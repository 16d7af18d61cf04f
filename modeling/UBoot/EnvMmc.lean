import UBoot.EnvCopies
import UBoot.Runs

/-!
The redundant environment on MMC, `common/env_mmc.c` with `CONFIG_ENV_OFFSET_REDUND`.
The flags byte of a copy is a serial number. `saveenv` counts `env_flags` up before
it knows whether the write succeeds; selection compares the stored serials and treats
only 255 and 0 as a wrap-around.
-/
namespace UBoot.EnvMmc
open EnvCopies Runs

/-- Both checksums are right: the choice by serial. -/
def checkSerial (flags1 flags2 : UInt8) : Copy :=
  if flags1 = 255 ∧ flags2 = 0 then .two
  else if flags2 = 255 ∧ flags1 = 0 then .one
  else if flags1 > flags2 then .one
  else if flags2 > flags1 then .two
  else .one

/-- The copy `env_relocate_spec` imports, given what was read of each; `none` is a
    read that failed, and in the result the default environment. -/
def env_relocate_spec (tmp_env1 tmp_env2 : Option EnvT) : Option (Copy × EnvT) :=
  selectCopy checkSerial tmp_env1 tmp_env2

structure State where
  stored : Stored
  env_valid : Copy
  env_flags : UInt8
  running : Bool

/-- A reset: `env_init`, a cleared `env_flags` and `env_relocate_spec`. -/
def boot (s : State) : State :=
  match env_relocate_spec (some (s.stored .one)) (some (s.stored .two)) with
  | none => { s with env_valid := .one, env_flags := 0, running := true }
  | some (copy,ep) => { s with env_valid := copy, env_flags := ep.flags, running := true }

/-- The copy `saveenv` writes. -/
def State.target (s : State) : Copy := if s.env_valid = .one then .two else .one

/-- The image `saveenv` writes. -/
def State.envNew (s : State) (data : List UInt8) : EnvT := ⟨crc32 0 data,s.env_flags + 1,data⟩

/-- How the call to `write_env` ends and, if it fails, what it leaves in the target. -/
inductive Write
  | done
  | failed (left : EnvT)

/-- `saveenv` on the exported data, `none` if there is no card or the export fails:
    the state and the value returned. -/
def saveenv (s : State) (exported : Option (List UInt8)) (write : Write) : State × Nat :=
  match exported with
  | none => (s,1)
  | some data =>
    let counted := { s with env_flags := s.env_flags + 1 }
    match write with
    | .failed left => ({ counted with stored := Function.update s.stored s.target left },1)
    | .done =>
      ({ counted with stored := Function.update s.stored s.target (s.envNew data),
                      env_valid := if s.env_valid = .two then .one else .two },0)

/-- What happens to the device. A successful save is noted with the copy and the
    image it wrote. -/
inductive Event
  | boot
  | saved (copy : Copy) (image : EnvT)
  | failed
  | refused
  | powerCut

/-- One event. A write that fails leaves the target unchanged or without a right
    checksum; a power cut in the middle of one leaves it without, and stops U-Boot. -/
inductive Step : State → Event → State → Prop
  | boot (s : State) : Step s .boot (boot s)
  | saved (s : State) (data : List UInt8) : s.running = true →
      Step s (.saved s.target (s.envNew data)) (saveenv s (some data) .done).1
  | failed (s : State) (data : List UInt8) (left : EnvT) : s.running = true →
      (left = s.stored s.target ∨ left.crcOk = false) → Step s .failed (saveenv s (some data) (.failed left)).1
  | refused (s : State) (write : Write) : s.running = true → Step s .refused (saveenv s none write).1
  | powerCut (s : State) (data : List UInt8) (left : EnvT) : s.running = true → left.crcOk = false →
      Step s .powerCut { (saveenv s (some data) (.failed left)).1 with running := false }

/-- The copy and image of the most recent successful save. -/
def lastSaved : List Event → Option (Copy × EnvT) :=
  List.foldl (fun last event => match event with
    | .saved copy image => some (copy,image)
    | _ => last) none

theorem lastSaved_snoc (events : List Event) (event : Event) :
    lastSaved (events ++ [event]) = match event with
      | .saved copy image => some (copy,image)
      | _ => lastSaved events := by
  rw [lastSaved,List.foldl_append]
  rfl

/-! ### The order of the serials -/

/-- The serial after `serial` outranks that of the current copy: both wrap around
    together, or `serial` has not fallen behind and does not look like a wrap the other
    way. Between equal serials copy 1 wins. -/
def Outranks (current : Copy) (flags serial : UInt8) : Prop :=
  (flags = 255 ∧ serial = 255) ∨ (flags ≤ serial ∧ serial ≠ 255 ∧ ¬ (flags = 0 ∧ serial = 254)) ∨
    (current = .two ∧ flags = serial + 1)

theorem checkSerial_two_iff (flags serial : UInt8) : checkSerial flags (serial+1) = .two ↔ Outranks .one flags serial := by
  have high := serial.toNat_lt
  simp only [checkSerial,Outranks,gt_iff_lt,UInt8.lt_iff_toNat_lt,UInt8.le_iff_toNat_le,← UInt8.toNat_inj,
    UInt8.toNat_add,flags_toNat,ne_eq,reduceCtorEq,false_and,or_false]
  split_ifs <;> simp only [true_iff,false_iff] <;> omega

theorem checkSerial_one_iff (flags serial : UInt8) : checkSerial (serial+1) flags = .one ↔ Outranks .two flags serial := by
  have high := serial.toNat_lt
  simp only [checkSerial,Outranks,gt_iff_lt,UInt8.lt_iff_toNat_lt,UInt8.le_iff_toNat_le,← UInt8.toNat_inj,
    UInt8.toNat_add,flags_toNat,ne_eq,true_and]
  split_ifs <;> simp only [true_iff,false_iff] <;> omega

/-- The current copy has no right checksum, or its serial is outranked by the next one. -/
def SerialOk (s : State) : Prop :=
  (s.stored s.env_valid).crcOk = false ∨ Outranks s.env_valid (s.stored s.env_valid).flags s.env_flags

/-- The condition on the state a successful save starts from. -/
def SavesInOrder (s : State) : Event → Prop
  | .saved _ _ => SerialOk s
  | _ => True

theorem target_eq (s : State) : s.target = s.env_valid.other := by
  unfold State.target Copy.other
  cases s.env_valid <;> rfl

theorem envNew_crcOk (s : State) (data : List UInt8) : (s.envNew data).crcOk = true := by
  simp [State.envNew,EnvT.crcOk]

/-- After a successful save a reset selects the new copy exactly when the save met the
    condition. -/
theorem selected_saved_iff (s : State) (data : List UInt8) :
    selected checkSerial (saveenv s (some data) .done).1.stored = some (s.target,s.envNew data) ↔ SerialOk s := by
  simp only [saveenv]
  have fresh : Function.update s.stored s.target (s.envNew data) s.target = s.envNew data := Function.update_self ..
  have kept : Function.update s.stored s.target (s.envNew data) s.target.other = s.stored s.env_valid := by
    rw [target_eq,Copy.other_other]
    exact Function.update_of_ne (by simp) ..
  have chosen := @selected_iff checkSerial (Function.update s.stored s.target (s.envNew data)) s.target
    (by rw [fresh]; exact envNew_crcOk s data)
  rw [fresh] at chosen
  rw [chosen,SerialOk,target_eq]
  cases s.env_valid with
  | one => rw [← checkSerial_two_iff]; rfl
  | two => rw [← checkSerial_one_iff]; rfl

/-! ### Runs -/

/-- The last completed save is what a reset selects, and a running U-Boot takes its
    copy for the current one. -/
def Kept (events : List Event) (s : State) : Prop :=
  ∀ copy image, lastSaved events = some (copy,image) →
    selected checkSerial s.stored = some (copy,image) ∧ (s.running = true → s.env_valid = copy)

theorem boot_stored (s : State) : (boot s).stored = s.stored := by
  unfold boot
  split <;> rfl

theorem boot_valid {s : State} {c : Copy} {image : EnvT} (chosen : selected checkSerial s.stored = some (c,image)) :
    (boot s).env_valid = c := by
  rw [selected] at chosen
  simp only [boot,env_relocate_spec,chosen]

theorem kept_failed {events : List Event} {s : State} (kept : Kept events s) (running : s.running = true)
    {data : List UInt8} {left : EnvT} (harmless : left = s.stored s.target ∨ left.crcOk = false) :
    Kept events (saveenv s (some data) (.failed left)).1 := by
  intro copy image last
  obtain ⟨chosen,current⟩ := kept copy image last
  have valid := current running
  obtain ⟨rfl,_⟩ := selected_ok chosen
  rw [target_eq,valid] at harmless
  refine ⟨?_,fun _ => valid⟩
  simp only [saveenv,target_eq,valid]
  exact selected_update chosen harmless

theorem kept_step {events : List Event} {s t : State} {event : Event} (kept : Kept events s)
    (inOrder : SavesInOrder s event) (step : Step s event t) : Kept (events ++ [event]) t := by
  cases step with
  | boot =>
    intro copy image last
    rw [lastSaved_snoc] at last
    obtain ⟨chosen,_⟩ := kept copy image last
    exact ⟨by rwa [boot_stored],fun _ => boot_valid chosen⟩
  | saved data running =>
    intro copy image last
    rw [lastSaved_snoc] at last
    obtain ⟨rfl,rfl⟩ : s.target = copy ∧ s.envNew data = image := by simpa using last
    refine ⟨(selected_saved_iff s data).mpr inOrder,fun _ => ?_⟩
    simp only [saveenv,State.target]
    cases s.env_valid <;> rfl
  | failed data left running harmless =>
    intro copy image last
    rw [lastSaved_snoc] at last
    exact kept_failed kept running harmless copy image last
  | refused write running =>
    intro copy image last
    rw [lastSaved_snoc] at last
    exact kept copy image last
  | powerCut data left running bad =>
    intro copy image last
    rw [lastSaved_snoc] at last
    obtain ⟨chosen,_⟩ := @kept_failed events s kept running data left (.inr bad) copy image last
    exact ⟨chosen,by simp⟩

/-- A running U-Boot continues the serial of its current copy. -/
def Synced (s : State) : Prop :=
  s.running = true → (s.stored s.env_valid).crcOk = true → s.env_flags = (s.stored s.env_valid).flags

theorem Synced.serialOk {s : State} (synced : Synced s) (running : s.running = true) : SerialOk s := by
  cases current : (s.stored s.env_valid).crcOk with
  | false => exact .inl current
  | true =>
    refine .inr ?_
    rw [synced running current]
    by_cases wraps : (s.stored s.env_valid).flags = 255
    · exact .inl ⟨wraps,wraps⟩
    refine .inr (.inl ⟨UInt8.le_refl _,wraps,?_⟩)
    rintro ⟨zero,large⟩
    rw [zero] at large
    exact absurd large (by decide)

theorem synced_step {s t : State} {event : Event} (synced : Synced s) (step : Step s event t) (noFailure : event ≠ .failed) :
    Synced t := by
  cases step with
  | boot =>
    intro _ current
    rw [boot_stored] at current ⊢
    cases chosen : selected checkSerial s.stored with
    | some pick =>
      rw [boot_valid chosen,← (selected_ok chosen).1]
      rw [selected] at chosen
      simp only [boot,env_relocate_spec,chosen]
    | none =>
      -- the default environment is loaded only when neither copy has a right checksum
      rw [selected_none_iff.mp chosen] at current
      cases current
  | saved data running =>
    intro _ _
    simp only [saveenv,State.target]
    cases s.env_valid <;> simp [State.envNew]
  | failed => exact absurd rfl noFailure
  | refused write running => exact synced
  | powerCut data left running bad =>
    intro off
    simp at off

/-- Without failed writes the condition always holds. -/
theorem in_order_without_failures {start t : State} {events : List Event} (off : start.running = false)
    (run : Run Step start events t) (noFailures : .failed ∉ events) : Run (Guarded SavesInOrder Step) start events t := by
  have both : Synced t ∧ Run (Guarded SavesInOrder Step) start events t := by
    induction run with
    | start => exact ⟨by simp [Synced,off],.start⟩
    | next before step ih =>
      obtain ⟨synced,guarded⟩ := ih (fun earlier => noFailures (List.mem_append_left _ earlier))
      refine ⟨synced_step synced step ?_,guarded.next ⟨?_,step⟩⟩
      · rintro rfl
        simp at noFailures
      cases step with
      | saved data running => exact synced.serialOk running
      | _ => trivial
  exact both.2

/-- From any contents of the two copies, in every run whose successful saves meet
    the condition, `env_relocate_spec` selects what the last of them wrote. -/
theorem completed_save_survives {start t : State} {events : List Event}
    (run : Run (Guarded SavesInOrder Step) start events t) {copy : Copy} {image : EnvT}
    (last : lastSaved events = some (copy,image)) :
    env_relocate_spec (some (t.stored .one)) (some (t.stored .two)) = some (copy,image) ∧
      (boot t).env_valid = copy := by
  have kept : Kept events t := by
    apply run.relates
    · intro copy image none
      simp [lastSaved] at none
    · rintro events s event t kept ⟨inOrder,step⟩
      exact kept_step kept inOrder step
  obtain ⟨chosen,_⟩ := kept copy image last
  exact ⟨chosen,boot_valid chosen⟩

def imageOf (flags : UInt8) (data : List UInt8) : EnvT := ⟨crc32 0 data,flags,data⟩

def inSequence : State := ⟨fun c => match c with | .one => imageOf 3 [97,61,49,0] | .two => imageOf 4 [97,61,50,0],.one,0,false⟩

/-- Boot, a failed write, a completed save and a power cut in the next one: the
    save is still the one selected. -/
theorem save_survives_failure_and_power_cut :
    ∃ events t copy image, Run (Guarded SavesInOrder Step) inSequence events t ∧ lastSaved events = some (copy,image) ∧
      image.data = [97,61,51,0] ∧ env_relocate_spec (some (t.stored .one)) (some (t.stored .two)) = some (copy,image) ∧
      (boot t).env_valid = copy := by
  have booted : Guarded SavesInOrder Step inSequence .boot _ := ⟨trivial,.boot _⟩
  have failed : Guarded SavesInOrder Step (boot inSequence) .failed _ :=
    ⟨trivial,.failed _ [97,61,51,0] (imageOf 3 [97,61,49,0]) (by decide +kernel) (.inl (by decide +kernel))⟩
  have inOrder : SerialOk (saveenv (boot inSequence) (some [97,61,51,0]) (.failed (imageOf 3 [97,61,49,0]))).1 :=
    .inr (.inr (.inl (by decide +kernel)))
  have saved : Guarded SavesInOrder Step _ (.saved _ _) _ := ⟨inOrder,.saved _ [97,61,51,0] (by decide +kernel)⟩
  have free : ∀ s, SavesInOrder s .powerCut := fun _ => trivial
  have run := ((Run.start.next booted).next failed).next saved |>.next
    ⟨free _,.powerCut _ [97,61,52,0] ⟨0,7,[97,61,52,0]⟩ (by decide +kernel) (by decide +kernel)⟩
  exact ⟨_,_,_,_,run,rfl,by decide +kernel,completed_save_survives run rfl⟩

/-- From a device that is off, power cuts at any moment never cost a completed save. -/
theorem power_cuts_keep_saves {start t : State} {events : List Event} (off : start.running = false)
    (run : Run Step start events t) (noFailures : .failed ∉ events) {copy : Copy} {image : EnvT}
    (last : lastSaved events = some (copy,image)) :
    env_relocate_spec (some (t.stored .one)) (some (t.stored .two)) = some (copy,image) := by
  have kept : Kept events t := by
    apply (in_order_without_failures off run noFailures).relates
    · intro copy image none
      simp [lastSaved] at none
    · rintro events s event t kept ⟨inOrder,step⟩
      exact kept_step kept inOrder step
  exact (kept copy image last).1

/-- A power cut in the second save. -/
theorem save_survives_power_cut : ∃ (t : State) (copy : Copy) (image : EnvT), image.data = [97,61,51,0] ∧
    env_relocate_spec (some (t.stored .one)) (some (t.stored .two)) = some (copy,image) := by
  have run := ((Run.start.next (Step.boot inSequence)).next (.saved _ [97,61,51,0] (by decide +kernel))).next
    (.powerCut _ [97,61,52,0] ⟨0,7,[97,61,52,0]⟩ (by decide +kernel) (by decide +kernel))
  exact ⟨_,_,_,by decide +kernel,power_cuts_keep_saves rfl run (by simp) rfl⟩

def nearWrap : State := ⟨fun c => match c with | .one => imageOf 254 [97,61,49,0] | .two => imageOf 253 [97,61,50,0],.one,0,false⟩

/-- Boot, one failed write, a completed save: the next reset selects the old copy. -/
theorem save_lost_at_wrap :
    ∃ events t copy image, Run Step nearWrap events t ∧ lastSaved events = some (copy,image) ∧
      image.data = [97,61,51,0] ∧ image.flags = 0 ∧ copy = .two ∧
      env_relocate_spec (some (t.stored .one)) (some (t.stored .two)) = some (.one,imageOf 254 [97,61,49,0]) := by
  have run : Run Step nearWrap _ _ :=
    ((Run.start.next (Step.boot nearWrap)).next
      (Step.failed (boot nearWrap) [97,61,51,0] (imageOf 253 [97,61,50,0]) (by decide +kernel)
        (.inl (by decide +kernel)))).next
      (Step.saved _ [97,61,51,0] (by decide +kernel))
  exact ⟨_,_,_,_,run,rfl,by decide +kernel,by decide +kernel,by decide +kernel,by decide +kernel⟩

end UBoot.EnvMmc
