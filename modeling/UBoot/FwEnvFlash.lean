import UBoot.EnvCopies
import UBoot.FwEnv

/-!
`fw_env.c` with a redundant environment (`HaveRedundEnv`): which of the two devices
`fw_env_open` makes the current one and how `fw_env_close` writes the other. Device 0
is the first copy, device 1 the second; opening, reading and writing them succeeds.
-/
namespace UBoot.FwEnvFlash
open EnvCopies CStrings FwEnv

/-- The device types `flash_read` accepts; a regular file is `absent`. -/
inductive MtdType
  | absent
  | norflash
  | nandflash
  | dataflash
  | ubivolume
deriving DecidableEq

inductive FlagScheme
  | incremental
  | boolean
deriving DecidableEq

def active_flag : UInt8 := 1
def obsolete_flag : UInt8 := 0

def flagScheme : MtdType → MtdType → Option FlagScheme
  | .norflash, .norflash => some .boolean
  | .nandflash, .nandflash => some .incremental
  | .dataflash, .dataflash => some .boolean
  | .ubivolume, .ubivolume => some .incremental
  | _, _ => none

def FlagScheme.byFlags : FlagScheme → UInt8 → UInt8 → Copy
  | .boolean, flag0, flag1 =>
    if flag0 = active_flag ∧ flag1 = obsolete_flag then .one
    else if flag0 = obsolete_flag ∧ flag1 = active_flag then .two
    else if flag0 = flag1 then .one
    else if flag0 = 0xFF then .one
    else if flag1 = 0xFF then .two
    else .one
  | .incremental, flag0, flag1 =>
    if flag0 = 255 ∧ flag1 = 0 then .two
    else if (flag1 = 255 ∧ flag0 = 0) ∨ flag0 ≥ flag1 then .one
    else .two

/-- `environment` and `dev_current`. -/
structure Environment where
  flag_scheme : FlagScheme
  dev_current : Copy
  image : EnvT

structure Tool where
  default_environment : List UInt8
  devtype : Copy → MtdType
  access : Access
  env_flags_validate_env_set_params : CString → List CString → Bool

/-- `none` for incompatible devices. With two wrong checksums the default environment
    is laid over the data of device 0, whose flags stay. -/
def fw_env_open (tool : Tool) (stored : Stored) : Option Environment :=
  (flagScheme (tool.devtype .two) (tool.devtype .one)).map fun scheme =>
    match selected scheme.byFlags stored with
    | some (dev,image) => ⟨scheme,dev,image⟩
    | none =>
      let env := stored .one
      ⟨scheme,.one,{ env with data := tool.default_environment ++ env.data.drop tool.default_environment.length }⟩

def flash_write (environment : Environment) (stored : Stored) : Stored :=
  let dev_current := environment.dev_current
  match environment.flag_scheme with
  | .incremental =>
    Function.update stored dev_current.other { environment.image with flags := environment.image.flags + 1 }
  | .boolean =>
    Function.update (Function.update stored dev_current.other { environment.image with flags := active_flag })
      dev_current { stored dev_current with flags := obsolete_flag }

def fw_env_close (environment : Environment) (stored : Stored) : Stored :=
  flash_write { environment with image := { environment.image with crc := crc32 0 environment.image.data } } stored

def joinBytes : List CString → List UInt8
  | [] => []
  | [val] => val.bytes
  | val :: next :: args => val.bytes ++ space :: joinBytes (next :: args)

theorem joinBytes_nulFree (args : List CString) : 0 ∉ joinBytes args := by
  fun_induction joinBytes args with
  | case1 => simp
  | case2 val => exact val.nulFree
  | case3 val next args ih =>
    rw [List.mem_append,List.mem_cons]
    rintro (inside | blank | later)
    · exact val.nulFree inside
    · exact absurd blank (by decide)
    · exact ih later

def joinArgs (args : List CString) : CString := ⟨joinBytes args,joinBytes_nulFree args⟩

/-- The flash after the call and the value returned; `none` if `fw_env_write` leaves
    the block. Its own result is not looked at. -/
def fw_setenv (tool : Tool) (stored : Stored) (name : CString) (args : List CString) : Option (Stored × Int) :=
  match fw_env_open tool stored with
  | none => some (stored,-1)
  | some environment =>
    if ¬ tool.env_flags_validate_env_set_params name args then some (stored,1)
    else
      (fw_env_write tool.access environment.image.data name (joinArgs args)).map fun written =>
        (fw_env_close { environment with image := { environment.image with data := written.1 } } stored,0)

/-! ### What a successful call writes on NAND -/

def Tool.Nand (tool : Tool) : Prop := ∀ c, tool.devtype c = .nandflash

def current (stored : Stored) : Copy := ((selected FlagScheme.incremental.byFlags stored).map Prod.fst).getD .one

theorem fw_env_open_nand {tool : Tool} (nand : tool.Nand) (stored : Stored) :
    ∃ data, fw_env_open tool stored = some ⟨.incremental,current stored,{ stored (current stored) with data := data }⟩ := by
  unfold fw_env_open current
  rw [nand,nand]
  cases chosen : selected FlagScheme.incremental.byFlags stored with
  | none => exact ⟨_,by simp [flagScheme,chosen]; rfl⟩
  | some pick =>
    refine ⟨pick.2.data,?_⟩
    obtain ⟨same,_⟩ := selected_ok chosen
    simp [flagScheme,chosen,same]

theorem fw_env_open_selected {tool : Tool} (nand : tool.Nand) {stored : Stored} {c : Copy} {image : EnvT}
    (chosen : selected FlagScheme.incremental.byFlags stored = some (c,image)) :
    fw_env_open tool stored = some ⟨.incremental,c,image⟩ := by
  unfold fw_env_open
  rw [nand,nand]
  simp [flagScheme,chosen]

theorem next_preferred (c : Copy) (flags : UInt8) : Prefers FlagScheme.incremental.byFlags c (flags+1) flags := by
  have low := flags.toNat_lt
  cases c
  all_goals
    simp only [Prefers,FlagScheme.byFlags,ge_iff_le,UInt8.le_iff_toNat_le,← UInt8.toNat_inj,UInt8.toNat_add,flags_toNat]
    split_ifs <;> first | rfl | omega

/-- A call that returns 0 has written the next serial and a right checksum to the other
    device. -/
theorem fw_setenv_writes {tool : Tool} (nand : tool.Nand) {stored after : Stored} {name : CString} {args : List CString}
    (returned : fw_setenv tool stored name args = some (after,0)) :
    ∃ data, after = Function.update stored (current stored).other
      ⟨crc32 0 data,(stored (current stored)).flags + 1,data⟩ := by
  obtain ⟨read,opened⟩ := fw_env_open_nand nand stored
  simp only [fw_setenv,opened] at returned
  split at returned
  · simp at returned
  obtain ⟨written,_,same⟩ := Option.map_eq_some_iff.mp returned
  refine ⟨written.1,?_⟩
  exact (congrArg Prod.fst same).symm

end UBoot.FwEnvFlash
