import UBoot.FwEnvFlash
import UBoot.FwEnvUpdate

/-!
`fw_setenv` with one or two devices: what is in flash when it returns. The result of
`fw_env_write` is not looked at, so a change that was refused or for which there was no
room is reported as done, and in the second case the old definition is gone
(`fw_setenv_honest_iff`).
-/
namespace UBoot.FwSetenv
open Option CStrings EnvCopies FwEnv FwEnvBlock FwEnvUpdate
open HashtableMap (varB varC varD)
open FwEnvFlash (Tool Environment FlagScheme joinArgs next_preferred active_flag obsolete_flag flagScheme)

variable {name value : CString} {tool : Tool} {new old : List UInt8} {vars : List Var} {written : Written}
  {access : Access} {devices : Devices}

/-- `struct env_image_single`. -/
structure ImageSingle where
  crc : UInt32
  data : List UInt8
deriving DecidableEq

/-- What is on the devices: one image, or two with `HaveRedundEnv`. -/
inductive Devices
  | single (image : ImageSingle)
  | redundant (stored : Stored)

/-- `environment` between `fw_env_open` and `fw_env_close`. -/
inductive Opened
  | single (image : ImageSingle)
  | redundant (environment : Environment) (stored : Stored)

/-- `environment.data`. -/
def Opened.data : Opened → List UInt8
  | .single image => image.data
  | .redundant environment _ => environment.image.data

def Opened.withData : Opened → List UInt8 → Opened
  | .single image, data => .single { image with data := data }
  | .redundant environment stored, data =>
    .redundant { environment with image := { environment.image with data := data } } stored

/-- With a wrong checksum the default environment is laid over what was read. -/
def openSingle (tool : Tool) (image : ImageSingle) : ImageSingle :=
  if crc32 0 image.data = image.crc then image
  else { image with data := tool.default_environment ++ image.data.drop tool.default_environment.length }

def fw_env_open (tool : Tool) : Devices → Option Opened
  | .single image => some (.single (openSingle tool image))
  | .redundant stored => (FwEnvFlash.fw_env_open tool stored).map (.redundant · stored)

def fw_env_close : Opened → Devices
  | .single image => .single { image with crc := crc32 0 image.data }
  | .redundant environment stored => .redundant (FwEnvFlash.fw_env_close environment stored)

/-- What is on the devices after the call and the value returned; `none` if
    `fw_env_write` leaves the block. A `failed` write to flash leaves the devices
    as given. -/
def fw_setenv (tool : Tool) (devices : Devices) (failed : Option Devices) (name : CString) (args : List CString) :
    Option (Devices × Int) :=
  match fw_env_open tool devices with
  | none => some (devices,-1)
  | some opened =>
    if ¬ tool.env_flags_validate_env_set_params name args then some (devices,1)
    else
      (fw_env_write tool.access opened.data name (joinArgs args)).map fun written =>
        match failed with
        | none => (fw_env_close (opened.withData written.1),0)
        | some left => (left,-1)

theorem fw_setenv_redundant (tool : Tool) (stored : Stored) (name : CString) (args : List CString) :
    fw_setenv tool (.redundant stored) none name args =
      (FwEnvFlash.fw_setenv tool stored name args).map fun r => (.redundant r.1,r.2) := by
  have both : fw_env_open tool (.redundant stored) = (FwEnvFlash.fw_env_open tool stored).map (.redundant · stored) := rfl
  unfold fw_setenv FwEnvFlash.fw_setenv
  rw [both]
  cases FwEnvFlash.fw_env_open tool stored with
  | none => rfl
  | some environment =>
    by_cases refused : tool.env_flags_validate_env_set_params name args
    · simp only [map_some,refused,not_true_eq_false,if_false,map_map]
      rfl
    · simp only [map_some,refused,Bool.false_eq_true,not_false_eq_true,if_true]

/-! ### The environment in flash -/

/-- The block the next call of `fw_env_open` makes the environment. -/
def loads (tool : Tool) (devices : Devices) : Option (List UInt8) := (fw_env_open tool devices).map Opened.data

theorem loads_opened (loaded : loads tool devices = some old) :
    ∃ opened, fw_env_open tool devices = some opened ∧ opened.data = old := map_eq_some_iff.mp loaded

theorem opened_flags {stored : Stored} {environment : Environment}
    (opened : FwEnvFlash.fw_env_open tool stored = some environment) :
    flagScheme (tool.devtype .two) (tool.devtype .one) = some environment.flag_scheme ∧
      environment.image.flags = (stored environment.dev_current).flags := by
  obtain ⟨scheme,known,rfl⟩ := map_eq_some_iff.mp opened
  cases chosen : selected scheme.byFlags stored with
  | none => exact ⟨known,rfl⟩
  | some pick =>
    obtain ⟨same,_⟩ := selected_ok chosen
    exact ⟨known,congrArg EnvT.flags same⟩

theorem active_preferred (c : Copy) : Prefers FlagScheme.boolean.byFlags c active_flag obsolete_flag := by
  cases c <;> rfl

theorem selected_closed {stored : Stored} {environment : Environment} (data : List UInt8)
    (opened : FwEnvFlash.fw_env_open tool stored = some environment) :
    ∃ image, image.data = data ∧
      selected environment.flag_scheme.byFlags
        (FwEnvFlash.fw_env_close { environment with image := { environment.image with data := data } } stored) =
          some (environment.dev_current.other,image) := by
  obtain ⟨_,flags⟩ := opened_flags opened
  obtain ⟨scheme,dev,image⟩ := environment
  cases scheme with
  | incremental =>
    refine ⟨⟨crc32 0 data,image.flags+1,data⟩,rfl,?_⟩
    set after := FwEnvFlash.fw_env_close ⟨.incremental,dev,{ image with data := data }⟩ stored with afterIs
    have there : after dev.other = ⟨crc32 0 data,image.flags+1,data⟩ := Function.update_self ..
    have here : after dev = stored dev := Function.update_of_ne (Copy.ne_other dev) ..
    have ok : (after dev.other).crcOk = true := by rw [there]; simp [EnvT.crcOk]
    rw [← there,selected_iff ok]
    refine .inr ?_
    rw [Copy.other_other,there,here,← flags]
    exact next_preferred dev.other image.flags
  | boolean =>
    refine ⟨⟨crc32 0 data,active_flag,data⟩,rfl,?_⟩
    set after := FwEnvFlash.fw_env_close ⟨.boolean,dev,{ image with data := data }⟩ stored with afterIs
    have there : after dev.other = ⟨crc32 0 data,active_flag,data⟩ := by
      exact (Function.update_of_ne (Copy.other_ne dev) ..).trans (Function.update_self ..)
    have here : after dev = { stored dev with flags := obsolete_flag } := Function.update_self ..
    have ok : (after dev.other).crcOk = true := by rw [there]; simp [EnvT.crcOk]
    rw [← there,selected_iff ok]
    refine .inr ?_
    rw [Copy.other_other,there,here]
    exact active_preferred dev.other

theorem loads_closed {opened : Opened} (data : List UInt8)
    (isOpened : fw_env_open tool devices = some opened) : loads tool (fw_env_close (opened.withData data)) = some data := by
  cases devices with
  | single image =>
    obtain rfl := Option.some.inj isOpened
    simp [Opened.withData,fw_env_close,loads,fw_env_open,openSingle,Opened.data]
  | redundant stored =>
    obtain ⟨environment,was,rfl⟩ := map_eq_some_iff.mp isOpened
    obtain ⟨known,_⟩ := opened_flags was
    obtain ⟨image,isData,chosen⟩ := selected_closed data was
    simp only [Opened.withData,fw_env_close,loads,fw_env_open,FwEnvFlash.fw_env_open,known,map_some,chosen,Opened.data,
      isData]

/-! ### What is reported -/

/-- The change the caller asks for: the variable has the value, or is gone if it is
    empty, and no other one is touched. -/
def Sets (name value : CString) (old new : List UInt8) : Prop :=
  fw_getenv new name = some (newValue value) ∧ KeepsOthers name old new

def Refused (access : Access) (vars : List Var) (name value : CString) : Prop :=
  access.denies name (lookup (varName name) vars) value = true

/-- There is room for the new definition once the old one is gone. -/
def Fits (vars : List Var) (size : Nat) (name value : CString) : Prop :=
  value.bytes = [] ∨ Room (without (varName name) vars) size name value

/-- The value returned tells what became of the environment `old` that was in flash,
    with the variables `vars`: 0 only if it was changed as asked for, and for a change
    that is refused or does not fit another value and the same environment. -/
def Honest (tool : Tool) (devices : Devices) (failed : Option Devices) (name : CString) (args : List CString)
    (old : List UInt8) (vars : List Var) : Prop :=
  ∃ after ret, fw_setenv tool devices failed name args = some (after,ret) ∧
    (ret = 0 → ∃ new, loads tool after = some new ∧ Sets name (joinArgs args) old new) ∧
    (Refused tool.access vars name (joinArgs args) ∨ ¬ Fits vars old.length name (joinArgs args) →
      ret ≠ 0 ∧ loads tool after = some old)

/-- A name with an equal sign in it stands for the variable in front of that; only
    removing one that is not defined leaves everything as it was. -/
def NameOk (vars : List Var) (name value : CString) : Prop :=
  equalSign ∉ name.bytes ∨ (value.bytes = [] ∧ lookup (varName name) vars = none)

theorem definition_text (equal : equalSign ∈ name.bytes) (value : CString) :
    ∃ rest : CString, varText (name,value) = varText (varName name,rest) ∧ value.bytes.length < rest.bytes.length := by
  obtain ⟨front,back,split,first⟩ := List.eq_append_cons_of_mem equal
  have base : nameBytes name.bytes = front := by
    rw [split,nameBytes,List.takeWhile_append_of_pos]
    · simp
    intro c member
    have : c ≠ equalSign := fun same => first (same ▸ member)
    simpa using this
  have nulFree : 0 ∉ back ++ equalSign :: value.bytes := by
    intro nul
    rcases List.mem_append.mp nul with inName | inRest
    · exact name.nulFree (by rw [split]; simp [inName])
    rcases List.mem_cons.mp inRest with equal | inValue
    · exact absurd equal (by decide)
    · exact value.nulFree inValue
  refine ⟨⟨back ++ equalSign :: value.bytes,nulFree⟩,?_,by simp; omega⟩
  change name.bytes ++ equalSign :: value.bytes = nameBytes name.bytes ++ equalSign :: (back ++ equalSign :: value.bytes)
  rw [base,split]
  simp

/-- A change that is neither refused nor too large, asked for under a name with an
    equal sign. -/
theorem sets_equal_iff (given : Represents old vars)
    (equal : equalSign ∈ name.bytes) (permitted : ¬ Refused access vars name value)
    (fits : Fits vars old.length name value)
    (result : fw_env_write access old name value = some (new,written)) :
    Sets name value old new ↔ value.bytes = [] ∧ lookup (varName name) vars = none := by
  obtain ⟨block,distinct⟩ := given
  obtain ⟨data',length,left,call⟩ := fw_env_write_removed block access name value
  rw [Refused] at permitted
  rw [result,if_neg permitted] at call
  have plain : equalSign ∉ (varName name).bytes := nameBytes_noEqual _
  have different : varName name ≠ name := by
    intro same
    rw [same] at plain
    exact plain equal
  by_cases empty : value.bytes = []
  · rw [if_pos empty] at call
    cases call
    constructor
    · rintro ⟨_,others⟩
      have before := others (varName name) plain different
      rw [fw_getenv_eq left plain,fw_getenv_eq block plain,lookup_removed distinct] at before
      exact ⟨empty,(Option.some.inj before).symm⟩
    rintro ⟨_,undefined⟩
    refine ⟨by rw [fw_getenv_varName left,lookup_removed distinct,newValue,if_pos empty],?_⟩
    intro other noEqual _
    rw [fw_getenv_eq left noEqual,fw_getenv_eq block noEqual]
    by_cases same : other = varName name
    · rw [same,lookup_removed distinct,undefined]
    · rw [lookup_without same]
  rw [if_neg empty] at call
  refine iff_of_false ?_ (fun both => empty both.1)
  have room := fits.resolve_left empty
  rcases appendEntry_eq left name value with ⟨full,_⟩ | ⟨_,data'',pad,appended,_,text⟩
  · rw [length] at full
    exact absurd room full
  rw [appended] at call
  cases call
  obtain ⟨rest,sameText,longer⟩ := definition_text equal value
  have sameBlock : new = blockText (without (varName name) vars ++ [(varName name,rest)]) ++ 0 :: pad := by
    rw [text,blockText_append,blockText_append,blockText_cons,blockText_cons,sameText]
  rintro ⟨found,_⟩
  rw [fw_getenv_varName (appended_block left plain sameBlock),lookup_appended distinct,newValue,if_neg empty] at found
  obtain rfl : rest = value := by simpa using found
  exact absurd longer (by simp)

theorem sets_written (given : Represents old vars)
    (noEqual : equalSign ∉ name.bytes) (permitted : ¬ Refused access vars name value)
    (fits : Fits vars old.length name value)
    (result : fw_env_write access old name value = some (new,written)) : Sets name value old new := by
  obtain ⟨block,distinct⟩ := given
  rw [Refused,varName_self noEqual] at permitted
  rw [Fits,varName_self noEqual] at fits
  rcases fw_env_write_spec block access noEqual value with
    ⟨denied,_⟩ | ⟨_,data',_,⟨empty,done,left⟩ | ⟨valued,full,_,_⟩ | ⟨valued,_,done,added⟩⟩
  · exact absurd denied permitted
  · rw [result] at done
    cases done
    refine ⟨?_,keepsOthers_without block left⟩
    rw [fw_getenv_eq left noEqual,lookup_removed distinct,newValue,if_pos empty]
  · exact absurd (fits.resolve_left valued) full
  rw [result] at done
  cases done
  refine ⟨?_,keepsOthers_appended block added⟩
  rw [fw_getenv_eq added noEqual,lookup_appended distinct,newValue,if_neg valued]

theorem sets_iff (given : Represents old vars)
    (permitted : ¬ Refused access vars name value)
    (fits : Fits vars old.length name value)
    (result : fw_env_write access old name value = some (new,written)) : Sets name value old new ↔ NameOk vars name value := by
  by_cases equal : equalSign ∈ name.bytes
  · rw [sets_equal_iff given equal permitted fits result,NameOk]
    simp [equal]
  · exact iff_of_true (sets_written given equal permitted fits result) (.inl equal)

/-- On a block `fw_env_write` stays inside of it, whatever the name. -/
theorem fw_env_write_defined {data : List UInt8} (block : Block vars data) (access : Access)
    (name value : CString) : ∃ written, fw_env_write access data name value = some written := by
  obtain ⟨data',_,left,call⟩ := fw_env_write_removed block access name value
  rw [call]
  split_ifs
  · exact ⟨_,rfl⟩
  · exact ⟨_,rfl⟩
  rcases appendEntry_eq left name value with ⟨_,appended⟩ | ⟨_,data'',_,appended,_⟩
  · exact ⟨_,appended⟩
  · exact ⟨_,appended⟩

theorem fw_setenv_written {opened : Opened} (isOpened : fw_env_open tool devices = some opened)
    {args : List CString} (accepted : tool.env_flags_validate_env_set_params name args = true)
        (result : fw_env_write tool.access opened.data name (joinArgs args) = some (new,written)) (failed : Option Devices) :
    fw_setenv tool devices failed name args =
      some (match failed with | none => (fw_env_close (opened.withData new),0) | some left => (left,-1)) := by
  simp [fw_setenv,isOpened,accepted,result]

/-- When the result of `fw_setenv` can be relied on: the parameters are refused before
    anything is done; or the write to flash works and the change is one that
    `fw_env_write` permits and has room for, with a proper name; or the write fails and,
    if the change was refused or did not fit, leaves the environment readable. -/
theorem fw_setenv_honest_iff {tool : Tool} {devices : Devices} {old : List UInt8} (loaded : loads tool devices = some old)
    {vars : List Var} (given : Represents old vars) (failed : Option Devices) (name : CString) (args : List CString) :
    Honest tool devices failed name args old vars ↔
      tool.env_flags_validate_env_set_params name args = false ∨
        match failed with
        | none => ¬ Refused tool.access vars name (joinArgs args) ∧ Fits vars old.length name (joinArgs args) ∧
            NameOk vars name (joinArgs args)
        | some left => Refused tool.access vars name (joinArgs args) ∨ ¬ Fits vars old.length name (joinArgs args) →
            loads tool left = some old := by
  obtain ⟨opened,isOpened,rfl⟩ := loads_opened loaded
  by_cases accepted : tool.env_flags_validate_env_set_params name args = true
  swap
  · have refusedFirst : fw_setenv tool devices failed name args = some (devices,1) := by
      simp [fw_setenv,isOpened,accepted]
    exact iff_of_true ⟨devices,1,refusedFirst,by simp,fun _ => ⟨by decide,loaded⟩⟩ (.inl (by simpa using accepted))
  obtain ⟨⟨new,written⟩,result⟩ := fw_env_write_defined given.1 tool.access name (joinArgs args)
  rw [Honest,fw_setenv_written isOpened accepted result failed]
  simp only [accepted,Bool.true_eq_false,false_or]
  cases failed with
  | some left =>
    constructor
    · rintro ⟨after,ret,same,_,kept⟩ bad
      cases same
      exact (kept bad).2
    · intro kept
      exact ⟨left,-1,rfl,by simp,fun bad => ⟨by decide,kept bad⟩⟩
  | none =>
    have inFlash := loads_closed new isOpened
    constructor
    · rintro ⟨after,ret,same,done,kept⟩
      cases same
      have good : ¬ (Refused tool.access vars name (joinArgs args) ∨ ¬ Fits vars opened.data.length name (joinArgs args)) :=
        fun bad => (kept bad).1 rfl
      obtain ⟨permitted,fits⟩ := not_or.mp good
      obtain ⟨new',isNew,sets⟩ := done rfl
      rw [inFlash] at isNew
      cases isNew
      exact ⟨permitted,not_not.mp fits,(sets_iff given permitted (not_not.mp fits) result).mp sets⟩
    rintro ⟨permitted,fits,named⟩
    exact ⟨_,0,rfl,fun _ => ⟨new,inFlash,(sets_iff given permitted fits result).mpr named⟩,
      fun bad => absurd bad (not_or.mpr ⟨permitted,not_not.mpr fits⟩)⟩

def plainTool : Tool := ⟨[0,0],fun _ => .nandflash,EnvReaders.Access.free,fun _ _ => true⟩

/-- One device with the block of `EnvReaders`, its checksum right. -/
def smallDevice : Devices := .single ⟨crc32 0 EnvReaders.smallBlock,EnvReaders.smallBlock⟩

theorem smallDevice_opens :
    fw_env_open plainTool smallDevice = some (.single ⟨crc32 0 EnvReaders.smallBlock,EnvReaders.smallBlock⟩) := by
  simp [fw_env_open,smallDevice,openSingle]

theorem smallDevice_loads : loads plainTool smallDevice = some EnvReaders.smallBlock := by
  rw [loads,smallDevice_opens]
  rfl

theorem short_value_reported :
    loads plainTool smallDevice = some EnvReaders.smallBlock ∧ Represents EnvReaders.smallBlock [(varB,varC)] ∧
      Honest plainTool smallDevice none varB [varD] EnvReaders.smallBlock [(varB,varC)] := by
  have given : Represents EnvReaders.smallBlock [(varB,varC)] := ⟨EnvReaders.smallBlock_block,by decide⟩
  refine ⟨smallDevice_loads,given,(fw_setenv_honest_iff smallDevice_loads given none varB [varD]).mpr (.inr ⟨?_,?_,?_⟩)⟩
  · exact (by decide : ¬ EnvReaders.Access.free.denies varB (some varC) varD = true)
  · exact .inr (by decide : 0 + (1 + 1 + 3) ≤ 16)
  · exact .inl (by decide)

def longValue : CString := ⟨List.replicate 14 120,by decide⟩

/-- `b=c` is in flash. Setting `b` to that value returns 0, and `b` is gone. -/
theorem long_value_deletes :
    loads plainTool smallDevice = some EnvReaders.smallBlock ∧ fw_getenv EnvReaders.smallBlock varB = some (some varC) ∧
      ∃ after new, fw_setenv plainTool smallDevice none varB [longValue] = some (after,0) ∧ loads plainTool after = some new ∧
        fw_getenv new varB = some none := by
  have written : fw_env_write EnvReaders.Access.free EnvReaders.smallBlock varB (joinArgs [longValue]) =
      some ([0,0,99,0,0,0,0,0,0,0,0,0,0,0,0,0],.overflow) := by decide +kernel
  exact ⟨smallDevice_loads,by decide +kernel,_,_,fw_setenv_written smallDevice_opens rfl written none,
    loads_closed [0,0,99,0,0,0,0,0,0,0,0,0,0,0,0,0] smallDevice_opens,by decide +kernel⟩

end UBoot.FwSetenv
