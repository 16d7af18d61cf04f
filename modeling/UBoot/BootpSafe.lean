import UBoot.Bootp

/-!
What the BOOTP and DHCP clients read of an accepted packet. They stay inside of the payload exactly when the options
end there, with all values that are copied inside (`replies_inside_iff`); stores always stay inside of the variables.
-/
namespace UBoot.BootpSafe
open List Option Buffers CStrings Bootp

variable {cfg : Config} {payload value et_src : List UInt8} {dest src : Nat} {net : Net} {old : Quad}

/-! ### Reading and copying -/

theorem readQuad_iff : (∃ q, readQuad value = some q) ↔ 4 ≤ value.length := by
  match value with
  | [] | [_] | [_,_] | [_,_,_] => simp [readQuad]
  | a :: b :: c :: d :: rest => simp [readQuad]

theorem takeN_iff {n : Nat} : (∃ text, takeN value n = some text) ↔ n ≤ value.length := by
  rw [takeN]
  split <;> simp_all

theorem truncate_sz_lt {maxlen : Nat} (some_ : 0 < maxlen) (curlen : Nat) : truncate_sz maxlen curlen < maxlen := by
  rw [truncate_sz]
  split <;> omega

theorem copyText_iff {dest value : List UInt8} (some_ : 0 < dest.length) {size : Nat} :
    ((∃ text, copyText dest value size = some text) ↔ truncate_sz dest.length size ≤ value.length) ∧
      ∀ text, copyText dest value size = some text → text.length = dest.length := by
  have fits := truncate_sz_lt some_ size
  rw [copyText,takeN]
  by_cases inside : truncate_sz dest.length size ≤ value.length
  · have length : (value.take (truncate_sz dest.length size)).length = truncate_sz dest.length size := by
      rw [length_take]
      omega
    obtain ⟨copied,stored,same⟩ := @storeAll_fits _ dest (value.take (truncate_sz dest.length size)) 0 (by omega)
    rw [if_pos inside,bind_eq_bind,bind_some,stored,bind_some,store_fits (by omega)]
    refine ⟨⟨fun _ => inside,fun _ => ⟨_,rfl⟩⟩,fun text copied => ?_⟩
    cases copied
    rw [length_set,same]
  · rw [if_neg inside]
    simpa using inside

theorem copyLoop_inside : ∀ {n : Nat} {dst src : List UInt8} {i : Nat}, n ≤ src.length → i + n < dst.length →
    ∃ after, copyLoop n dst i src = some after ∧ after.length = dst.length := by
  intro n
  induction n with
  | zero => intro dst src i _ room; exact ⟨_,store_fits room 0,length_set⟩
  | succ n ih =>
    intro dst src i long room
    cases src with
    | nil => exact absurd long (Nat.not_succ_le_zero n)
    | cons c src =>
      rw [length_cons] at long
      have here := store_fits (show i < dst.length by omega)
      rw [copyLoop]
      split
      · obtain ⟨after,copied,length⟩ := @ih (dst.set i c) src (i+1) (by omega) (by rw [length_set]; omega)
        exact ⟨after,by rw [here,bind_eq_bind,bind_some,copied],by rw [length,length_set]⟩
      · exact ⟨_,here 0,length_set⟩

theorem copy_filename_inside {dst src : List UInt8} (size : dst.length = fileSize) (long : fileSize ≤ src.length) :
    ∃ after, copy_filename dst src fileSize = some after ∧ after.length = fileSize := by
  rw [fileSize] at *
  rw [copy_filename,getElem?_eq_getElem (by omega),bind_eq_bind,bind_some]
  split
  · obtain ⟨after,copied,length⟩ := @copyLoop_inside (128-2) dst (src.drop 1) 0 (by rw [length_drop]; omega) (by omega)
    exact ⟨after,copied,length.trans size⟩
  · obtain ⟨after,copied,length⟩ := @copyLoop_inside (128-1) dst src 0 (by omega) (by omega)
    exact ⟨after,copied,length.trans size⟩

theorem stringAt_iff {data : List UInt8} {i : Nat} : (∃ s, stringAt data i = some s) ↔ 0 ∈ data.drop i := by
  constructor
  · rintro ⟨s,found⟩
    have nul := stringAt_nul found
    rw [← getElem?_drop] at nul
    exact mem_of_getElem? nul
  intro nul
  obtain ⟨k,inside,zero⟩ := mem_iff_getElem.mp nul
  rw [getElem_drop] at zero
  rw [length_drop] at inside
  obtain ⟨s,found,_⟩ := @stringAt_ends data i (i+k) (List.getElem?_eq_some_iff.mpr ⟨by omega,zero⟩) (Nat.le_add_right _ _)
  exact ⟨s,found⟩

theorem copyBootFile_iff {bp BootFile : List UInt8} (size : BootFile.length = fileSize) (long : bp_vend ≤ bp.length) :
    ((∃ after, copyBootFile bp BootFile = some after) ↔ 0 ∈ bp.drop bp_file) ∧
      ∀ after, copyBootFile bp BootFile = some after → after.length = fileSize := by
  rw [copyBootFile,← stringAt_iff]
  cases found : stringAt bp bp_file with
  | none => simp
  | some file =>
    rw [bind_eq_bind,bind_some]
    split
    · obtain ⟨after,copied,length⟩ := @copy_filename_inside BootFile (bp.drop bp_file) size (by
        rw [length_drop]
        simp only [bp_vend,fileSize,bp_file] at *
        omega)
      rw [copied]
      exact ⟨⟨fun _ => ⟨file,rfl⟩,fun _ => ⟨after,rfl⟩⟩,fun _ same => Option.some.inj same ▸ length⟩
    · exact ⟨⟨fun _ => ⟨file,rfl⟩,fun _ => ⟨BootFile,rfl⟩⟩,fun _ same => Option.some.inj same ▸ size⟩

/-! ### The variables -/

structure Sized (net : Net) : Prop where
  host : net.NetOurHostName.length = 32
  root : net.NetOurRootPath.length = 64
  nis : net.NetOurNISDomain.length = 32
  file : net.BootFile.length = fileSize

theorem BootpCopyNetParams_iff {cfg : Config} {et_src bp : List UInt8} {net : Net} (sized : Sized net) (long : bp_vend ≤ bp.length) :
    ((∃ after, BootpCopyNetParams cfg et_src bp net = some after) ↔ 0 ∈ bp.drop bp_file) ∧
      ∀ after, BootpCopyNetParams cfg et_src bp net = some after → Sized after := by
  have word : ∀ {place : Nat}, place + 4 ≤ bp_vend → ∃ q, readQuad (bp.drop place) = some q := fun inside =>
    readQuad_iff.mpr (by rw [length_drop]; omega)
  obtain ⟨siaddr,server⟩ := @word bp_siaddr (by decide)
  obtain ⟨yiaddr,our⟩ := @word bp_yiaddr (by decide)
  obtain ⟨string,length⟩ := @copyBootFile_iff bp net.BootFile sized.file long
  rw [← string,BootpCopyNetParams,server,our]
  cases copied : copyBootFile bp net.BootFile with
  | none => simp
  | some file =>
    refine ⟨⟨fun _ => ⟨_,rfl⟩,fun _ => ⟨_,rfl⟩⟩,fun after same => ?_⟩
    cases same
    exact { sized with file := length file copied }

/-! ### Options -/

theorem exists_bind {α β : Type} {x : Option α} {f : α → β} : (∃ r, (x >>= fun a => some (f a)) = some r) ↔ ∃ a, x = some a := by
  cases x with
  | none => simp
  | some a => exact ⟨fun _ => ⟨a,rfl⟩,fun _ => ⟨_,rfl⟩⟩

theorem exists_bind_pair {α β γ : Type} {x : Option α} {y : Option β} {f : α → β → γ} :
    (∃ r, (x >>= fun a => y >>= fun b => some (f a b)) = some r) ↔ (∃ a, x = some a) ∧ ∃ b, y = some b := by
  cases x with
  | none => simp
  | some a => exact exists_bind.trans ⟨fun given => ⟨⟨a,rfl⟩,given⟩,And.right⟩

/-- How many bytes of a value are read; `first` is the first character of `bp_file`. -/
def optionNeeds (cfg : Config) (code : UInt8) (oplen : Nat) (first : UInt8) : Nat :=
  match code with
  | 1 | 3 | 51 | 54 => 4
  | 2 => if cfg.timeOffset then 4 else 0
  | 6 => if cfg.dns2 = true ∧ 4 < oplen then 8 else 4
  | 12 => truncate_sz 32 oplen
  | 17 => truncate_sz 64 oplen
  | 42 => if cfg.ntpServer then 4 else 0
  | 67 => if first = 0 then truncate_sz fileSize oplen else 0
  | _ => 0

/-- The first character of `bp_file` after an option. -/
def firstAfter (code : UInt8) (oplen : Nat) (value : List UInt8) (first : UInt8) : UInt8 :=
  if code = 67 ∧ first = 0 ∧ 0 < truncate_sz fileSize oplen then value.headD 0 else first

/-- What an option does to the packet: it keeps its size, and its boot file stays a string or stays none. -/
structure Rewrites (bp after : List UInt8) (first : UInt8) : Prop where
  length : after.length = bp.length
  first : after[bp_file]? = some first
  string : 0 ∈ after.drop bp_file ↔ 0 ∈ bp.drop bp_file

theorem Rewrites.refl {bp : List UInt8} {first : UInt8} (same : bp[bp_file]? = some first) : Rewrites bp bp first :=
  ⟨rfl,same,Iff.rfl⟩

theorem optDns2_iff {oplen : Nat} :
    (∃ q, optDns2 cfg old value oplen = some q) ↔ (cfg.dns2 = true ∧ 4 < oplen → 8 ≤ value.length) := by
  rw [optDns2]
  split
  case isTrue second =>
    rw [readQuad_iff,length_drop]
    constructor
    · omega
    intro long
    have := long second
    omega
  case isFalse none_ => exact ⟨fun _ second => absurd second none_,fun _ => ⟨old,rfl⟩⟩

theorem copyOptFile_iff {value bp : List UInt8} {oplen : Nat} {first : UInt8} (long : bp_vend ≤ bp.length)
    (here : bp[bp_file]? = some first) :
    ((∃ after, copyOptFile value oplen bp = some after) ↔ (if first = 0 then truncate_sz fileSize oplen else 0) ≤ value.length) ∧
      ∀ after, copyOptFile value oplen bp = some after → Rewrites bp after (firstAfter 67 oplen value first) := by
  have size := @truncate_sz_lt fileSize (by decide) oplen
  rw [copyOptFile,here,firstAfter]
  simp only [bind_eq_bind,bind_some,true_and]
  by_cases copies : first = 0 ∧ 0 < truncate_sz fileSize oplen
  · rw [if_pos copies,if_pos copies.1,if_pos copies,takeN]
    by_cases inside : truncate_sz fileSize oplen ≤ value.length
    · have length : (value.take (truncate_sz fileSize oplen) ++ [0]).length = truncate_sz fileSize oplen + 1 := by
        rw [length_append,length_take,length_singleton]
        omega
      have room : bp_file + (value.take (truncate_sz fileSize oplen) ++ [0]).length ≤ bp.length := by
        simp only [bp_vend,bp_file,fileSize] at *
        omega
      rw [if_pos inside,bind_some,storeAll,if_pos room]
      refine ⟨⟨fun _ => inside,fun _ => ⟨_,rfl⟩⟩,fun after stored => ?_⟩
      cases stored
      have taken : (bp.take bp_file).length = bp_file := by
        rw [length_take]
        omega
      obtain ⟨c,rest,rfl⟩ := exists_cons_of_ne_nil (length_pos_iff.mp (Nat.lt_of_lt_of_le copies.2 inside))
      obtain ⟨n,succ⟩ := Nat.exists_eq_succ_of_ne_zero (Nat.ne_of_gt copies.2)
      rw [succ] at length room ⊢
      refine ⟨?_,?_,?_⟩
      · rw [length_append,length_append,length_drop]
        omega
      · rw [append_assoc,getElem?_append_right (by rw [taken]),taken]
        rfl
      rw [append_assoc,drop_append_of_le_length (by rw [taken])]
      refine ⟨fun _ => ?_,fun _ => by simp⟩
      have zero := copies.1 ▸ here
      rw [← Nat.add_zero bp_file,← getElem?_drop] at zero
      exact mem_of_getElem? zero
    · rw [if_neg inside]
      simpa using inside
  rw [if_neg copies,if_neg copies]
  refine ⟨⟨fun _ => ?_,fun _ => ⟨bp,rfl⟩⟩,fun after same => Option.some.inj same ▸ .refl here⟩
  split
  case isTrue zero => exact Nat.le_of_lt_succ (by have := not_and.mp copies zero; omega)
  case isFalse => exact Nat.zero_le _

theorem plainOption {α : Type} {x : Option α} (f : α → Net) {code : UInt8} {n oplen : Nat} {value bp : List UInt8} {first : UInt8}
    (reads : (∃ a, x = some a) ↔ n ≤ value.length) (keeps : ∀ a, x = some a → Sized (f a)) (other : code ≠ 67)
    (here : bp[bp_file]? = some first) :
    ((∃ r, (x >>= fun a => some (bp,f a)) = some r) ↔ n ≤ value.length) ∧
      ∀ after net', (x >>= fun a => some (bp,f a)) = some (after,net') →
        Sized net' ∧ Rewrites bp after (firstAfter code oplen value first) := by
  refine ⟨exists_bind.trans reads,fun after net' done => ?_⟩
  obtain ⟨a,read,result⟩ := bind_eq_some_iff.mp done
  cases result
  rw [firstAfter,if_neg fun same => other same.1]
  exact ⟨keeps a read,.refl here⟩

theorem dhcpOption_iff {cfg : Config} {code : UInt8} {oplen : Nat} {value bp : List UInt8} {net : Net} {first : UInt8}
    (sized : Sized net) (long : bp_vend ≤ bp.length) (here : bp[bp_file]? = some first) :
    ((∃ r, dhcpOption cfg code oplen value bp net = some r) ↔ optionNeeds cfg code oplen first ≤ value.length) ∧
      ∀ after net', dhcpOption cfg code oplen value bp net = some (after,net') →
        Sized net' ∧ Rewrites bp after (firstAfter code oplen value first) := by
  have ignored : ∀ {code : UInt8}, code ≠ 67 → ((∃ r, some (bp,net) = some r) ↔ 0 ≤ value.length) ∧
      ∀ after net', some (bp,net) = some (after,net') → Sized net' ∧ Rewrites bp after (firstAfter code oplen value first) := fun other =>
    @plainOption Unit (some ()) (fun _ => net) _ 0 _ _ _ _ ⟨fun _ => Nat.zero_le _,fun _ => ⟨(),rfl⟩⟩ (fun _ _ => sized) other here
  have host := @copyText_iff net.NetOurHostName value (by rw [sized.host]; decide) oplen
  have root := @copyText_iff net.NetOurRootPath value (by rw [sized.root]; decide) oplen
  rw [sized.host] at host
  rw [sized.root] at root
  unfold dhcpOption optionNeeds
  split
  · exact plainOption _ readQuad_iff (fun _ _ => { sized with }) (by decide) here
  · split
    · exact plainOption _ readQuad_iff (fun _ _ => { sized with }) (by decide) here
    · exact ignored (by decide)
  · exact plainOption _ readQuad_iff (fun _ _ => { sized with }) (by decide) here
  · refine ⟨?_,fun after net' done => ?_⟩
    · rw [exists_bind_pair,readQuad_iff,optDns2_iff]
      show _ ↔ (if cfg.dns2 = true ∧ 4 < oplen then 8 else 4) ≤ _
      split
      case isTrue second => exact ⟨fun both => both.2 second,fun long => ⟨by omega,fun _ => long⟩⟩
      case isFalse one => exact ⟨And.left,fun long => ⟨long,fun second => absurd second one⟩⟩
    obtain ⟨_,_,rest⟩ := bind_eq_some_iff.mp done
    obtain ⟨_,_,result⟩ := bind_eq_some_iff.mp rest
    cases result
    exact ⟨{ sized with },.refl here⟩
  · exact plainOption _ host.1 (fun text copied => { sized with host := host.2 text copied }) (by decide) here
  · exact plainOption _ root.1 (fun text copied => { sized with root := root.2 text copied }) (by decide) here
  · split
    · exact plainOption _ readQuad_iff (fun _ _ => { sized with }) (by decide) here
    · exact ignored (by decide)
  · exact plainOption _ readQuad_iff (fun _ _ => { sized with }) (by decide) here
  · exact plainOption _ readQuad_iff (fun _ _ => { sized with }) (by decide) here
  · obtain ⟨reads,rewrites⟩ := @copyOptFile_iff value bp oplen first long here
    refine ⟨exists_bind.trans reads,fun after net' done => ?_⟩
    obtain ⟨copied,read,result⟩ := bind_eq_some_iff.mp done
    cases result
    exact ⟨sized,rewrites _ read⟩
  · split <;> first | contradiction | exact ignored (by assumption)

/-- The options from some place on can be processed: `left` bytes before `end`. -/
inductive OptionsFit (cfg : Config) : Nat → UInt8 → List UInt8 → Prop
  | past {first : UInt8} {popt : List UInt8} : OptionsFit cfg 0 first popt
  | last {left : Nat} {first : UInt8} {rest : List UInt8} : OptionsFit cfg (left + 1) first (0xff :: rest)
  | next {left : Nat} {first code oplen : UInt8} {value : List UInt8} : code ≠ 0xff →
      optionNeeds cfg code oplen.toNat first ≤ value.length →
      OptionsFit cfg (left + 1 - (oplen.toNat + 2)) (firstAfter code oplen.toNat value first) (value.drop oplen.toNat) →
      OptionsFit cfg (left + 1) first (code :: oplen :: value)

theorem optionsLoop_iff {cfg : Config} : ∀ {fuel left : Nat} {popt bp : List UInt8} {net : Net} {first : UInt8}, Sized net →
    bp_vend ≤ bp.length → bp[bp_file]? = some first → popt.length < fuel →
    ((∃ r, optionsLoop cfg fuel left popt bp net = some r) ↔ OptionsFit cfg left first popt) ∧
      ∀ after net', optionsLoop cfg fuel left popt bp net = some (after,net') →
        Sized net' ∧ ∃ last, Rewrites bp after last := by
  intro fuel
  induction fuel with
  | zero => intro _ _ _ _ _ _ _ _ enough; exact absurd enough (Nat.not_lt_zero _)
  | succ fuel ih =>
    intro left popt bp net first sized long here enough
    unfold optionsLoop
    cases left with
    | zero =>
      exact ⟨⟨fun _ => .past,fun _ => ⟨_,rfl⟩⟩,fun _ _ same => by cases same; exact ⟨sized,first,.refl here⟩⟩
    | succ left =>
      cases popt with
      | nil => exact ⟨⟨fun ⟨_,given⟩ => (nomatch given),fun fits => (nomatch fits)⟩,fun _ _ given => (nomatch given)⟩
      | cons code rest =>
        simp only
        by_cases ends : code = 0xff
        · rw [ends]
          exact ⟨⟨fun _ => .last,fun _ => ⟨_,rfl⟩⟩,fun _ _ same => by cases same; exact ⟨sized,first,.refl here⟩⟩
        rw [if_neg ends]
        cases rest with
        | nil =>
          refine ⟨⟨fun ⟨_,given⟩ => (nomatch given),fun fits => ?_⟩,fun _ _ given => (nomatch given)⟩
          cases fits
          exact absurd rfl ends
        | cons oplen value =>
          simp only
          obtain ⟨reads,keeps⟩ := @dhcpOption_iff cfg code oplen.toNat value bp net first sized long here
          cases done : dhcpOption cfg code oplen.toNat value bp net with
          | none =>
            refine ⟨⟨fun ⟨_,given⟩ => (nomatch given),fun fits => ?_⟩,fun _ _ given => (nomatch given)⟩
            cases fits with
            | last => exact absurd rfl ends
            | next _ needs _ =>
              obtain ⟨_,given⟩ := reads.mpr needs
              rw [done] at given
              cases given
          | some r =>
            obtain ⟨after,net'⟩ := r
            obtain ⟨sized',rewrites⟩ := keeps after net' done
            have shorter : (value.drop oplen.toNat).length < fuel := by
              rw [length_drop]
              simp only [length_cons] at enough
              omega
            obtain ⟨goesOn,keepsOn⟩ := @ih (left + 1 - (oplen.toNat+2)) (value.drop oplen.toNat) after net' _ sized'
              (by rw [rewrites.length]; exact long) rewrites.first shorter
            refine ⟨goesOn.trans ⟨fun fits => .next ends (reads.mp ⟨_,done⟩) fits,fun fits => ?_⟩,fun last net'' more => ?_⟩
            · cases fits with
              | last => exact absurd rfl ends
              | next _ _ fits => exact fits
            · obtain ⟨sized'',c,later⟩ := keepsOn last net'' more
              exact ⟨sized'',c,later.length.trans rewrites.length,later.first,later.string.trans rewrites.string⟩

/-! ### Message types -/

inductive TypeIs : List UInt8 → Int → Prop
  | missing {rest : List UInt8} : TypeIs (0xff :: rest) (-1)
  | found {oplen type : UInt8} {rest : List UInt8} : TypeIs (53 :: oplen :: type :: rest) type.toNat
  | next {code oplen : UInt8} {value : List UInt8} {t : Int} : code ≠ 0xff → code ≠ 53 → TypeIs (value.drop oplen.toNat) t →
      TypeIs (code :: oplen :: value) t

theorem typeLoop_iff : ∀ {fuel : Nat} {popt : List UInt8} {t : Int}, popt.length < fuel → (typeLoop fuel popt = some t ↔ TypeIs popt t) := by
  intro fuel
  induction fuel with
  | zero => intro _ _ enough; exact absurd enough (Nat.not_lt_zero _)
  | succ fuel ih =>
    intro popt t enough
    cases popt with
    | nil => exact ⟨fun given => (nomatch given),fun given => (nomatch given)⟩
    | cons code rest =>
      unfold typeLoop
      by_cases ends : code = 0xff
      · rw [ends]
        refine ⟨fun same => Option.some.inj same ▸ .missing,fun is => ?_⟩
        cases is with
        | missing => rfl
        | next other => exact absurd rfl other
      rw [if_neg ends]
      by_cases type : code = 53
      · rw [type]
        match rest with
        | [] => exact ⟨fun given => (nomatch given),fun given => (nomatch given)⟩
        | [_] =>
          refine ⟨fun given => (nomatch given),fun is => ?_⟩
          cases is with
          | next _ other => exact absurd rfl other
        | oplen :: c :: rest =>
          refine ⟨fun same => Option.some.inj same ▸ .found,fun is => ?_⟩
          cases is with
          | found => rfl
          | next _ other => exact absurd rfl other
      rw [if_neg type]
      cases rest with
      | nil =>
        refine ⟨fun given => (nomatch given),fun is => ?_⟩
        cases is
        exact absurd rfl ends
      | cons oplen value =>
        have shorter : (value.drop oplen.toNat).length < fuel := by
          rw [length_drop]
          simp only [length_cons] at enough
          omega
        refine (ih shorter).trans ⟨fun is => .next ends type is,fun is => ?_⟩
        cases is with
        | missing => exact absurd rfl ends
        | found => exact absurd rfl type
        | next _ _ is => exact is

/-! ### Vendor extensions -/

theorem fillQuad_iff :
    (∃ q, fillQuad old value = some q) ↔ (if old = zeroQuad then 4 else 0) ≤ value.length := by
  rw [fillQuad]
  split
  · exact readQuad_iff
  · exact ⟨fun _ => Nat.zero_le _,fun _ => ⟨old,rfl⟩⟩

theorem fillText_iff {old value : List UInt8} (some_ : 0 < old.length) {size : Nat} :
    ((∃ text, fillText old value size = some text) ↔
      (if (toCString old).bytes = [] then truncate_sz old.length size else 0) ≤ value.length) ∧
      ∀ text, fillText old value size = some text → text.length = old.length := by
  rw [fillText]
  split
  · exact copyText_iff some_
  · exact ⟨⟨fun _ => Nat.zero_le _,fun _ => ⟨old,rfl⟩⟩,fun text same => Option.some.inj same ▸ rfl⟩

theorem fillDns2_iff {size : Nat} :
    (∃ q, fillDns2 cfg old value size = some q) ↔ (if cfg.dns2 = true ∧ old = zeroQuad ∧ 4 < size then 8 else 0) ≤ value.length := by
  rw [fillDns2]
  split
  · rw [readQuad_iff,length_drop]
    omega
  · exact ⟨fun _ => Nat.zero_le _,fun _ => ⟨old,rfl⟩⟩

def vendorNeeds (cfg : Config) (ext : UInt8) (size : Nat) (net : Net) : Nat :=
  match ext with
  | 1 => if net.NetOurSubnetMask = zeroQuad then 4 else 0
  | 3 => if net.NetOurGatewayIP = zeroQuad then 4 else 0
  | 6 => max (if net.NetOurDNSIP = zeroQuad then 4 else 0) (if cfg.dns2 = true ∧ net.NetOurDNS2IP = zeroQuad ∧ 4 < size then 8 else 0)
  | 12 => if (toCString net.NetOurHostName).bytes = [] then truncate_sz 32 size else 0
  | 13 => if size = 2 ∨ size = 4 then size else 0
  | 17 => if (toCString net.NetOurRootPath).bytes = [] then truncate_sz 64 size else 0
  | 40 => if (toCString net.NetOurNISDomain).bytes = [] then truncate_sz 32 size else 0
  | 42 => if cfg.ntpServer then 4 else 0
  | _ => 0

theorem vendorField {α : Type} {x : Option α} (f : α → Net) {n : Nat} {value : List UInt8}
    (reads : (∃ a, x = some a) ↔ n ≤ value.length) (keeps : ∀ a, x = some a → Sized (f a)) :
    ((∃ r, (x >>= fun a => some (f a)) = some r) ↔ n ≤ value.length) ∧ ∀ net', (x >>= fun a => some (f a)) = some net' → Sized net' := by
  refine ⟨exists_bind.trans reads,fun net' done => ?_⟩
  obtain ⟨a,read,result⟩ := bind_eq_some_iff.mp done
  cases result
  exact keeps a read

theorem BootpVendorFieldProcess_iff {cfg : Config} {ext : UInt8} {size : Nat} {value : List UInt8} {net : Net} (sized : Sized net) :
    ((∃ r, BootpVendorFieldProcess cfg ext size value net = some r) ↔ vendorNeeds cfg ext size net ≤ value.length) ∧
      ∀ net', BootpVendorFieldProcess cfg ext size value net = some net' → Sized net' := by
  have ignored : ((∃ r, some { net with NetBootFileSize := 0 } = some r) ↔ 0 ≤ value.length) ∧
      ∀ net', some { net with NetBootFileSize := 0 } = some net' → Sized net' :=
    @vendorField Unit (some ()) (fun _ => { net with NetBootFileSize := 0 }) 0 value ⟨fun _ => Nat.zero_le _,fun _ => ⟨(),rfl⟩⟩
      fun _ _ => { sized with }
  have host := @fillText_iff net.NetOurHostName value (by rw [sized.host]; decide) size
  have root := @fillText_iff net.NetOurRootPath value (by rw [sized.root]; decide) size
  have nis := @fillText_iff net.NetOurNISDomain value (by rw [sized.nis]; decide) size
  rw [sized.host] at host
  rw [sized.root] at root
  rw [sized.nis] at nis
  unfold BootpVendorFieldProcess vendorNeeds
  split
  · exact vendorField _ fillQuad_iff fun _ _ => { sized with }
  · exact vendorField _ fillQuad_iff fun _ _ => { sized with }
  · refine ⟨?_,fun net' done => ?_⟩
    · rw [exists_bind_pair,fillQuad_iff,fillDns2_iff]
      exact max_le_iff.symm
    obtain ⟨_,_,rest⟩ := bind_eq_some_iff.mp done
    obtain ⟨_,_,result⟩ := bind_eq_some_iff.mp rest
    cases result
    exact { sized with }
  · exact vendorField _ host.1 fun text copied => { sized with host := host.2 text copied }
  · split
    · refine vendorField _ ?_ fun _ _ => { sized with }
      rw [← takeN_iff,readNumber]
      simp only [map_eq_some_iff]
      constructor
      · rintro ⟨_,bytes,taken,_⟩
        exact ⟨bytes,taken⟩
      · rintro ⟨bytes,taken⟩
        exact ⟨_,bytes,taken,rfl⟩
    · exact ignored
  · exact vendorField _ root.1 fun text copied => { sized with root := root.2 text copied }
  · exact vendorField _ nis.1 fun text copied => { sized with nis := nis.2 text copied }
  · split
    · exact vendorField _ readQuad_iff fun _ _ => { sized with }
    · exact ignored
  · first | exact ignored | (split <;> first | contradiction | exact ignored)

/-- The extensions from some place on can be processed: `left` bytes before `end`. -/
inductive VendorFit (cfg : Config) : Nat → List UInt8 → Net → Prop
  | past {ext : List UInt8} {net : Net} : VendorFit cfg 0 ext net
  | last {left : Nat} {rest : List UInt8} {net : Net} : VendorFit cfg (left + 1) (0xff :: rest) net
  | pad {left : Nat} {rest : List UInt8} {net : Net} : VendorFit cfg left rest net → VendorFit cfg (left + 1) (0 :: rest) net
  | skip {left : Nat} {c size : UInt8} {value : List UInt8} {net : Net} : c ≠ 0xff → c ≠ 0 → left + 1 < size.toNat + 2 →
      VendorFit cfg (left + 1) (c :: size :: value) net
  | next {left : Nat} {c size : UInt8} {value : List UInt8} {net : Net} : c ≠ 0xff → c ≠ 0 → size.toNat + 2 ≤ left + 1 →
      vendorNeeds cfg c size.toNat net ≤ value.length →
      VendorFit cfg (left + 1 - (size.toNat + 2)) (value.drop size.toNat)
        ((BootpVendorFieldProcess cfg c size.toNat value net).getD net) →
      VendorFit cfg (left + 1) (c :: size :: value) net

theorem vendorLoop_iff : ∀ {fuel left : Nat} {ext : List UInt8} {net : Net}, Sized net → ext.length < fuel →
    ((∃ r, vendorLoop cfg fuel left ext net = some r) ↔ VendorFit cfg left ext net) := by
  intro fuel
  induction fuel with
  | zero => intro _ _ _ _ enough; exact absurd enough (Nat.not_lt_zero _)
  | succ fuel ih =>
    intro left ext net sized enough
    unfold vendorLoop
    cases left with
    | zero =>
      exact ⟨fun _ => .past,fun _ => ⟨_,rfl⟩⟩
    | succ left =>
      cases ext with
      | nil => exact ⟨fun ⟨_,given⟩ => (nomatch given),fun fits => (nomatch fits)⟩
      | cons c rest =>
        rw [length_cons] at enough
        simp only
        by_cases ends : c = 0xff
        · rw [ends]
          exact ⟨fun _ => .last,fun _ => ⟨_,rfl⟩⟩
        rw [if_neg ends]
        by_cases pads : c = 0
        · rw [pads]
          refine (ih sized (by omega)).trans ⟨.pad,fun fits => ?_⟩
          cases fits with
          | pad fits => exact fits
          | skip _ other => exact absurd rfl other
          | next _ other => exact absurd rfl other
        rw [if_neg pads]
        cases rest with
        | nil =>
          refine ⟨fun ⟨_,given⟩ => (nomatch given),fun fits => ?_⟩
          cases fits with
          | last => exact absurd rfl ends
          | pad => exact absurd rfl pads
        | cons size value =>
          have shorter : (value.drop size.toNat).length < fuel := by
            rw [length_drop]
            rw [length_cons] at enough
            omega
          simp only
          by_cases inside : size.toNat + 2 ≤ left + 1
          · rw [if_pos inside]
            obtain ⟨reads,keeps⟩ := @BootpVendorFieldProcess_iff cfg c size.toNat value net sized
            cases done : BootpVendorFieldProcess cfg c size.toNat value net with
            | none =>
              refine ⟨fun ⟨_,given⟩ => (nomatch given),fun fits => ?_⟩
              cases fits with
              | last => exact absurd rfl ends
              | pad => exact absurd rfl pads
              | skip _ _ outside => omega
              | next _ _ _ needs _ =>
                obtain ⟨_,given⟩ := reads.mpr needs
                rw [done] at given
                cases given
            | some net' =>
              refine (@ih (left + 1 - (size.toNat+2)) (value.drop size.toNat) net' (keeps net' done) shorter).trans
                ⟨fun fits => ?_,fun fits => ?_⟩
              · exact .next ends pads inside (reads.mp ⟨_,done⟩) (by rw [done]; exact fits)
              cases fits with
              | last => exact absurd rfl ends
              | pad => exact absurd rfl pads
              | skip _ _ outside => omega
              | next _ _ _ _ fits =>
                rw [done] at fits
                exact fits
          · rw [if_neg inside,Nat.sub_eq_zero_of_le (by omega)]
            exact ⟨fun _ => .skip ends pads (Nat.lt_of_not_le inside),fun _ => (ih sized shorter).mpr .past⟩

/-! ### Handlers -/

def Magic (payload : List UInt8) : Prop := readQuad (payload.drop bp_vend) = some BOOTP_VENDOR_MAGIC

/-- The options behind the magic number end inside of the payload. -/
def OptionsEnd (cfg : Config) (payload : List UInt8) : Prop :=
  OptionsFit cfg BOOTP_HDR_SIZE (payload.getD bp_file 0) (payload.drop (bp_vend + 4))

/-- What a DHCP packet has to contain. -/
def DhcpFits (cfg : Config) (state : DhcpState) (payload : List UInt8) : Prop :=
  match state with
  | .SELECTING => bp_vend + 4 ≤ payload.length ∧ (Magic payload → OptionsEnd cfg payload)
  | .REQUESTING => bp_vend + 4 ≤ payload.length ∧
      (Magic payload → ∃ type, TypeIs (payload.drop (bp_vend + 4)) type ∧
        (type = DHCP_ACK → OptionsEnd cfg payload ∧ 0 ∈ payload.drop bp_file))
  | _ => True

/-- What a BOOTP packet has to contain, when the variables are `net`. -/
def BootpFits (cfg : Config) (et_src payload : List UInt8) (net : Net) : Prop :=
  0 ∈ payload.drop bp_file ∧ bp_vend + 4 ≤ payload.length ∧
    (Magic payload → VendorFit cfg payload.length (payload.drop (bp_vend + 4)) ((BootpCopyNetParams cfg et_src payload net).getD net))

theorem accepted_length {pkt : List UInt8} {len : Nat} {id : Quad} (accepted : BootpCheckPkt pkt dest src len id = some 0) :
    bp_vend ≤ len := by
  rw [BootpCheckPkt] at accepted
  split at accepted
  · cases accepted
  split at accepted
  · cases accepted
  · omega

theorem magic_iff : (∃ q, readQuad (payload.drop bp_vend) = some q) ↔ bp_vend + 4 ≤ payload.length := by
  rw [readQuad_iff,length_drop]
  omega

theorem processOptions_iff {cfg : Config} {payload : List UInt8} {net : Net} (sized : Sized net) (long : bp_vend ≤ payload.length) :
    ((∃ r, processOptions cfg payload net = some r) ↔ bp_vend + 4 ≤ payload.length ∧ (Magic payload → OptionsEnd cfg payload)) ∧
      ∀ after net', processOptions cfg payload net = some (after,net') →
        Sized net' ∧ after.length = payload.length ∧ (0 ∈ after.drop bp_file ↔ 0 ∈ payload.drop bp_file) := by
  have file : bp_file < payload.length := by
    simp only [bp_vend,bp_file] at *
    omega
  have first : payload[bp_file]? = some (payload.getD bp_file 0) := by
    rw [getD_eq_getElem?_getD,getElem?_eq_getElem file]
    rfl
  rw [processOptions,← magic_iff,Magic]
  cases word : readQuad (payload.drop bp_vend) with
  | none => simp
  | some q =>
    rw [bind_eq_bind,bind_some]
    by_cases magic : q = BOOTP_VENDOR_MAGIC
    · obtain ⟨loop,keeps⟩ := @optionsLoop_iff cfg ((payload.drop (bp_vend+4)).length + 1) BOOTP_HDR_SIZE (payload.drop (bp_vend+4))
        payload net _ sized long first (Nat.lt_succ_self _)
      rw [if_pos magic]
      refine ⟨loop.trans ⟨fun fits => ⟨⟨q,rfl⟩,fun _ => fits⟩,fun fits => fits.2 (congrArg some magic)⟩,fun after net' done => ?_⟩
      obtain ⟨sized',_,rewrites⟩ := keeps after net' done
      exact ⟨sized',rewrites.length,rewrites.string⟩
    rw [if_neg magic]
    refine ⟨⟨fun _ => ⟨⟨q,rfl⟩,fun same => absurd (Option.some.inj same) magic⟩,fun _ => ⟨_,rfl⟩⟩,fun after net' same => ?_⟩
    cases same
    exact ⟨sized,rfl,Iff.rfl⟩

theorem DhcpMessageType_eq {type : Int} :
    DhcpMessageType (payload.drop bp_vend) = some type ↔ bp_vend + 4 ≤ payload.length ∧
      (Magic payload ∧ TypeIs (payload.drop (bp_vend+4)) type ∨ ¬ Magic payload ∧ type = -1) := by
  rw [DhcpMessageType,← magic_iff,Magic,drop_drop]
  cases word : readQuad (payload.drop bp_vend) with
  | none => simp
  | some q =>
    rw [bind_eq_bind,bind_some]
    have four := readQuad_iff.mp ⟨q,word⟩
    have loop := @typeLoop_iff (payload.drop bp_vend).length (payload.drop (bp_vend+4)) type (by
      rw [← drop_drop,length_drop]
      omega)
    by_cases magic : q = BOOTP_VENDOR_MAGIC
    · rw [if_neg fun other => other magic,loop]
      refine ⟨fun is => ⟨⟨q,rfl⟩,.inl ⟨congrArg some magic,is⟩⟩,fun ⟨_,is⟩ => ?_⟩
      rcases is with ⟨_,is⟩ | ⟨other,_⟩
      · exact is
      · exact absurd (congrArg some magic) other
    rw [if_pos magic]
    refine ⟨fun same => ⟨⟨q,rfl⟩,.inr ⟨fun same => magic (Option.some.inj same),(Option.some.inj same).symm⟩⟩,fun ⟨_,is⟩ => ?_⟩
    rcases is with ⟨same,_⟩ | ⟨_,rfl⟩
    · exact absurd (Option.some.inj same) magic
    · rfl

theorem acknowledged_iff (sized : Sized net) (long : bp_vend ≤ payload.length) :
    (∃ r, (do
        let (bp,net) ← processOptions cfg payload net
        let net ← BootpCopyNetParams cfg et_src bp net
        some ({ net with dhcp_state := .BOUND },(none : Option Request))) = some r) ↔
      (bp_vend + 4 ≤ payload.length ∧ (Magic payload → OptionsEnd cfg payload)) ∧ 0 ∈ payload.drop bp_file := by
  obtain ⟨options,keeps⟩ := @processOptions_iff cfg payload net sized long
  rw [← options]
  cases done : processOptions cfg payload net with
  | none => simp
  | some r =>
    obtain ⟨after,net'⟩ := r
    obtain ⟨sized',length,string⟩ := keeps after net' done
    rw [← string,← (@BootpCopyNetParams_iff cfg et_src after net' sized' (by omega)).1]
    exact exists_bind.trans ⟨fun copied => ⟨⟨_,rfl⟩,copied⟩,And.right⟩

theorem dhcp_inside_iff
    (accepted : BootpCheckPkt payload dest src payload.length net.BootpID = some 0) (sized : Sized net) :
    (∃ r, DhcpHandler cfg et_src payload dest src payload.length net = some r) ↔ DhcpFits cfg net.dhcp_state payload := by
  have long := accepted_length accepted
  rw [DhcpHandler,accepted,bind_eq_bind,bind_some]
  cases state : net.dhcp_state with
  | SELECTING =>
    obtain ⟨options,keeps⟩ := @processOptions_iff cfg payload { net with dhcp_state := .REQUESTING } { sized with } long
    refine Iff.trans ?_ options
    cases done : processOptions cfg payload { net with dhcp_state := .REQUESTING } with
    | none => simp
    | some r =>
      obtain ⟨after,net'⟩ := r
      obtain ⟨_,length,_⟩ := keeps after net' done
      refine ⟨fun _ => ⟨_,rfl⟩,fun _ => exists_bind.mpr (exists_bind_pair.mpr ⟨?_,?_⟩)⟩
      all_goals
        refine readQuad_iff.mpr ?_
        rw [length_drop]
        simp only [bp_vend,bp_id,bp_yiaddr] at *
        omega
  | REQUESTING =>
    cases found : DhcpMessageType (payload.drop bp_vend) with
    | none =>
      refine ⟨fun ⟨_,given⟩ => (nomatch given),fun ⟨four,fits⟩ => ?_⟩
      by_cases magic : Magic payload
      · obtain ⟨type,is,_⟩ := fits magic
        cases found.symm.trans (DhcpMessageType_eq.mpr ⟨four,.inl ⟨magic,is⟩⟩)
      · cases found.symm.trans (DhcpMessageType_eq.mpr ⟨four,.inr ⟨magic,rfl⟩⟩)
    | some type =>
      obtain ⟨four,which⟩ := DhcpMessageType_eq.mp found
      rw [bind_some]
      by_cases ack : type = DHCP_ACK
      · obtain ⟨magic,is⟩ : Magic payload ∧ TypeIs (payload.drop (bp_vend+4)) type := by
          rcases which with found | ⟨_,none_⟩
          · exact found
          · exact absurd (ack.symm.trans none_) (by decide)
        rw [if_pos ack]
        refine (acknowledged_iff sized long).trans ⟨fun ⟨fits,string⟩ => ⟨four,fun _ => ⟨type,is,fun _ => ⟨fits.2 magic,string⟩⟩⟩,
          fun ⟨_,fits⟩ => ?_⟩
        obtain ⟨type',is',rest⟩ := fits magic
        cases found.symm.trans (DhcpMessageType_eq.mpr ⟨four,.inl ⟨magic,is'⟩⟩)
        exact ⟨⟨four,fun _ => (rest ack).1⟩,(rest ack).2⟩
      rw [if_neg ack]
      refine ⟨fun _ => ⟨four,fun magic => ?_⟩,fun _ => ⟨_,rfl⟩⟩
      rcases which with ⟨_,is⟩ | ⟨other,_⟩
      · exact ⟨type,is,fun same => absurd same ack⟩
      · exact absurd magic other
  | INIT | INIT_REBOOT | REBOOTING | REBINDING | BOUND | RENEWING => exact ⟨fun _ => trivial,fun _ => ⟨_,rfl⟩⟩

theorem bootp_inside_iff
    (accepted : BootpCheckPkt payload dest src payload.length net.BootpID = some 0) (sized : Sized net) :
    (∃ r, BootpHandler cfg et_src payload dest src payload.length net = some r) ↔ BootpFits cfg et_src payload net := by
  have long := accepted_length accepted
  obtain ⟨string,keeps⟩ := @BootpCopyNetParams_iff cfg et_src payload net sized long
  rw [BootpHandler,accepted,bind_eq_bind,bind_some,if_neg fun other => other rfl,BootpFits,← magic_iff,← string,Magic]
  cases copied : BootpCopyNetParams cfg et_src payload net with
  | none => simp
  | some net' =>
    rw [bind_eq_bind,bind_some]
    cases word : readQuad (payload.drop bp_vend) with
    | none => simp
    | some q =>
      rw [bind_eq_bind,bind_some]
      by_cases magic : q = BOOTP_VENDOR_MAGIC
      · rw [if_pos magic,BootpVendorProcess,vendorLoop_iff (keeps net' copied) (Nat.lt_succ_self _)]
        exact ⟨fun fits => ⟨⟨_,rfl⟩,⟨q,rfl⟩,fun _ => fits⟩,fun fits => fits.2.2 (congrArg some magic)⟩
      · rw [if_neg magic]
        exact ⟨fun _ => ⟨⟨_,rfl⟩,⟨q,rfl⟩,fun same => absurd (Option.some.inj same) magic⟩,fun _ => ⟨_,rfl⟩⟩

/-- The handlers of an accepted packet stay inside of its payload exactly when it contains what they need. -/
theorem replies_inside_iff (cfg : Config) (et_src : List UInt8) {payload : List UInt8} {dest src : Nat} {net : Net}
    (accepted : BootpCheckPkt payload dest src payload.length net.BootpID = some 0) (sized : Sized net) :
    ((∃ r, DhcpHandler cfg et_src payload dest src payload.length net = some r) ↔ DhcpFits cfg net.dhcp_state payload) ∧
      ((∃ r, BootpHandler cfg et_src payload dest src payload.length net = some r) ↔ BootpFits cfg et_src payload net) :=
  ⟨dhcp_inside_iff accepted sized,bootp_inside_iff accepted sized⟩

/-! ### Short packets -/

def plainConfig : Config := ⟨false,false,false,false⟩

def freshNet (state : DhcpState) : Net :=
  ⟨state,zeroQuad,0,zeroQuad,zeroQuad,zeroQuad,List.replicate 6 0,zeroQuad,zeroQuad,zeroQuad,zeroQuad,zeroQuad,zeroQuad,zeroQuad,
    List.replicate 32 0,List.replicate 64 0,List.replicate 32 0,0,List.replicate fileSize 0,none⟩

/-- A reply with the id 0, in which the fields behind the header are `fill`. -/
def reply (fill : UInt8) (options : List UInt8) : List UInt8 :=
  [2,1,6,0,0,0,0,0] ++ List.replicate (bp_vend - 8) fill ++ options

theorem mask_stays_inside :
    (∃ r, DhcpHandler plainConfig [] (reply 0 [99,130,83,99,1,4,255,255,255,0,255]) 68 67
      (reply 0 [99,130,83,99,1,4,255,255,255,0,255]).length (freshNet .SELECTING) = some r) ∧
    ∃ r, BootpHandler plainConfig [] (reply 0 [99,130,83,99,1,4,255,255,255,0,255]) 68 67
      (reply 0 [99,130,83,99,1,4,255,255,255,0,255]).length (freshNet .SELECTING) = some r := by
  obtain ⟨dhcp,bootp⟩ := @replies_inside_iff plainConfig [] (reply 0 [99,130,83,99,1,4,255,255,255,0,255]) 68 67 (freshNet .SELECTING)
    (by decide +kernel) ⟨rfl,rfl,rfl,rfl⟩
  have area : (reply 0 [99,130,83,99,1,4,255,255,255,0,255]).drop (bp_vend+4) = [1,4,255,255,255,0,255] := by decide +kernel
  have length : (reply 0 [99,130,83,99,1,4,255,255,255,0,255]).length = 247 := by decide +kernel
  refine ⟨dhcp.mpr ⟨by rw [length]; decide,fun _ => ?_⟩,bootp.mpr ⟨by decide +kernel,by rw [length]; decide,fun _ => ?_⟩⟩
  · rw [OptionsEnd,area]
    exact .next (by decide) (by decide : 4 ≤ 5) .last
  rw [area,length]
  generalize (BootpCopyNetParams _ _ _ _).getD _ = net
  have ends : VendorFit plainConfig (246 + 1 - ((4 : UInt8).toNat + 2)) [255] ((BootpVendorFieldProcess plainConfig 1 4 [255,255,255,0,255] net).getD net) :=
    .last
  refine .next (by decide) (by decide) (by decide) ?_ ends
  show (if _ then 4 else 0) ≤ 5
  split <;> decide

/-- Packets that are accepted and read past their end: without options, with options that do not end, with a value
    that is too short, and with a boot file that is not terminated. -/
theorem short_packets_overread :
    BootpCheckPkt (reply 0 []) 68 67 bp_vend zeroQuad = some 0 ∧
    DhcpHandler plainConfig [] (reply 0 []) 68 67 bp_vend (freshNet .SELECTING) = none ∧
    BootpHandler plainConfig [] (reply 0 []) 68 67 bp_vend (freshNet .SELECTING) = none ∧
    DhcpHandler plainConfig [] (reply 0 [99,130,83,99]) 68 67 (bp_vend + 4) (freshNet .REQUESTING) = none ∧
    DhcpHandler plainConfig [] (reply 0 [99,130,83,99,1,0,255]) 68 67 (bp_vend + 7) (freshNet .SELECTING) = none ∧
    BootpHandler plainConfig [] (reply 1 [99,130,83,99,255]) 68 67 (bp_vend + 5) (freshNet .SELECTING) = none := by
  decide +kernel

end UBoot.BootpSafe
