import UBoot.Nfs

/-!
The path of the NFS client in its buffer: what a copy into the buffer leaves there as text, how a link is
appended, and where `basename` and `dirname` cut the path.
-/
namespace UBoot.NfsPath
open List Nfs

/-! ### Copies into a buffer -/

theorem patch_length (buf : List UInt8) (start : Int) (bytes : List UInt8) : (patch buf start bytes).length = buf.length := by
  cases start with
  | ofNat i =>
    simp only [patch,length_take,length_append,length_drop]
    omega
  | negSucc k =>
    simp only [patch,length_take,length_append,length_drop]
    omega

theorem patch_eq {buf bytes : List UInt8} {i : Nat} (room : i + bytes.length ≤ buf.length) :
    patch buf i bytes = buf.take i ++ (bytes ++ buf.drop (i+bytes.length)) := by
  refine take_of_length_le ?_
  simp only [length_append,length_take,length_drop]
  omega

theorem text_cons {c : UInt8} (nonzero : c ≠ 0) (s : List UInt8) : text (c :: s) = c :: text s :=
  takeWhile_cons_of_pos (by simpa using nonzero)

theorem text_append (pre rest : List UInt8) : text (pre ++ 0 :: rest) = text pre := by
  induction pre with
  | nil => rfl
  | cons c pre ih =>
    by_cases nul : c = 0
    · subst nul
      rfl
    · rw [cons_append,text_cons nul,ih,text_cons nul]

theorem text_nulFree (buf : List UInt8) : 0 ∉ text buf := fun inside => absurd (mem_takeWhile_imp inside) (by decide)

theorem text_of_nulFree {s : List UInt8} (nulFree : 0 ∉ s) : text s = s := by
  refine takeWhile_eq_self_iff.mpr fun c inside => ?_
  have : c ≠ 0 := by rintro rfl; exact nulFree inside
  simpa using this

structure Holds (buf : List UInt8) : Prop where
  size : buf.length = 2048
  nul : 0 ∈ buf

theorem Holds.split {buf : List UInt8} (holds : Holds buf) : ∃ rest, buf = text buf ++ 0 :: rest := by
  have parts := @takeWhile_append_dropWhile _ (fun c : UInt8 => decide (c ≠ 0)) buf
  cases behind : buf.dropWhile fun c => decide (c ≠ 0) with
  | nil =>
    rw [behind,append_nil] at parts
    have inside := holds.nul
    rw [← parts] at inside
    exact absurd inside (text_nulFree buf)
  | cons c rest =>
    have first := head?_dropWhile_not (fun c : UInt8 => decide (c ≠ 0)) buf
    rw [behind] at parts first
    have zero : c = 0 := by simpa using first
    subst zero
    exact ⟨rest,parts.symm⟩

theorem Holds.strlen_lt {buf : List UInt8} (holds : Holds buf) : strlen buf < 2048 := by
  obtain ⟨rest,equal⟩ := holds.split
  have size := congrArg List.length equal
  rw [holds.size,length_append,length_cons] at size
  rw [strlen]
  omega

theorem Holds.patch_nul {buf : List UInt8} (size : buf.length = 2048) {i : Int} (low : 0 ≤ i) (high : i < 2048) :
    Holds (patch buf i [0]) := by
  obtain ⟨k,rfl⟩ := Int.eq_ofNat_of_zero_le low
  refine ⟨by rw [patch_length,size],?_⟩
  rw [patch_eq (by simp only [length_singleton]; omega)]
  simp

/-! ### Links -/

theorem text_patched {buf bytes : List UInt8} {i : Nat} (room : i + bytes.length < buf.length) :
    text (patch (patch buf i bytes) ((i : Int) + bytes.length) [0]) = text (buf.take i ++ bytes) := by
  have first := @patch_eq buf bytes i (by omega)
  have ended : (patch buf i bytes).take (i+bytes.length) = buf.take i ++ bytes := by
    rw [first,← append_assoc,take_left' (by simp; omega)]
  have second := @patch_eq (patch buf i bytes) [0] (i+bytes.length) (by rw [patch_length,length_singleton]; omega)
  rw [Nat.cast_add] at second
  rw [second,ended,singleton_append,text_append]

theorem text_append_nulFree {pre : List UInt8} (nulFree : 0 ∉ pre) (s : List UInt8) : text (pre ++ s) = pre ++ text s := by
  induction pre with
  | nil => rfl
  | cons c pre ih =>
    obtain ⟨first,later⟩ := not_or.mp (mem_cons.not.mp nulFree)
    rw [cons_append,text_cons (Ne.symm first),ih later,cons_append]

theorem Holds.take_strlen {buf : List UInt8} (holds : Holds buf) : buf.take (strlen buf) = text buf := by
  obtain ⟨rest,equal⟩ := holds.split
  rw [equal,strlen,text_append,text_of_nulFree (text_nulFree _),take_left]

theorem slashed {buf : List UInt8} (holds : Holds buf) (room : strlen buf + 2 ≤ 2048) :
    text (patch buf (strlen buf) [47,0]) = text buf ++ [47] ∧
      (patch buf (strlen buf) [47,0]).take (strlen buf + 1) = text buf ++ [47] := by
  have equal := @patch_eq buf [47,0] (strlen buf) (by rw [holds.size]; exact room)
  rw [holds.take_strlen] at equal
  have shape : patch buf (strlen buf) [47,0] = (text buf ++ [47]) ++ 0 :: buf.drop (strlen buf + [47,0].length) := by
    rw [equal]
    simp
  constructor
  · rw [shape,text_append,text_append_nulFree (text_nulFree buf)]
    rfl
  · rw [shape,take_left' (by rw [length_append]; rfl)]

theorem bytes_length (p : Received) (i n : Nat) : (p.bytes i n).length = n := by simp [Received.bytes]

theorem toInt_small {n : BitVec 32} (small : n.toNat < 2048) : n.toInt = n.toNat := by
  rw [BitVec.toInt_eq_toNat_cond,if_pos (by omega)]

section
variable {c : Client} {p : Received} (holds : Holds c.nfs_path_buff)
include holds

theorem followLink_relative (relative : p.byte 32 ≠ 47) (room : strlen c.nfs_path_buff + 1 + (p.word 28).toNat < 2048) :
    text (followLink c p).1.nfs_path_buff = text c.nfs_path_buff ++ 47 :: text (p.bytes 32 (p.word 28).toNat) ∧
      Holds (followLink c p).1.nfs_path_buff := by
  obtain ⟨shown,taken⟩ := slashed holds (by omega)
  have pathlen : strlen (patch c.nfs_path_buff (strlen c.nfs_path_buff) [47,0]) = strlen c.nfs_path_buff + 1 := by
    rw [strlen,shown,length_append]
    rfl
  have size := patch_length c.nfs_path_buff (strlen c.nfs_path_buff) [47,0]
  rw [holds.size] at size
  rw [followLink,if_pos relative]
  simp only [pathlen,toInt_small (show (p.word 28).toNat < 2048 by omega)]
  constructor
  · have patched := @text_patched (patch c.nfs_path_buff (strlen c.nfs_path_buff) [47,0]) (p.bytes 32 (p.word 28).toNat)
      (strlen c.nfs_path_buff + 1) (by rw [bytes_length]; omega)
    rw [bytes_length,taken,append_assoc,text_append_nulFree (text_nulFree _)] at patched
    rw [patched,singleton_append,text_cons (by decide)]
  · exact .patch_nul (by rw [patch_length,size]) (by omega) (by omega)

theorem followLink_absolute (absolute : p.byte 32 = 47) (room : (p.word 28).toNat < 2048) :
    text (followLink c p).1.nfs_path_buff = text (p.bytes 32 (p.word 28).toNat) ∧ Holds (followLink c p).1.nfs_path_buff := by
  rw [followLink,if_neg (not_not_intro absolute)]
  simp only [toInt_small room]
  constructor
  · have patched := @text_patched c.nfs_path_buff (p.bytes 32 (p.word 28).toNat) 0 (by rw [holds.size,bytes_length]; omega)
    rw [bytes_length,take_zero,nil_append] at patched
    simpa using patched
  · exact .patch_nul (by rw [patch_length,holds.size]) (by omega) (by omega)

end

/-! ### Cutting the path -/

theorem last_slash {path : List UInt8} (slash : 47 ∈ path) : ∃ dir name, path = dir ++ 47 :: name ∧ 47 ∉ name := by
  obtain ⟨rev,others,equal,outside⟩ := eq_append_cons_of_mem (mem_reverse.mpr slash)
  refine ⟨others.reverse,rev.reverse,?_,fun inside => outside (mem_reverse.mp inside)⟩
  have := congrArg List.reverse equal
  simpa using this

variable {buf dir name : List UInt8}

theorem getD_text {k : Nat} (inside : k < (text buf).length) : buf.getD k 0 = (text buf)[k] := by
  have here : (text buf)[k]? = buf[k]? := by
    have first : text buf = buf.take (strlen buf) := prefix_iff_eq_take.mp (List.takeWhile_prefix _)
    conv_lhs => rw [first]
    exact getElem?_take_of_lt inside
  rw [getD_eq_getElem?_getD,← here,getElem?_eq_getElem inside,Option.getD_some]

theorem basename_eq (equal : text buf = dir ++ 47 :: name) (last : 47 ∉ name) : basename buf = dir.length + 1 := by
  -- Down from the end of the name to the slash.
  have loop : ∀ m ≤ name.length, basenameLoop buf (dir.length + 1 + m) = dir.length + 1 := by
    intro m
    induction m with
    | zero =>
      intro _
      have here : buf.getD dir.length 0 = 47 := by
        rw [getD_text (by rw [equal]; simp)]
        simp [equal]
      rw [basenameLoop,if_pos here]
    | succ m ih =>
      intro inside
      have other : buf.getD (dir.length + 1 + m) 0 ≠ 47 := by
        have index : dir.length + 1 + m - dir.length = m + 1 := by omega
        rw [getD_text (by rw [equal]; simp; omega)]
        simp only [equal]
        rw [getElem_append_right (by omega)]
        simp only [index,getElem_cons_succ]
        exact fun slash => last (slash ▸ getElem_mem _)
      rw [← Nat.add_assoc,basenameLoop,if_neg other,ih (by omega)]
  have whole := loop name.length le_rfl
  rw [basename,strlen,equal,length_append,length_cons]
  have count : dir.length + (name.length+1) = dir.length + 1 + name.length := by omega
  rw [count,whole]

theorem basename_none (slash : 47 ∉ text buf) : basename buf = -1 := by
  have loop : ∀ m ≤ strlen buf, basenameLoop buf m = -1 := by
    intro m
    induction m with
    | zero => exact fun _ => rfl
    | succ m ih =>
      intro inside
      have other : buf.getD m 0 ≠ 47 := by
        rw [getD_text (by rw [← strlen]; omega)]
        exact fun here => slash (here ▸ getElem_mem _)
      rw [basenameLoop,if_neg other,ih (by omega)]
  exact loop _ le_rfl

theorem dirname_eq (holds : Holds buf) (equal : text buf = dir ++ 47 :: name) (last : 47 ∉ name) :
    text (dirname buf) = dir ∧ text ((dirname buf).drop (dir.length+1)) = name ∧ Holds (dirname buf) := by
  obtain ⟨rest,split⟩ := holds.split
  have nulFree := text_nulFree buf
  rw [equal] at split nulFree
  have size := congrArg List.length split
  rw [holds.size] at size
  simp only [length_append,length_cons] at size
  have cut : dirname buf = dir ++ 0 :: (name ++ 0 :: rest) := by
    have place : (dir.length : Int) + 1 - 1 = dir.length := by omega
    rw [dirname,basename_eq equal last,place,patch_eq (by rw [holds.size,length_singleton]; omega),split]
    simp
  have inDir : 0 ∉ dir := fun inside => nulFree (mem_append_left _ inside)
  have inName : 0 ∉ name := fun inside => nulFree (mem_append_right _ (mem_cons_of_mem _ inside))
  refine ⟨by rw [cut,text_append,text_of_nulFree inDir],?_,by rw [dirname,patch_length,holds.size],by rw [cut]; simp⟩
  rw [cut]
  have behind : (dir ++ 0 :: (name ++ 0 :: rest)).drop (dir.length+1) = name ++ 0 :: rest := by
    rw [← drop_drop,drop_left]
    rfl
  rw [behind,text_append,text_of_nulFree inName]

end UBoot.NfsPath
