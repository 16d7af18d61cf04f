import UBoot.Dns

/-!
The bytes that `DnsHandler` reads. It ends on every packet; it stays inside of the payload exactly if the header and
the address in the answer are part of it (`reads_inside_iff`).
-/
namespace UBoot.DnsReads
open List Dns

variable {pkt : Nat → UInt8} {e k p fuel : Nat}

/-- The loop through the answers. A name is read up to the byte behind the place where it is left. -/
def answersReads (pkt : Nat → UInt8) (e : Nat) : Nat → Nat → List Nat
  | 0, _ => []
  | fuel+1, p =>
    if p + 12 < e then
      let q := beforeType pkt e p
      p :: (if pkt p ≠ 0xc0 then range' p (q + 2 - p) else []) ++ [q + 2,q + 3] ++
        if get_unaligned_be16 pkt (q + 2) = DNS_CNAME_RECORD then
          [q + 10,q + 11] ++ answersReads pkt e fuel (q + 12 + get_unaligned_be16 pkt (q + 10))
        else []
    else []

def hostEnd (pkt : Nat → UInt8) (len : Nat) : Nat := skipName pkt len 0 len 12

/-- What is read behind the header. -/
def bodyReads (pkt : Nat → UInt8) (len : Nat) : List Nat :=
  let p := hostEnd pkt len
  range' 12 (min (p + 1) len - 12) ++
    if len < p + 5 then []
    else [p + 1,p + 2] ++
      if get_unaligned_be16 pkt (p + 1) ≠ DNS_A_RECORD then []
      else
        let (q,found) := answers pkt len len (p + 5)
        answersReads pkt len len (p + 5) ++ if found = true ∧ q + 12 < len then [q + 10,q + 11] ++ range' (q + 12) 4 else []

/-- The places that are read, in the order of the source. -/
def handlerReads (DnsOurPort : Nat) (pkt : Nat → UInt8) (dest len : Nat) : List Nat :=
  if dest ≠ DnsOurPort then []
  else [4,5] ++
    if get_unaligned_be16 pkt 4 ≠ 1 then [] else [6,7] ++ if get_unaligned_be16 pkt 6 = 0 then [] else bodyReads pkt len

/-- The record with the address: the first one that is not a CNAME record. -/
def Answer (pkt : Nat → UInt8) (len q : Nat) : Prop :=
  hostEnd pkt len + 5 ≤ len ∧ get_unaligned_be16 pkt (hostEnd pkt len + 1) = DNS_A_RECORD ∧
    answers pkt len len (hostEnd pkt len + 5) = (q,true)

/-- The header is in the payload as far as it is looked at, and so are the four bytes of the address. -/
def Fits (pkt : Nat → UInt8) (len : Nat) : Prop :=
  6 ≤ len ∧ (get_unaligned_be16 pkt 4 = 1 → 8 ≤ len ∧ (get_unaligned_be16 pkt 6 ≠ 0 → ∀ q, Answer pkt len q → q + 16 ≤ len))

theorem skipName_ends (enough : e ≤ p + k + fuel) :
    ¬ (pkt (skipName pkt e k fuel p) ≠ 0 ∧ skipName pkt e k fuel p + k < e) := by
  induction fuel generalizing p with
  | zero =>
    rw [skipName]
    omega
  | succ fuel ih =>
    rw [skipName]
    split_ifs with more
    · exact ih (by omega)
    · exact more

theorem skipName_bounds (inside : p + k ≤ e) : p ≤ skipName pkt e k fuel p ∧ skipName pkt e k fuel p + k ≤ e := by
  induction fuel generalizing p with
  | zero => exact ⟨le_refl p,inside⟩
  | succ fuel ih =>
    rw [skipName]
    split_ifs with more
    · obtain ⟨low,high⟩ := @ih (p+1) (by omega)
      exact ⟨by omega,high⟩
    · exact ⟨le_refl p,inside⟩

theorem beforeType_bounds (positive : 0 < p) (inside : p + 12 < e) :
    p ≤ beforeType pkt e p + 1 ∧ beforeType pkt e p + 12 < e := by
  obtain ⟨low,high⟩ := @skipName_bounds pkt e 12 p e inside.le
  rw [beforeType]
  split_ifs
  · omega
  · omega

/-- Each round moves on, so that the number of rounds is bounded by the length. -/
theorem answers_ends (positive : 0 < p) (enough : e ≤ p + fuel) (more : Nat) :
    answers pkt e (fuel+more) p = answers pkt e fuel p := by
  induction fuel generalizing p with
  | zero =>
    cases more with
    | zero => rfl
    | succ more =>
      rw [answers,Nat.zero_add,answers,if_neg (by omega)]
  | succ fuel ih =>
    rw [Nat.succ_add,answers,answers]
    dsimp only
    split_ifs with inside
    · obtain ⟨low,_⟩ := @beforeType_bounds pkt e p positive inside
      exact ih (by omega) (by omega)
    all_goals rfl

theorem found_inside (positive : 0 < p) {q : Nat} (found : answers pkt e fuel p = (q,true)) : q + 12 < e := by
  induction fuel generalizing p with
  | zero => cases found
  | succ fuel ih =>
    rw [answers] at found
    dsimp only at found
    split_ifs at found with inside cname address
    · exact ih (by omega) found
    · cases found
      exact (beforeType_bounds positive inside).2
    all_goals cases found

theorem answersReads_inside (positive : 0 < p) : ∀ i ∈ answersReads pkt e fuel p, i < e := by
  induction fuel generalizing p with
  | zero => simp [answersReads]
  | succ fuel ih =>
    intro i member
    rw [answersReads] at member
    split_ifs at member with inside
    all_goals simp only [mem_append,mem_cons,mem_range'_1,not_mem_nil,or_false] at member
    all_goals obtain ⟨low,high⟩ := @beforeType_bounds pkt e p positive inside
    all_goals grind

theorem body_inside_iff {len : Nat} : (∀ i ∈ bodyReads pkt len, i < len) ↔ ∀ q, Answer pkt len q → q + 16 ≤ len := by
  simp only [bodyReads,Answer,forall_mem_append]
  generalize hostEnd pkt len = p
  have name : ∀ i ∈ range' 12 (min (p+1) len - 12), i < len := by
    intro i member
    rw [mem_range'_1] at member
    omega
  rw [and_iff_right name]
  have walked := @answersReads_inside pkt len (p+5) len (by omega)
  split_ifs with short other found
  · exact ⟨fun _ q answer => by omega,fun _ => by simp⟩
  · refine ⟨fun _ q answer => absurd answer.2.1 other,fun _ i member => ?_⟩
    simp only [append_nil,mem_cons,not_mem_nil,or_false] at member
    omega
  · refine ⟨fun inside q answer => ?_,fun fits i member => ?_⟩
    · have last := inside (q+15) (by simp [answer.2.2,mem_range'_1])
      omega
    have address : (answers pkt len len (p+5)).1 + 16 ≤ len := fits _ ⟨by omega,not_not.mp other,Prod.ext rfl found.1⟩
    simp only [mem_append,mem_cons,not_mem_nil,or_false,mem_range'_1] at member
    rcases member with type | walk | length | bytes
    · omega
    · exact walked i walk
    · omega
    · omega
  · refine ⟨fun _ q answer => ?_,fun _ i member => ?_⟩
    · rw [answer.2.2] at found
      exact absurd ⟨rfl,found_inside (by omega) answer.2.2⟩ found
    simp only [append_nil,mem_append,mem_cons,not_mem_nil,or_false] at member
    rcases member with type | walk
    · omega
    · exact walked i walk

/-- Handling a packet ends, and reads only bytes of the payload exactly if the packet fits. -/
theorem reads_inside_iff (DnsOurPort : Nat) (pkt : Nat → UInt8) (dest len : Nat) :
    ((∀ i ∈ handlerReads DnsOurPort pkt dest len, i < len) ↔ (dest = DnsOurPort → Fits pkt len)) ∧
    (∀ k p, ¬ (pkt (skipName pkt len k len p) ≠ 0 ∧ skipName pkt len k len p + k < len)) ∧
    ∀ p more, 0 < p → answers pkt len (len+more) p = answers pkt len len p := by
  refine ⟨?_,fun k p => skipName_ends (by omega),fun p more positive => answers_ends positive (by omega) more⟩
  have pair : ∀ n, (∀ i ∈ [n,n+1], i < len) ↔ n + 2 ≤ len := fun n => by simp; omega
  rw [handlerReads]
  split_ifs with other queries none_
  · simp [other]
  all_goals simp only [forall_mem_append,pair 4,pair 6,Fits,not_not.mp other,true_implies]
  · simp [queries]
  · simp [not_not.mp queries,none_]
  · simp only [not_not.mp queries,ne_eq,none_,not_false_eq_true,true_implies,body_inside_iff]

/-- An answer that ends behind the first byte of the address. -/
def cutShort : List UInt8 := [0,0,0,0,0,1,0,1,0,0,0,0, 0,0,1,0,1, 0xc0,12,0,1,0,1,0,0,0,0,0,4,10]

theorem reads_outside : 4 ∈ handlerReads 1000 (fun _ => 0) 1000 0 ∧
    32 ∈ handlerReads 1000 (fun i => cutShort.getD i 0) 1000 cutShort.length ∧ cutShort.length = 30 := by decide +kernel

end UBoot.DnsReads
