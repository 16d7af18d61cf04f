import Mathlib.Tactic

/-!
Flash memory with bad blocks. Data is laid out over the good addresses of a range (`places`), a walk
(`Walk`) passes the blocks from an address on until it has seen enough of them, and programming can only
clear bits (`program`), so data dropped because it is all ones changes nothing (`program_ones`).
-/
namespace UBoot.Skipping
open List

/-! ### Good addresses -/

section
variable {good : Nat → Bool} {a n m x : Nat}

/-- The good ones of the `n` addresses from `a` on. -/
def places (good : Nat → Bool) (a n : Nat) : List Nat := (List.range' a n).filter good

@[simp] theorem places_zero : places good a 0 = [] := rfl

theorem places_add : places good a (n+m) = places good a n ++ places good (a+n) m := by
  rw [places,← range'_append_1,filter_append,places,places]

theorem mem_places : x ∈ places good a n ↔ (a ≤ x ∧ x < a + n) ∧ good x = true := by
  rw [places,mem_filter,mem_range'_1]

theorem places_all (all : ∀ x, a ≤ x → x < a + n → good x = true) : places good a n = List.range' a n :=
  filter_eq_self.mpr fun x inside => all x (mem_range'_1.mp inside).1 (mem_range'_1.mp inside).2

theorem places_none (none : ∀ x, a ≤ x → x < a + n → good x = false) : places good a n = [] :=
  filter_eq_nil_iff.mpr fun x inside => by
    rw [none x (mem_range'_1.mp inside).1 (mem_range'_1.mp inside).2]
    exact Bool.false_ne_true

theorem places_length_le : (places good a n).length ≤ n := by
  have := length_filter_le good (List.range' a n)
  rwa [length_range'] at this

theorem places_first {p : Nat} {rest : List Nat} (first : places good a n = p :: rest) :
    a ≤ p ∧ p < a + n ∧ good p = true ∧ places good a (p-a) = [] := by
  have found : (List.range' a n).find? good = some p := by
    rw [← head?_filter]
    exact congrArg List.head? first
  obtain ⟨isGood,inside,before⟩ := find?_range'_eq_some.mp found
  rw [mem_range'_1] at inside
  refine ⟨inside.1,inside.2,isGood,places_none fun x above below => ?_⟩
  exact Bool.not_eq_true' _ |>.mp (before x above (by omega))

theorem places_nodup : (places good a n).Nodup := List.Nodup.filter _ nodup_range'
end

/-! ### Blocks -/

section
variable {size : Nat} {bad : Nat → Bool} {o x : Nat}

/-- Bad blocks are known by their first address. -/
def isGood (size : Nat) (bad : Nat → Bool) (x : Nat) : Bool := !bad (x / size * size)

/-- What is left of the block of `o`. -/
def rest (size o : Nat) : Nat := size - o % size

theorem rest_pos (some : 0 < size) : 0 < rest size o := Nat.sub_pos_of_lt (Nat.mod_lt _ some)

theorem next_le {limit : Nat} (boundary : size ∣ limit) (below : o < limit) : o + rest size o ≤ limit := by
  obtain ⟨k,rfl⟩ := boundary
  have some : 0 < size := Nat.pos_of_ne_zero fun none => by rw [none,Nat.zero_mul] at below; omega
  have split := Nat.div_add_mod o size
  have blocks : size * (o / size + 1) ≤ size * k := by
    apply Nat.mul_le_mul_left
    rw [Nat.succ_le_iff,Nat.div_lt_iff_lt_mul some,Nat.mul_comm k]
    exact below
  rw [Nat.mul_succ] at blocks
  rw [rest]
  omega

theorem same_block (some : 0 < size) (above : o ≤ x) (below : x < o + rest size o) : x / size = o / size := by
  have split := Nat.div_add_mod o size
  rw [rest] at below
  apply Nat.div_eq_of_lt_le
  · rw [Nat.mul_comm]; omega
  · rw [Nat.mul_comm,Nat.mul_succ]; omega

theorem isGood_block (some : 0 < size) (above : o ≤ x) (below : x < o + rest size o) :
    isGood size bad x = isGood size bad o := by
  rw [isGood,isGood,same_block some above below]
end

/-! ### Walks -/

/-- A walk from `o` until it has seen `n` good bytes passes `u` bytes, in the given number of steps: one for each
    block. -/
inductive Walk (size : Nat) (bad : Nat → Bool) : Nat → Nat → Nat → Nat → Prop
  | done (o : Nat) : Walk size bad 0 o 0 0
  | skip {steps o n u : Nat} (more : 0 < n) (isBad : isGood size bad o = false)
      (onward : Walk size bad steps (o + rest size o) n u) : Walk size bad (steps + 1) o n (rest size o + u)
  | piece {steps o n u : Nat} (more : 0 < n) (good : isGood size bad o = true)
      (onward : Walk size bad steps (o + min n (rest size o)) (n - min n (rest size o)) u) :
      Walk size bad (steps + 1) o n (min n (rest size o) + u)

namespace Walk
variable {size steps o n u : Nat} {bad : Nat → Bool}

theorem places_skip (some : 0 < size) (isBad : isGood size bad o = false) :
    places (isGood size bad) o (rest size o) = [] :=
  places_none fun _ above below => (isGood_block some above below).trans isBad

theorem places_piece (some : 0 < size) (good : isGood size bad o = true) :
    places (isGood size bad) o (min n (rest size o)) = List.range' o (min n (rest size o)) :=
  places_all fun _ above below =>
    (isGood_block some above (below.trans_le (Nat.add_le_add_left (Nat.min_le_right ..) _))).trans good

theorem length (some : 0 < size) (walk : Walk size bad steps o n u) : (places (isGood size bad) o u).length = n := by
  induction walk with
  | done => rfl
  | skip more isBad onward ih => rw [places_add,places_skip some isBad,nil_append,ih]
  | piece more good onward ih =>
    rw [places_add,places_piece some good,length_append,length_range',ih]
    omega

theorem eq_zero_iff (some : 0 < size) (walk : Walk size bad steps o n u) : n = 0 ↔ u = 0 := by
  cases walk with
  | done => simp
  | skip more isBad onward =>
    have := @rest_pos size o some
    omega
  | piece more good onward =>
    have := @rest_pos size o some
    omega

theorem last_good (some : 0 < size) (walk : Walk size bad steps o n u) (more : 0 < n) :
    isGood size bad (o + u - 1) = true := by
  induction walk with
  | done => omega
  | @skip steps o n u more isBad onward ih =>
    have last := ih more
    rwa [show o + rest size o + u - 1 = o + (rest size o + u) - 1 by omega] at last
  | @piece steps o n u more good onward ih =>
    have empty := onward.eq_zero_iff some
    by_cases end_ : n - min n (rest size o) = 0
    · rw [empty.mp end_,Nat.add_zero,@isGood_block size bad o _ some (by omega) (by omega)]
      exact good
    · have last := ih (by omega)
      rwa [show o + min n (rest size o) + u - 1 = o + (min n (rest size o) + u) - 1 by omega] at last

end Walk

/-! ### Programming -/

section
variable {mem : Nat → UInt8} {x : Nat}

/-- Bytes are programmed one by one; programming clears bits. -/
def program (mem : Nat → UInt8) : List (Nat × UInt8) → Nat → UInt8
  | [] => mem
  | (a,d) :: more => program (Function.update mem a (mem a &&& d)) more

theorem program_append (one two : List (Nat × UInt8)) : program mem (one ++ two) = program (program mem one) two := by
  induction one generalizing mem with
  | nil => rfl
  | cons first one ih => rw [cons_append,program,ih,program]

theorem program_outside {bytes : List (Nat × UInt8)} (outside : ∀ entry ∈ bytes, entry.1 ≠ x) : program mem bytes x = mem x := by
  induction bytes generalizing mem with
  | nil => rfl
  | cons first bytes ih =>
    rw [program,ih fun entry inside => outside entry (mem_cons_of_mem _ inside),
      Function.update_of_ne (outside first mem_cons_self).symm]

theorem program_ones {bytes : List (Nat × UInt8)} (ones : ∀ entry ∈ bytes, entry.2 = 0xFF) : program mem bytes = mem := by
  induction bytes generalizing mem with
  | nil => rfl
  | cons first bytes ih =>
    have same : mem first.1 &&& first.2 = mem first.1 := by
      rw [ones first mem_cons_self]
      exact UInt8.and_neg_one
    rw [program,same,Function.update_eq_self,ih fun entry inside => ones entry (mem_cons_of_mem _ inside)]

theorem program_read {addresses : List Nat} {data : List UInt8} (apart : addresses.Nodup)
    (same : addresses.length = data.length) (erased : ∀ x ∈ addresses, mem x = 0xFF) :
    addresses.map (program mem (addresses.zip data)) = data := by
  induction addresses generalizing data mem with
  | nil => rw [map_nil,eq_nil_of_length_eq_zero same.symm]
  | cons a addresses ih =>
    cases data with
    | nil => simp at same
    | cons d data =>
      obtain ⟨fresh,apart⟩ := nodup_cons.mp apart
      have byte : mem a &&& d = d := by
        rw [erased a mem_cons_self]
        exact UInt8.neg_one_and
      have others : ∀ entry ∈ addresses.zip data, entry.1 ≠ a := by
        rintro ⟨b,c⟩ inside rfl
        exact fresh (of_mem_zip inside).1
      rw [zip_cons_cons,program,byte,map_cons]
      congr 1
      · rw [program_outside others,Function.update_self]
      refine ih apart (Nat.succ.inj same) fun x inside => ?_
      have other : x ≠ a := by rintro rfl; exact fresh inside
      rw [Function.update_of_ne other,erased x (mem_cons_of_mem _ inside)]
end

end UBoot.Skipping
