import Mathlib.Tactic

/-!
A memory of bytes, read and written in stretches, and numbers kept in it in little-endian
order. The lemmas say what a stretch holds after a store that covers it and after one that
misses it, and that a number survives being written and read.
-/
namespace UBoot.Memory
open List

/-- The `n` bytes from address `a` on. -/
def load (mem : Nat → UInt8) (a n : Nat) : List UInt8 := (List.range n).map fun i => mem (a + i)

/-- The memory after `bytes` are copied to address `a`. -/
def store (mem : Nat → UInt8) (a : Nat) (bytes : List UInt8) : Nat → UInt8 :=
  fun x => if a ≤ x then (bytes[x - a]?).getD (mem x) else mem x

variable {mem : Nat → UInt8} {a b n : Nat} {bytes : List UInt8}

@[simp] theorem load_length : (load mem a n).length = n := by simp [load]

theorem load_congr {other : Nat → UInt8} (same : ∀ x, a ≤ x → x < a + n → mem x = other x) :
    load mem a n = load other a n := by
  apply map_congr_left
  intro i inside
  exact same _ (by omega) (by have := mem_range.mp inside; omega)

theorem store_outside {x : Nat} (outside : x < a ∨ a + bytes.length ≤ x) : store mem a bytes x = mem x := by
  simp only [store]
  split_ifs with above
  · rw [getElem?_eq_none (by omega)]
    rfl
  · rfl

theorem store_inside {i : Nat} (inside : i < bytes.length) : store mem a bytes (a+i) = bytes[i] := by
  simp [store,inside]

theorem load_store : load (store mem a bytes) a bytes.length = bytes := by
  apply ext_getElem
  · simp
  · intro i _ inside
    simp [load,store_inside inside]

theorem load_store_of_length (len : bytes.length = n) : load (store mem a bytes) a n = bytes := by
  subst len
  exact load_store

theorem load_store_apart (apart : a + n ≤ b ∨ b + bytes.length ≤ a) :
    load (store mem b bytes) a n = load mem a n := by
  apply load_congr
  intro x low high
  exact store_outside (by omega)

theorem load_add (m : Nat) : load mem a (n+m) = load mem a n ++ load mem (a+n) m := by
  simp [load,range_add,Nat.add_assoc]

theorem load_take {m : Nat} (le : m ≤ n) : (load mem a n).take m = load mem a m := by
  obtain ⟨k,rfl⟩ := Nat.exists_eq_add_of_le le
  rw [load_add,take_left' load_length]

theorem load_drop {m : Nat} (le : m ≤ n) : (load mem a n).drop m = load mem (a+m) (n-m) := by
  obtain ⟨k,rfl⟩ := Nat.exists_eq_add_of_le le
  rw [load_add,drop_left' load_length,Nat.add_sub_cancel_left]

theorem load_store_start :
    load (store mem a bytes) a n = (bytes ++ load mem (a+bytes.length) (n-bytes.length)).take n := by
  by_cases long : n ≤ bytes.length
  · rw [take_append_of_le_length long,← load_take long,load_store]
  obtain ⟨k,rfl⟩ := Nat.exists_eq_add_of_le (Nat.le_of_not_le long)
  rw [load_add,load_store,load_store_apart (.inr (by omega)),Nat.add_sub_cancel_left,
    take_of_length_le (by simp)]

theorem store_append {more : List UInt8} : store (store mem a bytes) (a+bytes.length) more = store mem a (bytes ++ more) := by
  funext x
  simp only [store]
  by_cases below : a ≤ x
  · by_cases first : x < a + bytes.length
    · rw [if_neg (by omega),if_pos below,if_pos below,getElem?_append_left (by omega)]
    · rw [if_pos (by omega),if_pos below,if_pos below,getElem?_append_right (by omega),
        getElem?_eq_none (by omega : bytes.length ≤ x - a),Option.getD_none,Nat.sub_sub]
  · rw [if_neg (by omega),if_neg below,if_neg below]

theorem load_getElem {i : Nat} (inside : i < (load mem a n).length) : (load mem a n)[i] = mem (a+i) := by
  simp [load]

theorem load_eq_iff {other : Nat → UInt8} :
    load mem a n = load other a n ↔ ∀ x, a ≤ x → x < a + n → mem x = other x := by
  constructor
  · intro same x low high
    have entry := congrArg (fun bytes => bytes[x-a]?) same
    simp only [load,getElem?_map,getElem?_range (by omega : x - a < n),Option.map_some,
      Option.some.injEq] at entry
    rwa [Nat.add_sub_cancel' low] at entry
  · exact load_congr

def zeros (n : Nat) : List UInt8 := List.replicate n 0

@[simp] theorem zeros_length (n : Nat) : (zeros n).length = n := length_replicate

theorem load_zeros {mem : Nat → UInt8} {a n : Nat} (clear : ∀ x, a ≤ x → x < a + n → mem x = 0) :
    load mem a n = zeros n := by
  apply ext_getElem
  · simp
  intro i inside _
  have small : i < n := by simpa using inside
  rw [load_getElem,clear _ (by omega) (by omega)]
  exact (getElem_replicate _).symm

theorem zeros_getElem {n i : Nat} (inside : i < (zeros n).length) : (zeros n)[i] = 0 := getElem_replicate _

theorem zeros_succ (n : Nat) : zeros (n+1) = 0 :: zeros n := replicate_succ

theorem zeros_drop (n m : Nat) : (zeros n).drop m = zeros (n-m) := drop_replicate

/-! ### Little-endian numbers -/

/-- The lowest `n` bytes of a number. -/
def toLe : Nat → Nat → List UInt8
  | 0, _ => []
  | n+1, v => UInt8.ofNat v :: toLe n (v / 256)

def ofLe : List UInt8 → Nat
  | [] => 0
  | c :: rest => c.toNat + 256 * ofLe rest

@[simp] theorem toLe_length (n v : Nat) : (toLe n v).length = n := by
  induction n generalizing v with
  | zero => rfl
  | succ n ih => simp [toLe,ih]

theorem ofLe_toLe (n v : Nat) : ofLe (toLe n v) = v % 256 ^ n := by
  induction n generalizing v with
  | zero => simp [toLe,ofLe,Nat.mod_one]
  | succ n ih =>
    have low : (UInt8.ofNat v).toNat = v % 256 := UInt8.toNat_ofNat'
    rw [toLe,ofLe,ih,low,pow_succ',Nat.mod_mul]

def leBytes {w : Nat} (v : BitVec w) : List UInt8 := toLe (w / 8) v.toNat

def takeLe (w : Nat) (buf : List UInt8) : BitVec w × List UInt8 :=
  (BitVec.ofNat w (ofLe (buf.take (w / 8))),buf.drop (w / 8))

@[simp] theorem leBytes_length {w : Nat} (v : BitVec w) : (leBytes v).length = w / 8 := by simp [leBytes]

theorem takeLe_leBytes {w : Nat} (whole : 8 ∣ w) (v : BitVec w) (rest : List UInt8) :
    takeLe w (leBytes v ++ rest) = (v,rest) := by
  have width : 256 ^ (w / 8) = 2 ^ w := by
    obtain ⟨k,rfl⟩ := whole
    rw [Nat.mul_div_cancel_left _ (by decide),pow_mul]
    norm_num
  rw [takeLe,take_left' (leBytes_length v),drop_left' (leBytes_length v),leBytes,ofLe_toLe,width,
    Nat.mod_eq_of_lt v.isLt,BitVec.ofNat_toNat,BitVec.setWidth_eq]

end UBoot.Memory
