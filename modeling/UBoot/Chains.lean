import Mathlib.Data.List.Sigma
import Mathlib.Tactic

/-!
Doubly linked lists in a store of numbered nodes, where a link of 0 means that there
is no node. A list in the store is described by the numbers and values of its nodes, in
order (`Seg`); setting one link changes the description at one end of a segment.
-/
namespace UBoot.Chains
open List

structure Node (α : Type) where
  value : α
  next : Nat
  prev : Nat

variable {α : Type} {node : Nat → Node α} {p q nx nx' j : Nat} {l a b : List (Nat × α)}

/-- The number of the first node, or `nx` if there is none. -/
def firstOr (nx : Nat) : List (Nat × α) → Nat
  | [] => nx
  | (k,_) :: _ => k

/-- The number of the last node, or `p` if there is none. -/
def lastOr (p : Nat) : List (Nat × α) → Nat
  | [] => p
  | (k,_) :: rest => lastOr k rest

/-- The nodes `l` are linked to each other, the first one back to `p` and the last one on
    to `nx`. -/
def Seg (node : Nat → Node α) : Nat → Nat → List (Nat × α) → Prop
  | _, _, [] => True
  | p, nx, (k,v) :: rest => node k = ⟨v,firstOr nx rest,p⟩ ∧ Seg node k nx rest

def keys (l : List (Nat × α)) : List Nat := l.map Prod.fst

@[simp] theorem keys_cons (k : Nat) (v : α) : keys ((k,v) :: l) = k :: keys l := rfl
@[simp] theorem keys_append : keys (a ++ b) = keys a ++ keys b := map_append

theorem firstOr_append : firstOr nx (a ++ b) = firstOr (firstOr nx b) a := by
  cases a <;> rfl

theorem firstOr_mem (some : l ≠ []) : firstOr nx l ∈ keys l := by
  cases l with
  | nil => exact absurd rfl some
  | cons h rest => exact mem_cons_self

theorem lastOr_mem (some : l ≠ []) : lastOr p l ∈ keys l := by
  induction l generalizing p with
  | nil => exact absurd rfl some
  | cons h rest ih =>
    rw [lastOr,keys_cons]
    cases rest with
    | nil => exact mem_cons_self
    | cons h' rest => exact mem_cons_of_mem _ (ih (by simp))

theorem seg_append : Seg node p nx (a ++ b) ↔ Seg node p (firstOr nx b) a ∧ Seg node (lastOr p a) nx b := by
  induction a generalizing p with
  | nil => simp [Seg,lastOr]
  | cons h rest ih =>
    simp only [cons_append,Seg,lastOr,firstOr_append,ih,and_assoc]

theorem Seg.congr {node' : Nat → Node α} (seg : Seg node p nx l) (same : ∀ k ∈ keys l, node' k = node k) : Seg node' p nx l := by
  induction l generalizing p with
  | nil => trivial
  | cons h rest ih =>
    obtain ⟨k,v⟩ := h
    refine ⟨?_,ih seg.2 fun k' inside => same k' (mem_cons_of_mem _ inside)⟩
    rw [same k mem_cons_self]
    exact seg.1

theorem Seg.update (seg : Seg node p nx l) (other : j ∉ keys l) (x : Node α) : Seg (Function.update node j x) p nx l := by
  apply seg.congr
  intro k inside
  apply Function.update_of_ne
  rintro rfl
  exact other inside

theorem Seg.setPrev (seg : Seg node p nx l) (apart : (keys l).Nodup) (first : l ≠ [] → j = firstOr 0 l) :
    Seg (Function.update node j { node j with prev := q }) q nx l := by
  cases l with
  | nil => trivial
  | cons h rest =>
    obtain ⟨k,v⟩ := h
    obtain rfl : j = k := first (by simp)
    rw [keys_cons,nodup_cons] at apart
    refine ⟨?_,seg.2.update apart.1 _⟩
    rw [Function.update_self,seg.1]

theorem Seg.setNext (seg : Seg node p nx l) (apart : (keys l).Nodup) (last : l ≠ [] → j = lastOr p l) :
    Seg (Function.update node j { node j with next := nx' }) p nx' l := by
  induction l generalizing p with
  | nil => trivial
  | cons h rest ih =>
    obtain ⟨k,v⟩ := h
    rw [keys_cons,nodup_cons] at apart
    have here := last (by simp)
    rw [lastOr] at here
    cases rest with
    | nil =>
      obtain rfl : j = k := here
      refine ⟨?_,trivial⟩
      rw [Function.update_self,seg.1]
      rfl
    | cons h' rest =>
      refine ⟨?_,ih seg.2 apart.2 fun _ => here⟩
      have other : k ≠ j := by
        rintro rfl
        exact apart.1 (here ▸ lastOr_mem (by simp))
      rw [Function.update_of_ne other,seg.1]
      rfl

theorem Seg.middle {k : Nat} {v : α} (seg : Seg node p nx (a ++ (k,v) :: b)) :
    node k = ⟨v,firstOr nx b,lastOr p a⟩ := (seg_append.mp seg).2.1

end UBoot.Chains
