import Mathlib.Tactic

/-!
Insertion by a key, with a new element in front of those with an equal key. What such a sort does is seen
on the elements of each key: they keep the order in which they are found (`group_sort`), and two
sorted lists with the same elements of each key are the same list (`eq_of_group_eq`).
-/
namespace UBoot.KeySort
open List
universe u

variable {α : Type u} (key : α → Nat)

/-- In front of everything with a key that is not smaller. -/
def insert (a : α) (l : List α) : List α := l.orderedInsert (fun a b => key a ≤ key b) a

/-- The elements one after the other, the last one first. -/
def sort (l : List α) : List α := l.insertionSort fun a b => key a ≤ key b

def group (k : Nat) (l : List α) : List α := l.filter fun a => key a = k

variable {key}

theorem insert_cons (a b : α) (l : List α) :
    insert key a (b :: l) = if key a ≤ key b then a :: b :: l else b :: insert key a l :=
  orderedInsert_cons ..

theorem sort_cons (a : α) (l : List α) : sort key (a :: l) = insert key a (sort key l) := rfl

theorem group_cons (k : Nat) (a : α) (l : List α) :
    group key k (a :: l) = if key a = k then a :: group key k l else group key k l := by
  rw [group,filter_cons,group]
  simp only [decide_eq_true_eq]

theorem mem_group {k : Nat} {a : α} {l : List α} : a ∈ group key k l ↔ a ∈ l ∧ key a = k := by
  rw [group,mem_filter,decide_eq_true_eq]

theorem group_insert (a : α) (l : List α) (k : Nat) : group key k (insert key a l) = group key k (a :: l) := by
  induction l with
  | nil => rfl
  | cons b l ih =>
    rw [insert_cons]
    split_ifs with le
    · rfl
    rw [group_cons,ih,group_cons,group_cons,group_cons]
    by_cases first : key a = k
    · have other : ¬ key b = k := by omega
      rw [if_neg other,if_neg other]
    · rw [if_neg first,if_neg first]

theorem group_sort (l : List α) (k : Nat) : group key k (sort key l) = group key k l := by
  induction l with
  | nil => rfl
  | cons a l ih => rw [sort_cons,group_insert,group_cons,group_cons,ih]

theorem foldl_insert (l : List α) : l.foldl (fun m a => insert key a m) [] = sort key l.reverse := by
  rw [sort,List.insertionSort,foldr_reverse]
  rfl

theorem sort_sorted (l : List α) : (sort key l).Pairwise fun a b => key a ≤ key b := pairwise_insertionSort _ l

theorem head_le {a b : α} {l : List α} (sorted : (a :: l).Pairwise fun a b => key a ≤ key b) (inside : b ∈ a :: l) : key a ≤ key b := by
  rcases mem_cons.mp inside with rfl | later
  · exact le_rfl
  · exact (pairwise_cons.mp sorted).1 b later

theorem eq_of_group_eq {l m : List α} (first : l.Pairwise fun a b => key a ≤ key b) (second : m.Pairwise fun a b => key a ≤ key b)
    (groups : ∀ k, group key k l = group key k m) : l = m := by
  induction l generalizing m with
  | nil =>
    cases m with
    | nil => rfl
    | cons b m =>
      have inside : b ∈ group key (key b) [] := groups (key b) ▸ mem_group.mpr ⟨mem_cons_self,rfl⟩
      exact absurd inside not_mem_nil
  | cons a l ih =>
    cases m with
    | nil =>
      have inside : a ∈ group key (key a) [] := groups (key a) ▸ mem_group.mpr ⟨mem_cons_self,rfl⟩
      exact absurd inside not_mem_nil
    | cons b m =>
      -- Each head is found in the other list, so both have the smallest key.
      have le : key b ≤ key a := head_le second (mem_group.mp (groups (key a) ▸ mem_group.mpr ⟨mem_cons_self,rfl⟩)).1
      have ge : key a ≤ key b := head_le first (mem_group.mp (groups (key b) ▸ mem_group.mpr ⟨mem_cons_self,rfl⟩)).1
      have equal : key b = key a := le_antisymm le ge
      have heads := groups (key a)
      rw [group_cons,if_pos rfl,group_cons,if_pos equal] at heads
      obtain ⟨rfl,tails⟩ := List.cons.inj heads
      refine congrArg (a :: ·) (ih first.tail second.tail fun k => ?_)
      by_cases here : key a = k
      · rw [← here]
        exact tails
      · have others := groups k
        rwa [group_cons,if_neg here,group_cons,if_neg here] at others

end UBoot.KeySort
