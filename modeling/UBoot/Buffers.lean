import Mathlib.Tactic
import Mathlib.Data.List.TakeWhile

/-!
Buffers whose every access is checked. A buffer is a list of elements; a store or a
scan that leaves it gives `none`. The lemmas turn positions in a buffer into the
parts of it before and behind them.
-/
namespace UBoot.Buffers
open List Option
universe u
variable {α : Type u}

/-- Storing one element; `none` is a store outside of the buffer. -/
def store (data : List α) (i : Nat) (c : α) : Option (List α) := if i < data.length then some (data.set i c) else none

def storeAll (data : List α) (i : Nat) (text : List α) : Option (List α) :=
  if i + text.length ≤ data.length then some (data.take i ++ text ++ data.drop (i + text.length)) else none

/-- `*p++ = c`. -/
def put (out : List α × Nat) (c : α) : Option (List α × Nat) :=
  (store out.1 out.2 c).map fun res => (res,out.2 + 1)

/-- `while (cond(*dp)) ++dp`. -/
def skipWhile (cond : α → Bool) (data : List α) : Nat → Nat → Option Nat
  | 0, _ => none
  | fuel+1, dp =>
    match data[dp]? with
    | none => none
    | some c => if cond c then skipWhile cond data fuel (dp + 1) else some dp

/-! ### Mapping -/

section
variable {β : Type*} {f : α → Option β}

theorem mapM_relates : ∀ {xs : List α} {ys : List β}, xs.mapM f = some ys ↔ List.Forall₂ (fun x y => f x = some y) xs ys := by
  intro xs
  induction xs with
  | nil =>
    intro ys
    rw [List.forall₂_nil_left_iff]
    exact ⟨fun same => (Option.some.inj same).symm,fun same => same ▸ rfl⟩
  | cons x xs ih =>
    simp only [mapM_cons,Option.bind_eq_bind,Option.bind_eq_some_iff,List.forall₂_cons_left_iff,← ih,Option.pure_def,Option.some.injEq]
    exact ⟨fun ⟨y,first,later,rest,whole⟩ => ⟨y,later,first,rest,whole.symm⟩,fun ⟨y,later,first,rest,whole⟩ => ⟨y,first,later,rest,whole.symm⟩⟩

theorem mapM_defined : ∀ {xs : List α}, (∀ x ∈ xs, ∃ y, f x = some y) → ∃ ys, xs.mapM f = some ys := by
  intro xs
  induction xs with
  | nil => exact fun _ => ⟨[],rfl⟩
  | cons x xs ih =>
    intro defined
    obtain ⟨y,first⟩ := defined x mem_cons_self
    obtain ⟨ys,rest⟩ := ih fun x member => defined x (mem_cons_of_mem _ member)
    exact ⟨y :: ys,mapM_relates.mpr (.cons first (mapM_relates.mp rest))⟩

theorem mem_mapM {xs : List α} {ys : List β} (mapped : xs.mapM f = some ys) {y : β} : y ∈ ys ↔ ∃ x ∈ xs, f x = some y := by
  have related := mapM_relates.mp mapped
  clear mapped
  induction related with
  | nil => simp
  | @cons x z xs ys first _ ih =>
    refine ⟨fun member => ?_,fun ⟨x',member,value⟩ => ?_⟩
    · rcases mem_cons.mp member with rfl | member
      · exact ⟨x,mem_cons_self,first⟩
      · obtain ⟨x',member,value⟩ := ih.mp member
        exact ⟨x',mem_cons_of_mem x member,value⟩
    rcases mem_cons.mp member with rfl | member
    · rw [Option.some.inj (value.symm.trans first)]
      exact mem_cons_self
    · exact mem_cons_of_mem z (ih.mpr ⟨x',member,value⟩)
end

/-! ### Storing a sequence -/

theorem store_fits {data : List α} {i : Nat} (fits : i < data.length) (c : α) : store data i c = some (data.set i c) := if_pos fits

theorem storeAll_fits {data text : List α} {i : Nat} (fits : i + text.length ≤ data.length) :
    ∃ after, storeAll data i text = some after ∧ after.length = data.length :=
  ⟨_,if_pos fits,by simp only [length_append,length_take,length_drop]; omega⟩

theorem put_inside {res : List α} {p : Nat} (inside : p < res.length) (c : α) :
    put (res,p) c = some (res.set p c,p+1) := by
  simp [put,store,inside]

/-- Storing a text byte after byte: it replaces that part of the buffer, if it fits. -/
theorem foldlM_put : ∀ (text res : List α) (p : Nat), p ≤ res.length →
    text.foldlM put (res,p) =
      if p + text.length ≤ res.length then
        some (res.take p ++ text ++ res.drop (p+text.length),p+text.length)
      else none := by
  intro text
  induction text with
  | nil => intro res p inside; simp [inside]
  | cons c text ih =>
    intro res p inside
    rw [foldlM_cons]
    by_cases room : p < res.length
    · rw [put_inside room,bind_eq_bind,bind_some,ih _ _ (by simpa using room)]
      have split : (res.set p c).take (p+1) = res.take p ++ [c] := by
        rw [take_set,take_succ_eq_append_getElem room,set_append_right _ _ (by simp)]
        simp [Nat.min_eq_left inside]
      simp only [length_set,split,length_cons]
      have rest : (res.set p c).drop (p + 1 + text.length) = res.drop (p + (text.length+1)) := by
        rw [drop_set_of_lt (by omega)]; congr 1; omega
      rw [rest]
      have sameBound : p + 1 + text.length ≤ res.length ↔ p + (text.length+1) ≤ res.length := by omega
      simp only [sameBound,append_assoc,cons_append]
      congr 3; omega
    have full : ¬ p + (c :: text).length ≤ res.length := by simp only [length_cons]; omega
    rw [if_neg full]
    simp [put,store,room]

theorem foldlM_put_append (pre text old : List α) (room : text.length ≤ old.length) :
    text.foldlM put (pre ++ old,pre.length) = some (pre ++ text ++ old.drop text.length,(pre ++ text).length) := by
  rw [foldlM_put _ _ _ (by simp),if_pos (by simp; omega),take_left,length_append,← drop_drop,drop_left]

theorem foldlM_flatMap {β : Type*} {text : β → List α} {write : List α × Nat → β → Option (List α × Nat)}
    (writes : ∀ out b, write out b = (text b).foldlM put out) (items : List β) :
    ∀ out, items.foldlM write out = (items.flatMap text).foldlM put out := by
  induction items with
  | nil => intro out; rfl
  | cons b items ih =>
    intro out
    rw [foldlM_cons,flatMap_cons,foldlM_append,writes]
    congr 1
    funext after
    exact ih after

/-! ### Positions and suffixes -/

theorem getElem_of_drop {data rest : List α} {dp : Nat} {c : α} (suffix : data.drop dp = c :: rest) :
    data[dp]? = some c := by
  have here : (data.drop dp)[0]? = data[dp+0]? := getElem?_drop
  rw [suffix] at here
  simpa using here.symm

theorem getElem_of_drop_nil {data : List α} {dp : Nat} (suffix : data.drop dp = []) : data[dp]? = none := by
  rw [getElem?_eq_none_iff]
  exact drop_eq_nil_iff.mp suffix

theorem drop_next {data rest : List α} {dp : Nat} {c : α} (suffix : data.drop dp = c :: rest) :
    data.drop (dp+1) = rest := by
  rw [← drop_drop,suffix]
  rfl

theorem lt_of_drop {data rest : List α} {dp : Nat} {c : α} (suffix : data.drop dp = c :: rest) :
    dp < data.length := by
  have := congrArg List.length suffix
  simp only [length_drop,length_cons] at this
  omega

theorem skipWhile_none {cond : α → Bool} {data : List α} : ∀ {fuel dp : Nat},
    (data.drop dp).dropWhile cond = [] → skipWhile cond data fuel dp = none := by
  intro fuel
  induction fuel with
  | zero => intro dp _; rfl
  | succ fuel ih =>
    intro dp ends
    rw [skipWhile]
    cases suffix : data.drop dp with
    | nil => rw [getElem_of_drop_nil suffix]
    | cons c rest =>
      rw [getElem_of_drop suffix]
      rw [suffix,dropWhile_cons] at ends
      by_cases goes : cond c = true
      · rw [if_pos goes] at ends
        simp only [goes,if_true]
        exact ih (by rw [drop_next suffix]; exact ends)
      · simp [goes] at ends

theorem skipWhile_some {cond : α → Bool} {data : List α} : ∀ {fuel dp : Nat} {c : α} {rest : List α},
    data.length < dp + fuel → (data.drop dp).dropWhile cond = c :: rest →
      skipWhile cond data fuel dp = some (dp + ((data.drop dp).takeWhile cond).length) ∧
        data.drop (dp + ((data.drop dp).takeWhile cond).length) = c :: rest := by
  intro fuel
  induction fuel with
  | zero =>
    intro dp c rest enough stops
    rw [drop_eq_nil_of_le (by omega)] at stops
    simp at stops
  | succ fuel ih =>
    intro dp c rest enough stops
    rw [skipWhile]
    cases suffix : data.drop dp with
    | nil => simp [suffix] at stops
    | cons d after =>
      rw [getElem_of_drop suffix]
      rw [suffix,dropWhile_cons] at stops
      by_cases goes : cond d = true
      · rw [if_pos goes] at stops
        have next := drop_next suffix
        obtain ⟨loop,there⟩ := @ih (dp+1) _ _ (by omega) (by rw [next]; exact stops)
        rw [next] at loop there
        have position : dp + 1 + (after.takeWhile cond).length = dp + ((d :: after).takeWhile cond).length := by
          rw [takeWhile_cons_of_pos goes,length_cons]; omega
        rw [position] at loop there
        simp only [goes,if_true]
        exact ⟨loop,there⟩
      rw [if_neg goes] at stops
      cases stops
      simp [goes,suffix]

theorem split_at {data text : List α} {dp : Nat} (suffix : data.drop dp = text) (inside : dp ≤ data.length) :
    ∃ pre, data = pre ++ text ∧ pre.length = dp :=
  ⟨data.take dp,by rw [← suffix,take_append_drop],by simp [inside]⟩

section
variable {pre name rest : List α} {c : α}

theorem set_middle (x : α) :
    (pre ++ (name ++ c :: rest)).set (pre.length+name.length) x = pre ++ (name ++ x :: rest) := by
  simp

theorem store_middle (x : α) :
    store (pre ++ (name ++ c :: rest)) (pre.length+name.length) x = some (pre ++ (name ++ x :: rest)) := by
  rw [store,if_pos (by simp),set_middle]

theorem drop_middle : (pre ++ (name ++ c :: rest)).drop (pre.length + name.length + 1) = rest := by
  have : pre ++ (name ++ c :: rest) = (pre ++ name ++ [c]) ++ rest := by simp
  rw [this,drop_left' (by simp; omega)]

end

end UBoot.Buffers
