import Mathlib.Tactic

/-!
Lock-step protocols over two queues that may lose and repeat messages but keep their order. One side
has taken `a` messages and sends `up a`; the other has taken `b` and answers the last one with
`down (b - 1)`. While both wait for the answer to their last message, every message on its way is the
one that is waited for or the one before it (`InStep.takeUp`, `InStep.takeDown`).
-/
namespace UBoot.Lockstep
open List
universe u

variable {Message : Type u}

/-- What may happen on the way: a message is lost, or it arrives twice. -/
inductive Disturbed : List Message → List Message → Prop
  | lost (front back : List Message) (x : Message) : Disturbed (front ++ x :: back) (front ++ back)
  | twice (front back : List Message) (x : Message) : Disturbed (front ++ x :: back) (front ++ x :: x :: back)

theorem Disturbed.mem {queue queue' : List Message} {x : Message} (disturbed : Disturbed queue queue')
    (member : x ∈ queue') : x ∈ queue := by
  cases disturbed with
  | lost front back y =>
    simp only [mem_append,mem_cons] at member ⊢
    tauto
  | twice front back y =>
    simp only [mem_append,mem_cons] at member ⊢
    tauto

/-- Messages in the order of their numbers, from `low` on and below `high`. -/
def Stream (f : Nat → Message) (low high : Nat) (queue : List Message) : Prop :=
  ∃ numbers : List Nat, queue = numbers.map f ∧ numbers.Pairwise (· ≤ ·) ∧ ∀ n ∈ numbers, low ≤ n ∧ n < high

section
variable {f : Nat → Message} {low high : Nat} {queue queue' : List Message} {x : Message}

theorem Stream.nil : Stream f low high [] := ⟨[],rfl,.nil,by simp⟩

theorem Stream.mono {low' high' : Nat} (stream : Stream f low high queue) (down : low' ≤ low) (up : high ≤ high') :
    Stream f low' high' queue := by
  obtain ⟨numbers,same,sorted,inside⟩ := stream
  refine ⟨numbers,same,sorted,fun n member => ?_⟩
  have := inside n member
  omega

theorem Stream.push {n : Nat} (stream : Stream f low high queue) (room : low ≤ n) (last : high ≤ n + 1) :
    Stream f low (n+1) (queue ++ [f n]) := by
  obtain ⟨numbers,rfl,sorted,inside⟩ := stream
  refine ⟨numbers ++ [n],by simp,?_,?_⟩
  · rw [pairwise_append]
    refine ⟨sorted,pairwise_singleton ..,fun i member j single => ?_⟩
    rw [mem_singleton.mp single]
    have := (inside i member).2
    omega
  intro i member
  rcases mem_append.mp member with old | new
  · have := inside i old
    omega
  · rw [mem_singleton.mp new]
    omega

theorem Stream.pop (stream : Stream f low high (x :: queue)) :
    ∃ n, x = f n ∧ low ≤ n ∧ n < high ∧ Stream f n high queue := by
  obtain ⟨numbers,same,sorted,inside⟩ := stream
  cases numbers with
  | nil => simp at same
  | cons n numbers =>
    obtain ⟨first,rest⟩ := List.cons.inj same
    obtain ⟨above,sorted⟩ := pairwise_cons.mp sorted
    obtain ⟨low_le,below⟩ := inside n mem_cons_self
    exact ⟨n,first,low_le,below,numbers,rest,sorted,fun i member =>
      ⟨above i member,(inside i (mem_cons_of_mem n member)).2⟩⟩

theorem Stream.disturbed (stream : Stream f low high queue) (disturbed : Disturbed queue queue') :
    Stream f low high queue' := by
  obtain ⟨numbers,same,sorted,inside⟩ := stream
  cases disturbed with
  | lost front back x =>
    obtain ⟨firsts,rest,rfl,rfl,others⟩ := map_eq_append_iff.mp same.symm
    obtain ⟨n,lasts,rfl,-,rfl⟩ := map_eq_cons_iff.mp others
    have smaller : (firsts ++ lasts).Sublist (firsts ++ n :: lasts) :=
      List.Sublist.append_left (sublist_cons_self ..) firsts
    exact ⟨firsts ++ lasts,by simp,sorted.sublist smaller,fun i member => inside i (smaller.subset member)⟩
  | twice front back x =>
    obtain ⟨firsts,rest,rfl,rfl,others⟩ := map_eq_append_iff.mp same.symm
    obtain ⟨n,lasts,rfl,rfl,rfl⟩ := map_eq_cons_iff.mp others
    refine ⟨firsts ++ n :: n :: lasts,by simp,?_,?_⟩
    · obtain ⟨before,behind,across⟩ := pairwise_append.mp sorted
      obtain ⟨above,after⟩ := pairwise_cons.mp behind
      rw [pairwise_append]
      refine ⟨before,pairwise_cons.mpr ⟨?_,pairwise_cons.mpr ⟨above,after⟩⟩,?_⟩
      · intro i member
        rcases mem_cons.mp member with rfl | member
        · exact le_refl _
        · exact above i member
      intro i early j late
      rcases mem_cons.mp late with rfl | late
      · exact across i early j mem_cons_self
      · exact across i early j late
    intro i member
    apply inside i
    simp only [mem_append,mem_cons] at member ⊢
    tauto
end

/-- Both sides in step: what they have taken, and what is on its way. -/
structure InStep (up down : Nat → Message) (a b : Nat) (ups downs : List Message) : Prop where
  behind : a ≤ b
  ahead : b ≤ a + 1
  ups : Stream up (b - 1) (a + 1) ups
  downs : Stream down (a - 1) b downs

section
variable {up down : Nat → Message} {a b : Nat} {ups downs queue : List Message} {x : Message}

theorem InStep.start : InStep up down 0 0 [] [] := ⟨le_refl _,by omega,.nil,.nil⟩

theorem InStep.sendUp (inStep : InStep up down a b ups downs) : InStep up down a b (ups ++ [up a]) downs :=
  { inStep with ups := inStep.ups.push (by have := inStep.ahead; omega) (le_refl _) }

theorem InStep.answer {sent : List Message} (inStep : InStep up down a b ups downs) (last : sent = [] ∨ sent = [up a]) :
    InStep up down a b (ups ++ sent) downs := by
  rcases last with rfl | rfl
  · rw [append_nil]
    exact inStep
  · exact inStep.sendUp

theorem InStep.sendDown (inStep : InStep up down a (b+1) ups downs) :
    InStep up down a (b+1) ups (downs ++ [down b]) :=
  { inStep with downs := inStep.downs.push (by have := inStep.behind; omega) (le_refl _) }

theorem InStep.disturbUps (inStep : InStep up down a b ups downs) (disturbed : Disturbed ups queue) :
    InStep up down a b queue downs := { inStep with ups := inStep.ups.disturbed disturbed }

theorem InStep.disturbDowns (inStep : InStep up down a b ups downs) (disturbed : Disturbed downs queue) :
    InStep up down a b ups queue := { inStep with downs := inStep.downs.disturbed disturbed }

theorem InStep.takeUp (inStep : InStep up down a b (x :: ups) downs) :
    ∃ n, x = up n ∧ ((n = b ∧ InStep up down a (b+1) ups downs) ∨ n + 1 = b) ∧ InStep up down a b ups downs := by
  obtain ⟨behind,ahead,upward,downward⟩ := inStep
  obtain ⟨n,same,low,high,rest⟩ := upward.pop
  refine ⟨n,same,?_,behind,ahead,rest.mono low (le_refl _),downward⟩
  by_cases new : n = b
  · refine .inl ⟨new,by omega,by omega,rest.mono (by omega) (le_refl _),downward.mono (le_refl _) (by omega)⟩
  · exact .inr (by omega)

theorem InStep.takeDown (inStep : InStep up down a b ups (x :: downs)) :
    ∃ n, x = down n ∧ ((n = a ∧ InStep up down (a+1) b ups downs) ∨ n + 1 = a) ∧ InStep up down a b ups downs := by
  obtain ⟨behind,ahead,upward,downward⟩ := inStep
  obtain ⟨n,same,low,high,rest⟩ := downward.pop
  refine ⟨n,same,?_,behind,ahead,upward,rest.mono low (le_refl _)⟩
  by_cases new : n = a
  · refine .inl ⟨new,by omega,by omega,upward.mono (le_refl _) (by omega),rest.mono (by omega) (le_refl _)⟩
  · exact .inr (by omega)
end

end UBoot.Lockstep
