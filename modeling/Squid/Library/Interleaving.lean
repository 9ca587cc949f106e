import Squid.Library.LabelledRun
import Mathlib.Algebra.Order.BigOperators.Group.Finset
import Mathlib.Tactic.Ring
import Mathlib.Data.Fintype.BigOperators

/-!
# Interleavings of processes over shared memory

Every process of a family `P` owns a private state and takes atomic steps, each of which may read
and write the shared memory and the private state of the process that takes it.  A label names the
process and its action, so a run of `interleave` is one interleaving of the processes' steps.
-/

namespace Interleaving

open Function

variable {P ω π α : Type*}

/-- Shared memory together with the private state of every process. -/
structure State (P ω π : Type*) where
  /-- Memory seen by all processes. -/
  memory : ω
  /-- Private state of each process. -/
  process : P → π

/-- A process contributes at most the total of non-negative weights. -/
theorem weight_le_sum [Fintype P] {weight : π → ℤ} (nonneg : ∀ own, 0 ≤ weight own)
    (process : P → π) (p : P) : weight (process p) ≤ ∑ q, weight (process q) :=
  Finset.single_le_sum (fun q _ => nonneg (process q)) (Finset.mem_univ p)

/-- Where the total of non-negative weights is one, exactly one of them is positive. -/
theorem existsUnique_of_sum_eq_one {ι : Type*} [Fintype ι] {weight : ι → ℤ}
    (nonneg : ∀ i, 0 ≤ weight i) (total : ∑ i, weight i = 1) : ∃! i, 0 < weight i := by
  classical
  have some_positive : ∃ i, 0 < weight i := by
    by_contra none_positive
    push Not at none_positive
    have zero := Finset.sum_nonpos fun i (_ : i ∈ Finset.univ) => none_positive i
    omega
  obtain ⟨i, positive⟩ := some_positive
  refine ⟨i, positive, ?_⟩
  intro j other
  by_contra different
  have pair := Finset.sum_le_univ_sum_of_nonneg (s := {j, i}) nonneg
  rw [Finset.sum_pair different] at pair
  omega

/-- Where at most one index qualifies, the total is its weight. -/
theorem sum_of_unique {ι : Type*} [Fintype ι] {qualifies : ι → Prop} [DecidablePred qualifies]
    [Decidable (∃ i, qualifies i)] (unique : ∀ i j, qualifies i → qualifies j → i = j)
    (weight : ℤ) :
    (∑ i, if qualifies i then weight else 0) = if ∃ i, qualifies i then weight else 0 := by
  by_cases some_qualifies : ∃ i, qualifies i
  · obtain ⟨i, member⟩ := some_qualifies
    rw [if_pos ⟨i, member⟩, Finset.sum_eq_single i]
    · exact if_pos member
    · intro j _ different
      exact if_neg fun other => different (unique j i other member)
    · simp
  · rw [if_neg some_qualifies]
    exact Finset.sum_eq_zero fun i _ => if_neg fun member => some_qualifies ⟨i, member⟩

section Update

variable [DecidableEq P]

/-- One atomic step of one process; all other private states are framed. -/
def interleave (localStep : ω → π → α → Option (ω × π)) (state : State P ω π)
    (label : P × α) : Option (State P ω π) :=
  (localStep state.memory (state.process label.1) label.2).map fun result =>
    { memory := result.1
      process := update state.process label.1 result.2 }

theorem interleave_eq_some {localStep : ω → π → α → Option (ω × π)} {before after : State P ω π}
    {p : P} {action : α} :
    interleave localStep before (p, action) = some after ↔
      ∃ memory own, localStep before.memory (before.process p) action = some (memory, own) ∧
        after = { memory, process := update before.process p own } := by
  simp only [interleave, Option.map_eq_some_iff, Prod.exists]
  constructor
  · rintro ⟨memory, own, step, rfl⟩
    exact ⟨memory, own, step, rfl⟩
  · rintro ⟨memory, own, step, rfl⟩
    exact ⟨memory, own, step, rfl⟩

/-- A step of one process moves the family's total weight by the change of its own weight. -/
theorem sum_update [Fintype P] (weight : π → ℤ) (process : P → π) (p : P) (own : π) :
    ∑ q, weight (update process p own q) =
      ∑ q, weight (process q) + (weight own - weight (process p)) := by
  have split : ∀ family : P → π,
      ∑ q, weight (family q) =
        weight (family p) + ∑ q ∈ Finset.univ.erase p, weight (family q) := fun family =>
    (Finset.add_sum_erase _ _ (Finset.mem_univ p)).symm
  have rest : ∑ q ∈ Finset.univ.erase p, weight (update process p own q) =
      ∑ q ∈ Finset.univ.erase p, weight (process q) := by
    apply Finset.sum_congr rfl
    intro q member
    rw [update_of_ne (Finset.ne_of_mem_erase member)]
  rw [split (update process p own), split process, rest, update_self]
  ring

end Update

end Interleaving
