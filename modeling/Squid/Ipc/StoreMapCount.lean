import Squid.Ipc.StoreMapSafety
import Mathlib.Algebra.BigOperators.Ring.Finset

/-!
# What `StoreMap::entryCount` counts

`openForWriting` increments `count` before it makes an `Empty` slot `Writeable`, and `freeLocked`
decrements it after it has made a slot `Empty`.  Between the two accesses of one operation the
counter and the slots disagree by one.  `freeLocked` does not look at the state it replaces, so
every call on a slot that is `Empty` already takes one off the counter for good.
-/

namespace Squid
namespace Ipc
namespace StoreMap

open Interleaving LabelledRun

variable {limit : ℕ} {Extras : Type*}

def entryCount (shared : Shared limit Extras) : ℤ := shared.count

/-- The slots that are in use, which `entryCount` is meant to count. -/
def usedSlots (shared : Shared limit Extras) : ℕ :=
  (Finset.univ.filter fun i => (shared.slots i).state ≠ .Empty).card

/-- The slot counts as used. -/
def used (slot : StoreMapSlot Extras) : ℤ := if slot.state = .Empty then 0 else 1

/-- The operation is between its access to `count` and its access to the state. -/
def pendingAt : Pc → ℤ
  | .writeState | .freeLocked _ .unlock | .freeLocked _ .uncount => 1
  | _ => 0

/-- Contribution of a process to the difference between `count` and the slots. -/
def pending (own : Process limit) : ℤ :=
  match own.pc with
  | none => 0
  | some (_, pc) => pendingAt pc

/-- `freeLocked` is about to empty a slot that is `Empty`. -/
def FreesEmptySlot (shared : Shared limit Extras) (own : Process limit) : Prop :=
  ∃ i keepLocked, own.pc = some (i, .freeLocked keepLocked .empty) ∧
    (shared.slots i).state = .Empty

open Classical in
/-- What the step of a process takes off the counter for good. -/
noncomputable def loss (shared : Shared limit Extras) (own : Process limit) : ℤ :=
  if FreesEmptySlot shared own then 1 else 0

theorem usedSlots_eq_sum (shared : Shared limit Extras) :
    (usedSlots shared : ℤ) = ∑ i, used (shared.slots i) := by
  rw [usedSlots, Finset.card_filter, Nat.cast_sum]
  apply Finset.sum_congr rfl
  intro i _
  by_cases empty : (shared.slots i).state = .Empty <;> simp [used, empty]

/-! ## The balance of one step -/

/-- How far `count` is from the state of slot `i` and the operation of one process. -/
def balance (i : Fin limit) (shared : Shared limit Extras) (own : Process limit) : ℤ :=
  used (shared.slots i) + pending own - shared.count

section Balance

variable {cleaner : Option (Extras → Extras)} {shared : Shared limit Extras} {own : Process limit}
  {i : Fin limit}

theorem pending_idle (idle : own.pc = none) : pending own = 0 := by
  simp [pending, idle]

variable {pc : Pc}

theorem pending_at (at_pc : own.pc = some (i, pc)) : pending own = pendingAt pc := by
  simp [pending, at_pc]

@[simp]
theorem pending_goto (own : Process limit) (i : Fin limit) (pc : Pc) :
    pending (own.goto i pc) = pendingAt pc := rfl

@[simp]
theorem pending_finish (own : Process limit) : pending own.finish = 0 := rfl

@[simp]
theorem pending_returnReading (own : Process limit) (i : Fin limit) :
    pending (own.returnReading i) = 0 := rfl

@[simp]
theorem pending_returnWriting (own : Process limit) (i : Fin limit) :
    pending (own.returnWriting i) = 0 := rfl

variable {action : Action limit Extras} {own' : Process limit} {shared' : Shared limit Extras}

theorem enters_balance (idle : own.pc = none) (view : View i (shared.slots i) own)
    (enters : Enters shared own i action shared' own') :
    balance i shared' own' = balance i shared own := by
  have before := pending_idle idle
  unfold balance
  rw [before]
  cases enters with
  | openForWriting | free => split <;> simp [used, pendingAt]
  | openForReading | openForReadingAt => simp [used, pendingAt]
  | closeForWriting lockForReading writing => simp [used, pendingAt, view.writing writing]
  | abortIo => split <;> simp [pendingAt]
  | closeForReading => simp [pendingAt]
  | set | setExtras => simp [used, before]

theorem proceedFreeLocked_balance {keepLocked : Bool} {position : FreePc}
    (at_pc : own.pc = some (i, .freeLocked keepLocked position)) :
    balance i (proceedFreeLocked cleaner shared own i keepLocked position).1
        (proceedFreeLocked cleaner shared own i keepLocked position).2 =
      balance i shared own +
        if position = .empty ∧ (shared.slots i).state = .Empty then 1 else 0 := by
  unfold balance
  rw [pending_at at_pc]
  cases position with
  | clean =>
      have state := proceedFreeLocked_clean_state cleaner shared own i keepLocked
      have count : (proceedFreeLocked cleaner shared own i keepLocked .clean).1.count =
          shared.count := by
        cases cleaner with
        | none => rfl
        | some cleanReadable =>
            simp only [proceedFreeLocked]
            split <;> rfl
      rw [used, state, count]
      simp [proceedFreeLocked, used, pendingAt]
  | unmark => simp [proceedFreeLocked, used, pendingAt]
  | empty =>
      by_cases empty : (shared.slots i).state = .Empty <;>
        simp [proceedFreeLocked, used, pendingAt, empty]
      omega
  | unlock => cases keepLocked <;> simp [proceedFreeLocked, used, pendingAt]
  | uncount => cases keepLocked <;> simp [proceedFreeLocked, pendingAt] <;> omega

theorem proceedAt_balance (at_pc : own.pc = some (i, pc)) (view : View i (shared.slots i) own)
    (other : ∀ keepLocked position, pc ≠ .freeLocked keepLocked position) :
    balance i (proceedAt cleaner shared own i pc).1 (proceedAt cleaner shared own i pc).2 =
      balance i shared own := by
  have known := view.knows pc at_pc
  unfold balance
  rw [pending_at at_pc]
  cases pc with
  | freeLocked keepLocked position => exact absurd rfl (other keepLocked position)
  | writeTest | freeTest | readTest | readEmpty | readWaiting | readKey | writeLocked =>
      simp only [proceedAt]
      split <;> simp [pendingAt]
  | closeWriteUnlock lockForReading => cases lockForReading <;> simp [proceedAt, used, pendingAt]
  | readAssert key => cases key <;> simp [proceedAt, pendingAt]
  | writeCount =>
      simp only [proceedAt, pending_goto, pendingAt]
      omega
  | writeState =>
      have empty : (shared.slots i).state = .Empty := known
      simp [proceedAt, used, pendingAt, empty]
  | abortWriting | closeReadCheck => simp [proceedAt, pendingAt]
  | _ => simp [proceedAt, used, pendingAt]

/-- A step leaves the balance alone unless it frees an `Empty` slot. -/
theorem localStep_balance {limit_pos : 0 < limit} (view : ∀ i, View i (shared.slots i) own)
    (step : localStep limit_pos cleaner shared own action = some (shared', own')) :
    ∃ i, Frame i shared own shared' own' ∧
      balance i shared' own' =
        balance i shared own + loss shared own := by
  obtain ⟨i, pc, at_pc, _, rfl, rfl⟩ | ⟨idle, i, enters⟩ := localStep_cases step
  · refine ⟨i, proceedAt_frame at_pc, ?_⟩
    by_cases freeing : ∃ keepLocked position, pc = .freeLocked keepLocked position
    · obtain ⟨keepLocked, position, rfl⟩ := freeing
      rw [proceedAt, proceedFreeLocked_balance at_pc]
      simp [loss, FreesEmptySlot, at_pc]
    · push Not at freeing
      rw [proceedAt_balance at_pc (view i) freeing, loss, if_neg, add_zero]
      rintro ⟨j, keepLocked, at_j, _⟩
      rw [at_pc, Option.some.injEq, Prod.mk.injEq] at at_j
      exact freeing keepLocked .empty at_j.2
  · refine ⟨i, enters_frame idle enters, ?_⟩
    rw [enters_balance idle (view i) enters, loss, if_neg, add_zero]
    rintro ⟨j, keepLocked, at_j, _⟩
    simp [idle] at at_j

end Balance

/-! ## The balance of a run -/

section System

variable {P : Type*} [Fintype P] {limit_pos : 0 < limit} {cleaner : Option (Extras → Extras)}

/-- Number of entries that `count` misses, beyond those of the operations in progress. -/
def deficit (system : System P limit Extras) : ℤ :=
  ∑ i, used (system.memory.slots i) + ∑ p, pending (system.process p) - system.memory.count

theorem deficit_initial (zeroed : Extras) : deficit (initial P limit zeroed) = 0 := by
  simp [deficit, initial, used, pending]

theorem deficit_of_idle {system : System P limit Extras}
    (idle : ∀ p, (system.process p).pc = none) :
    deficit system = usedSlots system.memory - entryCount system.memory := by
  rw [deficit, usedSlots_eq_sum, entryCount, Finset.sum_eq_zero fun p _ => pending_idle (idle p)]
  omega

variable [DecidableEq P]

variable {after before : System P limit Extras}

theorem deficit_step {p : P} {action : Action limit Extras} (inv : Invariant before)
    (step : next limit_pos cleaner before (p, action) = some after) :
    deficit after = deficit before + loss before.memory (before.process p) := by
  obtain ⟨shared, own, local_step, rfl⟩ := interleave_eq_some.mp step
  obtain ⟨i, frame, moved⟩ := localStep_balance (inv.view p) local_step
  have slots : shared.slots = Function.update before.memory.slots i (shared.slots i) := by
    funext j
    by_cases here : j = i
    · subst here
      simp
    · rw [Function.update_of_ne here, frame.slots j here]
  have used_moved := sum_update used before.memory.slots i (shared.slots i)
  have pending_moved := sum_update pending before.process p own
  rw [← slots] at used_moved
  unfold balance at moved
  simp only [deficit, used_moved, pending_moved]
  omega

/-- Only the steps that free an `Empty` slot move `count` away from the slots, and they all move
it the same way. -/
theorem deficit_run {labels : List (P × Action limit Extras)} (inv : Invariant before)
    (run : exec (next limit_pos cleaner) before labels = some after) :
    deficit before ≤ deficit after ∧
      (deficit after = deficit before ↔
        Allowed (next limit_pos cleaner)
          (fun system label => ¬ FreesEmptySlot system.memory (system.process label.1))
          before labels) := by
  induction labels generalizing before with
  | nil =>
      cases Option.some.inj run
      simp [Allowed]
  | cons label labels ih =>
      rw [exec_cons, Option.bind_eq_some_iff] at run
      obtain ⟨middle, step, later⟩ := run
      obtain ⟨grows, exact_iff⟩ := ih (invariant_step inv step) later
      have moved := deficit_step inv step
      have steps : ∀ successor, next limit_pos cleaner before label = some successor ↔
          successor = middle := by
        intro successor
        rw [step, Option.some.injEq, eq_comm]
      simp only [Allowed, steps, forall_eq, ← exact_iff]
      by_cases frees : FreesEmptySlot before.memory (before.process label.1)
      · rw [loss, if_pos frees] at moved
        simp only [frees, not_true_eq_false, false_and, iff_false]
        omega
      · rw [loss, if_neg frees] at moved
        simp only [frees, not_false_eq_true, true_and]
        omega

/-- Between operations `entryCount` is the number of used slots exactly when no call of
`freeLocked` before has emptied a slot that was `Empty`. -/
theorem entryCount_eq_iff {zeroed : Extras} {system : System P limit Extras}
    {labels : List (P × Action limit Extras)}
    (run : exec (next limit_pos cleaner) (initial P limit zeroed) labels = some system)
    (idle : ∀ p, (system.process p).pc = none) :
    entryCount system.memory = usedSlots system.memory ↔
      Allowed (next limit_pos cleaner)
        (fun state label => ¬ FreesEmptySlot state.memory (state.process label.1))
        (initial P limit zeroed) labels := by
  obtain ⟨_, exact_iff⟩ := deficit_run (invariant_initial zeroed) run
  rw [← exact_iff, deficit_initial, deficit_of_idle idle]
  omega

end System

/-- An entry is stored and freed again. -/
def storeAndFreeRun : List (Unit × Action 1 ℕ) :=
  [((), .openForWriting (1, 2)), ((), .proceed), ((), .proceed), ((), .proceed), ((), .proceed),
    ((), .closeForWriting (Fin.last 0) false), ((), .proceed), ((), .free (Fin.last 0)), ((),
      .proceed), ((), .proceed),
    ((), .proceed), ((), .proceed), ((), .proceed), ((), .proceed)]

theorem entryCount_storeAndFree :
    ∃ system, exec (next Nat.one_pos none) (initial Unit 1 0) storeAndFreeRun = some system ∧
      entryCount system.memory = 0 ∧
      Allowed (next Nat.one_pos none)
        (fun state label => ¬ FreesEmptySlot state.memory (state.process label.1))
        (initial Unit 1 0) storeAndFreeRun := by
  refine ⟨_, rfl, rfl, ?_⟩
  have run : exec (next Nat.one_pos none) (initial Unit 1 0) storeAndFreeRun = some _ := rfl
  exact (entryCount_eq_iff run (fun _ => rfl)).mp rfl

/-- `free` of a slot that was never used. -/
def freeUnusedRun : List (Unit × Action 1 ℕ) :=
  [((), .free (Fin.last 0)), ((), .proceed), ((), .proceed), ((), .proceed), ((), .proceed),
    ((), .proceed),
    ((), .proceed)]

theorem entryCount_freeUnused :
    ¬ ∀ system : System Unit 1 ℕ,
      Reachable (next Nat.one_pos none) (initial Unit 1 0) system →
        (∀ p, (system.process p).pc = none) →
          entryCount system.memory = usedSlots system.memory := by
  intro counts
  have wrong := counts _ ⟨freeUnusedRun, rfl⟩ (fun _ => rfl)
  exact absurd wrong (by decide)

end StoreMap
end Ipc
end Squid
