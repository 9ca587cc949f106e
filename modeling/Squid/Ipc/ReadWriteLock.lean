import Squid.Library.Interleaving

/-!
# `Ipc::ReadWriteLock`

The lock of `src/ipc/ReadWriteLock.cc` consists of two atomic words.  Every atomic access of
`lockShared`, `lockExclusive`, `unlockShared`, `unlockExclusive` and `switchExclusiveToShared` is
one step of the process that makes it; a process between two steps of one call is identified by
its program counter.  Failed attempts are visible to the other processes until they are undone.
-/

namespace Squid
namespace Ipc

open Interleaving LabelledRun Function

/-- The shared words of one lock; `Atomic::Word` is an `int` without a race on it. -/
structure ReadWriteLock where
  /-- Number of users trying to read. -/
  readers : ℤ := 0
  /-- Number of writers trying to modify protected data. -/
  writers : ℤ := 0

namespace ReadWriteLock

/-- Position of a process inside a lock call. -/
inductive Pc
  /-- Between calls. -/
  | idle
  /-- `lockShared` after `++readers`, before the test of `writers`. -/
  | lockSharedTest
  /-- `lockShared` before `--readers`. -/
  | lockSharedUndo
  /-- `lockExclusive` as the first writer, before the test of `readers`. -/
  | lockExclusiveTest
  /-- `lockExclusive` before `--writers`. -/
  | lockExclusiveUndo
  /-- `switchExclusiveToShared` after `++readers`, before `unlockExclusive`. -/
  | switchUnlock
  deriving DecidableEq

/-- Private state of a process: its position and the locks it was granted and still holds. -/
structure Process where
  /-- Position inside the current call. -/
  pc : Pc := .idle
  /-- Number of shared locks held. -/
  shared : ℕ := 0
  /-- Whether the exclusive lock is held. -/
  exclusive : Bool := false

/-- The steps a process may take: enter a call, or proceed with the current one. -/
inductive Action
  | lockShared
  | lockExclusive
  | unlockShared
  | unlockExclusive
  | switchExclusiveToShared
  | proceed

/-- The next atomic access of the call in progress. -/
def proceed (lock : ReadWriteLock) (own : Process) : Option (ReadWriteLock × Process) :=
  match own.pc with
  | .idle => none
  | .lockSharedTest =>
      if lock.writers = 0 then
        some (lock, { own with pc := .idle, shared := own.shared + 1 })
      else
        some (lock, { own with pc := .lockSharedUndo })
  | .lockSharedUndo =>
      some ({ lock with readers := lock.readers - 1 }, { own with pc := .idle })
  | .lockExclusiveTest =>
      if lock.readers = 0 then
        some (lock, { own with pc := .idle, exclusive := true })
      else
        some (lock, { own with pc := .lockExclusiveUndo })
  | .lockExclusiveUndo =>
      some ({ lock with writers := lock.writers - 1 }, { own with pc := .idle })
  | .switchUnlock =>
      some ({ lock with writers := lock.writers - 1 },
        { pc := .idle, shared := own.shared + 1, exclusive := false })

/-- One atomic step of one process.  A process unlocks or switches only what it holds. -/
def localStep (lock : ReadWriteLock) (own : Process) :
    Action → Option (ReadWriteLock × Process)
  | .proceed => lock.proceed own
  | .lockShared =>
      if own.pc = .idle then
        some ({ lock with readers := lock.readers + 1 }, { own with pc := .lockSharedTest })
      else
        none
  | .lockExclusive =>
      if own.pc = .idle then
        some ({ lock with writers := lock.writers + 1 },
          { own with
            pc := if lock.writers = 0 then .lockExclusiveTest else .lockExclusiveUndo })
      else
        none
  | .unlockShared =>
      if own.pc = .idle ∧ 0 < own.shared then
        some ({ lock with readers := lock.readers - 1 }, { own with shared := own.shared - 1 })
      else
        none
  | .unlockExclusive =>
      if own.pc = .idle ∧ own.exclusive = true then
        some ({ lock with writers := lock.writers - 1 }, { own with exclusive := false })
      else
        none
  | .switchExclusiveToShared =>
      if own.pc = .idle ∧ own.exclusive = true then
        some ({ lock with readers := lock.readers + 1 }, { own with pc := .switchUnlock })
      else
        none

/-- The `assert` evaluated by a step, `True` for the steps that evaluate none. -/
def Asserts (lock : ReadWriteLock) (own : Process) : Action → Prop
  | .unlockShared => 0 < lock.readers
  | .unlockExclusive => 0 < lock.writers
  | .proceed => own.pc = .switchUnlock → 0 < lock.writers
  | .lockShared | .lockExclusive | .switchExclusiveToShared => True

/-- A lock in shared memory and the processes that use it. -/
abbrev System (P : Type*) := Interleaving.State P ReadWriteLock Process

/-- Zero-initialised shared memory and processes that hold nothing. -/
def initial (P : Type*) : System P where
  memory := {}
  process _ := {}

/-- One step of one of the processes. -/
def next {P : Type*} [DecidableEq P] (system : System P) (label : P × Action) :
    Option (System P) :=
  interleave localStep system label

/-! ## What one step can do -/

/-- Share of `readers` that a process accounts for. -/
def readerUnits (own : Process) : ℤ :=
  own.shared + match own.pc with
    | .lockSharedTest | .lockSharedUndo | .switchUnlock => 1
    | .idle | .lockExclusiveTest | .lockExclusiveUndo => 0

/-- Share of `writers` that a process accounts for. -/
def writerUnits (own : Process) : ℤ :=
  (if own.exclusive then 1 else 0) + match own.pc with
    | .lockExclusiveTest | .lockExclusiveUndo => 1
    | .idle | .lockSharedTest | .lockSharedUndo | .switchUnlock => 0

/-- The process won the race for `writers`: it holds the exclusive lock or is about to. -/
def Claims (own : Process) : Prop :=
  own.exclusive = true ∨ own.pc = .lockExclusiveTest

/-- Relation between the position of a process and the exclusive lock. -/
structure Coherent (own : Process) : Prop where
  /-- Only the holder of the exclusive lock switches. -/
  switching : own.pc = .switchUnlock → own.exclusive = true
  /-- A first writer does not hold the exclusive lock yet. -/
  testing : own.pc = .lockExclusiveTest → own.exclusive = false

theorem readerUnits_nonneg (own : Process) : 0 ≤ readerUnits own := by
  unfold readerUnits
  split <;> omega

theorem writerUnits_nonneg (own : Process) : 0 ≤ writerUnits own := by
  unfold writerUnits
  split <;> split <;> omega

theorem shared_le_readerUnits (own : Process) : own.shared ≤ readerUnits own := by
  unfold readerUnits
  split <;> omega

variable {own : Process}

theorem writerUnits_pos (claims : Claims own) : 0 < writerUnits own := by
  unfold writerUnits
  rcases claims with held | testing
  · simp only [held, if_true]
    split <;> omega
  · simp only [testing]
    split <;> omega

/-- Everything the proofs below use about one atomic step of one process. -/
structure Effect (lock : ReadWriteLock) (own : Process) (lock' : ReadWriteLock)
    (own' : Process) : Prop where
  /-- `readers` follows the share of the process. -/
  readers : lock'.readers = lock.readers + (readerUnits own' - readerUnits own)
  /-- `writers` follows the share of the process. -/
  writers : lock'.writers = lock.writers + (writerUnits own' - writerUnits own)
  /-- The position stays coherent. -/
  coherent : Coherent own'
  /-- The race for `writers` is won only where `writers` is zero. -/
  claims : Claims own' → Claims own ∨ lock.writers = 0
  /-- The exclusive lock is granted only to the first writer and only without readers. -/
  exclusive : own'.exclusive = true →
    own.exclusive = true ∨ (Claims own ∧ lock.readers = 0 ∧ own'.shared = own.shared)
  /-- A shared lock is granted without writers or in exchange for the exclusive lock. -/
  shared : own'.shared ≤ own.shared ∨ lock.writers = 0 ∨
    (own.exclusive = true ∧ own'.exclusive = false)

theorem coherent_of_ne (not_switching : own.pc ≠ .switchUnlock)
    (not_testing : own.pc ≠ .lockExclusiveTest) : Coherent own :=
  ⟨fun switching => absurd switching not_switching, fun testing => absurd testing not_testing⟩

variable {lock lock' : ReadWriteLock} {own' : Process}

theorem proceed_effect (coherent : Coherent own) (step : lock.proceed own = some (lock', own')) :
    Effect lock own lock' own' := by
  obtain ⟨pc, shared, exclusive⟩ := own
  obtain ⟨switching, testing⟩ := coherent
  cases pc with
  | idle => simp [proceed] at step
  | lockSharedTest =>
      simp only [proceed] at step
      split at step <;> rename_i free <;> cases step <;>
        constructor <;> simp_all [readerUnits, writerUnits, Claims, coherent_of_ne]
  | lockSharedUndo =>
      cases step
      constructor <;> simp_all [readerUnits, writerUnits, Claims, coherent_of_ne]
      omega
  | lockExclusiveTest =>
      simp only [proceed] at step
      split at step <;> rename_i free <;> cases step <;>
        constructor <;> simp_all [readerUnits, writerUnits, Claims, coherent_of_ne]
  | lockExclusiveUndo | switchUnlock =>
      cases step
      constructor <;> simp_all [readerUnits, writerUnits, Claims, coherent_of_ne]
      omega

/-- The effect of any step of a process whose share is covered by `writers`. -/
theorem localStep_effect {action : Action} (coherent : Coherent own)
    (covered : writerUnits own ≤ lock.writers)
    (step : localStep lock own action = some (lock', own')) : Effect lock own lock' own' := by
  cases action with
  | proceed => exact proceed_effect coherent step
  | lockShared =>
      simp only [localStep, Option.ite_none_right_eq_some] at step
      obtain ⟨idle, moved⟩ := step
      cases moved
      constructor <;> simp_all [readerUnits, writerUnits, Claims, coherent_of_ne]
  | lockExclusive =>
      simp only [localStep, Option.ite_none_right_eq_some] at step
      obtain ⟨idle, moved⟩ := step
      cases moved
      by_cases first : lock.writers = 0
      · have free : own.exclusive = false := by
          by_contra held
          have := writerUnits_pos (Or.inl (by simpa using held) : Claims own)
          omega
        constructor <;> simp_all [readerUnits, writerUnits, Claims]
        exact ⟨by simp, fun _ => rfl⟩
      · constructor <;> simp_all [readerUnits, writerUnits, Claims, coherent_of_ne]
  | unlockShared | unlockExclusive =>
      simp only [localStep, Option.ite_none_right_eq_some] at step
      obtain ⟨⟨idle, held⟩, moved⟩ := step
      cases moved
      constructor <;> simp_all [readerUnits, writerUnits, Claims, coherent_of_ne]
      omega
  | switchExclusiveToShared =>
      simp only [localStep, Option.ite_none_right_eq_some] at step
      obtain ⟨⟨idle, held⟩, moved⟩ := step
      cases moved
      constructor <;> simp_all [readerUnits, writerUnits, Claims]
      exact ⟨fun _ => rfl, by simp⟩

/-! ## Mutual exclusion in every reachable state -/

section Exclusion

variable {P : Type*} [Fintype P]

/-- The invariant that ties the two words to the positions and holdings of all processes. -/
structure Invariant (system : System P) : Prop where
  /-- `readers` is the total of the processes' shares. -/
  readers_eq : system.memory.readers = ∑ p, readerUnits (system.process p)
  /-- `writers` is the total of the processes' shares. -/
  writers_eq : system.memory.writers = ∑ p, writerUnits (system.process p)
  /-- Every position is coherent. -/
  coherent : ∀ p, Coherent (system.process p)
  /-- At most one process won the race for `writers`. -/
  claimant_unique : ∀ p q, Claims (system.process p) → Claims (system.process q) → p = q
  /-- Nobody holds a shared lock next to the exclusive one. -/
  excluded : ∀ p q, (system.process p).exclusive = true → (system.process q).shared = 0

theorem invariant_initial : Invariant (initial P) := by
  constructor <;> simp [initial, readerUnits, writerUnits, Claims, coherent_of_ne]

variable {system : System P}

theorem Invariant.writerUnits_le (inv : Invariant system) (p : P) :
    writerUnits (system.process p) ≤ system.memory.writers := by
  rw [inv.writers_eq]
  exact weight_le_sum writerUnits_nonneg system.process p

theorem Invariant.readerUnits_le (inv : Invariant system) (p : P) :
    readerUnits (system.process p) ≤ system.memory.readers := by
  rw [inv.readers_eq]
  exact weight_le_sum readerUnits_nonneg system.process p

theorem Invariant.not_claims (inv : Invariant system) (free : system.memory.writers = 0) (p : P) :
    ¬ Claims (system.process p) := by
  intro claims
  have positive := writerUnits_pos claims
  have covered := inv.writerUnits_le p
  omega

theorem Invariant.shared_eq_zero (inv : Invariant system) (free : system.memory.readers = 0)
    (p : P) : (system.process p).shared = 0 := by
  have covered := inv.readerUnits_le p
  have share := shared_le_readerUnits (system.process p)
  omega

theorem invariant_step [DecidableEq P] {before after : System P} {label : P × Action}
    (inv : Invariant before) (step : next before label = some after) : Invariant after := by
  obtain ⟨p, action⟩ := label
  obtain ⟨lock, own, local_step, rfl⟩ := interleave_eq_some.mp step
  have effect := localStep_effect (inv.coherent p) (inv.writerUnits_le p) local_step
  constructor
  · rw [sum_update, effect.readers, inv.readers_eq]
  · rw [sum_update, effect.writers, inv.writers_eq]
  · intro q
    by_cases same : q = p
    · subst same
      simpa using effect.coherent
    · simpa [same] using inv.coherent q
  · -- a claim is either old, or made where `writers` is zero and nobody else claims
    have other : ∀ q, q ≠ p → Claims own → ¬ Claims (before.process q) := by
      intro q different claims theirs
      rcases effect.claims claims with mine | free
      · exact different (inv.claimant_unique q p theirs mine)
      · exact inv.not_claims free q theirs
    intro q r qClaims rClaims
    by_cases qp : q = p <;> by_cases rp : r = p
    · rw [qp, rp]
    · subst qp
      simp only [update_self, update_of_ne rp] at qClaims rClaims
      exact absurd rClaims (other r rp qClaims)
    · subst rp
      simp only [update_self, update_of_ne qp] at qClaims rClaims
      exact absurd qClaims (other q qp rClaims)
    · simp only [update_of_ne qp, update_of_ne rp] at qClaims rClaims
      exact inv.claimant_unique q r qClaims rClaims
  · intro q r
    by_cases qp : q = p <;> by_cases rp : r = p
    · rw [qp, rp]
      simp only [update_self]
      intro held
      rcases effect.exclusive held with mine | ⟨_, free, same⟩
      · rcases effect.shared with less | unwritten | ⟨_, released⟩
        · have none_held := inv.excluded p p mine
          omega
        · exact absurd (Or.inl mine) (inv.not_claims unwritten p)
        · simp [released] at held
      · rw [same]
        exact inv.shared_eq_zero free p
    · subst qp
      simp only [update_self, update_of_ne rp]
      intro held
      rcases effect.exclusive held with mine | ⟨_, free, _⟩
      · exact inv.excluded q r mine
      · exact inv.shared_eq_zero free r
    · subst rp
      simp only [update_self, update_of_ne qp]
      intro held
      rcases effect.shared with less | unwritten | ⟨mine, _⟩
      · have none_held := inv.excluded q r held
        omega
      · exact absurd (Or.inl held) (inv.not_claims unwritten q)
      · exact absurd (inv.claimant_unique q r (Or.inl held) (Or.inl mine)) qp
    · simp only [update_of_ne qp, update_of_ne rp]
      exact inv.excluded q r

theorem invariant_reachable [DecidableEq P] (reach : Reachable next (initial P) system) :
    Invariant system :=
  reach.invariant invariant_step invariant_initial

/-- Under the invariant no step of any process trips an `assert`. -/
theorem Invariant.asserts (inv : Invariant system) (p : P) (action : Action) (lock : ReadWriteLock)
    (own : Process) (step : localStep system.memory (system.process p) action = some (lock, own)) :
    Asserts system.memory (system.process p) action := by
  have writer_covered := inv.writerUnits_le p
  have reader_covered := inv.readerUnits_le p
  have reader_share := shared_le_readerUnits (system.process p)
  cases action with
  | lockShared => trivial
  | lockExclusive => trivial
  | switchExclusiveToShared => trivial
  | unlockShared =>
      simp only [localStep, Option.ite_none_right_eq_some] at step
      obtain ⟨⟨_, held⟩, _⟩ := step
      simp only [Asserts]
      omega
  | unlockExclusive =>
      simp only [localStep, Option.ite_none_right_eq_some] at step
      obtain ⟨⟨_, held⟩, _⟩ := step
      have positive := writerUnits_pos (Or.inl held)
      simp only [Asserts]
      omega
  | proceed =>
      intro switching
      have positive := writerUnits_pos (Or.inl ((inv.coherent p).switching switching))
      omega

/-- The words stay within an `int` for as long as the locks held and the processes that try to
get one are fewer than `2 ^ 31`: each word counts nothing else. -/
theorem words_bounded [DecidableEq P] {system : System P}
    (reach : Reachable next (initial P) system) :
    (0 ≤ system.memory.readers ∧
      system.memory.readers ≤ ∑ p, ((system.process p).shared + 1 : ℤ)) ∧
    (0 ≤ system.memory.writers ∧ system.memory.writers ≤ ∑ _p : P, (2 : ℤ)) := by
  have inv := invariant_reachable reach
  rw [inv.readers_eq, inv.writers_eq]
  refine ⟨⟨Finset.sum_nonneg fun p _ => readerUnits_nonneg _, ?_⟩,
    ⟨Finset.sum_nonneg fun p _ => writerUnits_nonneg _, ?_⟩⟩
  · apply Finset.sum_le_sum
    intro p _
    unfold readerUnits
    split <;> omega
  · apply Finset.sum_le_sum
    intro p _
    unfold writerUnits
    split <;> split <;> omega

theorem Invariant.writers_eq_zero_iff (inv : Invariant system)
    (quiet : ∀ p, (system.process p).pc = .idle) :
    system.memory.writers = 0 ↔ ∀ p, (system.process p).exclusive = false := by
  rw [inv.writers_eq, Finset.sum_eq_zero_iff_of_nonneg fun p _ => writerUnits_nonneg _]
  refine ⟨fun all p => ?_, fun all p _ => by simp [writerUnits, quiet p, all p]⟩
  simpa [writerUnits, quiet p] using all p (Finset.mem_univ p)

theorem Invariant.readers_eq_zero_iff (inv : Invariant system)
    (quiet : ∀ p, (system.process p).pc = .idle) :
    system.memory.readers = 0 ↔ ∀ p, (system.process p).shared = 0 := by
  rw [inv.readers_eq, Finset.sum_eq_zero_iff_of_nonneg fun p _ => readerUnits_nonneg _]
  refine ⟨fun all p => ?_, fun all p _ => by simp [readerUnits, quiet p, all p]⟩
  simpa [readerUnits, quiet p] using all p (Finset.mem_univ p)

/-- No lock is lost: in every reachable state in which no call is in progress, an attempt to get a
lock succeeds if and only if the locks that are still held allow it. -/
theorem granted_iff_compatible [DecidableEq P] {system : System P}
    (reach : Reachable next (initial P) system)
    (quiet : ∀ p, (system.process p).pc = .idle) (p : P) :
    (∃ after, exec next system [(p, .lockShared), (p, .proceed)] = some after ∧
      ((after.process p).shared = (system.process p).shared + 1 ↔
        ∀ q, (system.process q).exclusive = false)) ∧
    ∃ after, exec next system [(p, .lockExclusive), (p, .proceed)] = some after ∧
      ((system.process p).exclusive = false → ((after.process p).exclusive = true ↔
        ∀ q, (system.process q).exclusive = false ∧ (system.process q).shared = 0)) := by
  have inv := invariant_reachable reach
  have idle := quiet p
  constructor
  · rw [← inv.writers_eq_zero_iff quiet]
    by_cases free : system.memory.writers = 0
    · refine ⟨_, by simp [exec_cons, next, interleave, localStep, proceed, idle, free]; rfl, ?_⟩
      simp [free]
    · refine ⟨_, by simp [exec_cons, next, interleave, localStep, proceed, idle, free]; rfl, ?_⟩
      simp [free]
  · rw [forall_and, ← inv.writers_eq_zero_iff quiet, ← inv.readers_eq_zero_iff quiet]
    by_cases free : system.memory.writers = 0 ∧ system.memory.readers = 0
    · refine ⟨_, by simp [exec_cons, next, interleave, localStep, proceed, idle, free]; rfl, ?_⟩
      simp [free]
    · by_cases first : system.memory.writers = 0
      · have read : system.memory.readers ≠ 0 := fun none => free ⟨first, none⟩
        refine ⟨_, by
          simp [exec_cons, next, interleave, localStep, proceed, idle, first, read]; rfl, ?_⟩
        simp [read]
      · refine ⟨_, by simp [exec_cons, next, interleave, localStep, proceed, idle, first]; rfl, ?_⟩
        simp [first]

/-- `Ipc::ReadWriteLock` gives mutual exclusion: whatever the number of processes and the
interleaving of their atomic steps, no process holds the exclusive lock while another holds it
exclusively or shared, and no assertion of `unlockShared` and `unlockExclusive` fails. -/
theorem mutual_exclusion [DecidableEq P] {system : System P}
    (reach : Reachable next (initial P) system) :
    (∀ p q, p ≠ q → (system.process p).exclusive = true →
      (system.process q).exclusive = false ∧ (system.process q).shared = 0) ∧
    (∀ p action, (next system (p, action)).isSome →
      Asserts system.memory (system.process p) action) := by
  have inv := invariant_reachable reach
  constructor
  · intro p q different held
    refine ⟨?_, inv.excluded p q held⟩
    by_contra theirs
    exact different (inv.claimant_unique p q (Or.inl held) (Or.inl (by simpa using theirs)))
  · intro p action enabled
    obtain ⟨after, step⟩ := Option.isSome_iff_exists.mp enabled
    obtain ⟨lock, own, local_step, _⟩ := interleave_eq_some.mp step
    exact inv.asserts p action lock own local_step

/-- A reader that meets the holder of the exclusive lock has to undo its attempt. -/
def contendedRun : List (Fin 2 × Action) :=
  [(0, .lockExclusive), (0, .proceed), (1, .lockShared), (1, .proceed)]

theorem mutual_exclusion_contended :
    ∃ system : System (Fin 2), exec next (initial (Fin 2)) contendedRun = some system ∧
      (system.process 0).exclusive = true ∧ (system.process 1).pc = .lockSharedUndo ∧
      (system.process 1).exclusive = false ∧ (system.process 1).shared = 0 := by
  refine ⟨_, rfl, rfl, rfl, ?_⟩
  exact (mutual_exclusion ⟨contendedRun, rfl⟩).1 0 1 (by decide) rfl

theorem words_bounded_contended :
    ∃ system : System (Fin 2), exec next (initial (Fin 2)) contendedRun = some system ∧
      system.memory.readers ≤ 2 := by
  refine ⟨_, rfl, ?_⟩
  exact (words_bounded (P := Fin 2) ⟨contendedRun, rfl⟩).1.2

/-- Once the reader has given up, the lock can still not be shared. -/
theorem granted_iff_compatible_contended :
    ∃ system after : System (Fin 2),
      exec next (initial (Fin 2)) (contendedRun ++ [(1, .proceed)]) = some system ∧
      exec next system [(1, .lockShared), (1, .proceed)] = some after ∧
      (after.process 1).shared ≠ (system.process 1).shared + 1 := by
  obtain ⟨after, run, granted⟩ :=
    (granted_iff_compatible (P := Fin 2) ⟨contendedRun ++ [(1, .proceed)], rfl⟩ (by decide) 1).1
  exact ⟨_, after, rfl, run, fun got => absurd (granted.mp got 0) (by decide)⟩

end Exclusion

end ReadWriteLock
end Ipc
end Squid
