import Squid.Ipc.Queue

/-!
# Wake-ups of `Ipc::OneToOneUniQueue`

A writer samples `wasEmpty` before it stores the item and bumps `theSize`.  A reader that empties
the queue and blocks in between finds nothing to pop, while the writer trusts a sample that is no
longer true and does not notify it.  This file shows that this is the only way to lose a wake-up.
-/

namespace Squid
namespace Ipc
namespace OneToOneUniQueue

open LabelledRun Option

variable {params : Params}

/-- The writer sampled a non-empty queue and has not stored its item yet. -/
def SampledNonEmpty : WriterPc params → Prop
  | .copy _ wasEmpty | .increment _ wasEmpty => wasEmpty = false
  | .idle | .sampleEmpty _ | .testBlocked | .raiseSignal => False

/-- The writer is inside `raiseSignal`. -/
def Raising : WriterPc params → Prop
  | .testBlocked | .raiseSignal => True
  | .idle | .sampleEmpty _ | .copy _ _ | .increment _ _ => False

/-- The reader is inside `clearSignal`, with its notification already received. -/
def clearing : ReaderPc params → ℤ
  | .clearUnblock | .clearSignal => 1
  | .waiting | .testEmpty | .block | .retestEmpty | .unblock | .copy | .decrement _ => 0

/-- The reader gave up on a non-empty queue and nobody is going to wake it. -/
def LostWakeup (state : State params) : Prop :=
  state.lastPop = some false ∧ state.readerPc = .waiting ∧ state.writerPc = .idle ∧
    state.queue.theSize ≠ 0 ∧ state.inFlight = 0

/-- The step on which the wake-up is lost: without a notification on its way, the reader's second
test finds the queue empty while a push relies on having found it non-empty. -/
def StaleRetest (state : State params) : Label params → Prop
  | .reader =>
      state.readerPc = .retestEmpty ∧ state.queue.theSize = 0 ∧ state.reader.popSignal = 0 ∧
        SampledNonEmpty state.writerPc
  | .push _ | .writer | .receive | .poll => False

/-- What every state reached without a stale retest satisfies. -/
structure Wakeful (state : State params) : Prop where
  /-- `popBlocked` is a flag. -/
  blocked_flag : state.reader.popBlocked = 0 ∨ state.reader.popBlocked = 1
  /-- `popSignal` is a flag. -/
  signal_flag : state.reader.popSignal = 0 ∨ state.reader.popSignal = 1
  /-- `popSignal` is set exactly while a notification is in flight or being cleared. -/
  signal_eq : state.reader.popSignal = state.inFlight + clearing state.readerPc
  /-- A waiting reader is blocked, and so is one about to test again. -/
  blocked : state.readerPc = .waiting ∨ state.readerPc = .retestEmpty →
    state.reader.popBlocked = 1
  /-- A waiting reader is notified, or has nothing to pop, or is about to be signalled. -/
  wake : state.readerPc = .waiting →
    state.reader.popSignal = 1 ∨
      (state.queue.theSize = 0 ∧ ¬ SampledNonEmpty state.writerPc) ∨ Raising state.writerPc

theorem wakeful_initial (buffer : ℕ → UInt8) : Wakeful (initial params buffer) := by
  constructor <;> simp [initial, QueueReader.initial, clearing, SampledNonEmpty]

variable {after before : State params}

theorem enterPush_wakeful {value : Value params} (wakeful : Wakeful before)
    (step : enterPush before value = some after) : Wakeful after := by
  cases pc : before.writerPc <;> simp only [enterPush, pc, reduceCtorEq] at step
  split at step <;> cases step
  · exact wakeful
  · refine { wakeful with wake := fun waiting => ?_ }
    simpa [pc, SampledNonEmpty, Raising] using wakeful.wake waiting

theorem writerStep_wakeful (reader_given : params.hasReader = true) (wakeful : Wakeful before)
    (step : writerStep before = some after) : Wakeful after := by
  have wake := wakeful.wake
  cases pc : before.writerPc with
  | idle => simp [writerStep, pc] at step
  | sampleEmpty value =>
      simp only [writerStep, pc, some.injEq] at step
      subst step
      refine { wakeful with wake := fun waiting => ?_ }
      by_cases empty : before.queue.theSize = 0 <;>
        simp_all [SampledNonEmpty, Raising]
  | copy value wasEmpty =>
      simp only [writerStep, pc, some.injEq] at step
      subst step
      rw [pc] at wake
      exact { wakeful with wake }
  | increment value wasEmpty =>
      cases wasEmpty with
      | false =>
          simp only [writerStep, pc, Bool.false_eq_true, if_false, some.injEq] at step
          subst step
          refine { wakeful with wake := fun waiting => ?_ }
          simp_all [SampledNonEmpty, Raising]
      | true =>
          simp only [writerStep, pc, reader_given, if_true, some.injEq] at step
          subst step
          exact { wakeful with wake := fun _ => .inr (.inr trivial) }
  | testBlocked =>
      by_cases isBlocked : before.reader.popBlocked = 1
      · simp only [writerStep, pc, QueueReader.blocked, isBlocked, decide_true, if_true,
          some.injEq] at step
        subst step
        exact { wakeful with wake := fun _ => .inr (.inr trivial) }
      · simp only [writerStep, pc, QueueReader.blocked, isBlocked, decide_false,
          Bool.false_eq_true, if_false, some.injEq] at step
        subst step
        refine { wakeful with wake := fun waiting => ?_ }
        exact absurd (wakeful.blocked (.inl waiting)) isBlocked
  | raiseSignal =>
      have signal_eq := wakeful.signal_eq
      rcases wakeful.signal_flag with unset | set
      · simp only [writerStep, pc, swapIf, unset, if_true, some.injEq] at step
        subst step
        refine ⟨wakeful.blocked_flag, .inr rfl, ?_, wakeful.blocked, fun _ => .inl rfl⟩
        push_cast
        omega
      · simp only [writerStep, pc, swapIf, set, Int.one_ne_zero, if_false, Bool.false_eq_true,
          some.injEq] at step
        subst step
        exact ⟨wakeful.blocked_flag, .inr rfl, set.symm.trans signal_eq, wakeful.blocked,
          fun _ => .inl rfl⟩

theorem readerStep_wakeful (reader_given : params.hasReader = true) (wakeful : Wakeful before)
    (fresh : ¬ StaleRetest before .reader) (step : readerStep before = some after) :
    Wakeful after := by
  obtain ⟨blocked_flag, signal_flag, signal_eq, blocked, wake⟩ := wakeful
  cases pc : before.readerPc with
  | waiting => simp [readerStep, pc] at step
  | clearUnblock =>
      simp only [readerStep, pc, some.injEq] at step
      subst step
      rcases blocked_flag with flag | flag <;>
        constructor <;> simp_all [QueueReader.unblock, swapIf, clearing]
  | clearSignal =>
      simp only [readerStep, pc, some.injEq] at step
      subst step
      rw [pc] at signal_eq
      -- the received notification was the only one, and `popSignal` is still set for it
      have set : before.reader.popSignal = 1 := by
        simp only [clearing] at signal_eq
        omega
      have alone : (before.inFlight : ℤ) = 0 := by
        simp only [clearing] at signal_eq
        omega
      constructor <;> simp [swapIf, set, clearing, alone, blocked_flag]
  | testEmpty =>
      simp only [readerStep, pc, reader_given, if_true] at step
      split at step <;> cases step <;> constructor <;> simp_all [clearing]
  | block =>
      simp only [readerStep, pc, some.injEq] at step
      subst step
      rcases blocked_flag with flag | flag <;>
        constructor <;> simp_all [QueueReader.block, swapIf, clearing]
  | retestEmpty =>
      simp only [readerStep, pc] at step
      split at step <;> rename_i empty <;> cases step
      · rw [pc] at signal_eq
        refine ⟨blocked_flag, signal_flag, signal_eq, fun _ => blocked (.inr pc), fun _ => ?_⟩
        rcases signal_flag with unset | set
        · exact .inr (.inl ⟨empty, fun sampled => fresh ⟨pc, empty, unset, sampled⟩⟩)
        · exact .inl set
      · constructor <;> simp_all [clearing]
  | unblock =>
      simp only [readerStep, pc, some.injEq] at step
      subst step
      rcases blocked_flag with flag | flag <;>
        constructor <;> simp_all [QueueReader.unblock, swapIf, clearing]
  | copy | decrement value =>
      simp only [readerStep, pc, some.injEq] at step
      subst step
      constructor <;> simp_all [clearing]

theorem next_wakeful (reader_given : params.hasReader = true) {label : Label params}
    (wakeful : Wakeful before) (fresh : ¬ StaleRetest before label)
    (step : next before label = some after) : Wakeful after := by
  cases label with
  | push value => exact enterPush_wakeful wakeful step
  | writer => exact writerStep_wakeful reader_given wakeful step
  | reader => exact readerStep_wakeful reader_given wakeful fresh step
  | receive =>
      obtain ⟨blocked_flag, signal_flag, signal_eq, blocked, wake⟩ := wakeful
      simp only [next] at step
      split at step
      · rename_i inFlight pc count
        cases step
        constructor <;> simp_all [clearing]
      · cases step
  | poll =>
      obtain ⟨blocked_flag, signal_flag, signal_eq, blocked, wake⟩ := wakeful
      simp only [next] at step
      split at step
      · rename_i pc
        cases step
        constructor <;> simp_all [clearing]
      · cases step

variable {state : State params}

/-- A waiting reader with something to pop has a notification in flight once no push is in
progress. -/
theorem Wakeful.notified (wakeful : Wakeful state) (waiting : state.readerPc = .waiting)
    (idle : state.writerPc = .idle) (nonempty : state.queue.theSize ≠ 0) : 0 < state.inFlight := by
  have signal_eq := wakeful.signal_eq
  rw [waiting] at signal_eq
  simp only [clearing] at signal_eq
  rcases wakeful.wake waiting with set | ⟨empty, _⟩ | raising
  · omega
  · exact absurd empty nonempty
  · rw [idle] at raising
    exact raising.elim

/-- After a stale retest the writer's own next steps complete a lost wake-up. -/
theorem lostWakeup_of_staleRetest (wakeful : Wakeful state) (stale : StaleRetest state .reader) :
    ∃ labels lost, exec next state (.reader :: labels) = some lost ∧ LostWakeup lost := by
  obtain ⟨pc, empty, unset, sampled⟩ := stale
  have silent : state.inFlight = 0 := by
    have signal_eq := wakeful.signal_eq
    rw [pc, unset] at signal_eq
    simp only [clearing] at signal_eq
    omega
  cases writer : state.writerPc <;> rw [writer] at sampled <;> try exact sampled.elim
  case copy value wasEmpty =>
    cases sampled
    refine ⟨[.writer, .writer], ?_⟩
    simp [exec, next, readerStep, writerStep, pc, empty, writer, LostWakeup, silent]
  case increment value wasEmpty =>
    cases sampled
    refine ⟨[.writer], ?_⟩
    simp [exec, next, readerStep, writerStep, pc, empty, writer, LostWakeup, silent]

/-- `Ipc::OneToOneUniQueue` loses no wake-up in any run without a stale retest: whenever the
reader's last `pop` returned false, the reader waits, no push is in progress and the queue is not
empty, a notification is in flight.  A stale retest that is about to happen can always be
completed to a lost wake-up, so the condition cannot be dropped for any of them. -/
theorem notified_without_staleRetest (reader_given : params.hasReader = true)
    (buffer : ℕ → UInt8) (labels : List (Label params)) (state : State params)
    (fresh : Allowed next (fun before label => ¬ StaleRetest before label)
      (initial params buffer) labels)
    (run : exec next (initial params buffer) labels = some state) :
    (state.lastPop = some false → state.readerPc = .waiting → state.writerPc = .idle →
      state.queue.theSize ≠ 0 → 0 < state.inFlight) ∧
    (StaleRetest state .reader →
      ∃ more lost, exec next state (.reader :: more) = some lost ∧ LostWakeup lost) := by
  have wakeful : Wakeful state :=
    invariant_of_allowed (fun inv allowed step => next_wakeful reader_given inv allowed step)
      (wakeful_initial buffer) fresh run
  exact ⟨fun _ => wakeful.notified, lostWakeup_of_staleRetest wakeful⟩

/-- A queue of single bytes with the capacity that `IpcIoFile` uses. -/
def byteQueue : Params := .ofBytes 1024 (by decide) (by decide)

/-- The reader finds the queue empty, then one item is pushed. -/
def oneItemRun : List (Label byteQueue) :=
  [.poll, .reader, .reader, .reader, .push fun _ => 1, .writer, .writer, .writer, .writer, .writer]

theorem notified_oneItemRun :
    ∃ state, exec next (initial byteQueue fun _ => 0) oneItemRun = some state ∧
      state.queue.theSize = 1 ∧ 0 < state.inFlight := by
  have fresh : Allowed next (fun before label => ¬ StaleRetest before label)
      (initial byteQueue fun _ => 0) oneItemRun := by
    repeat' refine Allowed.cons ?_ rfl ?_
    all_goals simp [StaleRetest, SampledNonEmpty, Allowed, initial]
  refine ⟨_, rfl, by decide, ?_⟩
  exact (notified_without_staleRetest rfl _ oneItemRun _ fresh rfl).1 rfl rfl rfl (by decide)

/-- The second push samples `theSize` before the first `pop` decrements it, and bumps `theSize`
after the second `pop` has tested it twice. -/
def lostWakeupRun : List (Label byteQueue) :=
  oneItemRun ++
    [.receive, .reader, .reader, .reader, .reader, .reader, .push fun _ => 2, .writer,
      .reader, .reader, .reader, .reader, .writer, .writer]

/-- A wake-up is lost on a queue of capacity 1024 with two pushes. -/
theorem lostWakeup_reachable :
    ∃ state, exec next (initial byteQueue fun _ => 0) lostWakeupRun = some state ∧
      LostWakeup state := by
  refine ⟨_, rfl, rfl, rfl, rfl, ?_, rfl⟩
  decide

end OneToOneUniQueue
end Ipc
end Squid
