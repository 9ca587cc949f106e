import Squid.Store.UFSStoreState

/-!
# Runs of a swap file

Between two events a swap file is being created with its writes queued, or open with its queue
empty, or closed and reported to the core.  Every handler keeps this, with one exception: when the
last write in progress completes and the file has its error state set, `writeCompleted` closes the
file and then goes on to use it.
-/

namespace Squid

namespace UFSStoreState

variable {s after : UFSStoreState} {outcomes : List (Option WriteOutcome)}

/-- The file is in use: nothing was reported yet and every buffer is accounted for. -/
structure Live (s : UFSStoreState) : Prop where
  theFile : s.theFile = true
  callback : s.callback = true
  silent : s.callbacks = []
  closing : s.closing = false
  count : s.file.inProgressIOs = s.file.writes.length + if s.creating then 1 else 0
  account : s.passed.Perm (s.freed ++ (s.pending_writes ++ s.file.writes))

/-- The file was closed and reported once, and every buffer was freed. -/
structure Closed (s : UFSStoreState) : Prop where
  theFile : s.theFile = false
  report : s.callbacks = [if s.file.errorOccured then -1 else 0]
  callback : s.callback = false
  pending : s.pending_writes = []
  writes : s.file.writes = []
  progress : s.file.inProgressIOs = 0
  creating : s.creating = false
  try_closing : s.try_closing = false
  account : s.passed.Perm s.freed

/-- The file is open and the core may write to it. -/
structure Ready (s : UFSStoreState) : Prop extends Live s where
  isOpen : s.file.isOpen = true
  creating : s.creating = false

/-- The file is being created; writes are queued. -/
structure Creating (s : UFSStoreState) : Prop extends Live s where
  creating : s.creating = true
  isOpen : s.file.isOpen = false
  errorOccured : s.file.errorOccured = false
  writes : s.file.writes = []

/-- The file is open and its queue empty, or it was closed. -/
def Settled (s : UFSStoreState) : Prop := (Ready s ∧ s.pending_writes = []) ∨ Closed s

/-- The states between two events. -/
structure Resting (s : UFSStoreState) : Prop where
  draining : s.write_draining = false
  phase : Creating s ∨ Settled s

@[simp]
theorem deref_of_live (live : Live s) : s.deref = .ok s.file := by
  simp [deref, live.theFile]

/-- Closing is put off while an I/O is in progress. -/
theorem tryClosing_busy (live : Live s) (busy : 0 < s.file.inProgressIOs) :
    s.tryClosing = .ok { s with try_closing := true } := by
  simp [tryClosing, deref_of_live live, Except.bind, busy]

/-- Closing an idle file reports to the core at once. -/
theorem tryClosing_idle (live : Live s) (idle : s.file.inProgressIOs = 0) :
    ∃ after, s.tryClosing = .ok after ∧ Closed after ∧
      after.write_draining = s.write_draining := by
  have count := live.count
  have none_left : s.file.writes = [] := List.eq_nil_of_length_eq_zero (by omega)
  have not_creating : s.creating = false := by
    cases creating : s.creating
    · rfl
    · simp only [creating, if_true] at count
      omega
  have not_busy : ¬s.file.inProgressIOs > 0 := by omega
  have result : s.tryClosing = closeCompleted { s with
      file := { s.file with isOpen := false }, closing := true, try_closing := false } := by
    rw [tryClosing, deref_of_live live]
    simp only [Except.bind]
    rw [if_neg not_busy, fileClose, if_neg not_busy]
  rw [result, closeCompleted, if_pos rfl, deref, if_pos live.theFile]
  refine ⟨_, rfl, ?_, rfl⟩
  refine ⟨rfl, ?_, rfl, rfl, none_left, idle, not_creating, rfl, ?_⟩
  · simp [doCloseCallback, freePending, live.callback, live.silent]
  · have account := live.account
    rw [none_left, List.append_nil] at account
    refine account.trans (List.perm_append_comm.trans ?_)
    exact (List.reverse_perm s.pending_writes).symm.append_right s.freed

section

variable (ready : Ready s)
include ready

/-- Closing keeps a file in use or closes it. -/
theorem tryClosing_spec :
    ∃ after, s.tryClosing = .ok after ∧ after.write_draining = s.write_draining ∧
      ((Ready after ∧ after.pending_writes = s.pending_writes) ∨ Closed after) := by
  rcases Nat.eq_zero_or_pos s.file.inProgressIOs with idle | busy
  · obtain ⟨after, result, closed, same⟩ := tryClosing_idle ready.toLive idle
    exact ⟨after, result, same, Or.inr closed⟩
  · refine ⟨_, tryClosing_busy ready.toLive busy, rfl, Or.inl ⟨?_, rfl⟩⟩
    exact ⟨⟨ready.theFile, ready.callback, ready.silent, ready.closing, ready.count,
      ready.account⟩, ready.isOpen, ready.creating⟩

theorem closeOnError_spec :
    ∃ after, s.closeOnError = .ok after ∧ after.write_draining = s.write_draining ∧
      ((Ready after ∧ after.pending_writes = s.pending_writes) ∨ Closed after) := by
  unfold closeOnError
  rw [deref_of_live ready.toLive]
  cases failed : s.file.errorOccured with
  | true =>
      simp only [Except.bind, failed, if_true]
      exact tryClosing_spec ready
  | false =>
      simp only [Except.bind, failed]
      exact ⟨s, rfl, rfl, Or.inl ⟨ready, rfl⟩⟩

variable {buf : ℕ}

/-- A write in progress moves its buffer to the freed ones when it ends. -/
theorem endWrite_ready {index : ℕ} (here : s.file.writes[index]? = some buf)
    (outcome : WriteOutcome) : Ready (s.endWrite index buf outcome) := by
  obtain ⟨bound, at_index⟩ := List.getElem?_eq_some_iff.mp here
  have perm : s.file.writes.Perm (buf :: s.file.writes.eraseIdx index) := by
    rw [← at_index]
    exact (List.getElem_cons_eraseIdx_perm bound).symm
  refine ⟨⟨ready.theFile, ready.callback, ready.silent, ready.closing, ?_, ?_⟩, ready.isOpen,
    ready.creating⟩
  · have count := ready.count
    have length := perm.length_eq
    simp only [endWrite, List.length_cons, ready.creating] at count length ⊢
    omega
  · refine ready.account.trans ?_
    have moved := (perm.append_left s.pending_writes).append_left s.freed
    refine moved.trans ?_
    simp only [endWrite]
    calc
      (s.freed ++ (s.pending_writes ++ buf :: s.file.writes.eraseIdx index)).Perm
          (s.freed ++ buf :: (s.pending_writes ++ s.file.writes.eraseIdx index)) :=
        List.perm_middle.append_left s.freed
      List.Perm _ (buf :: s.freed ++ (s.pending_writes ++ s.file.writes.eraseIdx index)) :=
        List.perm_middle

variable {rest : List ℕ}

theorem startWrite_ready (first : s.pending_writes = buf :: rest) :
    Ready ({ s with pending_writes := rest }.startWrite buf) := by
  refine ⟨⟨ready.theFile, ready.callback, ready.silent, ready.closing, ?_, ?_⟩, ready.isOpen,
    ready.creating⟩
  · have count := ready.count
    simp only [startWrite, List.length_append, List.length_singleton, ready.creating] at count ⊢
    omega
  · have account := ready.account
    rw [first] at account
    refine account.trans (List.Perm.append_left s.freed ?_)
    calc
      (buf :: (rest ++ s.file.writes)).Perm (rest ++ s.file.writes ++ [buf]) :=
        (List.perm_append_singleton buf _).symm
      List.Perm _ (rest ++ (s.file.writes ++ [buf])) := by rw [List.append_assoc]

/-- Starting one queued write takes it out of the queue, or closes the file. -/
theorem doWrite_spec (first : s.pending_writes = buf :: rest) (outcome : Option WriteOutcome) :
    ∃ after, s.doWrite outcome = .ok after ∧ after.write_draining = s.write_draining ∧
      ((Ready after ∧ after.pending_writes = rest) ∨ Closed after) := by
  unfold doWrite
  rw [deref_of_live ready.toLive]
  simp only [Except.bind, ready.isOpen, if_true, first]
  cases failed : s.file.errorOccured with
  | true =>
      simp only [if_true]
      refine ⟨_, rfl, rfl, Or.inl ⟨⟨⟨ready.theFile, ready.callback, ready.silent, ready.closing,
        ready.count, ?_⟩, ready.isOpen, ready.creating⟩, rfl⟩⟩
      have account := ready.account
      rw [first] at account
      exact account.trans List.perm_middle
  | false =>
      simp only [Bool.false_eq_true, if_false]
      have started := startWrite_ready ready first
      cases outcome with
      | none => exact ⟨_, rfl, rfl, Or.inl ⟨started, rfl⟩⟩
      | some outcome =>
          have last : ({ s with pending_writes := rest }.startWrite buf).file.writes[
              s.file.writes.length]? = some buf := by
            simp [startWrite]
          exact closeOnError_spec (endWrite_ready started last outcome)

/-- The loop of `drainWriteQueue` empties the queue, or closes the file. -/
theorem drainLoop_spec {bound : ℕ} (enough : s.pending_writes.length ≤ bound)
    (outcomes : List (Option WriteOutcome)) :
    ∃ after, drainLoop bound s outcomes = .ok after ∧ after.write_draining = s.write_draining ∧
      ((Ready after ∧ after.pending_writes = []) ∨ Closed after) := by
  induction bound generalizing s outcomes with
  | zero =>
      have empty : s.pending_writes = [] := List.eq_nil_of_length_eq_zero (by omega)
      exact ⟨s, rfl, rfl, Or.inl ⟨ready, empty⟩⟩
  | succ bound ih =>
      unfold drainLoop
      cases queue : s.pending_writes with
      | nil =>
          simp only [if_true]
          exact ⟨s, rfl, rfl, Or.inl ⟨ready, queue⟩⟩
      | cons buf rest =>
          obtain ⟨after, written, draining, state⟩ :=
            doWrite_spec ready queue outcomes.head?.join
          simp only [reduceCtorEq, if_false, written]
          rcases state with ⟨still, left⟩ | closed
          · have fewer : after.pending_writes.length ≤ bound := by
              rw [queue] at enough
              rw [left]
              simpa using enough
            obtain ⟨last, result, same, final⟩ := ih still fewer outcomes.tail
            exact ⟨last, result, same.trans draining, final⟩
          · -- the queue was freed when the file was closed, so that the loop ends
            refine ⟨after, ?_, draining, Or.inr closed⟩
            cases bound with
            | zero => rfl
            | succ bound => simp [drainLoop, closed.pending]

/-- Changes of `write_draining` alone. -/
theorem Ready.setDraining (draining : Bool) : Ready { s with write_draining := draining } :=
  ⟨⟨ready.theFile, ready.callback, ready.silent, ready.closing, ready.count, ready.account⟩,
    ready.isOpen, ready.creating⟩

end

theorem Closed.setDraining (closed : Closed s) (draining : Bool) :
    Closed { s with write_draining := draining } :=
  ⟨closed.theFile, closed.report, closed.callback, closed.pending, closed.writes, closed.progress,
    closed.creating, closed.try_closing, closed.account⟩

/-- A close that was put off is tried again. -/
theorem Settled.retry (settled : Settled s) :
    ∃ after, (if s.try_closing then s.tryClosing else .ok s) = .ok after ∧
      after.write_draining = s.write_draining ∧ Settled after := by
  by_cases waiting : s.try_closing = true
  · rw [if_pos waiting]
    rcases settled with ⟨ready, empty⟩ | closed
    · obtain ⟨after, closing, draining, final⟩ := tryClosing_spec ready
      refine ⟨after, closing, draining, ?_⟩
      rcases final with ⟨still, queue⟩ | closed
      · exact Or.inl ⟨still, queue.trans empty⟩
      · exact Or.inr closed
    · exact absurd waiting (by simp [closed.try_closing])
  · rw [if_neg waiting]
    exact ⟨s, rfl, rfl, settled⟩

/-- Draining an open file settles it. -/
theorem drainWriteQueue_spec (ready : Ready s) (idle : s.write_draining = false)
    (outcomes : List (Option WriteOutcome)) :
    ∃ after, s.drainWriteQueue outcomes = .ok after ∧ after.write_draining = false ∧
      Settled after := by
  unfold drainWriteQueue
  rw [if_neg (by simp [idle]), deref_of_live ready.toLive]
  simp only [Except.bind, ready.isOpen, if_true]
  obtain ⟨drained, result, _, state⟩ :=
    drainLoop_spec (ready.setDraining true) (Nat.le_refl s.pending_writes.length) outcomes
  rw [result]
  have settled : Settled { drained with write_draining := false } := by
    rcases state with ⟨still, empty⟩ | closed
    · exact Or.inl ⟨still.setDraining false, empty⟩
    · exact Or.inr (closed.setDraining false)
  exact settled.retry

/-- What the core and the `DiskFile` may do without the process dying. -/
def Clean (s : UFSStoreState) : Event → Prop
  -- the core drops its reference when the close callback runs
  | .write _ _ => s.theFile = true
  | .close => s.theFile = true
  -- a file with its error state set still has another I/O in progress
  | .writeDone _ outcome _ =>
      ¬((s.file.errorOccured || outcome.setsError) = true ∧ s.file.inProgressIOs = 1)
  | .openDone _ _ => True

theorem openDone_spec (creating : Creating s) (idle : s.write_draining = false) (opened : Bool)
    (outcomes : List (Option WriteOutcome)) :
    ∃ after, s.fileOpenDone opened outcomes = .ok after ∧ Resting after := by
  have count : s.file.inProgressIOs = 1 := by
    simpa [creating.creating, creating.writes] using creating.count
  cases opened with
  | false =>
      let failed : UFSStoreState := { s with
        creating := false
        file := { s.file with
          isOpen := false
          errorOccured := s.file.errorOccured || !false
          inProgressIOs := s.file.inProgressIOs - 1 } }
      have live : Live failed := by
        refine ⟨creating.theFile, creating.callback, creating.silent, creating.closing, ?_,
          creating.account⟩
        simp [failed, count, creating.writes]
      obtain ⟨after, result, closed, draining⟩ := tryClosing_idle live (by simp [failed, count])
      have step : s.fileOpenDone false outcomes = failed.tryClosing := by
        have broken : failed.file.errorOccured = true := by simp [failed]
        rw [fileOpenDone, openDone, deref_of_live live]
        simp only [Except.bind]
        rw [if_pos broken]
      exact ⟨after, step.trans result, draining.trans idle, Or.inr (Or.inr closed)⟩
  | true =>
      let ready : UFSStoreState := { s with
        creating := false
        file := { s.file with
          isOpen := true
          errorOccured := s.file.errorOccured || !true
          inProgressIOs := s.file.inProgressIOs - 1 } }
      have is_ready : Ready ready := by
        refine ⟨⟨creating.theFile, creating.callback, creating.silent, creating.closing, ?_,
          creating.account⟩, rfl, rfl⟩
        simp [ready, count, creating.writes]
      obtain ⟨drained, result, draining, settled⟩ := drainWriteQueue_spec is_ready idle outcomes
      have step : s.fileOpenDone true outcomes =
          if drained.try_closing then drained.tryClosing else .ok drained := by
        have sound : ¬ready.file.errorOccured = true := by
          simp [ready, creating.errorOccured]
        rw [fileOpenDone, openDone, deref_of_live is_ready.toLive]
        simp only [Except.bind]
        rw [if_neg sound, result]
      obtain ⟨after, retried, same, final⟩ := settled.retry
      exact ⟨after, step.trans retried, same.trans draining, Or.inr final⟩

/-- A write to a file that is being created only enters the queue. -/
theorem write_creating (creating : Creating s) (idle : s.write_draining = false) (buf : ℕ)
    (outcomes : List (Option WriteOutcome)) :
    ∃ after, s.write buf outcomes = .ok after ∧ Resting after ∧ after.errflags = s.errflags := by
  let queued : UFSStoreState := { s with
    passed := buf :: s.passed, pending_writes := s.pending_writes ++ [buf] }
  have live : Live queued := by
    refine ⟨creating.theFile, creating.callback, creating.silent, creating.closing,
      creating.count, ?_⟩
    have account := creating.account
    rw [creating.writes, List.append_nil] at account
    simp only [queued, creating.writes, List.append_nil]
    calc
      (buf :: s.passed).Perm (buf :: (s.freed ++ s.pending_writes)) := account.cons buf
      List.Perm _ (s.freed ++ s.pending_writes ++ [buf]) :=
        (List.perm_append_singleton buf _).symm
      List.Perm _ (s.freed ++ (s.pending_writes ++ [buf])) := by rw [List.append_assoc]
  have step : s.write buf outcomes = .ok queued := by
    rw [write, deref_of_live creating.toLive]
    simp only [Except.bind, creating.errorOccured]
    rw [if_neg (by simp), drainWriteQueue, if_neg (by simp [idle])]
    simp [deref, creating.theFile, Except.bind, creating.isOpen, queued]
  refine ⟨queued, step, ⟨idle, Or.inl ?_⟩, rfl⟩
  exact ⟨live, creating.creating, creating.isOpen, creating.errorOccured, creating.writes⟩

/-- A write to an open file starts at once, or frees its buffer after an error. -/
theorem write_ready (ready : Ready s) (empty : s.pending_writes = [])
    (idle : s.write_draining = false) (buf : ℕ) (outcomes : List (Option WriteOutcome)) :
    ∃ after, s.write buf outcomes = .ok after ∧ Resting after := by
  rw [write, deref_of_live ready.toLive]
  simp only [Except.bind]
  have account := ready.account.cons buf
  by_cases failed : s.file.errorOccured = true
  · rw [if_pos failed]
    refine ⟨_, rfl, idle, Or.inr (Or.inl ⟨⟨⟨ready.theFile, ready.callback, ready.silent,
      ready.closing, ready.count, account⟩, ready.isOpen, ready.creating⟩, empty⟩)⟩
  · rw [if_neg failed]
    have queued : Ready { s with
        passed := buf :: s.passed, pending_writes := s.pending_writes ++ [buf] } := by
      refine ⟨⟨ready.theFile, ready.callback, ready.silent, ready.closing, ready.count, ?_⟩,
        ready.isOpen, ready.creating⟩
      rw [empty, List.nil_append] at account
      simp only [empty, List.nil_append]
      exact account.trans List.perm_middle.symm
    obtain ⟨after, result, draining, settled⟩ := drainWriteQueue_spec queued idle outcomes
    exact ⟨after, result, draining, Or.inr settled⟩

/-- A write that completes later leaves an open file settled, unless the file has an error and
nothing else is in progress. -/
theorem writeDone_spec (ready : Ready s)
    (idle : s.write_draining = false) {index buf : ℕ} (here : s.file.writes[index]? = some buf)
    {outcome : WriteOutcome} (outcomes : List (Option WriteOutcome))
    (clean : s.Clean (.writeDone index outcome outcomes)) :
    ∃ after, s.writeDone index buf outcome outcomes = .ok after ∧ Resting after := by
  have ended := endWrite_ready ready here outcome
  have reaches : ∃ middle, (s.endWrite index buf outcome).closeOnError = .ok middle ∧
      Ready middle ∧ middle.write_draining = false := by
    unfold closeOnError
    rw [deref_of_live ended.toLive]
    simp only [Except.bind]
    by_cases failed : (s.endWrite index buf outcome).file.errorOccured = true
    · rw [if_pos failed]
      have several : 0 < (s.endWrite index buf outcome).file.inProgressIOs := by
        have some_left : s.file.inProgressIOs ≠ 1 := fun one => clean ⟨failed, one⟩
        have inside := List.length_pos_of_mem (List.mem_of_getElem? here)
        have count := ready.count
        simp only [endWrite, ready.creating] at count ⊢
        omega
      refine ⟨_, tryClosing_busy ended.toLive several, ?_, idle⟩
      exact ⟨⟨ended.theFile, ended.callback, ended.silent, ended.closing, ended.count,
        ended.account⟩, ended.isOpen, ended.creating⟩
    · rw [if_neg failed]
      exact ⟨_, rfl, ended, idle⟩
  obtain ⟨middle, closing, still, calm⟩ := reaches
  obtain ⟨after, result, draining, settled⟩ := drainWriteQueue_spec still calm outcomes
  refine ⟨after, ?_, draining, Or.inr settled⟩
  rw [writeDone, closing]
  exact result

variable {event : Event} {result : Except UFSFault UFSStoreState}

/-- A clean event leaves the file resting. -/
theorem handle_clean (rest : Resting s) (clean : s.Clean event)
    (handled : s.handle event = some result) : ∃ after, result = .ok after ∧ Resting after := by
  cases event with
  | openDone opened outcomes =>
      simp only [handle] at handled
      split at handled
      · rename_i creating
        cases handled
        rcases rest.phase with phase | ⟨ready, empty⟩ | closed
        · exact openDone_spec phase rest.draining opened outcomes
        · exact absurd creating (by simp [ready.creating])
        · exact absurd creating (by simp [closed.creating])
      · cases handled
  | write buf outcomes =>
      cases handled
      rcases rest.phase with phase | ⟨ready, empty⟩ | closed
      · obtain ⟨after, result, resting, _⟩ := write_creating phase rest.draining buf outcomes
        exact ⟨after, result, resting⟩
      · exact write_ready ready empty rest.draining buf outcomes
      · exact absurd clean (by simp [Clean, closed.theFile])
  | close =>
      cases handled
      rcases rest.phase with phase | ⟨ready, empty⟩ | closed
      · have busy : 0 < s.file.inProgressIOs := by
          have count := phase.count
          simp only [phase.creating, if_true] at count
          omega
        refine ⟨_, tryClosing_busy phase.toLive busy, rest.draining, Or.inl ⟨⟨phase.theFile,
          phase.callback, phase.silent, phase.closing, phase.count, phase.account⟩,
          phase.creating, phase.isOpen, phase.errorOccured, phase.writes⟩⟩
      · obtain ⟨after, closing, draining, final⟩ := tryClosing_spec ready
        refine ⟨after, closing, draining.trans rest.draining, Or.inr ?_⟩
        rcases final with ⟨still, queue⟩ | closed
        · exact Or.inl ⟨still, queue.trans empty⟩
        · exact Or.inr closed
      · exact absurd clean (by simp [Clean, closed.theFile])
  | writeDone index outcome outcomes =>
      simp only [handle] at handled
      split at handled
      · rename_i buf here
        cases handled
        rcases rest.phase with phase | ⟨ready, empty⟩ | closed
        · exact absurd here (by simp [phase.writes])
        · exact writeDone_spec ready rest.draining here outcomes clean
        · exact absurd here (by simp [closed.writes])
      · cases handled

/-- Any other event ends the run. -/
theorem handle_unclean (rest : Resting s) (unclean : ¬s.Clean event)
    (handled : s.handle event = some result) : result = .error .nullFile := by
  cases event with
  | openDone opened outcomes => exact absurd trivial unclean
  | write buf outcomes =>
      cases handled
      have gone : s.theFile = false := by simpa [Clean] using unclean
      simp [write, deref, gone, Except.bind]
  | close =>
      cases handled
      have gone : s.theFile = false := by simpa [Clean] using unclean
      simp [tryClosing, deref, gone, Except.bind]
  | writeDone index outcome outcomes =>
      simp only [handle] at handled
      split at handled
      · rename_i buf here
        cases handled
        obtain ⟨failed, last⟩ := not_not.mp unclean
        rcases rest.phase with phase | ⟨ready, empty⟩ | closed
        · exact absurd here (by simp [phase.writes])
        · -- the file is closed while it completes its last write, and then used
          have ended := endWrite_ready ready here outcome
          have none_left : (s.endWrite index buf outcome).file.inProgressIOs = 0 := by
            simp [endWrite, last]
          obtain ⟨after, closing, closed, draining⟩ := tryClosing_idle ended.toLive none_left
          have first : (s.endWrite index buf outcome).closeOnError = .ok after := by
            have broken : (s.endWrite index buf outcome).file.errorOccured = true := failed
            rw [closeOnError, deref_of_live ended.toLive]
            simp only [Except.bind]
            rw [if_pos broken, closing]
          rw [writeDone, first]
          simp only [Except.bind]
          rw [drainWriteQueue, if_neg (by simp [draining.trans rest.draining]), deref,
            if_neg (by simp [closed.theFile])]
          rfl
        · exact absurd here (by simp [closed.writes])
      · cases handled

/-- The core got at most one report, and after it every buffer was freed as often as it was passed
to `write`. -/
structure Tidy (s : UFSStoreState) : Prop where
  once : s.callbacks.length ≤ 1
  buffers : s.callbacks ≠ [] → s.file.inProgressIOs = 0 → s.freed.Perm s.passed

theorem Resting.tidy (rest : Resting s) : Tidy s := by
  rcases rest.phase with phase | ⟨ready, _⟩ | closed
  · exact ⟨by simp [phase.silent], fun reported => absurd phase.silent reported⟩
  · exact ⟨by simp [ready.silent], fun reported => absurd ready.silent reported⟩
  · exact ⟨by simp [closed.report], fun _ _ => closed.account.symm⟩

theorem created_resting : Resting created := by
  refine ⟨rfl, Or.inl ⟨⟨rfl, rfl, rfl, rfl, rfl, ?_⟩, rfl, rfl, rfl, rfl⟩⟩
  exact List.Perm.refl _

end UFSStoreState

namespace UFSRun

open LabelledRun UFSStoreState

/-- The condition on an event, as long as the process runs. -/
def Clean (run : UFSRun) (event : UFSStoreState.Event) : Prop :=
  ∀ s, run.result = .ok s → s.Clean event

/-- The process runs and its swap file is between two events. -/
def Resting (run : UFSRun) : Prop := ∃ s, run.result = .ok s ∧ s.Resting

variable {after run : UFSRun} {event : UFSStoreState.Event} {s : UFSStoreState}

/-- An event is handled by the state. -/
theorem next_handle (running : run.result = .ok s) (taken : run.next event = some after) :
    s.handle event = some after.result := by
  rw [next, running] at taken
  dsimp only at taken
  split at taken
  · split at taken
    · cases taken
    · obtain ⟨result, handled, rfl⟩ := Option.map_eq_some_iff.mp taken
      exact handled
  · obtain ⟨result, handled, rfl⟩ := Option.map_eq_some_iff.mp taken
    exact handled

theorem next_resting (rest : run.Resting) (clean : run.Clean event)
    (taken : run.next event = some after) : after.Resting := by
  obtain ⟨s, running, resting⟩ := rest
  exact handle_clean resting (clean s running) (next_handle running taken)

/-- A run that has not died took only clean steps. -/
theorem allowed_of_running {final : UFSRun} {events : List UFSStoreState.Event} (rest : run.Resting)
    (path : exec next run events = some final) (running : final.result = .ok s) :
    Allowed next Clean run events := by
  induction events generalizing run with
  | nil => trivial
  | cons event events ih =>
      rw [exec_cons, Option.bind_eq_some_iff] at path
      obtain ⟨middle, taken, later⟩ := path
      by_cases clean : run.Clean event
      · exact Allowed.cons clean taken (ih (next_resting rest clean taken) later)
      · -- the process died, so that no event follows and it is not running now
        obtain ⟨before, alive, resting⟩ := rest
        have unclean : ¬before.Clean event := by
          intro fine
          refine clean fun other same => ?_
          cases alive.symm.trans same
          exact fine
        have died := handle_unclean resting unclean (next_handle alive taken)
        cases events with
        | nil =>
            cases Option.some.inj later
            exact absurd (running.symm.trans died) (by simp)
        | cons second rest =>
            rw [exec_cons] at later
            simp [next, died] at later

/-- **Clean finish.** A run ends without use of a closed file, with one report at most and every
buffer freed once after it, exactly if the core does not use the file after the report and no last
write completes on a file with its error state set. -/
theorem tidy_iff {events : List UFSStoreState.Event} {run : UFSRun}
    (path : exec next initial events = some run) :
    (∃ s, run.result = .ok s ∧ s.Tidy) ↔ Allowed next Clean initial events := by
  have start : initial.Resting := ⟨_, rfl, created_resting⟩
  constructor
  · rintro ⟨s, running, _⟩
    exact allowed_of_running start path running
  · intro clean
    obtain ⟨s, running, resting⟩ := invariant_of_allowed next_resting start clean path
    exact ⟨s, running, resting.tidy⟩

/-- The file is created, written to and closed while the write is in progress. -/
def plainEvents : List UFSStoreState.Event :=
  [.openDone true [], .write 5 [], .close, .writeDone 0 ⟨0, 4, false⟩ []]

theorem tidy_plainEvents :
    ∃ run s, exec next initial plainEvents = some run ∧ run.result = .ok s ∧ s.Tidy := by
  have clean : Allowed next Clean initial plainEvents := by
    refine Allowed.cons (fun s _ => trivial) rfl ?_
    repeat' refine Allowed.cons (fun s running => ?_) rfl ?_
    all_goals try trivial
    all_goals cases running
    · rfl
    · rfl
    · rintro ⟨failed, _⟩
      exact absurd failed (by decide)
  have path : exec next initial plainEvents = some ⟨.ok _, true⟩ := rfl
  obtain ⟨s, running, tidy⟩ := (tidy_iff path).mpr clean
  exact ⟨_, s, path, running, tidy⟩

/-- The only write fails, and the file has its error state set. -/
def failedWrite : List UFSStoreState.Event :=
  [.openDone true [], .write 5 [], .writeDone 0 ⟨-1, 0, true⟩ []]

/-- The file is closed and then used. -/
theorem not_tidy_failedWrite :
    ∃ run, exec next initial failedWrite = some run ∧ run.result = .error .nullFile ∧
      ¬∃ s, run.result = .ok s ∧ s.Tidy :=
  ⟨_, rfl, rfl, by rintro ⟨s, running, _⟩; cases running⟩

end UFSRun

end Squid
