import Squid.Store.UFSStoreStateRuns

/-!
# Failed writes of a swap file

The report to the core depends on the error state of the `DiskFile` alone.
`DiskThreadsDiskFile::writeDone` passes `errflag` on and leaves that state as it is, and
`UFSStoreState::writeCompleted` ignores `errflag`; only a failed creation is ever reported.
-/

namespace Squid

namespace UFSStoreState

variable {s after : UFSStoreState} {outcomes : List (Option WriteOutcome)}

/-- The end of a write as `DiskThreadsDiskFile::writeDone` has it. -/
def threadsOutcome (outcome : WriteOutcome) : WriteOutcome := { outcome with setsError := false }

/-- The writes that an event starts, over `DiskThreadsDiskFile`. -/
def threadsOutcomes (outcomes : List (Option WriteOutcome)) : List (Option WriteOutcome) :=
  outcomes.map (Option.map threadsOutcome)

/-- The events over `DiskThreadsDiskFile`: no write sets the error state of the file. -/
def Event.threads : Event → Event
  | .openDone opened outcomes => .openDone opened (threadsOutcomes outcomes)
  | .write buf outcomes => .write buf (threadsOutcomes outcomes)
  | .close => .close
  | .writeDone index outcome outcomes =>
      .writeDone index (threadsOutcome outcome) (threadsOutcomes outcomes)

/-- What the handlers leave alone: the error state of the file, whether it is being created, and,
once the error state is set, the writes. -/
structure Frame (s after : UFSStoreState) : Prop where
  errorOccured : after.file.errorOccured = s.file.errorOccured
  creating : after.creating = s.creating
  silent : s.file.errorOccured = true →
    after.errflags = s.errflags ∧ after.file.writes = s.file.writes

theorem Frame.refl (s : UFSStoreState) : Frame s s := ⟨rfl, rfl, fun _ => ⟨rfl, rfl⟩⟩

theorem Frame.trans {middle : UFSStoreState} (first : Frame s middle)
    (second : Frame middle after) : Frame s after := by
  refine ⟨second.errorOccured.trans first.errorOccured, second.creating.trans first.creating,
    fun failed => ?_⟩
  obtain ⟨errflags, writes⟩ := first.silent failed
  obtain ⟨later_errflags, later_writes⟩ := second.silent (first.errorOccured.trans failed)
  exact ⟨later_errflags.trans errflags, later_writes.trans writes⟩

/-- What follows a use of `theFile` works on the file. -/
theorem of_deref_bind {follow : DiskThreadsDiskFile → Except UFSFault UFSStoreState}
    (result : s.deref.bind follow = .ok after) : follow s.file = .ok after := by
  unfold deref at result
  split at result
  · exact result
  · cases result

/-- A sequence of two handlers that does not die. -/
theorem of_bind {first : Except UFSFault UFSStoreState}
    {second : UFSStoreState → Except UFSFault UFSStoreState}
    (result : first.bind second = .ok after) :
    ∃ middle, first = .ok middle ∧ second middle = .ok after := by
  cases first with
  | error fault => cases result
  | ok middle => exact ⟨middle, rfl, result⟩

theorem closeCompleted_frame (result : s.closeCompleted = .ok after) :
    Frame s after ∧ after.errflags = s.errflags := by
  unfold closeCompleted at result
  split at result
  · cases of_deref_bind result
    exact ⟨⟨rfl, rfl, fun _ => ⟨rfl, rfl⟩⟩, rfl⟩
  · cases result

theorem tryClosing_frame (result : s.tryClosing = .ok after) :
    Frame s after ∧ after.errflags = s.errflags := by
  have inner := of_deref_bind result
  split at inner
  · cases inner
    exact ⟨⟨rfl, rfl, fun _ => ⟨rfl, rfl⟩⟩, rfl⟩
  · unfold fileClose at inner
    split at inner
    · cases inner
      exact ⟨⟨rfl, rfl, fun _ => ⟨rfl, rfl⟩⟩, rfl⟩
    · obtain ⟨frame, errflags⟩ := closeCompleted_frame inner
      exact ⟨⟨frame.errorOccured, frame.creating, frame.silent⟩, errflags⟩

theorem closeOnError_frame (result : s.closeOnError = .ok after) : Frame s after := by
  have inner := of_deref_bind result
  split at inner
  · exact (tryClosing_frame inner).1
  · cases inner
    exact Frame.refl s

/-- A write that ends on a file without error state leaves it so. -/
theorem endWrite_frame (index buf : ℕ) (outcome : WriteOutcome)
    (sound : s.file.errorOccured = false) :
    Frame s (s.endWrite index buf (threadsOutcome outcome)) :=
  ⟨by simp [endWrite, threadsOutcome], rfl, fun failed => absurd failed (by simp [sound])⟩

theorem doWrite_frame {outcome : Option WriteOutcome}
    (result : s.doWrite (outcome.map threadsOutcome) = .ok after) : Frame s after := by
  have inner := of_deref_bind result
  dsimp only at inner
  split at inner
  · split at inner
    · cases inner
      exact Frame.refl s
    · rename_i buf rest _
      split at inner
      · cases inner
        exact ⟨rfl, rfl, fun _ => ⟨rfl, rfl⟩⟩
      · rename_i sound
        have sound : s.file.errorOccured = false := by simpa using sound
        let started := { s with pending_writes := rest }.startWrite buf
        have start : Frame s started :=
          ⟨rfl, rfl, fun failed => absurd failed (by simp [sound])⟩
        cases outcome with
        | none =>
            cases inner
            exact start
        | some outcome =>
            have ended : Frame started _ := endWrite_frame s.file.writes.length buf outcome sound
            exact (start.trans ended).trans (closeOnError_frame inner)
  · cases inner

theorem drainLoop_frame {bound : ℕ}
    (result : drainLoop bound s (threadsOutcomes outcomes) = .ok after) : Frame s after := by
  induction bound generalizing s outcomes with
  | zero =>
      cases result
      exact Frame.refl _
  | succ bound ih =>
      unfold drainLoop at result
      split at result
      · cases result
        exact Frame.refl _
      · have first : (threadsOutcomes outcomes).head?.join =
            outcomes.head?.join.map threadsOutcome := by
          cases outcomes with
          | nil => rfl
          | cons outcome rest => cases outcome <;> rfl
        have rest : (threadsOutcomes outcomes).tail = threadsOutcomes outcomes.tail := by
          cases outcomes <;> rfl
        rw [first, rest] at result
        cases written : s.doWrite (outcomes.head?.join.map threadsOutcome) with
        | error fault =>
            rw [written] at result
            cases result
        | ok middle =>
            rw [written] at result
            exact (doWrite_frame written).trans (ih result)

theorem retry_frame (result : (if s.try_closing then s.tryClosing else .ok s) = .ok after) :
    Frame s after := by
  split at result
  · exact (tryClosing_frame result).1
  · cases result
    exact Frame.refl s

theorem drainWriteQueue_frame (result : s.drainWriteQueue (threadsOutcomes outcomes) = .ok after) :
    Frame s after := by
  unfold drainWriteQueue at result
  split at result
  · cases result
    exact Frame.refl s
  · have inner := of_deref_bind result
    split at inner
    · obtain ⟨middle, drained, retried⟩ := of_bind inner
      have looped := drainLoop_frame drained
      have before : Frame s middle := ⟨looped.errorOccured, looped.creating, looped.silent⟩
      have ended : Frame { middle with write_draining := false } after := retry_frame retried
      exact before.trans ⟨ended.errorOccured, ended.creating, ended.silent⟩
    · cases inner
      exact Frame.refl s

/-- A failed write leaves no trace: a file has its error state set only if it was never written
to. -/
structure Unnoticed (s : UFSStoreState) : Prop where
  creating : s.creating = true → s.errflags = []
  failed : s.file.errorOccured = true → s.errflags = [] ∧ s.file.writes = []

theorem Unnoticed.of_sound (sound : after.file.errorOccured = false)
    (creating : after.creating = true → after.errflags = []) : Unnoticed after :=
  ⟨creating, fun failed => absurd failed (by simp [sound])⟩

theorem openDone_unnoticed (rest : Resting s) (unnoticed : Unnoticed s) (opened : Bool)
    (creating : s.creating = true)
    (result : s.fileOpenDone opened (threadsOutcomes outcomes) = .ok after) :
    Unnoticed after := by
  have phase : Creating s := by
    rcases rest.phase with phase | ⟨ready, _⟩ | closed
    · exact phase
    · exact absurd creating (by simp [ready.creating])
    · exact absurd creating (by simp [closed.creating])
  have inner := of_deref_bind result
  split at inner
  · -- the creation failed: the file was never written to
    obtain ⟨frame, errflags⟩ := tryClosing_frame inner
    have unwritten : after.errflags = [] := errflags.trans (unnoticed.creating creating)
    have idle : after.file.writes = [] := (frame.silent ‹_›).2.trans phase.writes
    exact ⟨fun _ => unwritten, fun _ => ⟨unwritten, idle⟩⟩
  · rename_i sound
    obtain ⟨middle, drained, retried⟩ := of_bind inner
    have frame := (drainWriteQueue_frame drained).trans (retry_frame retried)
    refine Unnoticed.of_sound (frame.errorOccured.trans (by simpa using sound)) fun still => ?_
    exact absurd (frame.creating.symm.trans still) (by simp)

theorem handle_unnoticed {event : Event} (rest : Resting s) (unnoticed : Unnoticed s)
    (handled : s.handle event.threads = some (.ok after)) : Unnoticed after := by
  cases event with
  | openDone opened outcomes =>
      simp only [Event.threads, handle] at handled
      split at handled
      · rename_i creating
        exact openDone_unnoticed rest unnoticed opened creating (Option.some.inj handled)
      · cases handled
  | write buf outcomes =>
      have result : s.write buf (threadsOutcomes outcomes) = .ok after := Option.some.inj handled
      have inner := of_deref_bind result
      dsimp only at inner
      split at inner
      · cases inner
        exact ⟨unnoticed.creating, unnoticed.failed⟩
      · rename_i sound
        have frame := drainWriteQueue_frame inner
        refine Unnoticed.of_sound (frame.errorOccured.trans (by simpa using sound)) fun still => ?_
        have creating : s.creating = true := frame.creating.symm.trans still
        rcases rest.phase with phase | ⟨ready, _⟩ | closed
        · obtain ⟨queued, same, _, errflags⟩ :=
            write_creating phase rest.draining buf (threadsOutcomes outcomes)
          cases result.symm.trans same
          exact errflags.trans (unnoticed.creating creating)
        · exact absurd creating (by simp [ready.creating])
        · exact absurd creating (by simp [closed.creating])
  | close =>
      obtain ⟨frame, errflags⟩ := tryClosing_frame (Option.some.inj handled)
      refine ⟨fun still => ?_, fun failed => ?_⟩
      · exact errflags.trans (unnoticed.creating (frame.creating.symm.trans still))
      · have before : s.file.errorOccured = true := frame.errorOccured.symm.trans failed
        obtain ⟨unwritten, idle⟩ := unnoticed.failed before
        exact ⟨errflags.trans unwritten, (frame.silent before).2.trans idle⟩
  | writeDone index outcome outcomes =>
      simp only [Event.threads, handle] at handled
      split at handled
      · rename_i buf here
        have busy : s.file.writes ≠ [] := List.ne_nil_of_mem (List.mem_of_getElem? here)
        have sound : s.file.errorOccured = false := by
          cases failed : s.file.errorOccured with
          | false => rfl
          | true => exact absurd (unnoticed.failed failed).2 busy
        obtain ⟨middle, closing, drained⟩ := of_bind (Option.some.inj handled)
        have frame := ((endWrite_frame index buf outcome sound).trans
          (closeOnError_frame closing)).trans (drainWriteQueue_frame drained)
        refine Unnoticed.of_sound (frame.errorOccured.trans sound) fun still => ?_
        have creating : s.creating = true := frame.creating.symm.trans still
        rcases rest.phase with phase | ⟨ready, _⟩ | closed
        · exact absurd phase.writes busy
        · exact absurd creating (by simp [ready.creating])
        · exact absurd creating (by simp [closed.creating])
      · cases handled

end UFSStoreState

namespace UFSRun

open LabelledRun UFSStoreState

/-- The next event of a swap file over `DiskThreadsDiskFile`. -/
def threadsNext (run : UFSRun) (event : UFSStoreState.Event) : Option UFSRun :=
  run.next event.threads

/-- The swap file is between two events and no failed write left a trace, unless the process died. -/
def Unnoticed (run : UFSRun) : Prop :=
  ∀ s, run.result = .ok s → s.Resting ∧ s.Unnoticed

theorem next_unnoticed {run after : UFSRun} {event : UFSStoreState.Event} (inv : run.Unnoticed)
    (taken : run.threadsNext event = some after) : after.Unnoticed := by
  intro s running
  cases before : run.result with
  | error fault =>
      rw [threadsNext, next, before] at taken
      cases taken
  | ok old =>
      obtain ⟨rest, unnoticed⟩ := inv old before
      have handled := next_handle before taken
      rw [running] at handled
      refine ⟨?_, handle_unnoticed rest unnoticed handled⟩
      by_cases clean : old.Clean event.threads
      · obtain ⟨result, same, resting⟩ := handle_clean rest clean handled
        cases same
        exact resting
      · cases handle_unclean rest clean handled

/-- **Failed writes are not reported.** Once the file was closed, the report shows an error for
every run with a failed write only if no write failed. -/
theorem reported_iff {events : List UFSStoreState.Event} {run : UFSRun} {s : UFSStoreState}
    (path : exec threadsNext initial events = some run) (running : run.result = .ok s)
    (reported : s.callbacks ≠ []) :
    ((∃ errflag ∈ s.errflags, errflag ≠ 0) → ∀ report ∈ s.callbacks, report ≠ 0) ↔
      ∀ errflag ∈ s.errflags, errflag = 0 := by
  have start : initial.Unnoticed := by
    intro created running
    cases running
    exact ⟨created_resting, fun _ => rfl, fun failed => absurd failed (by decide)⟩
  have inv := LabelledRun.invariant next_unnoticed start path
  obtain ⟨rest, unnoticed⟩ := inv s running
  have closed : Closed s := by
    rcases rest.phase with phase | ⟨ready, _⟩ | closed
    · exact absurd phase.silent reported
    · exact absurd ready.silent reported
    · exact closed
  constructor
  · intro told errflag member
    by_contra nonzero
    have shown := told ⟨errflag, member, nonzero⟩
    rw [closed.report] at shown
    cases failed : s.file.errorOccured with
    | false => exact shown 0 (by simp [failed]) rfl
    | true =>
        rw [(unnoticed.failed failed).1] at member
        cases member
  · rintro fine ⟨errflag, member, nonzero⟩
    exact absurd (fine errflag member) nonzero

/-- The disk is full: the only write fails while it is started. -/
def fullDisk : List UFSStoreState.Event :=
  [.openDone true [], .write 5 [some ⟨-6, 0, false⟩], .close]

/-- The failed write is reported as success. -/
theorem not_reported_fullDisk :
    ∃ run s, exec threadsNext initial fullDisk = some run ∧ run.result = .ok s ∧
      s.errflags = [-6] ∧ s.callbacks = [0] ∧
      ¬((∃ errflag ∈ s.errflags, errflag ≠ 0) → ∀ report ∈ s.callbacks, report ≠ 0) := by
  refine ⟨_, _, rfl, rfl, rfl, rfl, fun told => ?_⟩
  exact told ⟨-6, List.mem_singleton_self _, by decide⟩ 0 (List.mem_singleton_self _) rfl

/-- A write that ends well. -/
def emptyDisk : List UFSStoreState.Event :=
  [.openDone true [], .write 5 [some ⟨0, 4, false⟩], .close]

theorem reported_emptyDisk :
    ∃ run s, exec threadsNext initial emptyDisk = some run ∧ run.result = .ok s ∧
      s.callbacks = [0] ∧
      ((∃ errflag ∈ s.errflags, errflag ≠ 0) → ∀ report ∈ s.callbacks, report ≠ 0) := by
  have path : exec threadsNext initial emptyDisk = some ⟨.ok _, true⟩ := rfl
  refine ⟨_, _, path, rfl, rfl, (reported_iff path rfl (by decide)).mpr ?_⟩
  exact fun errflag member => List.mem_singleton.mp member

end UFSRun

end Squid
