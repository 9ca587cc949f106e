import Squid.Library.LabelledRun
import Mathlib.Data.Int.Notation
import Mathlib.Data.Nat.Notation
import Mathlib.Data.List.Perm.Basic

/-!
# Writing a swap file

`UFSStoreState` passes the writes of the core to a `DiskFile` behaving like `DiskThreadsDiskFile`
and closes the file when no I/O is in progress.  The file is created asynchronously; a write may
complete while the call that starts it is still running, or later.  `close` of the file completes
while it is running, in the middle of the handler that asked for it.

Dereferencing `theFile` after it was set to `NULL` and failing an assertion end a run.
-/

namespace Squid

/-- Why the process dies. -/
inductive UFSFault where
  /-- `theFile` is `NULL` and gets dereferenced. -/
  | nullFile
  /-- An assertion fails. -/
  | assertion

/-- How a write ends. -/
structure WriteOutcome where
  /-- The `errflag` passed to `writeCompleted`. -/
  errflag : ℤ
  /-- The number of bytes passed to `writeCompleted`. -/
  len : ℕ
  /-- Whether the `DiskFile` sets its error state; `DiskThreadsDiskFile::writeDone` does not. -/
  setsError : Bool
  deriving DecidableEq

/-- The `DiskFile`. -/
structure DiskThreadsDiskFile where
  /-- Whether `fd > -1`. -/
  isOpen : Bool
  /-- The error state. -/
  errorOccured : Bool
  /-- Number of I/Os in progress, the creation of the file included. -/
  inProgressIOs : ℕ
  /-- The buffers of the writes in progress; not a field of the source. -/
  writes : List ℕ

/-- A `UFSStoreState` opened for writing, together with its `DiskFile`. -/
structure UFSStoreState where
  /-- Whether `theFile` is not `NULL`. -/
  theFile : Bool
  /-- The `DiskFile`. -/
  file : DiskThreadsDiskFile
  /-- Whether the file is being created. -/
  creating : Bool
  /-- Whether `theFile->close()` was called. -/
  closing : Bool
  /-- Whether `drainWriteQueue` is running. -/
  write_draining : Bool
  /-- Whether closing waits for I/Os in progress. -/
  try_closing : Bool
  /-- The buffers queued for writing. -/
  pending_writes : List ℕ
  /-- Number of bytes written. -/
  offset_ : ℕ
  /-- Whether `callback` is not `NULL`. -/
  callback : Bool
  /-- The arguments of the calls of `callback`, latest first; not a field of the source. -/
  callbacks : List ℤ
  /-- The buffers passed to `write`, latest first; not a field of the source. -/
  passed : List ℕ
  /-- The buffers whose free function was called, latest first; not a field of the source. -/
  freed : List ℕ
  /-- The `errflag` of every completed write, latest first; not a field of the source. -/
  errflags : List ℤ

namespace UFSStoreState

/-- The state that `UFSStrategy::create` returns, with the creation of the file in progress. -/
def created : UFSStoreState where
  theFile := true
  file := ⟨false, false, 1, []⟩
  creating := true
  closing := false
  write_draining := false
  try_closing := false
  pending_writes := []
  offset_ := 0
  callback := true
  callbacks := []
  passed := []
  freed := []
  errflags := []

/-- Use of `theFile`. -/
def deref (s : UFSStoreState) : Except UFSFault DiskThreadsDiskFile :=
  if s.theFile then .ok s.file else .error .nullFile

/-- Call the free functions of all queued writes. -/
def freePending (s : UFSStoreState) : UFSStoreState :=
  { s with pending_writes := [], freed := s.pending_writes.reverse ++ s.freed }

/-- Report to the core that the file is closed, and forget the file. -/
def doCloseCallback (s : UFSStoreState) (errflag : ℤ) : UFSStoreState :=
  let s := s.freePending
  { s with
    callbacks := if s.callback then errflag :: s.callbacks else s.callbacks
    callback := false
    theFile := false }

/-- The file is closed. -/
def closeCompleted (s : UFSStoreState) : Except UFSFault UFSStoreState :=
  if s.closing then
    s.deref.bind fun file =>
      .ok { s.doCloseCallback (if file.errorOccured then -1 else 0) with closing := false }
  else .error .assertion

/-- `DiskThreadsDiskFile::close`. -/
def fileClose (s : UFSStoreState) : Except UFSFault UFSStoreState :=
  if s.file.inProgressIOs > 0 then .ok s
  else closeCompleted { s with file := { s.file with isOpen := false } }

/-- Close the file, or remember to do so when no I/O is in progress. -/
def tryClosing (s : UFSStoreState) : Except UFSFault UFSStoreState :=
  s.deref.bind fun file =>
    if file.inProgressIOs > 0 then .ok { s with try_closing := true }
    else fileClose { s with closing := true, try_closing := false }

/-- `DiskThreadsDiskFile::write` up to the start of the write. -/
def startWrite (s : UFSStoreState) (buf : ℕ) : UFSStoreState :=
  { s with
    file := { s.file with
      inProgressIOs := s.file.inProgressIOs + 1
      writes := s.file.writes ++ [buf] } }

/-- The write at `index` ends: its buffer is freed and it is no longer in progress. -/
def endWrite (s : UFSStoreState) (index : ℕ) (buf : ℕ) (outcome : WriteOutcome) : UFSStoreState :=
  { s with
    file := { s.file with
      errorOccured := s.file.errorOccured || outcome.setsError
      inProgressIOs := s.file.inProgressIOs - 1
      writes := s.file.writes.eraseIdx index }
    freed := buf :: s.freed
    errflags := outcome.errflag :: s.errflags
    offset_ := s.offset_ + outcome.len }

/-- `writeCompleted` up to its call of `drainWriteQueue`. -/
def closeOnError (s : UFSStoreState) : Except UFSFault UFSStoreState :=
  s.deref.bind fun file => if file.errorOccured then s.tryClosing else .ok s

/-- Start the first queued write.  It may complete at once; `drainWriteQueue` is running then, so
that `writeCompleted` does not drain again. -/
def doWrite (s : UFSStoreState) (outcome : Option WriteOutcome) : Except UFSFault UFSStoreState :=
  s.deref.bind fun file =>
    if file.isOpen then
      match s.pending_writes with
      | [] => .ok s
      | buf :: rest =>
          let s := { s with pending_writes := rest }
          if file.errorOccured then .ok { s with freed := buf :: s.freed }
          else
            match outcome with
            | none => .ok (s.startWrite buf)
            | some outcome =>
                ((s.startWrite buf).endWrite file.writes.length buf outcome).closeOnError
    else .error .assertion

/-- The loop of `drainWriteQueue`; the bound is the length of the queue. -/
def drainLoop : ℕ → UFSStoreState → List (Option WriteOutcome) → Except UFSFault UFSStoreState
  | 0, s, _ => .ok s
  | bound + 1, s, outcomes =>
      if s.pending_writes = [] then .ok s
      else
        match s.doWrite outcomes.head?.join with
        | .error fault => .error fault
        | .ok next => drainLoop bound next outcomes.tail

/-- Write what is queued, if the file is open, and close it if that was asked for. -/
def drainWriteQueue (s : UFSStoreState) (outcomes : List (Option WriteOutcome)) :
    Except UFSFault UFSStoreState :=
  if s.write_draining then .ok s
  else
    s.deref.bind fun file =>
      if file.isOpen then
        (drainLoop s.pending_writes.length { s with write_draining := true } outcomes).bind fun s =>
          let s := { s with write_draining := false }
          if s.try_closing then s.tryClosing else .ok s
      else .ok s

/-- The core writes a buffer. -/
def write (s : UFSStoreState) (buf : ℕ) (outcomes : List (Option WriteOutcome)) :
    Except UFSFault UFSStoreState :=
  s.deref.bind fun file =>
    let s := { s with passed := buf :: s.passed }
    if file.errorOccured then .ok { s with freed := buf :: s.freed }
    else drainWriteQueue { s with pending_writes := s.pending_writes ++ [buf] } outcomes

/-- A write completes that did not complete at once. -/
def writeDone (s : UFSStoreState) (index buf : ℕ) (outcome : WriteOutcome)
    (outcomes : List (Option WriteOutcome)) : Except UFSFault UFSStoreState :=
  (s.endWrite index buf outcome).closeOnError.bind fun s => s.drainWriteQueue outcomes

/-- `UFSStoreState::openDone`. -/
def openDone (s : UFSStoreState) (outcomes : List (Option WriteOutcome)) :
    Except UFSFault UFSStoreState :=
  s.deref.bind fun file =>
    if file.errorOccured then s.tryClosing
    else
      (s.drainWriteQueue outcomes).bind fun s =>
        if s.try_closing then s.tryClosing else .ok s

/-- `DiskThreadsDiskFile::openDone`, with the notification of the `UFSStoreState`. -/
def fileOpenDone (s : UFSStoreState) (opened : Bool) (outcomes : List (Option WriteOutcome)) :
    Except UFSFault UFSStoreState :=
  openDone
    { s with
      creating := false
      file := { s.file with
        isOpen := opened
        errorOccured := s.file.errorOccured || !opened
        inProgressIOs := s.file.inProgressIOs - 1 } }
    outcomes

/-- The events in the life of a swap file.  The writes that an event starts end at once where the
list gives an outcome for them. -/
inductive Event where
  /-- The creation of the file succeeds or fails. -/
  | openDone (opened : Bool) (outcomes : List (Option WriteOutcome))
  /-- The core writes. -/
  | write (buf : ℕ) (outcomes : List (Option WriteOutcome))
  /-- The core closes the file. -/
  | close
  /-- A write in progress completes. -/
  | writeDone (index : ℕ) (outcome : WriteOutcome) (outcomes : List (Option WriteOutcome))
  deriving DecidableEq

/-- The handler of an event; `none` where the event cannot occur. -/
def handle (s : UFSStoreState) : Event → Option (Except UFSFault UFSStoreState)
  | .openDone opened outcomes => if s.creating then some (s.fileOpenDone opened outcomes) else none
  | .write buf outcomes => some (s.write buf outcomes)
  | .close => some s.tryClosing
  | .writeDone index outcome outcomes =>
      match s.file.writes[index]? with
      | some buf => some (s.writeDone index buf outcome outcomes)
      | none => none

end UFSStoreState

/-- A run of the process: the state, or why it died, and whether the core closed the file. -/
structure UFSRun where
  /-- The state, unless the process died. -/
  result : Except UFSFault UFSStoreState
  /-- The core's own `flags.closing`, which makes it close a file at most once. -/
  coreClosing : Bool

namespace UFSRun

/-- The run before the first event. -/
def initial : UFSRun := ⟨.ok UFSStoreState.created, false⟩

/-- The next event. -/
def next (run : UFSRun) (event : UFSStoreState.Event) : Option UFSRun :=
  match run.result with
  | .error _ => none
  | .ok s =>
      if event = .close then
        if run.coreClosing then none
        else (s.handle event).map fun result => ⟨result, true⟩
      else (s.handle event).map fun result => ⟨result, run.coreClosing⟩

end UFSRun

end Squid
