import Squid.Ipc.StoreMap

/-!
# Every slot of a `StoreMap` runs the lock protocol

The steps of the map operations on the lock words of one slot are steps of
`Ipc::ReadWriteLock`, in the order the lock's methods make them.  The projection of the map to one
slot's lock is therefore a run of the lock system, and the lock's invariant holds for every slot.
-/

namespace Squid
namespace Ipc
namespace StoreMap

open Interleaving LabelledRun

variable {limit : ℕ} {Extras : Type*}

/-- Position inside the lock's own methods. -/
def lockPc : Pc → ReadWriteLock.Pc
  | .writeTest | .freeTest => .lockExclusiveTest
  | .writeUndo | .freeUndo => .lockExclusiveUndo
  | .readTest _ => .lockSharedTest
  | .readUndo => .lockSharedUndo
  | .closeWriteSwitch => .switchUnlock
  | .writeLocked | .writeCount | .writeState | .freeLocked _ _ | .closeWriteUnlock _ => .idle
  | .abortWriting | .closeReadCheck | .closeReadUnlock | .freeMark => .idle
  | .readEmpty _ | .readWaiting _ | .readAssert _ | .readKey _ | .readRelease => .idle

/-- The operation holds the exclusive lock of its slot. -/
def holdsExclusive : Pc → Bool
  | .writeLocked | .writeCount | .writeState => true
  | .closeWriteUnlock _ | .closeWriteSwitch => true
  | .freeLocked _ .clean | .freeLocked _ .unmark | .freeLocked _ .empty => true
  | .freeLocked _ .unlock => true
  | .freeLocked keepLocked .uncount => keepLocked
  | .writeTest | .writeUndo | .freeTest | .freeUndo | .freeMark => false
  | .abortWriting | .closeReadCheck | .closeReadUnlock => false
  | .readTest _ | .readUndo | .readEmpty _ | .readWaiting _ | .readAssert _ => false
  | .readKey _ | .readRelease => false

/-- The operation holds a shared lock of its slot. -/
def holdsShared : Pc → ℕ
  | .readEmpty _ | .readWaiting _ | .readAssert _ | .readKey _ | .readRelease => 1
  | .closeReadUnlock => 1
  | .readTest _ | .readUndo | .abortWriting | .closeReadCheck => 0
  | .writeTest | .writeUndo | .writeLocked | .writeCount | .writeState => 0
  | .closeWriteUnlock _ | .closeWriteSwitch => 0
  | .freeTest | .freeUndo | .freeMark | .freeLocked _ _ => 0

/-- The process as a user of the lock of slot `i`. -/
def lockProcess (i : Fin limit) (own : Process limit) : ReadWriteLock.Process :=
  match own.pc with
  | none => { shared := own.reading i, exclusive := own.writing i }
  | some (j, pc) =>
      if j = i then
        { pc := lockPc pc
          shared := own.reading i + holdsShared pc
          exclusive := own.writing i || holdsExclusive pc }
      else
        { shared := own.reading i, exclusive := own.writing i }

/-- The map as a system around the lock of slot `i`. -/
def lockSystem {P : Type*} (i : Fin limit) (system : System P limit Extras) :
    ReadWriteLock.System P where
  memory := (system.memory.slots i).lock
  process p := lockProcess i (system.process p)

/-- The slots a process has open agree with the operation it is in. -/
structure Coherent (own : Process limit) : Prop where
  /-- A lock held by the operation is not also held by an open slot. -/
  exclusive : ∀ i pc, own.pc = some (i, pc) → holdsExclusive pc = true → own.writing i = false
  /-- `abortWriting` is entered by the writer. -/
  aborting : ∀ i, own.pc = some (i, .abortWriting) → own.writing i = true
  /-- `closeForReading` is entered by a reader. -/
  closing : ∀ i, own.pc = some (i, .closeReadCheck) → 0 < own.reading i

/-- The steps of one process that touch the lock of slot `i` are lock steps. -/
def LockStep (i : Fin limit) (shared : Shared limit Extras) (own : Process limit)
    (shared' : Shared limit Extras) (own' : Process limit) : Prop :=
  ((shared'.slots i).lock = (shared.slots i).lock ∧ lockProcess i own' = lockProcess i own) ∨
    ∃ action, ReadWriteLock.localStep (shared.slots i).lock (lockProcess i own) action =
      some ((shared'.slots i).lock, lockProcess i own')

/-! ## A step stays on its slot -/

/-- A step on slot `i` leaves the other slots, and what the process knows about them, alone. -/
structure Frame (i : Fin limit) (shared : Shared limit Extras) (own : Process limit)
    (shared' : Shared limit Extras) (own' : Process limit) : Prop where
  slots : ∀ j, j ≠ i → shared'.slots j = shared.slots j
  reading : ∀ j, j ≠ i → own'.reading j = own.reading j
  writing : ∀ j, j ≠ i → own'.writing j = own.writing j
  before : ∀ j pc, own.pc = some (j, pc) → j = i
  after : ∀ j pc, own'.pc = some (j, pc) → j = i

variable {i : Fin limit} {own : Process limit}

variable {j : Fin limit}

theorem lockProcess_of_elsewhere (ne : j ≠ i) (elsewhere : ∀ k pc, own.pc = some (k, pc) → k = i) :
    lockProcess j own = { shared := own.reading j, exclusive := own.writing j } := by
  unfold lockProcess
  split
  · rfl
  · rename_i k pc at_k
    rw [if_neg]
    rintro rfl
    exact ne (elsewhere k pc at_k)

variable {own' : Process limit} {shared shared' : Shared limit Extras}

theorem Frame.lockStep (frame : Frame i shared own shared' own') (ne : j ≠ i) :
    LockStep j shared own shared' own' := by
  left
  rw [lockProcess_of_elsewhere ne frame.before, lockProcess_of_elsewhere ne frame.after,
    frame.slots j ne, frame.reading j ne, frame.writing j ne]
  exact ⟨rfl, rfl⟩

/-- The process keeps what it has open on other slots and is on slot `i`, if anywhere. -/
structure OwnFrame (i : Fin limit) (own own' : Process limit) : Prop where
  reading : ∀ j, j ≠ i → own'.reading j = own.reading j
  writing : ∀ j, j ≠ i → own'.writing j = own.writing j
  after : ∀ j pc, own'.pc = some (j, pc) → j = i

section OwnFrame

variable (i : Fin limit) (own : Process limit) (pc : Pc)

theorem ownFrame_goto : OwnFrame i own (own.goto i pc) :=
  ⟨fun _ _ => rfl, fun _ _ => rfl, fun j _ same => by cases same; rfl⟩

theorem ownFrame_finish : OwnFrame i own own.finish :=
  ⟨fun _ _ => rfl, fun _ _ => rfl, fun j _ same => by cases same⟩

theorem ownFrame_returnReading : OwnFrame i own (own.returnReading i) :=
  ⟨fun j ne => by simp [Process.returnReading, ne], fun _ _ => rfl, fun j _ same => by cases same⟩

theorem ownFrame_returnWriting : OwnFrame i own (own.returnWriting i) :=
  ⟨fun _ _ => rfl, fun j ne => by simp [Process.returnWriting, ne], fun j _ same => by cases same⟩

theorem ownFrame_endReading : OwnFrame i own ((own.endReading i).goto i pc) :=
  ⟨fun j ne => by simp [Process.endReading, Process.goto, ne], fun _ _ => rfl,
    fun j _ same => by cases same; rfl⟩

theorem ownFrame_endWriting : OwnFrame i own ((own.endWriting i).goto i pc) :=
  ⟨fun _ _ => rfl, fun j ne => by simp [Process.endWriting, Process.goto, ne],
    fun j _ same => by cases same; rfl⟩

end OwnFrame

section ProceedFrame

variable (cleaner : Option (Extras → Extras)) (shared : Shared limit Extras) (own : Process limit)
  (i : Fin limit)

variable {j : Fin limit}

theorem proceedFreeLocked_slots (keepLocked : Bool) (position : FreePc) (ne : j ≠ i) :
    (proceedFreeLocked cleaner shared own i keepLocked position).1.slots j = shared.slots j := by
  cases position with
  | clean =>
      cases cleaner with
      | none => rfl
      | some cleanReadable =>
          simp only [proceedFreeLocked]
          split <;> simp [ne]
  | unmark => simp [proceedFreeLocked, ne]
  | empty => simp [proceedFreeLocked, ne]
  | unlock => cases keepLocked <;> simp [proceedFreeLocked, ne]
  | uncount => rfl

theorem proceedFreeLocked_own (keepLocked : Bool) (position : FreePc) :
    OwnFrame i own (proceedFreeLocked cleaner shared own i keepLocked position).2 := by
  cases position with
  | clean | unmark | empty | unlock => exact ownFrame_goto i own _
  | uncount =>
      cases keepLocked
      · exact ownFrame_finish i own
      · exact ownFrame_goto i own _

theorem proceedAt_slots (pc : Pc) (ne : j ≠ i) :
    (proceedAt cleaner shared own i pc).1.slots j = shared.slots j := by
  unfold proceedAt
  split <;> try split
  all_goals simp [ne, proceedFreeLocked_slots]

theorem proceedAt_own (pc : Pc) : OwnFrame i own (proceedAt cleaner shared own i pc).2 := by
  unfold proceedAt
  split <;> try split
  all_goals first
    | exact ownFrame_goto i own _
    | exact ownFrame_finish i own
    | exact ownFrame_returnReading i own
    | exact ownFrame_returnWriting i own
    | exact ownFrame_endReading i own _
    | exact ownFrame_endWriting i own _
    | exact proceedFreeLocked_own cleaner shared own i _ _

end ProceedFrame

variable {action : Action limit Extras}

theorem enters_frame (idle : own.pc = none) (enters : Enters shared own i action shared' own') :
    Frame i shared own shared' own' := by
  have idle_before : ∀ j pc, own.pc = some (j, pc) → j = i := by simp [idle]
  cases enters with
  | set | setExtras =>
      refine ⟨fun j ne => by simp [ne], fun _ _ => rfl, fun _ _ => rfl, idle_before, idle_before⟩
  | closeForWriting =>
      obtain ⟨reading, writing, after⟩ := ownFrame_endWriting i own (.closeWriteUnlock _)
      exact ⟨fun j ne => by simp [ne], reading, writing, idle_before, after⟩
  | closeForReading =>
      obtain ⟨reading, writing, after⟩ := ownFrame_endReading i own .closeReadUnlock
      exact ⟨fun j ne => by simp, reading, writing, idle_before, after⟩
  | openForWriting | free | openForReading | openForReadingAt | abortIo =>
      obtain ⟨reading, writing, after⟩ := ownFrame_goto i own _
      exact ⟨fun j ne => by simp [ne], reading, writing, idle_before, after⟩

variable {cleaner : Option (Extras → Extras)} {pc : Pc}

theorem proceedAt_frame (at_pc : own.pc = some (i, pc)) :
    Frame i shared own (proceedAt cleaner shared own i pc).1
      (proceedAt cleaner shared own i pc).2 := by
  obtain ⟨reading, writing, after⟩ := proceedAt_own cleaner shared own i pc
  refine ⟨fun j ne => proceedAt_slots cleaner shared own i pc ne, reading, writing, ?_, after⟩
  intro j _ same
  rw [at_pc] at same
  cases same
  rfl

/-! ## A step is a lock step on its slot -/

theorem lockProcess_idle (i : Fin limit) (idle : own.pc = none) :
    lockProcess i own = { shared := own.reading i, exclusive := own.writing i } := by
  simp [lockProcess, idle]

theorem lockProcess_at (at_pc : own.pc = some (i, pc)) :
    lockProcess i own =
      { pc := lockPc pc
        shared := own.reading i + holdsShared pc
        exclusive := own.writing i || holdsExclusive pc } := by
  simp [lockProcess, at_pc]

section LockProcess

variable (i : Fin limit) (own : Process limit) (pc : Pc)

@[simp]
theorem lockProcess_goto :
    lockProcess i (own.goto i pc) =
      { pc := lockPc pc
        shared := own.reading i + holdsShared pc
        exclusive := own.writing i || holdsExclusive pc } := by
  simp [lockProcess, Process.goto]

@[simp]
theorem lockProcess_finish :
    lockProcess i own.finish = { shared := own.reading i, exclusive := own.writing i } := rfl

@[simp]
theorem lockProcess_returnReading :
    lockProcess i (own.returnReading i) =
      { shared := own.reading i + 1, exclusive := own.writing i } := by
  simp [lockProcess, Process.returnReading]

@[simp]
theorem lockProcess_returnWriting :
    lockProcess i (own.returnWriting i) = { shared := own.reading i, exclusive := true } := by
  simp [lockProcess, Process.returnWriting]

@[simp]
theorem endWriting_writing : (own.endWriting i).writing i = false := by
  simp [Process.endWriting]

@[simp]
theorem endWriting_reading : (own.endWriting i).reading = own.reading := rfl

@[simp]
theorem endReading_reading : (own.endReading i).reading i = own.reading i - 1 := by
  simp [Process.endReading]

@[simp]
theorem endReading_writing : (own.endReading i).writing = own.writing := rfl

end LockProcess

theorem enters_lockStep (idle : own.pc = none) (enters : Enters shared own i action shared' own') :
    LockStep i shared own shared' own' := by
  have before := lockProcess_idle i idle
  cases enters with
  | openForWriting | free =>
      right
      refine ⟨.lockExclusive, ?_⟩
      rw [before]
      by_cases first : (shared.slots i).lock.writers = 0 <;>
        simp [ReadWriteLock.localStep, lockPc, holdsShared, holdsExclusive, first]
  | openForReading | openForReadingAt =>
      right
      refine ⟨.lockShared, ?_⟩
      rw [before]
      simp [ReadWriteLock.localStep, lockPc, holdsShared, holdsExclusive]
  | closeForWriting lockForReading writing =>
      left
      rw [before]
      simp [lockPc, holdsShared, holdsExclusive, writing]
  | abortIo opened =>
      left
      rw [before]
      split <;> simp [lockPc, holdsShared, holdsExclusive]
  | closeForReading reading =>
      left
      rw [before]
      simp [lockPc, holdsShared, holdsExclusive]
      omega
  | set => exact .inl (by simp)
  | setExtras => exact .inl (by simp)

theorem proceedFreeLocked_lockStep {keepLocked : Bool} {position : FreePc}
    (at_pc : own.pc = some (i, .freeLocked keepLocked position)) (coherent : Coherent own) :
    LockStep i shared own (proceedFreeLocked cleaner shared own i keepLocked position).1
      (proceedFreeLocked cleaner shared own i keepLocked position).2 := by
  have before := lockProcess_at at_pc
  have unopened := coherent.exclusive i _ at_pc
  cases position with
  | clean =>
      left
      simp only [before, proceedFreeLocked]
      refine ⟨?_, by simp [lockPc, holdsShared, holdsExclusive]⟩
      cases cleaner with
      | none => rfl
      | some cleanReadable =>
          simp only
          split <;> simp
  | unmark | empty =>
      left
      simp only [before, proceedFreeLocked]
      simp [lockPc, holdsShared, holdsExclusive]
  | unlock =>
      have closed := unopened rfl
      rw [LockStep, before, proceedFreeLocked]
      cases keepLocked
      · exact .inr ⟨.unlockExclusive, by
          simp [ReadWriteLock.localStep, lockPc, holdsShared, holdsExclusive, closed]⟩
      · left
        simp [lockPc, holdsShared, holdsExclusive]
  | uncount =>
      left
      simp only [before, proceedFreeLocked]
      cases keepLocked
      · simp only [Bool.false_eq_true, if_false]
        simp [lockPc, holdsShared, holdsExclusive]
      · simp only [if_true]
        simp [lockPc, holdsShared, holdsExclusive]

theorem proceedAt_lockStep (at_pc : own.pc = some (i, pc)) (coherent : Coherent own) :
    LockStep i shared own (proceedAt cleaner shared own i pc).1
      (proceedAt cleaner shared own i pc).2 := by
  have before := lockProcess_at at_pc
  have unopened := coherent.exclusive i _ at_pc
  cases pc with
  | freeLocked keepLocked position => exact proceedFreeLocked_lockStep at_pc coherent
  | writeTest | freeTest =>
      refine .inr ⟨.proceed, ?_⟩
      by_cases free : (shared.slots i).lock.readers = 0 <;>
        simp [before, proceedAt, free, ReadWriteLock.localStep,
          ReadWriteLock.proceed, lockPc, holdsShared, holdsExclusive]
  | readTest key =>
      refine .inr ⟨.proceed, ?_⟩
      by_cases free : (shared.slots i).lock.writers = 0 <;>
        simp [before, proceedAt, free, ReadWriteLock.localStep,
          ReadWriteLock.proceed, lockPc, holdsShared, holdsExclusive]
  | writeUndo | freeUndo | readUndo =>
      refine .inr ⟨.proceed, ?_⟩
      simp [before, proceedAt, ReadWriteLock.localStep,
        ReadWriteLock.proceed, lockPc, holdsShared, holdsExclusive]
  | closeWriteSwitch =>
      have closed := unopened rfl
      refine .inr ⟨.proceed, ?_⟩
      simp [before, proceedAt, ReadWriteLock.localStep,
        ReadWriteLock.proceed, lockPc, holdsShared, holdsExclusive, closed]
  | closeWriteUnlock lockForReading =>
      have closed := unopened rfl
      cases lockForReading
      · refine .inr ⟨.unlockExclusive, ?_⟩
        simp [before, proceedAt, ReadWriteLock.localStep, lockPc,
          holdsShared, holdsExclusive, closed]
      · refine .inr ⟨.switchExclusiveToShared, ?_⟩
        simp [before, proceedAt, ReadWriteLock.localStep, lockPc, holdsShared, holdsExclusive]
  | closeReadUnlock | readRelease =>
      refine .inr ⟨.unlockShared, ?_⟩
      simp [before, proceedAt, ReadWriteLock.localStep, lockPc, holdsShared, holdsExclusive]
  | writeLocked =>
      left
      simp only [before, proceedAt]
      split <;> simp [lockPc, holdsShared, holdsExclusive]
  | writeCount | writeState =>
      left
      simp [before, proceedAt, lockPc, holdsShared, holdsExclusive]
  | abortWriting =>
      left
      simp [before, proceedAt, lockPc, holdsShared, holdsExclusive, coherent.aborting i at_pc]
  | closeReadCheck =>
      have reading := coherent.closing i at_pc
      left
      simp [before, proceedAt, lockPc, holdsShared, holdsExclusive]
      omega
  | freeMark =>
      left
      simp [before, proceedAt, lockPc, holdsShared, holdsExclusive]
  | readEmpty key | readWaiting key =>
      left
      simp only [before, proceedAt]
      split <;> simp [lockPc, holdsShared, holdsExclusive]
  | readAssert key =>
      left
      cases key
      · simp [before, proceedAt, lockPc, holdsShared, holdsExclusive]
      · simp [before, proceedAt, lockPc, holdsShared, holdsExclusive]
  | readKey key =>
      left
      simp only [before, proceedAt]
      split
      · simp [lockPc, holdsShared, holdsExclusive]
      · simp [lockPc, holdsShared, holdsExclusive]

/-! ## Every slot's lock keeps its invariant -/

section System

variable {P : Type*} [DecidableEq P] {limit_pos : 0 < limit} {cleaner : Option (Extras → Extras)}

theorem localStep_lockStep {action : Action limit Extras} (coherent : Coherent own)
    (step : localStep limit_pos cleaner shared own action = some (shared', own')) (j : Fin limit) :
    LockStep j shared own shared' own' := by
  obtain ⟨i, pc, at_pc, _, rfl, rfl⟩ | ⟨idle, i, enters⟩ := localStep_cases step
  · by_cases same : j = i
    · subst same
      exact proceedAt_lockStep at_pc coherent
    · exact (proceedAt_frame at_pc).lockStep same
  · by_cases same : j = i
    · subst same
      exact enters_lockStep idle enters
    · exact (enters_frame idle enters).lockStep same

theorem lockSystem_update (i : Fin limit) (system : System P limit Extras)
    (shared : Shared limit Extras) (p : P) (own : Process limit) :
    lockSystem i { memory := shared, process := Function.update system.process p own } =
      { memory := (shared.slots i).lock
        process := Function.update (lockSystem i system).process p (lockProcess i own) } := by
  simp only [lockSystem, State.mk.injEq, true_and]
  exact Function.comp_update (lockProcess i) system.process p own

variable {after before : System P limit Extras} {label : P × Action limit Extras}

/-- A step of the map is, for the lock of any slot, a step of the lock system or no step. -/
theorem lockSystem_step (coherent : ∀ p, Coherent (before.process p))
    (step : next limit_pos cleaner before label = some after) (i : Fin limit) :
    lockSystem i after = lockSystem i before ∨
      ∃ label', ReadWriteLock.next (lockSystem i before) label' = some (lockSystem i after) := by
  obtain ⟨p, action⟩ := label
  obtain ⟨shared, own, local_step, rfl⟩ := interleave_eq_some.mp step
  rw [lockSystem_update]
  rcases localStep_lockStep (coherent p) local_step i with ⟨lock, same⟩ | ⟨lockAction, moved⟩
  · left
    rw [lock, same]
    exact congrArg (State.mk _) (Function.update_eq_self p (lockSystem i before).process)
  · right
    exact ⟨(p, lockAction), interleave_eq_some.mpr ⟨_, _, moved, rfl⟩⟩

theorem lockInvariant_step [Fintype P] (coherent : ∀ p, Coherent (before.process p))
    (step : next limit_pos cleaner before label = some after) (i : Fin limit)
    (inv : ReadWriteLock.Invariant (lockSystem i before)) :
    ReadWriteLock.Invariant (lockSystem i after) := by
  rcases lockSystem_step coherent step i with same | ⟨lockLabel, lock_step⟩
  · rw [same]
    exact inv
  · exact ReadWriteLock.invariant_step inv lock_step

end System

end StoreMap
end Ipc
end Squid
