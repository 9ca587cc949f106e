import Squid.Ipc.ReadWriteLock

/-!
# `Ipc::StoreMap`

The slot protocol of `src/ipc/StoreMap.cc`.  A map is an array of slots, each with its own
`ReadWriteLock`, and a counter of used slots.  Every access to a lock word, to `state`, to
`waitingToBeFreed` and to `count` is one step of the process that makes it.  A process runs one
operation at a time; between operations it may have any number of slots open.
-/

namespace Squid
namespace Ipc

/-- `StoreMapSlot::State`. -/
inductive SlotState
  /-- Ready for writing, with nothing of value. -/
  | Empty
  /-- Transitions from `Empty` to `Readable`. -/
  | Writeable
  /-- Ready for reading. -/
  | Readable
  deriving DecidableEq

/-- `StoreMapSlot::Basics`. -/
structure Basics where
  timestamp : ℤ := 0
  lastref : ℤ := 0
  expires : ℤ := 0
  lastmod : ℤ := 0
  swap_file_sz : UInt64 := 0
  refcount : UInt16 := 0
  flags : UInt16 := 0

/-- A `cache_key` read as two words. -/
abbrev CacheKey := UInt64 × UInt64

/-- A map slot with the extra data that `StoreMapWithExtras` keeps for it. -/
structure StoreMapSlot (Extras : Type*) where
  /-- Protects the slot data below. -/
  lock : ReadWriteLock := {}
  /-- May be accessed without a lock. -/
  waitingToBeFreed : Bool := false
  /-- Key of the stored entry. -/
  key : CacheKey := (0, 0)
  /-- Metadata of the stored entry. -/
  basics : Basics := {}
  /-- Extra data of the stored entry. -/
  extras : Extras
  /-- Current state. -/
  state : SlotState := .Empty

namespace StoreMap

/-- Position inside `freeLocked`. -/
inductive FreePc
  /-- Before `cleaner->cleanReadable`. -/
  | clean
  /-- Before `waitingToBeFreed = false`. -/
  | unmark
  /-- Before `state = Empty`. -/
  | empty
  /-- Before `unlockExclusive`, which `keepLocked` skips. -/
  | unlock
  /-- Before `--count`. -/
  | uncount
  deriving DecidableEq

/-- Position of a process inside an operation on one slot. -/
inductive Pc
  /-- `openForWriting`: `lockExclusive` as the first writer. -/
  | writeTest
  /-- `openForWriting`: `lockExclusive` has to be undone. -/
  | writeUndo
  /-- `openForWriting`: locked, before the first assertion. -/
  | writeLocked
  /-- `openForWriting`: before the second assertion and `++count`. -/
  | writeCount
  /-- `openForWriting`: before `state = Writeable`. -/
  | writeState
  /-- `freeLocked`, called by `openForWriting` with `keepLocked`, by the others without. -/
  | freeLocked (keepLocked : Bool) (position : FreePc)
  /-- `closeForWriting`: `Readable`, before the lock is released or switched. -/
  | closeWriteUnlock (lockForReading : Bool)
  /-- `closeForWriting`: `switchExclusiveToShared` after `++readers`. -/
  | closeWriteSwitch
  /-- `abortIo`: `abortWriting` before its assertion. -/
  | abortWriting
  /-- `closeForReading`, called by `abortIo`, before its assertion. -/
  | closeReadCheck
  /-- `closeForReading`: before `unlockShared`. -/
  | closeReadUnlock
  /-- `free`: `lockExclusive` as the first writer. -/
  | freeTest
  /-- `free`: `lockExclusive` has to be undone. -/
  | freeUndo
  /-- `free`: before `waitingToBeFreed = true`. -/
  | freeMark
  /-- `openForReadingAt`: `lockShared` before the test of `writers`. -/
  | readTest (key : Option CacheKey)
  /-- `openForReadingAt`: `lockShared` has to be undone. -/
  | readUndo
  /-- `openForReadingAt`: locked, before the test for `Empty`. -/
  | readEmpty (key : Option CacheKey)
  /-- `openForReadingAt`: before the test of `waitingToBeFreed`. -/
  | readWaiting (key : Option CacheKey)
  /-- `openForReadingAt`: before the assertion. -/
  | readAssert (key : Option CacheKey)
  /-- `openForReading`: before `sameKey`. -/
  | readKey (key : CacheKey)
  /-- `openForReading` and `openForReadingAt`: before `unlockShared`. -/
  | readRelease
  deriving DecidableEq

variable {limit : ℕ} {Extras : Type*}

/-- Private state of a process: the operation in progress, if any, and the slots it opened. -/
structure Process (limit : ℕ) where
  /-- Slot and position of the operation in progress. -/
  pc : Option (Fin limit × Pc) := none
  /-- Slots open for writing. -/
  writing : Fin limit → Bool := fun _ => false
  /-- Number of times each slot is open for reading. -/
  reading : Fin limit → ℕ := fun _ => 0

/-- `StoreMap::Shared`. -/
structure Shared (limit : ℕ) (Extras : Type*) where
  /-- Current number of map slots. -/
  count : ℤ
  /-- Slots storage. -/
  slots : Fin limit → StoreMapSlot Extras

/-- Access to one slot. -/
def Shared.modify (shared : Shared limit Extras) (i : Fin limit)
    (change : StoreMapSlot Extras → StoreMapSlot Extras) : Shared limit Extras :=
  { shared with slots := Function.update shared.slots i (change (shared.slots i)) }

/-- Access to the lock words of one slot. -/
def Shared.modifyLock (shared : Shared limit Extras) (i : Fin limit)
    (change : ReadWriteLock → ReadWriteLock) : Shared limit Extras :=
  shared.modify i fun slot => { slot with lock := change slot.lock }

section

variable (shared : Shared limit Extras)
include shared

@[simp]
theorem Shared.modify_count (i : Fin limit) (change : StoreMapSlot Extras → StoreMapSlot Extras) :
    (shared.modify i change).count = shared.count := rfl

@[simp]
theorem Shared.modify_slots_self (i : Fin limit)
    (change : StoreMapSlot Extras → StoreMapSlot Extras) :
    (shared.modify i change).slots i = change (shared.slots i) := by
  simp [Shared.modify]

@[simp]
theorem Shared.modify_slots_of_ne {i j : Fin limit} (ne : j ≠ i)
    (change : StoreMapSlot Extras → StoreMapSlot Extras) :
    (shared.modify i change).slots j = shared.slots j := by
  simp [Shared.modify, ne]

@[simp]
theorem Shared.modifyLock_count (i : Fin limit) (change : ReadWriteLock → ReadWriteLock) :
    (shared.modifyLock i change).count = shared.count := rfl

@[simp]
theorem Shared.modifyLock_slots_self (i : Fin limit) (change : ReadWriteLock → ReadWriteLock) :
    (shared.modifyLock i change).slots i =
      { shared.slots i with lock := change (shared.slots i).lock } :=
  shared.modify_slots_self i _

@[simp]
theorem Shared.modifyLock_slots_of_ne {i j : Fin limit} (ne : j ≠ i)
    (change : ReadWriteLock → ReadWriteLock) :
    (shared.modifyLock i change).slots j = shared.slots j :=
  shared.modify_slots_of_ne ne _

end

/-- `slotIndexByKey`: the sum wraps on `uint64_t`. -/
def slotIndexByKey (limit_pos : 0 < limit) (key : CacheKey) : Fin limit :=
  ⟨(key.1 + key.2).toNat % limit, Nat.mod_lt _ limit_pos⟩

/-- The steps a process may take: enter an operation, fill a slot it writes, or proceed. -/
inductive Action (limit : ℕ) (Extras : Type*)
  | openForWriting (key : CacheKey)
  | closeForWriting (fileno : Fin limit) (lockForReading : Bool)
  | abortIo (fileno : Fin limit)
  | openForReading (key : CacheKey)
  | openForReadingAt (fileno : Fin limit)
  | closeForReading (fileno : Fin limit)
  | free (fileno : Fin limit)
  /-- `StoreMapSlot::set` by the process that has the slot open for writing. -/
  | set (fileno : Fin limit) (key : CacheKey) (basics : Basics)
  /-- Assignment to `StoreMapWithExtras::extras` by the same process. -/
  | setExtras (fileno : Fin limit) (extras : Extras)
  | proceed

/-- What `lockExclusive` does to `writers`. -/
@[simp]
def enterExclusive (shared : Shared limit Extras) (i : Fin limit) : Shared limit Extras :=
  shared.modifyLock i fun lock => { lock with writers := lock.writers + 1 }

/-- What `lockShared` does to `readers`. -/
@[simp]
def enterShared (shared : Shared limit Extras) (i : Fin limit) : Shared limit Extras :=
  shared.modifyLock i fun lock => { lock with readers := lock.readers + 1 }

/-- `--writers`, in `lockExclusive` and `unlockExclusive`. -/
@[simp]
def leaveExclusive (shared : Shared limit Extras) (i : Fin limit) : Shared limit Extras :=
  shared.modifyLock i fun lock => { lock with writers := lock.writers - 1 }

/-- `--readers`, in `lockShared` and `unlockShared`. -/
@[simp]
def leaveShared (shared : Shared limit Extras) (i : Fin limit) : Shared limit Extras :=
  shared.modifyLock i fun lock => { lock with readers := lock.readers - 1 }

/-- The process proceeds to another position of the operation on slot `i`. -/
def Process.goto (own : Process limit) (i : Fin limit) (pc : Pc) : Process limit :=
  { own with pc := some (i, pc) }

/-- The operation returns. -/
def Process.finish (own : Process limit) : Process limit := { own with pc := none }

/-- The operation returns with the slot opened for reading. -/
def Process.returnReading (own : Process limit) (i : Fin limit) : Process limit :=
  { own with
    pc := none
    reading := Function.update own.reading i (own.reading i + 1) }

/-- The operation returns with the slot opened for writing. -/
def Process.returnWriting (own : Process limit) (i : Fin limit) : Process limit :=
  { own with
    pc := none
    writing := Function.update own.writing i true }

/-- The slot is no longer open for writing; the operation in progress still holds its lock. -/
def Process.endWriting (own : Process limit) (i : Fin limit) : Process limit :=
  { own with writing := Function.update own.writing i false }

/-- The slot is open for reading once less; the operation in progress still holds its lock. -/
def Process.endReading (own : Process limit) (i : Fin limit) : Process limit :=
  { own with reading := Function.update own.reading i (own.reading i - 1) }

/-- `freeLocked`; `cleaner` is what the `StoreMapCleaner` does to the extra data, if there is one. -/
def proceedFreeLocked (cleaner : Option (Extras → Extras)) (shared : Shared limit Extras)
    (own : Process limit) (i : Fin limit) (keepLocked : Bool) :
    FreePc → Shared limit Extras × Process limit
  | .clean =>
      (match cleaner with
        | some cleanReadable =>
            if (shared.slots i).state = .Readable then
              shared.modify i fun slot => { slot with extras := cleanReadable slot.extras }
            else
              shared
        | none => shared,
        own.goto i (.freeLocked keepLocked .unmark))
  | .unmark =>
      (shared.modify i fun slot => { slot with waitingToBeFreed := false },
        own.goto i (.freeLocked keepLocked .empty))
  | .empty =>
      (shared.modify i fun slot => { slot with state := .Empty },
        own.goto i (.freeLocked keepLocked .unlock))
  | .unlock =>
      (if keepLocked then shared else leaveExclusive shared i,
        own.goto i (.freeLocked keepLocked .uncount))
  | .uncount =>
      ({ shared with count := shared.count - 1 },
        if keepLocked then own.goto i .writeCount else own.finish)

/-- The next step of the operation in progress on slot `i`. -/
def proceedAt (cleaner : Option (Extras → Extras)) (shared : Shared limit Extras)
    (own : Process limit) (i : Fin limit) : Pc → Shared limit Extras × Process limit
  | .writeTest =>
      if (shared.slots i).lock.readers = 0 then
        (shared, own.goto i .writeLocked)
      else
        (shared, own.goto i .writeUndo)
  | .writeUndo => (leaveExclusive shared i, own.finish)
  | .writeLocked =>
      if (shared.slots i).waitingToBeFreed = true ∨ (shared.slots i).state = .Readable then
        (shared, own.goto i (.freeLocked true .clean))
      else
        (shared, own.goto i .writeCount)
  | .writeCount => ({ shared with count := shared.count + 1 }, own.goto i .writeState)
  | .writeState =>
      (shared.modify i fun slot => { slot with state := .Writeable }, own.returnWriting i)
  | .freeLocked keepLocked position => proceedFreeLocked cleaner shared own i keepLocked position
  | .closeWriteUnlock lockForReading =>
      if lockForReading then
        (enterShared shared i, own.goto i .closeWriteSwitch)
      else
        (leaveExclusive shared i, own.finish)
  | .closeWriteSwitch => (leaveExclusive shared i, own.returnReading i)
  | .abortWriting => (shared, (own.endWriting i).goto i (.freeLocked false .clean))
  | .closeReadCheck => (shared, (own.endReading i).goto i .closeReadUnlock)
  | .closeReadUnlock => (leaveShared shared i, own.finish)
  | .freeTest =>
      if (shared.slots i).lock.readers = 0 then
        (shared, own.goto i (.freeLocked false .clean))
      else
        (shared, own.goto i .freeUndo)
  | .freeUndo => (leaveExclusive shared i, own.goto i .freeMark)
  | .freeMark =>
      (shared.modify i fun slot => { slot with waitingToBeFreed := true }, own.finish)
  | .readTest key =>
      if (shared.slots i).lock.writers = 0 then
        (shared, own.goto i (.readEmpty key))
      else
        (shared, own.goto i .readUndo)
  | .readUndo => (leaveShared shared i, own.finish)
  | .readEmpty key =>
      if (shared.slots i).state = .Empty then
        (shared, own.goto i .readRelease)
      else
        (shared, own.goto i (.readWaiting key))
  | .readWaiting key =>
      if (shared.slots i).waitingToBeFreed = true then
        (shared, own.goto i .readRelease)
      else
        (shared, own.goto i (.readAssert key))
  | .readAssert none => (shared, own.returnReading i)
  | .readAssert (some key) => (shared, own.goto i (.readKey key))
  | .readKey key =>
      if (shared.slots i).key = key then
        (shared, own.returnReading i)
      else
        (shared, own.goto i .readRelease)
  | .readRelease => (leaveShared shared i, own.finish)

/-- One step of one process.  A process closes, aborts and fills only slots it opened. -/
def localStep (limit_pos : 0 < limit) (cleaner : Option (Extras → Extras))
    (shared : Shared limit Extras) (own : Process limit) (action : Action limit Extras) :
    Option (Shared limit Extras × Process limit) :=
  match own.pc, action with
  | some (i, pc), .proceed => some (proceedAt cleaner shared own i pc)
  | none, .openForWriting key =>
      let i := slotIndexByKey limit_pos key
      some (enterExclusive shared i,
        own.goto i (if (shared.slots i).lock.writers = 0 then .writeTest else .writeUndo))
  | none, .closeForWriting i lockForReading =>
      if own.writing i then
        some (shared.modify i fun slot => { slot with state := .Readable },
          (own.endWriting i).goto i (.closeWriteUnlock lockForReading))
      else
        none
  | none, .abortIo i =>
      if own.writing i = true ∨ 0 < own.reading i then
        some (shared,
          own.goto i
            (if (shared.slots i).state = .Writeable then .abortWriting else .closeReadCheck))
      else
        none
  | none, .openForReading key =>
      let i := slotIndexByKey limit_pos key
      some (enterShared shared i, own.goto i (.readTest (some key)))
  | none, .openForReadingAt i => some (enterShared shared i, own.goto i (.readTest none))
  | none, .closeForReading i =>
      if 0 < own.reading i then
        some (shared, (own.endReading i).goto i .closeReadUnlock)
      else
        none
  | none, .free i =>
      some (enterExclusive shared i,
        own.goto i (if (shared.slots i).lock.writers = 0 then .freeTest else .freeUndo))
  | none, .set i key basics =>
      if own.writing i then
        some (shared.modify i fun slot => { slot with key, basics }, own)
      else
        none
  | none, .setExtras i extras =>
      if own.writing i then
        some (shared.modify i fun slot => { slot with extras }, own)
      else
        none
  | _, _ => none

/-- The first step of an operation on slot `i`, or a write to a slot that is open for writing. -/
inductive Enters (shared : Shared limit Extras) (own : Process limit) (i : Fin limit) :
    Action limit Extras → Shared limit Extras → Process limit → Prop
  | openForWriting (limit_pos : 0 < limit) (key : CacheKey) (slot : slotIndexByKey limit_pos key = i) :
      Enters shared own i (.openForWriting key) (enterExclusive shared i)
        (own.goto i (if (shared.slots i).lock.writers = 0 then .writeTest else .writeUndo))
  | free :
      Enters shared own i (.free i) (enterExclusive shared i)
        (own.goto i (if (shared.slots i).lock.writers = 0 then .freeTest else .freeUndo))
  | openForReading (limit_pos : 0 < limit) (key : CacheKey) (slot : slotIndexByKey limit_pos key = i) :
      Enters shared own i (.openForReading key) (enterShared shared i)
        (own.goto i (.readTest (some key)))
  | openForReadingAt :
      Enters shared own i (.openForReadingAt i) (enterShared shared i) (own.goto i (.readTest none))
  | closeForWriting (lockForReading : Bool) (writing : own.writing i = true) :
      Enters shared own i (.closeForWriting i lockForReading)
        (shared.modify i fun slot => { slot with state := .Readable })
        ((own.endWriting i).goto i (.closeWriteUnlock lockForReading))
  | abortIo (opened : own.writing i = true ∨ 0 < own.reading i) :
      Enters shared own i (.abortIo i) shared
        (own.goto i
          (if (shared.slots i).state = .Writeable then .abortWriting else .closeReadCheck))
  | closeForReading (reading : 0 < own.reading i) :
      Enters shared own i (.closeForReading i) shared ((own.endReading i).goto i .closeReadUnlock)
  | set (key : CacheKey) (basics : Basics) (writing : own.writing i = true) :
      Enters shared own i (.set i key basics)
        (shared.modify i fun slot => { slot with key, basics }) own
  | setExtras (extras : Extras) (writing : own.writing i = true) :
      Enters shared own i (.setExtras i extras) (shared.modify i fun slot => { slot with extras }) own

/-- A step either proceeds with the operation in progress or is taken between operations. -/
theorem localStep_cases {limit_pos : 0 < limit} {cleaner : Option (Extras → Extras)}
    {shared shared' : Shared limit Extras} {own own' : Process limit} {action : Action limit Extras}
    (step : localStep limit_pos cleaner shared own action = some (shared', own')) :
    (∃ i pc, own.pc = some (i, pc) ∧ action = .proceed ∧
      shared' = (proceedAt cleaner shared own i pc).1 ∧
      own' = (proceedAt cleaner shared own i pc).2) ∨
    (own.pc = none ∧ ∃ i, Enters shared own i action shared' own') := by
  unfold localStep at step
  split at step
  · rename_i i pc at_pc
    rw [Option.some.injEq] at step
    exact .inl ⟨i, pc, at_pc, rfl, by rw [step], by rw [step]⟩
  all_goals try (rename_i idle; refine .inr ⟨idle, ?_⟩)
  · cases step
    exact ⟨_, .openForWriting limit_pos _ rfl⟩
  · split at step <;> cases step
    exact ⟨_, .closeForWriting _ ‹_›⟩
  · split at step <;> cases step
    exact ⟨_, .abortIo ‹_›⟩
  · cases step
    exact ⟨_, .openForReading limit_pos _ rfl⟩
  · cases step
    exact ⟨_, .openForReadingAt⟩
  · split at step <;> cases step
    exact ⟨_, .closeForReading ‹_›⟩
  · cases step
    exact ⟨_, .free⟩
  · split at step <;> cases step
    exact ⟨_, .set _ _ ‹_›⟩
  · split at step <;> cases step
    exact ⟨_, .setExtras _ ‹_›⟩
  · cases step

/-- The `assert` evaluated at a position, `True` where there is none. -/
def AssertsAt (slot : StoreMapSlot Extras) : Pc → Prop
  | .writeLocked => slot.state ≠ .Writeable
  | .writeCount => slot.state = .Empty
  | .abortWriting => slot.state = .Writeable
  | .readAssert _ | .closeReadCheck => slot.state = .Readable
  | .freeLocked false .unlock | .closeWriteUnlock false | .closeWriteSwitch => 0 < slot.lock.writers
  | .readRelease | .closeReadUnlock => 0 < slot.lock.readers
  | _ => True

/-- The `assert` evaluated by a step. -/
def Asserts (shared : Shared limit Extras) (own : Process limit) : Action limit Extras → Prop
  | .proceed => ∀ i pc, own.pc = some (i, pc) → AssertsAt (shared.slots i) pc
  | .closeForWriting i _ => (shared.slots i).state = .Writeable
  | .closeForReading i => (shared.slots i).state = .Readable
  | _ => True

/-- A map in shared memory and the processes attached to it. -/
abbrev System (P : Type*) (limit : ℕ) (Extras : Type*) :=
  Interleaving.State P (Shared limit Extras) (Process limit)

/-- A new map, with zeroed extra data, and processes that opened nothing. -/
def initial (P : Type*) (limit : ℕ) (zeroed : Extras) : System P limit Extras where
  memory := { count := 0, slots := fun _ => { extras := zeroed } }
  process _ := {}

/-- One step of one of the processes. -/
def next {P : Type*} [DecidableEq P] (limit_pos : 0 < limit) (cleaner : Option (Extras → Extras))
    (system : System P limit Extras) (label : P × Action limit Extras) :
    Option (System P limit Extras) :=
  Interleaving.interleave (localStep limit_pos cleaner) system label

end StoreMap
end Ipc
end Squid
