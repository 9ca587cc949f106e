import Mathlib.Algebra.Order.Ring.Int
import Mathlib.Data.List.Nodup
import Mathlib.Data.List.Rotate
import Mathlib.Logic.Function.Basic
import Mathlib.Tactic.Linarith
import Squid.Library.CRuntime

/-!
# `Ipc::FewToFewBiQueue`

Processes of two groups exchange items through the queues of `src/ipc/Queue.cc`, one for each pair
of a sender and a receiver in opposite groups.  A call of `pop` tries the queues from the remote
processes in turn; other processes may run between two tries.  The signals of the readers are left
out.  Identifiers, sizes and indices are of type `int`: sums and products wrap around.
-/

open CRuntime

namespace Squid
namespace Ipc

open List Option Function

/-- `FewToFewBiQueue::Group`. -/
inductive Group where
  | groupA
  | groupB
  deriving DecidableEq

/-- `remoteGroup`, for the local group. -/
def Group.remoteGroup : Group → Group
  | groupA => groupB
  | groupB => groupA

theorem Group.ne_remoteGroup (group : Group) : group ≠ group.remoteGroup := by
  cases group <;> exact nofun

/-- One end of the queue: a group and an identifier. -/
structure Process where
  group : Group
  processId : ℤ
  deriving DecidableEq

namespace FewToFewBiQueue

structure Metadata where
  theGroupASize : ℤ
  theGroupAIdOffset : ℤ
  theGroupBSize : ℤ
  theGroupBIdOffset : ℤ
  /-- `Must(theGroupASize > 0)`. -/
  groupASize_pos : 0 < theGroupASize
  /-- `Must(theGroupBSize > 0)`. -/
  groupBSize_pos : 0 < theGroupBSize

namespace Metadata

/-- The size of a group. -/
def groupSize (metadata : Metadata) : Group → ℤ
  | .groupA => metadata.theGroupASize
  | .groupB => metadata.theGroupBSize

/-- The first identifier of a group. -/
def groupIdOffset (metadata : Metadata) : Group → ℤ
  | .groupA => metadata.theGroupAIdOffset
  | .groupB => metadata.theGroupBIdOffset

def validProcessId (metadata : Metadata) (process : Process) : Prop :=
  metadata.groupIdOffset process.group ≤ process.processId ∧
    process.processId <
      int32 (metadata.groupIdOffset process.group + metadata.groupSize process.group)

instance validProcessId.decidable (metadata : Metadata) (process : Process) :
    Decidable (metadata.validProcessId process) := inferInstanceAs (Decidable (_ ∧ _))

/-- `oneToOneQueueIndex`, where `none` is a failed assertion. -/
def oneToOneQueueIndex (metadata : Metadata) (sender receiver : Process) : Option ℤ :=
  if sender.group = receiver.group then none
  else if ¬metadata.validProcessId sender then none
  else if ¬metadata.validProcessId receiver then none
  else
    match sender.group with
    | .groupA =>
        let index1 := sender.processId - metadata.theGroupAIdOffset
        let index2 := receiver.processId - metadata.theGroupBIdOffset
        some (int32 (0 + index1 * metadata.theGroupBSize + index2))
    | .groupB =>
        let index1 := receiver.processId - metadata.theGroupAIdOffset
        let index2 := sender.processId - metadata.theGroupBIdOffset
        let offset := metadata.theGroupASize * metadata.theGroupBSize
        some (int32 (offset + index1 * metadata.theGroupBSize + index2))

/-- `readerIndex`, where `none` is a failed assertion. -/
def readerIndex (metadata : Metadata) (process : Process) : Option ℤ :=
  if ¬metadata.validProcessId process then none
  else
    match process.group with
    | .groupA => some (int32 (process.processId - metadata.theGroupAIdOffset))
    | .groupB =>
        some (int32 (metadata.theGroupASize + process.processId - metadata.theGroupBIdOffset))

/-- `remoteGroupSize` of a process. -/
def remoteGroupSize (metadata : Metadata) (process : Process) : ℤ :=
  metadata.groupSize process.group.remoteGroup

/-- `remoteGroupIdOffset` of a process. -/
def remoteGroupIdOffset (metadata : Metadata) (process : Process) : ℤ :=
  metadata.groupIdOffset process.group.remoteGroup

/-- The next value of `theLastPopProcessId` in `pop`. -/
def nextPopProcessId (metadata : Metadata) (process : Process) (theLastPopProcessId : ℤ) : ℤ :=
  if int32 (metadata.remoteGroupIdOffset process + metadata.remoteGroupSize process) ≤
      int32 (theLastPopProcessId + 1) then metadata.remoteGroupIdOffset process
  else int32 (theLastPopProcessId + 1)

end Metadata

/-- The shared memory, and what each process remembers of its calls of `pop`. -/
structure System (V : Type) where
  metadata : Metadata
  /-- `queues->theCapacity`. -/
  queuesCapacity : ℤ
  /-- `readers->theCapacity`. -/
  readersCapacity : ℤ
  /-- The capacity of each queue. -/
  theCapacity : ℤ
  /-- The items of the queues, the oldest ones first.  So they are kept if the capacity divides
  `2 ^ 32`, as `QueueCapacity` does. -/
  items : ℤ → List V
  theLastPopProcessId : Process → ℤ
  /-- How many queues the running call of `pop` has tried. -/
  i : Process → ℕ

/-- What a call did: one step of `pop` is a try of one queue. -/
inductive Event (V : Type) where
  | pushed (sender receiver : Process) (value : V)
  | full (sender receiver : Process)
  | tried (receiver sender : Process) (value : Option V) (returned : Bool)

/-- Calls of the processes; `pop` is called or goes on with its next turn. -/
inductive Call (V : Type) where
  | push (process : Process) (remoteProcessId : ℤ) (value : V)
  | pop (process : Process)

namespace System

variable {V : Type}

/-- `OneToOneUniQueue::Items2Bytes`; the queue itself has 20 bytes. -/
def Items2Bytes (maxItemSize : ℕ) (size : ℤ) : ℤ := int32 (20 + maxItemSize * size % 2 ^ 32)

/-- `OneToOneUniQueues::SharedMemorySize`, as `Segment::create` gets it. -/
def SharedMemorySize (capacity : ℤ) (maxItemSize : ℕ) (queueCapacity : ℤ) : ℤ :=
  4 + int32 (Items2Bytes maxItemSize queueCapacity * capacity)

/-- `Owner`, and the constructor of every process; `none` is a failed assertion, or queues that
need more room than their segment has. -/
def init (groupASize groupAIdOffset groupBSize groupBIdOffset : ℤ) (maxItemSize : ℕ)
    (capacity : ℤ) : Option (System V) :=
  let queuesCapacity := int32 (groupASize * groupBSize * 2)
  let readersCapacity := int32 (groupASize + groupBSize)
  let segment := SharedMemorySize queuesCapacity maxItemSize capacity
  if musts : 0 < groupASize ∧ 0 < groupBSize ∧ 0 < segment ∧ 0 < queuesCapacity ∧
      0 < maxItemSize ∧ 0 < capacity ∧ 0 < readersCapacity ∧
      4 + (20 + maxItemSize * capacity) * queuesCapacity ≤ segment then
    some {
      metadata :=
        ⟨groupASize, groupAIdOffset, groupBSize, groupBIdOffset, musts.1, musts.2.1⟩
      queuesCapacity
      readersCapacity
      theCapacity := capacity
      items := fun _ => []
      theLastPopProcessId := fun _ => readersCapacity
      i := fun _ => 0 }
  else none

def oneToOneQueue (system : System V) (sender receiver : Process) : Option ℤ := do
  let index ← system.metadata.oneToOneQueueIndex sender receiver
  if 0 ≤ index ∧ index < system.queuesCapacity then some index else none

def reader (system : System V) (process : Process) : Option ℤ := do
  let index ← system.metadata.readerIndex process
  if 0 ≤ index ∧ index < system.readersCapacity then some index else none

def push (system : System V) (process : Process) (remoteProcessId : ℤ) (value : V) :
    Option (Event V × System V) := do
  let remote := ⟨process.group.remoteGroup, remoteProcessId⟩
  let queue ← system.oneToOneQueue process remote
  let _ ← system.reader remote
  if system.theCapacity ≤ (system.items queue).length then some (.full process remote, system)
  else
    some (.pushed process remote value,
      { system with
        items := update system.items queue (system.items queue ++ [value]) })

/-- A turn of the loop of `pop`. -/
def pop (system : System V) (process : Process) : Option (Event V × System V) := do
  let _ ← system.reader process
  let next := system.metadata.nextPopProcessId process (system.theLastPopProcessId process)
  let remote := ⟨process.group.remoteGroup, next⟩
  let system := { system with
    theLastPopProcessId := update system.theLastPopProcessId process next }
  let queue ← system.oneToOneQueue remote process
  match system.items queue with
  | value :: rest =>
      some (.tried process remote (some value) true,
        { system with
          items := update system.items queue rest
          i := update system.i process 0 })
  | [] =>
      let tries := system.i process + 1
      if tries < system.metadata.remoteGroupSize process then
        some (.tried process remote none false,
          { system with i := update system.i process tries })
      else
        some (.tried process remote none true,
          { system with i := update system.i process 0 })

/-- One step of a process. -/
def next (system : System V) : Call V → Option (Event V × System V)
  | .push process remoteProcessId value => system.push process remoteProcessId value
  | .pop process => system.pop process

/-- A run, with what its calls did. -/
def execute (system : System V) : List (Call V) → Option (List (Event V) × System V)
  | [] => some ([], system)
  | call :: calls => do
      let (event, system) ← system.next call
      let (events, system) ← system.execute calls
      some (event :: events, system)

end System

/-! ## The queue of a pair of processes -/

variable {b x y : ℤ}

/-- A position in a table with rows of a given length. -/
theorem mixed_bounds {a : ℤ} (hx : 0 ≤ x ∧ x < a) (hy : 0 ≤ y ∧ y < b) :
    0 ≤ x * b + y ∧ x * b + y < a * b := by
  have below : (x + 1) * b ≤ a * b := Int.mul_le_mul_of_nonneg_right hx.2 (by omega)
  have above : 0 ≤ x * b := Int.mul_nonneg hx.1 (by omega)
  rw [Int.add_mul, Int.one_mul] at below
  omega

theorem mixed_injective {x' y' : ℤ} (hy : 0 ≤ y ∧ y < b) (hy' : 0 ≤ y' ∧ y' < b)
    (same : x * b + y = x' * b + y') : x = x' ∧ y = y' := by
  have row : x = x' := by
    rcases lt_trichotomy x x' with less | equal | more
    · have := Int.mul_le_mul_of_nonneg_right (show x + 1 ≤ x' from less) (show 0 ≤ b by omega)
      rw [Int.add_mul, Int.one_mul] at this
      omega
    · exact equal
    · have := Int.mul_le_mul_of_nonneg_right (show x' + 1 ≤ x from more) (show 0 ≤ b by omega)
      rw [Int.add_mul, Int.one_mul] at this
      omega
  subst row
  exact ⟨rfl, by omega⟩

namespace Metadata

/-- No sum and no product overflows. -/
structure Fits (metadata : Metadata) : Prop where
  offset : ∀ group, 0 ≤ metadata.groupIdOffset group
  ids : ∀ group, metadata.groupIdOffset group + metadata.groupSize group < 2 ^ 31
  queues : metadata.theGroupASize * metadata.theGroupBSize * 2 < 2 ^ 31
  readers : metadata.theGroupASize + metadata.theGroupBSize < 2 ^ 31

variable {metadata : Metadata} {sender receiver sender' receiver' : Process} {index : ℤ}

theorem groupSize_pos (metadata : Metadata) (group : Group) : 0 < metadata.groupSize group := by
  cases group with
  | groupA => exact metadata.groupASize_pos
  | groupB => exact metadata.groupBSize_pos

theorem Fits.int32_ids (fits : metadata.Fits) (group : Group) :
    int32 (metadata.groupIdOffset group + metadata.groupSize group) =
      metadata.groupIdOffset group + metadata.groupSize group := by
  have := fits.offset group
  have := metadata.groupSize_pos group
  exact int32_eq (by omega) (fits.ids group)

variable {process : Process}

section

variable (fits : metadata.Fits)
include fits

theorem validProcessId_iff :
    metadata.validProcessId process ↔
      metadata.groupIdOffset process.group ≤ process.processId ∧
        process.processId <
          metadata.groupIdOffset process.group + metadata.groupSize process.group := by
  rw [validProcessId, fits.int32_ids]

/-- The cell of a pair of processes in the two tables of queues. -/
theorem oneToOneQueueIndex_cases (opposite : sender.group ≠ receiver.group)
    (valid : metadata.validProcessId sender) (valid' : metadata.validProcessId receiver) :
    ∃ a b, (0 ≤ a ∧ a < metadata.theGroupASize) ∧ (0 ≤ b ∧ b < metadata.theGroupBSize) ∧
      ((sender = ⟨.groupA, metadata.theGroupAIdOffset + a⟩ ∧
          receiver = ⟨.groupB, metadata.theGroupBIdOffset + b⟩ ∧
          metadata.oneToOneQueueIndex sender receiver = some (a * metadata.theGroupBSize + b)) ∨
        (sender = ⟨.groupB, metadata.theGroupBIdOffset + b⟩ ∧
          receiver = ⟨.groupA, metadata.theGroupAIdOffset + a⟩ ∧
          metadata.oneToOneQueueIndex sender receiver =
            some (metadata.theGroupASize * metadata.theGroupBSize +
              (a * metadata.theGroupBSize + b)))) := by
  rw [oneToOneQueueIndex, if_neg opposite, if_neg (not_not_intro valid),
    if_neg (not_not_intro valid')]
  have queues := fits.queues
  rw [validProcessId_iff fits] at valid valid'
  obtain ⟨group, s⟩ := sender
  obtain ⟨group', r⟩ := receiver
  cases group with
  | groupA =>
      cases group' with
      | groupA => exact absurd rfl opposite
      | groupB =>
          simp only [groupSize, groupIdOffset] at valid valid'
          have row : 0 ≤ s - metadata.theGroupAIdOffset ∧
            s - metadata.theGroupAIdOffset < metadata.theGroupASize := by omega
          have column : 0 ≤ r - metadata.theGroupBIdOffset ∧
            r - metadata.theGroupBIdOffset < metadata.theGroupBSize := by omega
          have bounds := mixed_bounds row column
          refine ⟨_, _, row, column, .inl ⟨?_, ?_, ?_⟩⟩
          · rw [add_sub_cancel]
          · rw [add_sub_cancel]
          · dsimp only
            rw [Int.zero_add, int32_eq (by omega) (by omega)]
  | groupB =>
      cases group' with
      | groupB => exact absurd rfl opposite
      | groupA =>
          simp only [groupSize, groupIdOffset] at valid valid'
          have row : 0 ≤ r - metadata.theGroupAIdOffset ∧
            r - metadata.theGroupAIdOffset < metadata.theGroupASize := by omega
          have column : 0 ≤ s - metadata.theGroupBIdOffset ∧
            s - metadata.theGroupBIdOffset < metadata.theGroupBSize := by omega
          have bounds := mixed_bounds row column
          refine ⟨_, _, row, column, .inr ⟨?_, ?_, ?_⟩⟩
          · rw [add_sub_cancel]
          · rw [add_sub_cancel]
          · dsimp only
            rw [Int.add_assoc, int32_eq (by omega) (by omega)]

/-- Every pair of processes in opposite groups has a queue. -/
theorem oneToOneQueueIndex_spec (opposite : sender.group ≠ receiver.group)
    (valid : metadata.validProcessId sender) (valid' : metadata.validProcessId receiver) :
    ∃ index, metadata.oneToOneQueueIndex sender receiver = some index ∧ 0 ≤ index ∧
      index < metadata.theGroupASize * metadata.theGroupBSize * 2 := by
  obtain ⟨a, b, inside, inside', ⟨-, -, index⟩ | ⟨-, -, index⟩⟩ :=
    oneToOneQueueIndex_cases fits opposite valid valid'
  · have bounds := mixed_bounds inside inside'
    exact ⟨_, index, bounds.1, by omega⟩
  · have bounds := mixed_bounds inside inside'
    exact ⟨_, index, by omega, by omega⟩

/-- Two pairs of processes have two queues. -/
theorem oneToOneQueueIndex_injective (opposite : sender.group ≠ receiver.group)
    (valid : metadata.validProcessId sender) (valid' : metadata.validProcessId receiver)
    (opposite' : sender'.group ≠ receiver'.group) (valid₁ : metadata.validProcessId sender')
    (valid₁' : metadata.validProcessId receiver')
    (same : metadata.oneToOneQueueIndex sender receiver =
      metadata.oneToOneQueueIndex sender' receiver') : sender = sender' ∧ receiver = receiver' := by
  obtain ⟨a, b, inside, inside', first⟩ := oneToOneQueueIndex_cases fits opposite valid valid'
  obtain ⟨a', b', inside₁, inside₁', second⟩ :=
    oneToOneQueueIndex_cases fits opposite' valid₁ valid₁'
  have low := mixed_bounds inside inside'
  have low' := mixed_bounds inside₁ inside₁'
  rcases first with ⟨rfl, rfl, index⟩ | ⟨rfl, rfl, index⟩ <;>
    rcases second with ⟨rfl, rfl, index'⟩ | ⟨rfl, rfl, index'⟩ <;>
    rw [index, index', some_inj] at same
  · obtain ⟨rfl, rfl⟩ := mixed_injective inside' inside₁' same
    exact ⟨rfl, rfl⟩
  · omega
  · omega
  · obtain ⟨rfl, rfl⟩ := mixed_injective inside' inside₁' (Int.add_left_cancel same)
    exact ⟨rfl, rfl⟩

theorem readerIndex_cases (valid : metadata.validProcessId process) :
    (process.group = .groupA ∧ ∃ a, (0 ≤ a ∧ a < metadata.theGroupASize) ∧
        process.processId = metadata.theGroupAIdOffset + a ∧
        metadata.readerIndex process = some a) ∨
      (process.group = .groupB ∧ ∃ b, (0 ≤ b ∧ b < metadata.theGroupBSize) ∧
        process.processId = metadata.theGroupBIdOffset + b ∧
        metadata.readerIndex process = some (metadata.theGroupASize + b)) := by
  rw [readerIndex, if_neg (not_not_intro valid)]
  have readers := fits.readers
  have := metadata.groupASize_pos
  have := metadata.groupBSize_pos
  rw [validProcessId_iff fits] at valid
  obtain ⟨group, p⟩ := process
  cases group with
  | groupA =>
      simp only [groupSize, groupIdOffset] at valid
      refine .inl ⟨rfl, p - metadata.theGroupAIdOffset, by omega, by rw [add_sub_cancel], ?_⟩
      dsimp only
      rw [int32_eq (by omega) (by omega)]
  | groupB =>
      simp only [groupSize, groupIdOffset] at valid
      refine .inr ⟨rfl, p - metadata.theGroupBIdOffset, by omega, by rw [add_sub_cancel], ?_⟩
      dsimp only
      rw [int32_eq (by omega) (by omega), Int.add_sub_assoc]

/-- Every process has a reader. -/
theorem readerIndex_spec (valid : metadata.validProcessId process) :
    ∃ index, metadata.readerIndex process = some index ∧ 0 ≤ index ∧
      index < metadata.theGroupASize + metadata.theGroupBSize := by
  have := metadata.groupASize_pos
  have := metadata.groupBSize_pos
  rcases readerIndex_cases fits valid with ⟨-, a, inside, -, index⟩ | ⟨-, b, inside, -, index⟩
  · exact ⟨a, index, inside.1, by omega⟩
  · exact ⟨_, index, by omega, by omega⟩

/-- Two processes have two readers. -/
theorem readerIndex_injective {process' : Process} (valid : metadata.validProcessId process)
    (valid' : metadata.validProcessId process')
    (same : metadata.readerIndex process = metadata.readerIndex process') : process = process' := by
  obtain ⟨group, p⟩ := process
  obtain ⟨group', p'⟩ := process'
  rcases readerIndex_cases fits valid with ⟨rfl, a, inside, first, index⟩ |
      ⟨rfl, a, inside, first, index⟩ <;>
    rcases readerIndex_cases fits valid' with ⟨rfl, b, inside', second, index'⟩ |
      ⟨rfl, b, inside', second, index'⟩ <;>
    rw [index, index', some_inj] at same <;>
    dsimp only at first second
  · rw [first, second, same]
  · omega
  · omega
  · rw [first, second, Int.add_left_cancel same]

end

/-! ## The turns of `pop` -/

/-- The remote processes of a process, by their number. -/
def remote (metadata : Metadata) (process : Process) (n : ℕ) : Process :=
  ⟨process.group.remoteGroup, metadata.remoteGroupIdOffset process + n⟩

/-- How many remote processes a process has. -/
def remotes (metadata : Metadata) (process : Process) : ℕ :=
  (metadata.remoteGroupSize process).toNat

theorem remoteGroupSize_pos (metadata : Metadata) (process : Process) :
    0 < metadata.remoteGroupSize process := metadata.groupSize_pos _

theorem remotes_eq (metadata : Metadata) (process : Process) :
    (metadata.remotes process : ℤ) = metadata.remoteGroupSize process :=
  Int.toNat_of_nonneg (metadata.remoteGroupSize_pos process).le

theorem remotes_pos (metadata : Metadata) (process : Process) : 0 < metadata.remotes process := by
  have := metadata.remoteGroupSize_pos process
  have := metadata.remotes_eq process
  omega

theorem remote_ne_group (metadata : Metadata) (process : Process) (n : ℕ) :
    (metadata.remote process n).group ≠ process.group := by
  obtain ⟨group, p⟩ := process
  cases group <;> exact nofun

variable {n : ℕ}

theorem valid_remote (fits : metadata.Fits) (inside : n < metadata.remotes process) :
    metadata.validProcessId (metadata.remote process n) := by
  have size := metadata.remotes_eq process
  rw [remoteGroupSize] at size
  rw [validProcessId_iff fits, remote, remoteGroupIdOffset]
  dsimp only
  omega

theorem eq_remoteGroup {group group' : Group} (opposite : group' ≠ group) :
    group' = group.remoteGroup := by
  cases group with
  | groupA =>
      cases group' with
      | groupA => exact absurd rfl opposite
      | groupB => rfl
  | groupB =>
      cases group' with
      | groupA => rfl
      | groupB => exact absurd rfl opposite

/-- A remote process has a number. -/
theorem exists_remote (fits : metadata.Fits) {other : Process}
    (opposite : other.group ≠ process.group) (valid : metadata.validProcessId other) :
    ∃ n < metadata.remotes process, other = metadata.remote process n := by
  have size := metadata.remotes_eq process
  obtain ⟨group, q⟩ := other
  obtain rfl : group = process.group.remoteGroup := eq_remoteGroup opposite
  rw [remoteGroupSize] at size
  rw [validProcessId_iff fits] at valid
  dsimp only at valid
  refine ⟨(q - metadata.remoteGroupIdOffset process).toNat, ?_, ?_⟩
  · rw [remoteGroupIdOffset]
    omega
  · rw [remote, Process.mk.injEq, remoteGroupIdOffset]
    exact ⟨rfl, by omega⟩

theorem remote_injective {m : ℕ} (same : metadata.remote process n = metadata.remote process m) :
    n = m := by
  have := congrArg Process.processId same
  rw [remote, remote] at this
  dsimp only at this
  omega

/-- The cursor goes round the remote processes. -/
theorem nextPopProcessId_remote (fits : metadata.Fits) (process : Process) (k : ℕ) :
    metadata.nextPopProcessId process
        (metadata.remote process (k % metadata.remotes process)).processId =
      (metadata.remote process ((k + 1) % metadata.remotes process)).processId := by
  have size := metadata.remotes_eq process
  have positive := metadata.remotes_pos process
  have inside := Nat.mod_lt k positive
  have low : 0 ≤ metadata.remoteGroupIdOffset process := fits.offset _
  have ids : metadata.remoteGroupIdOffset process + metadata.remoteGroupSize process < 2 ^ 31 :=
    fits.ids _
  rw [nextPopProcessId, remote, remote, ← Nat.mod_add_mod k (metadata.remotes process) 1]
  dsimp only
  rw [int32_eq (by omega) ids, int32_eq (by omega) (by omega)]
  split_ifs with wraps
  · have round : k % metadata.remotes process + 1 = metadata.remotes process := by omega
    rw [round, Nat.mod_self, Int.natCast_zero, Int.add_zero]
  · have stays : k % metadata.remotes process + 1 < metadata.remotes process := by omega
    rw [Nat.mod_eq_of_lt stays]
    omega

/-- As many turns as there are remote processes try each of them once. -/
theorem map_remote_perm (process : Process) (k : ℕ) :
    ((List.range (metadata.remotes process)).map fun j =>
        metadata.remote process ((k + j) % metadata.remotes process)).Perm
      ((List.range (metadata.remotes process)).map (metadata.remote process)) := by
  have rotated : ((List.range (metadata.remotes process)).map fun j =>
      metadata.remote process ((k + j) % metadata.remotes process)) =
        ((List.range (metadata.remotes process)).rotate k).map (metadata.remote process) := by
    refine ext_getElem (by simp) fun j _ _ => ?_
    simp [getElem_rotate, Nat.add_comm]
  rw [rotated]
  exact (rotate_perm _ _).map _

end Metadata

/-! ## Runs -/

variable {V : Type}

/-- A try of a queue: the process that it comes from, what was popped, and whether `pop` returned
then. -/
structure Try (V : Type) where
  sender : Process
  value : Option V
  returned : Bool

/-- The tries of a process. -/
def tries (receiver : Process) (events : List (Event V)) : List (Try V) :=
  events.filterMap fun
    | .tried process sender value returned =>
        if process = receiver then some ⟨sender, value, returned⟩ else none
    | _ => none

/-- What a process pushed for another one. -/
def sent (sender receiver : Process) (events : List (Event V)) : List V :=
  events.filterMap fun
    | .pushed process process' value =>
        if process = sender ∧ process' = receiver then some value else none
    | _ => none

/-- What a process popped as coming from another one. -/
def received (receiver sender : Process) (events : List (Event V)) : List V :=
  (tries receiver events).filterMap fun turn => if turn.sender = sender then turn.value else none

/-- A turn of `pop` that goes on with the next queue. -/
def Try.GoesOn (turn : Try V) : Prop := turn.value = none ∧ turn.returned = false

/-- The turns of a process so far. -/
structure Turns (system : System V) (process : Process) (turns : List (Try V)) : Prop where
  /-- They go round the remote processes. -/
  cyclic : ∀ k turn, turns[k]? = some turn →
    turn.sender = system.metadata.remote process (k % system.metadata.remotes process)
  next : system.metadata.nextPopProcessId process (system.theLastPopProcessId process) =
    (system.metadata.remote process
      (turns.length % system.metadata.remotes process)).processId
  /-- The last ones belong to the running call. -/
  running : ∃ done current, turns = done ++ current ∧ current.length = system.i process ∧
    ∀ turn ∈ current, turn.GoesOn
  running_lt : system.i process < system.metadata.remotes process
  /-- A call that finds nothing has tried as many queues as there are remote processes. -/
  nothing : ∀ front turn back, turns = front ++ turn :: back → turn.value = none →
    turn.returned = true → ∃ earlier current, front = earlier ++ current ∧
      current.length + 1 = system.metadata.remotes process ∧ ∀ turn ∈ current, turn.GoesOn

/-- The invariant of a run. -/
structure Routed (system : System V) (events : List (Event V)) : Prop where
  fits : system.metadata.Fits
  queuesCapacity : system.queuesCapacity =
    system.metadata.theGroupASize * system.metadata.theGroupBSize * 2
  readersCapacity : system.readersCapacity =
    system.metadata.theGroupASize + system.metadata.theGroupBSize
  turns : ∀ process, system.metadata.validProcessId process →
    Turns system process (tries process events)
  queued : ∀ sender receiver index, sender.group ≠ receiver.group →
    system.metadata.validProcessId sender → system.metadata.validProcessId receiver →
    system.metadata.oneToOneQueueIndex sender receiver = some index →
    sent sender receiver events = received receiver sender events ++ system.items index

/-- The processes of a call exist. -/
def Call.Valid (metadata : Metadata) : Call V → Prop
  | .push process remoteProcessId _ => metadata.validProcessId process ∧
      metadata.validProcessId ⟨process.group.remoteGroup, remoteProcessId⟩
  | .pop process => metadata.validProcessId process

variable {system : System V} {events : List (Event V)}

variable {sender : Process}

variable {receiver : Process}

/-- The queue of a pair of processes. -/
theorem Routed.oneToOneQueue (routed : Routed system events)
    (opposite : sender.group ≠ receiver.group) (valid : system.metadata.validProcessId sender)
    (valid' : system.metadata.validProcessId receiver) :
    ∃ index, system.metadata.oneToOneQueueIndex sender receiver = some index ∧
      system.oneToOneQueue sender receiver = some index := by
  obtain ⟨index, found, bounds⟩ := Metadata.oneToOneQueueIndex_spec routed.fits opposite valid valid'
  refine ⟨index, found, ?_⟩
  rw [System.oneToOneQueue, found, bind_eq_bind, bind_some, routed.queuesCapacity, if_pos bounds]

variable {process : Process}

theorem Routed.reader (routed : Routed system events)
    (valid : system.metadata.validProcessId process) :
    ∃ index, system.reader process = some index := by
  obtain ⟨index, found, bounds⟩ := Metadata.readerIndex_spec routed.fits valid
  refine ⟨index, ?_⟩
  rw [System.reader, found, bind_eq_bind, bind_some, routed.readersCapacity, if_pos bounds]

variable {system' : System V} {turns : List (Try V)}

/-- The turns of a process do not depend on the other processes. -/
theorem Turns.congr (holds : Turns system process turns)
    (metadata : system'.metadata = system.metadata)
    (last : system'.theLastPopProcessId process = system.theLastPopProcessId process)
    (i : system'.i process = system.i process) : Turns system' process turns := by
  obtain ⟨cyclic, next, running, running_lt, nothing⟩ := holds
  constructor
  case cyclic => rwa [metadata]
  case next => rwa [metadata, last]
  case running => rwa [i]
  case running_lt => rwa [i, metadata]
  case nothing => rwa [metadata]

theorem tries_append (process : Process) (events : List (Event V)) (event : Event V) :
    tries process (events ++ [event]) = tries process events ++ tries process [event] :=
  filterMap_append

theorem sent_append (sender receiver : Process) (events : List (Event V)) (event : Event V) :
    sent sender receiver (events ++ [event]) =
      sent sender receiver events ++ sent sender receiver [event] := filterMap_append

theorem received_append (receiver sender : Process) (events : List (Event V)) (event : Event V) :
    received receiver sender (events ++ [event]) =
      received receiver sender events ++ received receiver sender [event] := by
  rw [received, received, received, tries_append, filterMap_append]

theorem sent_pushed (sender receiver sender' receiver' : Process) (value : V) :
    sent sender receiver [.pushed sender' receiver' value] =
      if sender' = sender ∧ receiver' = receiver then [value] else [] := by
  rw [sent, filterMap_cons]
  dsimp only
  split_ifs <;> rfl

theorem tries_tried (process receiver sender : Process) (value : Option V) (returned : Bool) :
    tries process [.tried receiver sender value returned] =
      if receiver = process then [⟨sender, value, returned⟩] else [] := by
  rw [tries, filterMap_cons]
  dsimp only
  split_ifs <;> rfl

theorem received_tried (receiver sender receiver' sender' : Process) (value : Option V)
    (returned : Bool) : received receiver sender [.tried receiver' sender' value returned] =
      if receiver' = receiver ∧ sender' = sender then value.toList else [] := by
  rw [received, tries_tried]
  by_cases own : receiver' = receiver
  · rw [if_pos own, filterMap_cons]
    by_cases same : sender' = sender
    · rw [if_pos same, if_pos ⟨own, same⟩]
      cases value <;> rfl
    · rw [if_neg same, if_neg fun both => same both.2]
      rfl
  · rw [if_neg own, if_neg fun both => own both.1]
    rfl

variable {index : ℤ}

variable {remoteProcessId : ℤ} {value : V}

/-- `push` puts the item into the queue of the two processes, if there is room. -/
theorem push_eq (routed : Routed system events)
    (valid : Call.Valid system.metadata (.push process remoteProcessId value))
    (found : system.metadata.oneToOneQueueIndex process
      ⟨process.group.remoteGroup, remoteProcessId⟩ = some index) :
    system.push process remoteProcessId value =
      if system.theCapacity ≤ (system.items index).length then
        some (.full process ⟨process.group.remoteGroup, remoteProcessId⟩, system)
      else
        some (.pushed process ⟨process.group.remoteGroup, remoteProcessId⟩ value,
          { system with
            items := update system.items index (system.items index ++ [value]) }) := by
  obtain ⟨index', found', queue⟩ :=
    routed.oneToOneQueue process.group.ne_remoteGroup valid.1 valid.2
  cases some.inj (found.symm.trans found')
  obtain ⟨reader, at_reader⟩ := routed.reader valid.2
  rw [System.push, queue, bind_eq_bind, bind_some, at_reader, bind_some]

theorem push_routed (routed : Routed system events)
    (valid : Call.Valid system.metadata (.push process remoteProcessId value)) :
    ∃ event system', system.push process remoteProcessId value = some (event, system') ∧
      system'.metadata = system.metadata ∧ system'.theCapacity = system.theCapacity ∧
      Routed system' (events ++ [event]) := by
  have opposite := process.group.ne_remoteGroup
  obtain ⟨index, found, -⟩ := routed.oneToOneQueue opposite valid.1 valid.2
  rw [push_eq routed valid found]
  split_ifs with full
  · refine ⟨_, system, rfl, rfl, rfl, routed.fits, routed.queuesCapacity, routed.readersCapacity,
      ?_, ?_⟩
    · intro other known
      rw [tries_append]
      exact (List.append_nil _).symm ▸ routed.turns other known
    · intro sender receiver index' opposite' known known' found'
      rw [sent_append, received_append]
      refine (List.append_nil _).trans ?_
      rw [show received receiver sender [Event.full (V := V) _ _] = [] from rfl, List.append_nil]
      exact routed.queued sender receiver index' opposite' known known' found'
  · refine ⟨_, _, rfl, rfl, rfl, routed.fits, routed.queuesCapacity, routed.readersCapacity,
      ?_, ?_⟩
    · intro other known
      rw [tries_append]
      exact (List.append_nil _).symm ▸ (routed.turns other known).congr rfl rfl rfl
    · intro sender receiver index' opposite' known known' found'
      have before := routed.queued sender receiver index' opposite' known known' found'
      rw [sent_append, received_append, sent_pushed, before]
      rw [show received receiver sender [Event.pushed (V := V) _ _ _] = [] from rfl,
        List.append_nil, List.append_assoc]
      dsimp only
      congr 1
      by_cases own : index' = index
      · subst own
        obtain ⟨rfl, rfl⟩ := Metadata.oneToOneQueueIndex_injective routed.fits opposite' known known'
          opposite valid.1 valid.2 (found'.trans found.symm)
        rw [if_pos ⟨rfl, rfl⟩, update_self]
      · rw [if_neg, update_of_ne own, List.append_nil]
        rintro ⟨rfl, rfl⟩
        exact own (some.inj (found'.symm.trans found))

/-- One more turn. -/
theorem Turns.step (fits : system.metadata.Fits) {system' : System V} {process : Process}
    {turns : List (Try V)} (holds : Turns system process turns) {turn : Try V}
    (sender : turn.sender = system.metadata.remote process
      (turns.length % system.metadata.remotes process))
    (metadata : system'.metadata = system.metadata)
    (last : system'.theLastPopProcessId process = turn.sender.processId)
    (i : turn.GoesOn ∧ system'.i process = system.i process + 1 ∧
        system.i process + 1 < system.metadata.remotes process ∨
      turn.returned = true ∧ system'.i process = 0 ∧
        (turn.value = none → system.i process + 1 = system.metadata.remotes process)) :
    Turns system' process (turns ++ [turn]) := by
  obtain ⟨cyclic, next, ⟨done, current, split, count, going⟩, running_lt, nothing⟩ := holds
  constructor
  case cyclic =>
    intro k turn' at_k
    rw [metadata]
    rcases Nat.lt_trichotomy k turns.length with before | here | behind
    · rw [List.getElem?_append_left before] at at_k
      exact cyclic k turn' at_k
    · subst here
      rw [List.getElem?_concat_length, some_inj] at at_k
      rw [← at_k, sender]
    · rw [List.getElem?_eq_none (by rw [length_append, length_singleton]; omega)] at at_k
      cases at_k
  case next =>
    rw [metadata, last, sender, Metadata.nextPopProcessId_remote fits,
      length_append, length_singleton]
  case running =>
    rcases i with ⟨goes_on, more, -⟩ | ⟨-, zero, -⟩
    · refine ⟨done, current ++ [turn], by rw [split, List.append_assoc], ?_, fun turn' member => ?_⟩
      · rw [length_append, count, more, length_singleton]
      · rcases mem_append.mp member with earlier | now
        · exact going turn' earlier
        · rwa [mem_singleton.mp now]
    · exact ⟨turns ++ [turn], [], (List.append_nil _).symm, zero.symm, nofun⟩
  case running_lt =>
    rw [metadata]
    rcases i with ⟨-, more, room⟩ | ⟨-, zero, -⟩
    · rwa [more]
    · rw [zero]
      exact system.metadata.remotes_pos process
  case nothing =>
    rw [metadata]
    intro front turn' back shape empty returned
    rcases eq_nil_or_concat back with rfl | ⟨back', final, rfl⟩
    · obtain ⟨rfl, same⟩ := append_inj' shape rfl
      obtain rfl := singleton_injective same
      refine ⟨done, current, split, ?_, going⟩
      rcases i with ⟨goes_on, -⟩ | ⟨-, -, all⟩
      · rw [goes_on.2] at returned
        cases returned
      · rw [count, all empty]
    · rw [concat_eq_append, ← cons_append, ← List.append_assoc] at shape
      exact nothing front turn' back' (append_inj' shape rfl).1 empty returned

/-- The turns of all processes after a turn of one of them. -/
theorem Routed.turns_tried (routed : Routed system events) {value : Option V} {returned : Bool}
    (named : sender = system.metadata.remote process
      ((tries process events).length % system.metadata.remotes process))
    (metadata : system'.metadata = system.metadata) (last : system'.theLastPopProcessId =
      update system.theLastPopProcessId process sender.processId) {count : ℕ}
    (i : system'.i = update system.i process count)
    (kind : value = none ∧ returned = false ∧ count = system.i process + 1 ∧
        system.i process + 1 < system.metadata.remotes process ∨
      returned = true ∧ count = 0 ∧
        (value = none → system.i process + 1 = system.metadata.remotes process)) (other : Process)
    (known : system.metadata.validProcessId other) :
    Turns system' other (tries other (events ++ [.tried process sender value returned])) := by
  rw [tries_append, tries_tried]
  by_cases own : process = other
  · subst own
    rw [if_pos rfl]
    refine (routed.turns process known).step routed.fits named metadata ?_ ?_
    · rw [last, update_self]
    · rw [i, update_self]
      rcases kind with ⟨empty, goes_on, more, room⟩ | ended
      · exact .inl ⟨⟨empty, goes_on⟩, more, room⟩
      · exact .inr ended
  · rw [if_neg own, List.append_nil]
    refine (routed.turns other known).congr metadata ?_ ?_
    · rw [last, update_of_ne (Ne.symm own)]
    · rw [i, update_of_ne (Ne.symm own)]

/-- A try that finds nothing leaves the queues. -/
theorem Routed.queued_empty (routed : Routed system events) (process q : Process) (returned : Bool)
    (opposite : sender.group ≠ receiver.group) (known : system.metadata.validProcessId sender)
    (known' : system.metadata.validProcessId receiver)
    (found : system.metadata.oneToOneQueueIndex sender receiver = some index) :
    sent sender receiver (events ++ [.tried process q none returned]) =
      received receiver sender (events ++ [.tried process q none returned]) ++
        system.items index := by
  rw [sent_append, received_append, received_tried,
    show sent sender receiver [Event.tried (V := V) process q none returned] = [] from rfl,
    toList_none, ite_self, List.append_nil, List.append_nil]
  exact routed.queued sender receiver index opposite known known' found

/-- The remote process whose queue `pop` tries next. -/
def nextSender (system : System V) (process : Process) (events : List (Event V)) : Process :=
  system.metadata.remote process
    ((tries process events).length % system.metadata.remotes process)

theorem nextSender_spec (fits : system.metadata.Fits) (process : Process)
    (events : List (Event V)) :
    (nextSender system process events).group ≠ process.group ∧
      system.metadata.validProcessId (nextSender system process events) :=
  ⟨system.metadata.remote_ne_group process _,
    Metadata.valid_remote fits (Nat.mod_lt _ (system.metadata.remotes_pos process))⟩

/-- A turn of `pop` looks into the next queue. -/
theorem pop_eq (routed : Routed system events) (valid : system.metadata.validProcessId process)
    (found : system.metadata.oneToOneQueueIndex (nextSender system process events) process =
      some index) : system.pop process =
    match system.items index with
    | value :: rest =>
        some (.tried process (nextSender system process events) (some value) true,
          { system with
            theLastPopProcessId := update system.theLastPopProcessId process
              (nextSender system process events).processId
            items := update system.items index rest
            i := update system.i process 0 })
    | [] =>
        if (system.i process + 1 : ℕ) < system.metadata.remoteGroupSize process then
          some (.tried process (nextSender system process events) none false,
            { system with
              theLastPopProcessId := update system.theLastPopProcessId process
                (nextSender system process events).processId
              i := update system.i process (system.i process + 1) })
        else
          some (.tried process (nextSender system process events) none true,
            { system with
              theLastPopProcessId := update system.theLastPopProcessId process
                (nextSender system process events).processId
              i := update system.i process 0 }) := by
  obtain ⟨opposite, known⟩ := nextSender_spec routed.fits process events
  obtain ⟨reader, at_reader⟩ := routed.reader valid
  obtain ⟨index', found', queue⟩ := routed.oneToOneQueue opposite known valid
  cases some.inj (found.symm.trans found')
  have next : system.metadata.nextPopProcessId process (system.theLastPopProcessId process) =
      (nextSender system process events).processId := (routed.turns process valid).next
  have shape : (⟨process.group.remoteGroup, (nextSender system process events).processId⟩ :
      Process) = nextSender system process events := rfl
  rw [System.pop, at_reader, bind_eq_bind, bind_some]
  dsimp only
  rw [next, shape]
  change (system.oneToOneQueue _ _).bind _ = _
  rw [queue, bind_some]

/-- `pop` takes the oldest item of the next queue. -/
theorem pop_routed (routed : Routed system events)
    (valid : Call.Valid (V := V) system.metadata (.pop process)) :
    ∃ event system', system.pop process = some (event, system') ∧
      system'.metadata = system.metadata ∧ system'.theCapacity = system.theCapacity ∧
      Routed system' (events ++ [event]) := by
  have turns := routed.turns process valid
  have size := system.metadata.remotes_eq process
  obtain ⟨opposite, known⟩ := nextSender_spec routed.fits process events
  obtain ⟨index, found, -⟩ := routed.oneToOneQueue opposite known valid
  rw [pop_eq routed valid found]
  have named : nextSender system process events = system.metadata.remote process
    ((tries process events).length % system.metadata.remotes process) := rfl
  generalize nextSender system process events = q at *
  cases stored : system.items index with
  | cons value rest =>
      refine ⟨_, _, rfl, rfl, rfl, routed.fits, routed.queuesCapacity, routed.readersCapacity,
        routed.turns_tried named rfl rfl rfl (.inr ⟨rfl, rfl, nofun⟩), ?_⟩
      intro sender receiver index' opposite' known' valid' found'
      have before := routed.queued sender receiver index' opposite' known' valid' found'
      rw [sent_append, received_append, received_tried, before,
        show sent sender receiver [Event.tried (V := V) process q (some value) true] = [] from rfl,
        List.append_nil, List.append_assoc]
      dsimp only
      congr 1
      by_cases own : index' = index
      · subst own
        obtain ⟨rfl, rfl⟩ := Metadata.oneToOneQueueIndex_injective routed.fits opposite' known' valid'
          opposite known valid (found'.trans found.symm)
        rw [if_pos ⟨rfl, rfl⟩, update_self, stored]
        rfl
      · rw [if_neg, update_of_ne own, List.nil_append]
        rintro ⟨rfl, rfl⟩
        exact own (some.inj (found'.symm.trans found))
  | nil =>
      have running_lt := turns.running_lt
      dsimp only
      split_ifs with more
      · refine ⟨_, _, rfl, rfl, rfl, routed.fits, routed.queuesCapacity, routed.readersCapacity,
          routed.turns_tried named rfl rfl rfl (.inl ⟨rfl, rfl, rfl, by omega⟩), ?_⟩
        intro sender receiver index' opposite' known' valid' found'
        exact routed.queued_empty process q false opposite' known' valid' found'
      · refine ⟨_, _, rfl, rfl, rfl, routed.fits, routed.queuesCapacity, routed.readersCapacity,
          routed.turns_tried named rfl rfl rfl
            (.inr ⟨rfl, rfl, fun _ => by omega⟩), ?_⟩
        intro sender receiver index' opposite' known' valid' found'
        exact routed.queued_empty process q true opposite' known' valid' found'

instance Call.Valid.decidable (metadata : Metadata) :
    ∀ call : Call V, Decidable (call.Valid metadata)
  | .push _ _ _ => inferInstanceAs (Decidable (_ ∧ _))
  | .pop process => inferInstanceAs (Decidable (metadata.validProcessId process))

/-- Every run of valid calls succeeds and routes the items. -/
theorem execute_routed {calls : List (Call V)} (routed : Routed system events)
    (valid : ∀ call ∈ calls, call.Valid system.metadata) :
    ∃ later system', system.execute calls = some (later, system') ∧
      system'.metadata = system.metadata ∧ system'.theCapacity = system.theCapacity ∧
      Routed system' (events ++ later) := by
  induction calls generalizing system events with
  | nil => exact ⟨[], system, rfl, rfl, rfl, by rwa [List.append_nil]⟩
  | cons call calls ih =>
      have step : ∃ event middle, system.next call = some (event, middle) ∧
          middle.metadata = system.metadata ∧ middle.theCapacity = system.theCapacity ∧
          Routed middle (events ++ [event]) := by
        have ok := valid call List.mem_cons_self
        cases call with
        | push process remoteProcessId value => exact push_routed routed ok
        | pop process => exact pop_routed routed ok
      obtain ⟨event, middle, taken, same, room, routed'⟩ := step
      obtain ⟨later, system', run, same', room', final⟩ := ih routed' fun call member => by
        rw [same]
        exact valid call (List.mem_cons_of_mem _ member)
      refine ⟨event :: later, system', ?_, same'.trans same, room'.trans room,
        by rwa [append_cons]⟩
      rw [System.execute, taken, bind_eq_bind, bind_some]
      dsimp only
      rw [run]
      rfl

/-- The queue of workers and disk processes. -/
def ipcIoMetadata {workers n_strands : ℤ} (some_workers : 0 < workers)
    (some_strands : 0 < n_strands) : Metadata :=
  ⟨workers, 1, n_strands, 1 + workers, some_workers, some_strands⟩

variable {capacity n_strands workers : ℤ} {maxItemSize : ℕ}

/-- If the bytes of the queues fit an `int`, nothing overflows. -/
theorem ipcIoMetadata_fits (some_workers : 0 < workers) (some_strands : 0 < n_strands)
    (some_bytes : 0 < maxItemSize) (some_room : 0 < capacity)
    (bytes : (20 + maxItemSize * capacity) * (2 * workers * n_strands) < 2 ^ 31) :
    (ipcIoMetadata some_workers some_strands).Fits ∧ maxItemSize * capacity < 2 ^ 31 ∧
      (20 + maxItemSize * capacity) * (workers * n_strands * 2) < 2 ^ 31 := by
  have product := Int.mul_pos some_workers some_strands
  have items : 0 < maxItemSize * capacity := Int.mul_pos (by exact_mod_cast some_bytes) some_room
  rw [Int.mul_assoc 2, Int.mul_comm 2] at bytes
  have queues : 20 * (workers * n_strands * 2) ≤
      (20 + maxItemSize * capacity) * (workers * n_strands * 2) :=
    Int.mul_le_mul_of_nonneg_right (by omega) (by omega)
  have queue : (20 + maxItemSize * capacity) * 1 ≤
      (20 + maxItemSize * capacity) * (workers * n_strands * 2) :=
    Int.mul_le_mul_of_nonneg_left (by omega) (by omega)
  have rows : workers * 1 ≤ workers * n_strands := Int.mul_le_mul_of_nonneg_left some_strands
    some_workers.le
  have columns : 1 * n_strands ≤ workers * n_strands := Int.mul_le_mul_of_nonneg_right some_workers
    some_strands.le
  refine ⟨⟨fun group => ?_, fun group => ?_, ?_, ?_⟩, by omega, bytes⟩
  · cases group with
    | groupA => exact Int.one_nonneg
    | groupB =>
        change 0 ≤ 1 + workers
        omega
  · cases group with
    | groupA =>
        change 1 + workers < 2 ^ 31
        omega
    | groupB =>
        change 1 + workers + n_strands < 2 ^ 31
        omega
  · change workers * n_strands * 2 < 2 ^ 31
    omega
  · change workers + n_strands < 2 ^ 31
    omega

/-- `IpcIoRr::create`. -/
theorem init_routed (some_workers : 0 < workers) (some_strands : 0 < n_strands)
    (some_bytes : 0 < maxItemSize) (some_room : 0 < capacity)
    (bytes : (20 + maxItemSize * capacity) * (2 * workers * n_strands) < 2 ^ 31) :
    ∃ system : System V,
      System.init workers 1 n_strands (1 + workers) maxItemSize capacity = some system ∧
      system.metadata = ipcIoMetadata some_workers some_strands ∧
      system.theCapacity = capacity ∧ Routed system [] := by
  obtain ⟨fits, item, bytes⟩ :=
    ipcIoMetadata_fits some_workers some_strands some_bytes some_room bytes
  have product := Int.mul_pos some_workers some_strands
  have items : 0 < maxItemSize * capacity := Int.mul_pos (by exact_mod_cast some_bytes) some_room
  have queues : workers * n_strands * 2 < 2 ^ 31 := fits.queues
  have readers : workers + n_strands < 2 ^ 31 := fits.readers
  have queueSize : System.Items2Bytes maxItemSize capacity = 20 + maxItemSize * capacity := by
    rw [System.Items2Bytes, Int.emod_eq_of_lt items.le (by omega), int32_eq (by omega)]
    have := Int.mul_le_mul_of_nonneg_left (show 1 ≤ workers * n_strands * 2 by omega)
      (show 0 ≤ 20 + maxItemSize * capacity by omega)
    omega
  have positive : 0 < (20 + maxItemSize * capacity) * (workers * n_strands * 2) :=
    Int.mul_pos (by omega) (by omega)
  have segment : System.SharedMemorySize (workers * n_strands * 2) maxItemSize capacity =
      4 + (20 + maxItemSize * capacity) * (workers * n_strands * 2) := by
    rw [System.SharedMemorySize, queueSize, int32_eq (by omega) bytes]
  have queuesCapacity := int32_eq (by omega) queues
  have readersCapacity := int32_eq (by omega) readers
  rw [System.init, dif_pos (by
    rw [queuesCapacity, readersCapacity, segment]
    exact ⟨some_workers, some_strands, by omega, by omega, some_bytes, some_room, by omega, le_rfl⟩)]
  refine ⟨_, rfl, rfl, rfl, fits, queuesCapacity, readersCapacity, fun process valid => ?_,
    fun _ _ _ _ _ _ _ => rfl⟩
  refine ⟨nofun, ?_, ⟨[], [], rfl, rfl, nofun⟩, Metadata.remotes_pos _ _, ?_⟩
  · have low := fits.offset process.group.remoteGroup
    have ids := fits.ids process.group.remoteGroup
    rw [Metadata.nextPopProcessId, if_pos]
    · change _ = _ + ((0 % _ : ℕ) : ℤ)
      rw [Nat.zero_mod, Int.natCast_zero, Int.add_zero]
    · refine (fits.int32_ids process.group.remoteGroup).le.trans ?_
      dsimp only
      rw [readersCapacity, int32_eq (by omega) ?_]
      · obtain ⟨group, p⟩ := process
        cases group with
        | groupA =>
            change (1 + workers) + n_strands ≤ workers + n_strands + 1
            omega
        | groupB =>
            change 1 + workers ≤ workers + n_strands + 1
            omega
      · have := fits.ids .groupB
        change 1 + workers + n_strands < 2 ^ 31 at this
        omega
  · intro front turn back shape
    simp [tries] at shape

/-- A call that finds nothing has tried the queue from every remote process once. -/
theorem Turns.tries_all (fits : system.metadata.Fits) (holds : Turns system process turns)
    {front back : List (Try V)} {turn : Try V} (shape : turns = front ++ turn :: back)
    (empty : turn.value = none) (returned : turn.returned = true) :
    ∃ earlier current, front = earlier ++ current ∧ (∀ turn ∈ current, turn.GoesOn) ∧
      ∀ other, other.group ≠ process.group → system.metadata.validProcessId other →
        ((current ++ [turn]).map Try.sender).count other = 1 := by
  obtain ⟨earlier, current, split, count, going⟩ := holds.nothing front turn back shape empty returned
  refine ⟨earlier, current, split, going, fun other opposite valid => ?_⟩
  have window : (current ++ [turn]).map Try.sender =
      (List.range (system.metadata.remotes process)).map fun j =>
        system.metadata.remote process
          ((earlier.length + j) % system.metadata.remotes process) := by
    refine ext_getElem (by simp [count]) fun j inside _ => ?_
    rw [length_map] at inside
    rw [getElem_map, getElem_map, getElem_range]
    refine holds.cyclic (earlier.length + j) _ ?_
    rw [shape, split, List.append_assoc, append_cons current turn back,
      List.getElem?_append_right (Nat.le_add_right _ _), Nat.add_sub_cancel_left,
      List.getElem?_append_left inside, List.getElem?_eq_getElem]
  obtain ⟨n, inside, rfl⟩ := Metadata.exists_remote fits opposite valid
  rw [window, (Metadata.map_remote_perm process earlier.length).count_eq]
  refine count_eq_one_of_mem ?_ (List.mem_map_of_mem (mem_range.mpr inside))
  exact nodup_range.map fun n m same => Metadata.remote_injective same

/-- A worker sends a request to the second of two disk processes, which looks for it. -/
def routingSample : List (Call ℕ) :=
  [.push ⟨.groupA, 1⟩ 4 7, .pop ⟨.groupB, 4⟩, .pop ⟨.groupB, 3⟩, .pop ⟨.groupB, 3⟩,
    .pop ⟨.groupB, 4⟩]

end FewToFewBiQueue

end Ipc
end Squid
