import Squid.Library.LabelledRun
import Mathlib.Algebra.Order.Ring.Nat
import Mathlib.Algebra.Order.Ring.Int

/-!
# `Ipc::OneToOneUniQueue` and `Ipc::QueueReader`

The lockless single-writer single-reader queue of `src/ipc/Queue.h`.  One writer runs `push` and
one reader runs `pop` and `clearSignal`; every access to a word that both sides use is one step,
and so is the copying of one item.  `theIn` belongs to the writer and `theOut` to the reader, so
both are advanced in the step that copies the item.

A `push` that returns true puts one notification in flight.  The reader receives it while it
waits, calls `clearSignal` and then pops until `pop` returns false.
-/

namespace Squid
namespace Ipc

/-- `Atomic::WordT::swap_if`: compare and swap, with its result. -/
def swapIf (word comparand replacement : ℤ) : ℤ × Bool :=
  if word = comparand then (replacement, true) else (word, false)

/-- State of the reading end of a queue. -/
structure QueueReader where
  /-- Whether the reader is blocked on `pop`. -/
  popBlocked : ℤ
  /-- Whether the writer has sent and the reader has not received a notification. -/
  popSignal : ℤ

namespace QueueReader

/-- The initial state is "blocked without a signal". -/
def initial : QueueReader := { popBlocked := 1, popSignal := 0 }

/-- Whether the reader is waiting for a notification signal. -/
def blocked (reader : QueueReader) : Bool := reader.popBlocked = 1

/-- Marks the reader as blocked, waiting for a notification signal. -/
def block (reader : QueueReader) : QueueReader :=
  { reader with popBlocked := (swapIf reader.popBlocked 0 1).1 }

/-- Removes the `block` effects. -/
def unblock (reader : QueueReader) : QueueReader :=
  { reader with popBlocked := (swapIf reader.popBlocked 1 0).1 }

end QueueReader

namespace OneToOneUniQueue

/-- A queue the constructor accepts, the size of the items passed through it and whether its
callers supply a `QueueReader`. -/
structure Params where
  /-- Maximum item size. -/
  theMaxItemSize : ℕ
  /-- Maximum number of items. -/
  theCapacity : ℕ
  /-- `sizeof(value)`. -/
  itemSize : ℕ
  /-- Whether `pop` and `push` are given a reader. -/
  hasReader : Bool
  /-- `Must(theMaxItemSize > 0)`. -/
  maxItemSize_pos : 0 < theMaxItemSize
  /-- An `unsigned int`. -/
  maxItemSize_lt : theMaxItemSize < 2 ^ 32
  /-- `Must(theCapacity > 0)`. -/
  capacity_pos : 0 < theCapacity
  /-- An `int`. -/
  capacity_lt : theCapacity < 2 ^ 31
  /-- No C++ object is empty. -/
  itemSize_pos : 0 < itemSize
  /-- Larger items make `pop` and `push` throw `ItemTooLarge`. -/
  itemSize_le : itemSize ≤ theMaxItemSize

/-- The parameters of a queue of single bytes with a reader. -/
def Params.ofBytes (theCapacity : ℕ) (capacity_pos : 0 < theCapacity)
    (capacity_lt : theCapacity < 2 ^ 31) : Params where
  theMaxItemSize := 1
  theCapacity := theCapacity
  itemSize := 1
  hasReader := true
  maxItemSize_pos := Nat.one_pos
  maxItemSize_lt := by decide
  capacity_pos := capacity_pos
  capacity_lt := capacity_lt
  itemSize_pos := Nat.one_pos
  itemSize_le := le_rfl

variable (params : Params)

/-- The bytes of one item. -/
abbrev Value := Fin params.itemSize → UInt8

/-- Offset in `theBuffer` selected by a counter value, computed on `unsigned int`. -/
def pos (index : ℕ) : ℕ :=
  index % params.theCapacity * params.theMaxItemSize % 2 ^ 32

variable {params}

/-- `memcpy` of an item into the buffer. -/
def store (buffer : ℕ → UInt8) (offset : ℕ) (value : Value params) : ℕ → UInt8 := fun address =>
  if inside : offset ≤ address ∧ address - offset < params.itemSize then
    value ⟨address - offset, inside.2⟩
  else
    buffer address

/-- `memcpy` of an item out of the buffer. -/
def load (buffer : ℕ → UInt8) (offset : ℕ) : Value params := fun index => buffer (offset + index)

/-- The queue in shared memory. -/
structure Shared where
  /-- Input index, used only in `push`. -/
  theIn : ℕ
  /-- Output index, used only in `pop`. -/
  theOut : ℕ
  /-- Number of items in the queue. -/
  theSize : ℤ
  /-- Item storage. -/
  theBuffer : ℕ → UInt8

/-- Position of the writer inside `push`. -/
inductive WriterPc (params : Params)
  /-- No push is in progress. -/
  | idle
  /-- After the test of `full`, before `wasEmpty` is sampled. -/
  | sampleEmpty (value : Value params)
  /-- Before the item is copied. -/
  | copy (value : Value params) (wasEmpty : Bool)
  /-- Before `++theSize`. -/
  | increment (value : Value params) (wasEmpty : Bool)
  /-- `raiseSignal` before the test of `blocked`. -/
  | testBlocked
  /-- `raiseSignal` before the compare-and-swap of `popSignal`. -/
  | raiseSignal

/-- Position of the reader inside `pop` or `clearSignal`. -/
inductive ReaderPc (params : Params)
  /-- Waiting for a notification. -/
  | waiting
  /-- `clearSignal` before `unblock`. -/
  | clearUnblock
  /-- `clearSignal` before the compare-and-swap of `popSignal`. -/
  | clearSignal
  /-- `pop` before the first test of `empty`. -/
  | testEmpty
  /-- `pop` before `block`. -/
  | block
  /-- `pop` before the second test of `empty`. -/
  | retestEmpty
  /-- `pop` before `unblock`. -/
  | unblock
  /-- `pop` before the item is copied. -/
  | copy
  /-- `pop` before `--theSize`. -/
  | decrement (value : Value params)

/-- The shared words, both sides' positions, and the history of the run. -/
structure State (params : Params) where
  /-- The queue words and buffer. -/
  queue : Shared
  /-- The reader words. -/
  reader : QueueReader
  /-- Position of the writer. -/
  writerPc : WriterPc params
  /-- Position of the reader. -/
  readerPc : ReaderPc params
  /-- Result of the reader's last completed `pop`. -/
  lastPop : Option Bool
  /-- Notifications sent and not received. -/
  inFlight : ℕ
  /-- Values stored by successful pushes, oldest first. -/
  pushed : List (Value params)
  /-- Values returned by successful pops, oldest first. -/
  popped : List (Value params)

/-- A freshly constructed queue whose reader waits for the first notification. -/
def initial (params : Params) (buffer : ℕ → UInt8) : State params where
  queue := { theIn := 0, theOut := 0, theSize := 0, theBuffer := buffer }
  reader := .initial
  writerPc := .idle
  readerPc := .waiting
  lastPop := none
  inFlight := 0
  pushed := []
  popped := []

/-- The steps of the two sides. -/
inductive Label (params : Params)
  /-- The writer enters `push` and tests `full`. -/
  | push (value : Value params)
  /-- The writer proceeds. -/
  | writer
  /-- The waiting reader receives a notification. -/
  | receive
  /-- The waiting reader pops without having been notified. -/
  | poll
  /-- The reader proceeds. -/
  | reader

/-- `push` up to the test of `full`; a full queue makes it throw `Full`. -/
def enterPush (state : State params) (value : Value params) : Option (State params) :=
  match state.writerPc with
  | .idle =>
      if state.queue.theSize = params.theCapacity then
        some state
      else
        some { state with writerPc := .sampleEmpty value }
  | _ => none

/-- The next step of the push in progress. -/
def writerStep (state : State params) : Option (State params) :=
  match state.writerPc with
  | .idle => none
  | .sampleEmpty value =>
      some { state with writerPc := .copy value (state.queue.theSize = 0) }
  | .copy value wasEmpty =>
      some
        { state with
          queue :=
            { state.queue with
              theIn := (state.queue.theIn + 1) % 2 ^ 32
              theBuffer := store state.queue.theBuffer (pos params state.queue.theIn) value }
          writerPc := .increment value wasEmpty }
  | .increment value wasEmpty =>
      let stored :=
        { state with
          queue := { state.queue with theSize := state.queue.theSize + 1 }
          pushed := state.pushed ++ [value] }
      if wasEmpty then
        if params.hasReader then
          some { stored with writerPc := .testBlocked }
        else
          some { stored with writerPc := .idle, inFlight := state.inFlight + 1 }
      else
        some { stored with writerPc := .idle }
  | .testBlocked =>
      if state.reader.blocked then
        some { state with writerPc := .raiseSignal }
      else
        some { state with writerPc := .idle }
  | .raiseSignal =>
      let (popSignal, raised) := swapIf state.reader.popSignal 0 1
      some
        { state with
          reader := { state.reader with popSignal }
          writerPc := .idle
          inFlight := if raised then state.inFlight + 1 else state.inFlight }

/-- The next step of the reader's call in progress. -/
def readerStep (state : State params) : Option (State params) :=
  match state.readerPc with
  | .waiting => none
  | .clearUnblock =>
      some { state with reader := state.reader.unblock, readerPc := .clearSignal }
  | .clearSignal =>
      some
        { state with
          reader := { state.reader with popSignal := (swapIf state.reader.popSignal 1 0).1 }
          readerPc := .testEmpty }
  | .testEmpty =>
      if state.queue.theSize = 0 then
        if params.hasReader then
          some { state with readerPc := .block }
        else
          some { state with readerPc := .waiting, lastPop := some false }
      else if params.hasReader then
        some { state with readerPc := .unblock }
      else
        some { state with readerPc := .copy }
  | .block =>
      some { state with reader := state.reader.block, readerPc := .retestEmpty }
  | .retestEmpty =>
      if state.queue.theSize = 0 then
        some { state with readerPc := .waiting, lastPop := some false }
      else
        some { state with readerPc := .unblock }
  | .unblock =>
      some { state with reader := state.reader.unblock, readerPc := .copy }
  | .copy =>
      some
        { state with
          queue := { state.queue with theOut := (state.queue.theOut + 1) % 2 ^ 32 }
          readerPc := .decrement (load state.queue.theBuffer (pos params state.queue.theOut)) }
  | .decrement value =>
      -- a successful `pop` is followed by the next one
      some
        { state with
          queue := { state.queue with theSize := state.queue.theSize - 1 }
          readerPc := .testEmpty
          lastPop := some true
          popped := state.popped ++ [value] }

/-- One step of one of the two sides. -/
def next (state : State params) : Label params → Option (State params)
  | .push value => enterPush state value
  | .writer => writerStep state
  | .reader => readerStep state
  | .receive =>
      match state.readerPc, state.inFlight with
      | .waiting, inFlight + 1 =>
          some
            { state with
              inFlight
              readerPc := if params.hasReader then .clearUnblock else .testEmpty }
      | _, _ => none
  | .poll =>
      match state.readerPc with
      | .waiting => some { state with readerPc := .testEmpty }
      | _ => none

end OneToOneUniQueue
end Ipc
end Squid
