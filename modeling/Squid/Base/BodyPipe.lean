import Squid.Base.MemBuf
import Squid.Library.LabelledRun

/-!
# Body pipes

The buffer between the producer and the consumer of a message body, as in `src/BodyPipe.cc`.  A
pointer to a job is set until it is cleared, and valid until the job is gone.  A call that throws
has changed nothing before.  Calls to the producer, which only hurry it, are left out.
-/

namespace Squid

open CRuntime

/-- `CbcPointer`: not set, or set to a job that is gone, or to one that is valid. -/
inductive CbcPointer where
  | nil
  | stale
  | valid
  deriving DecidableEq

def CbcPointer.set (pointer : CbcPointer) : Prop := pointer ≠ .nil

instance (pointer : CbcPointer) : Decidable pointer.set := inferInstanceAs (Decidable (¬ _))

/-- The calls to a consumer. -/
inductive ConsumerCall where
  | noteMoreBodyDataAvailable
  | noteBodyProductionEnded
  | noteBodyProducerAborted
  deriving DecidableEq

/-- The call says how the body has ended. -/
def ConsumerCall.isEnd : ConsumerCall → Bool
  | noteMoreBodyDataAvailable => false
  | noteBodyProductionEnded => true
  | noteBodyProducerAborted => true

structure BodyPipe where
  theBodySize : ℤ := -1
  theProducer : CbcPointer := .valid
  theConsumer : CbcPointer := .nil
  thePutSize : ℕ := 0
  theGetSize : ℕ := 0
  theBuf : MemBuf := { capacity := 2 * 1024, max_capacity := 64 * 1024 }
  mustAutoConsume : Bool := false
  abortedConsumption : Bool := false
  isCheckedOut : Bool := false
  /-- `checkedOutSize` of the `BodyPipeCheckout`. -/
  checkedOutSize : ℕ := 0
  /-- The calls scheduled for the consumer since it was attached; not a field of the source. -/
  scheduled : List ConsumerCall := []
  /-- The bytes that have been put in; not a field of the source. -/
  produced : Bytes := []
  /-- The bytes that have been taken out; not a field of the source. -/
  taken : Bytes := []

namespace BodyPipe

def MaxCapacity : ℕ := 64 * 1024

def bodySizeKnown (s : BodyPipe) : Bool := 0 ≤ s.theBodySize

def bodySize (s : BodyPipe) : ℕ := s.theBodySize.toNat

def unproducedSize (s : BodyPipe) : ℕ := (((s.bodySize : ℤ) - s.thePutSize) % 2 ^ 64).toNat

def mayNeedMoreData (s : BodyPipe) : Bool := !s.bodySizeKnown || 0 < s.unproducedSize

def exhausted (s : BodyPipe) : Bool :=
  !(s.theGetSize < s.thePutSize || (s.theProducer = .valid && s.mayNeedMoreData))

/-! ## Notifications -/

def scheduleBodyDataNotification (s : BodyPipe) : BodyPipe :=
  if s.theConsumer = .valid then
    { s with scheduled := s.scheduled ++ [.noteMoreBodyDataAvailable] }
  else s

/-- The notification of the end of the body. -/
def endCall (s : BodyPipe) : ConsumerCall :=
  if s.bodySizeKnown ∧ s.bodySize = s.thePutSize then .noteBodyProductionEnded
  else .noteBodyProducerAborted

def scheduleBodyEndNotification (s : BodyPipe) : BodyPipe :=
  if s.theConsumer = .valid then { s with scheduled := s.scheduled ++ [s.endCall] } else s

/-- A consumer is attached. -/
def attach (s : BodyPipe) (aConsumer : CbcPointer) : BodyPipe :=
  { s with theConsumer := aConsumer, scheduled := [] }

def startAutoConsumption (s : BodyPipe) : BodyPipe :=
  (s.attach .valid).scheduleBodyDataNotification

/-- `clearProducer`; `none` if the assertion fails. -/
def clearProducer (s : BodyPipe) (atEof : Bool) : Option BodyPipe :=
  if ¬ s.theProducer.set then some s
  else if atEof then
    some { s with
      theProducer := .nil
      theBodySize := if s.bodySizeKnown then s.theBodySize
        else int64 s.thePutSize }.scheduleBodyEndNotification
  else if s.bodySizeKnown ∧ s.bodySize = s.thePutSize then none
  else some { s with theProducer := .nil }.scheduleBodyEndNotification

def postConsume (s : BodyPipe) (size : ℕ) : Option BodyPipe :=
  if s.isCheckedOut then none else some { s with theGetSize := (s.theGetSize + size) % 2 ^ 64 }

/-- The part of `postAppend` that is about the consumer. -/
def notifyAppended (s : BodyPipe) (size : ℕ) : BodyPipe :=
  (if s.mustAutoConsume ∧ s.theConsumer ≠ .valid ∧ 0 < size then s.startAutoConsumption
    else s).scheduleBodyDataNotification

def postAppend (s : BodyPipe) (size : ℕ) : Option BodyPipe :=
  if s.isCheckedOut then none
  else
    let s := { s with thePutSize := (s.thePutSize + size) % 2 ^ 64 }.notifyAppended size
    if s.mayNeedMoreData then some s else s.clearProducer true

/-! ## The producer -/

def setBodySize (s : BodyPipe) (aBodySize : ℕ) : Option BodyPipe :=
  if s.bodySizeKnown ∨ aBodySize < s.thePutSize ∨ s.theConsumer = .valid then none
  else some { s with theBodySize := int64 aBodySize }

def expectProductionEndAfter (s : BodyPipe) (size : ℕ) : BodyPipe :=
  if s.bodySizeKnown then s else { s with theBodySize := int64 ((s.thePutSize + size) % 2 ^ 64 : ℕ) }

/-- How much `putMoreData` accepts. -/
def accepted (s : BodyPipe) (size : ℕ) : ℕ :=
  min (if s.bodySizeKnown then min size s.unproducedSize else size) s.theBuf.potentialSpaceSize

def putMoreData (s : BodyPipe) (aBuffer : Bytes) : Option BodyPipe :=
  let size := s.accepted aBuffer.length
  if size = 0 then some s
  else
    (s.theBuf.append (aBuffer.take size)).bind fun theBuf =>
      { s with theBuf, produced := s.produced ++ aBuffer.take size }.postAppend size

/-! ## The consumer -/

def setConsumerIfNotLate (s : BodyPipe) (aConsumer : CbcPointer) : Option BodyPipe :=
  if s.theConsumer = .valid ∨ ¬ aConsumer.set then none
  else if 0 < s.theGetSize then if s.mustAutoConsume then some s else none
  else if s.abortedConsumption then some s
  else
    let s := s.attach aConsumer
    let s := if s.theBuf.content = [] then s else s.scheduleBodyDataNotification
    some (if s.theProducer = .valid then s else s.scheduleBodyEndNotification)

def expectNoConsumption (s : BodyPipe) : BodyPipe :=
  if s.abortedConsumption ∨ s.exhausted ∨ s.theConsumer = .valid then s
  else
    let s := { s with abortedConsumption := true }
    if s.mustAutoConsume then s.startAutoConsumption else s

def clearConsumer (s : BodyPipe) : BodyPipe :=
  if s.theConsumer.set then
    let s := { s with theConsumer := .nil }
    if s.theGetSize = 0 then s else s.expectNoConsumption
  else s

def consume (s : BodyPipe) (size : ℕ) : Option BodyPipe :=
  (s.theBuf.consume size).bind fun theBuf =>
    { s with theBuf, taken := s.taken ++ s.theBuf.content.take size }.postConsume size

/-- `getMoreData` into a buffer with some space. -/
def getMoreData (s : BodyPipe) (potentialSpaceSize : ℕ) : Option BodyPipe :=
  if s.theBuf.content = [] then some s
  else s.consume (min s.theBuf.content.length potentialSpaceSize)

def enableAutoConsumption (s : BodyPipe) : BodyPipe :=
  let s := { s with mustAutoConsume := true }
  if s.theConsumer ≠ .valid ∧ s.theBuf.content ≠ [] then s.startAutoConsumption else s

/-! ## The raw buffer -/

/-- `checkOut`, by a new `BodyPipeCheckout`. -/
def checkOut (s : BodyPipe) : Option BodyPipe :=
  if s.isCheckedOut then none
  else some { s with isCheckedOut := true, checkedOutSize := s.theBuf.content.length }

/-- `append` to the raw buffer. -/
def rawAppend (s : BodyPipe) (newContent : Bytes) : Option BodyPipe :=
  (s.theBuf.append newContent).map fun theBuf =>
    { s with theBuf, produced := s.produced ++ newContent }

/-- `consume` from the raw buffer. -/
def rawConsume (s : BodyPipe) (shiftSize : ℕ) : Option BodyPipe :=
  (s.theBuf.consume shiftSize).map fun theBuf =>
    { s with theBuf, taken := s.taken ++ s.theBuf.content.take shiftSize }

def checkIn (s : BodyPipe) : Option BodyPipe :=
  if ¬ s.isCheckedOut then none
  else
    let s := { s with isCheckedOut := false }
    let currentSize := s.theBuf.content.length
    if currentSize < s.checkedOutSize then s.postConsume (s.checkedOutSize - currentSize)
    else if s.checkedOutSize < currentSize then s.postAppend (currentSize - s.checkedOutSize)
    else some s

/-! ## Runs -/

/-- What is done with a pipe. -/
inductive Event where
  | setBodySize (aBodySize : ℕ)
  | expectProductionEndAfter (size : ℕ)
  | clearProducer (atEof : Bool)
  | putMoreData (aBuffer : Bytes)
  | setConsumerIfNotLate (aConsumer : CbcPointer)
  | clearConsumer
  | expectNoConsumption
  | consume (size : ℕ)
  | getMoreData (potentialSpaceSize : ℕ)
  | enableAutoConsumption
  | checkOut
  | rawAppend (newContent : Bytes)
  | rawConsume (shiftSize : ℕ)
  | checkIn
  /-- The producer's job is gone without having cleared the pointer. -/
  | producerGone
  /-- The consumer's job is gone without having cleared the pointer. -/
  | consumerGone

/-- The next event; `none` if it cannot occur or an assertion fails.  Sizes have 64 bits. -/
def next (s : BodyPipe) : Event → Option BodyPipe
  | .setBodySize aBodySize => if aBodySize < 2 ^ 64 then s.setBodySize aBodySize else none
  | .expectProductionEndAfter size => some (s.expectProductionEndAfter size)
  | .clearProducer atEof => s.clearProducer atEof
  | .putMoreData aBuffer => s.putMoreData aBuffer
  | .setConsumerIfNotLate aConsumer => s.setConsumerIfNotLate aConsumer
  | .clearConsumer => some s.clearConsumer
  | .expectNoConsumption => some s.expectNoConsumption
  | .consume size => s.consume size
  | .getMoreData potentialSpaceSize => s.getMoreData potentialSpaceSize
  | .enableAutoConsumption => some s.enableAutoConsumption
  | .checkOut => s.checkOut
  | .rawAppend newContent => if s.isCheckedOut then s.rawAppend newContent else none
  | .rawConsume shiftSize => if s.isCheckedOut then s.rawConsume shiftSize else none
  | .checkIn => s.checkIn
  | .producerGone => if s.theProducer = .valid then some { s with theProducer := .stale } else none
  | .consumerGone => if s.theConsumer = .valid then some { s with theConsumer := .stale } else none

end BodyPipe
end Squid
