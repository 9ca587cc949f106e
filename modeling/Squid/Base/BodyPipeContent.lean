import Squid.Base.BodyPipe

/-!
# The bytes in a body pipe

What has been taken out and what is still buffered is what has been put in, the counters agree with
the buffer, and neither the announced size nor the capacity is exceeded.
-/

namespace Squid

open CRuntime List Option

/-! ## The buffer -/

namespace MemBuf

variable {mb after : MemBuf}

/-- There is room for the terminating zero, and the capacity is within its limit. -/
structure Fits (mb : MemBuf) : Prop where
  terminated : mb.content.length < mb.capacity
  capacity : mb.capacity ≤ mb.max_capacity
  max_capacity : mb.max_capacity = 64 * 1024

theorem grow_fields {min_cap : ℕ} (fits : mb.Fits) (grows : mb.grow min_cap = some after) :
    after.content = mb.content ∧ after.max_capacity = mb.max_capacity ∧
      after.capacity ≤ after.max_capacity := by
  rw [grow, ite_none_right_eq_some] at grows
  cases grows.2
  refine ⟨rfl, rfl, ?_⟩
  dsimp only
  rw [fits.max_capacity]
  exact (memFindBufSizeType_le _).trans (max_le le_rfl (min_le_right _ _))

theorem append_fields {newContent : Bytes} (fits : mb.Fits)
    (appends : mb.append newContent = some after) :
    after.content = mb.content ++ newContent ∧ after.Fits := by
  rw [append] at appends
  split at appends
  next empty =>
    cases appends
    rw [empty, append_nil]
    exact ⟨rfl, fits⟩
  next =>
    obtain ⟨grown, grows, appends⟩ := bind_eq_some_iff.mp appends
    have same : grown.content = mb.content ∧ grown.max_capacity = mb.max_capacity ∧
        grown.capacity ≤ grown.max_capacity := by
      split at grows
      · exact grow_fields fits grows
      · cases grows
        exact ⟨rfl, rfl, fits.capacity⟩
    obtain ⟨content, maximum, capacity⟩ := same
    split at appends
    next terminated =>
      cases appends
      refine ⟨by rw [content], ?_, capacity, maximum.trans fits.max_capacity⟩
      rw [length_append, content]
      exact terminated
    next => cases appends

theorem consume_fields {shiftSize : ℕ} (fits : mb.Fits)
    (consumes : mb.consume shiftSize = some after) :
    shiftSize ≤ mb.content.length ∧ after.content = mb.content.drop shiftSize ∧ after.Fits := by
  rw [consume] at consumes
  split at consumes
  next within =>
    cases consumes
    refine ⟨within, rfl, ?_, fits.capacity, fits.max_capacity⟩
    have terminated := fits.terminated
    dsimp only
    rw [length_drop]
    omega
  next => cases consumes

end MemBuf

namespace BodyPipe

/-! ## What leaves the bytes alone -/

/-- Neither bytes nor counters nor the announced size change. -/
structure Unchanged (s t : BodyPipe) : Prop where
  theBodySize : t.theBodySize = s.theBodySize
  thePutSize : t.thePutSize = s.thePutSize
  theGetSize : t.theGetSize = s.theGetSize
  theBuf : t.theBuf = s.theBuf
  isCheckedOut : t.isCheckedOut = s.isCheckedOut
  checkedOutSize : t.checkedOutSize = s.checkedOutSize
  produced : t.produced = s.produced
  taken : t.taken = s.taken

variable {s t u : BodyPipe} {size : ℕ}

theorem Unchanged.refl (s : BodyPipe) : Unchanged s s := ⟨rfl, rfl, rfl, rfl, rfl, rfl, rfl, rfl⟩

theorem Unchanged.trans (first : Unchanged s t) (second : Unchanged t u) : Unchanged s u :=
  ⟨second.theBodySize.trans first.theBodySize, second.thePutSize.trans first.thePutSize,
    second.theGetSize.trans first.theGetSize, second.theBuf.trans first.theBuf,
    second.isCheckedOut.trans first.isCheckedOut, second.checkedOutSize.trans first.checkedOutSize,
    second.produced.trans first.produced, second.taken.trans first.taken⟩

theorem unchanged_scheduleBodyDataNotification (s : BodyPipe) :
    Unchanged s s.scheduleBodyDataNotification := by
  unfold scheduleBodyDataNotification
  split
  · exact ⟨rfl, rfl, rfl, rfl, rfl, rfl, rfl, rfl⟩
  · exact .refl s

theorem unchanged_scheduleBodyEndNotification (s : BodyPipe) :
    Unchanged s s.scheduleBodyEndNotification := by
  unfold scheduleBodyEndNotification
  split
  · exact ⟨rfl, rfl, rfl, rfl, rfl, rfl, rfl, rfl⟩
  · exact .refl s

theorem unchanged_attach (s : BodyPipe) (aConsumer : CbcPointer) :
    Unchanged s (s.attach aConsumer) := ⟨rfl, rfl, rfl, rfl, rfl, rfl, rfl, rfl⟩

theorem unchanged_startAutoConsumption (s : BodyPipe) : Unchanged s s.startAutoConsumption :=
  (unchanged_attach s .valid).trans (unchanged_scheduleBodyDataNotification _)

theorem unchanged_notifyAppended (s : BodyPipe) (size : ℕ) :
    Unchanged s (s.notifyAppended size) := by
  unfold notifyAppended
  refine .trans ?_ (unchanged_scheduleBodyDataNotification _)
  split
  · exact unchanged_startAutoConsumption s
  · exact .refl s

theorem unchanged_expectNoConsumption (s : BodyPipe) : Unchanged s s.expectNoConsumption := by
  have aborted : Unchanged s { s with abortedConsumption := true } :=
    ⟨rfl, rfl, rfl, rfl, rfl, rfl, rfl, rfl⟩
  unfold expectNoConsumption
  split
  · exact .refl s
  · dsimp only
    split
    · exact aborted.trans (unchanged_startAutoConsumption _)
    · exact aborted

theorem unchanged_clearConsumer (s : BodyPipe) : Unchanged s s.clearConsumer := by
  have cleared : Unchanged s { s with theConsumer := .nil } :=
    ⟨rfl, rfl, rfl, rfl, rfl, rfl, rfl, rfl⟩
  unfold clearConsumer
  split
  · dsimp only
    split
    · exact cleared
    · exact cleared.trans (unchanged_expectNoConsumption _)
  · exact .refl s

theorem unchanged_enableAutoConsumption (s : BodyPipe) : Unchanged s s.enableAutoConsumption := by
  have enabled : Unchanged s { s with mustAutoConsume := true } :=
    ⟨rfl, rfl, rfl, rfl, rfl, rfl, rfl, rfl⟩
  unfold enableAutoConsumption
  dsimp only
  split
  · exact enabled.trans (unchanged_startAutoConsumption _)
  · exact enabled

theorem unchanged_setConsumerIfNotLate {aConsumer : CbcPointer}
    (happens : s.setConsumerIfNotLate aConsumer = some t) : Unchanged s t := by
  unfold setConsumerIfNotLate at happens
  split at happens
  · cases happens
  split at happens
  · split at happens
    · cases happens
      exact .refl s
    · cases happens
  split at happens
  · cases happens
    exact .refl s
  · cases happens
    have told : ∀ s : BodyPipe, Unchanged s (if s.theProducer = .valid then s
        else s.scheduleBodyEndNotification) := by
      intro s
      split
      · exact .refl s
      · exact unchanged_scheduleBodyEndNotification s
    refine (unchanged_attach s aConsumer).trans (.trans ?_ (told _))
    split
    · exact .refl _
    · exact unchanged_scheduleBodyDataNotification _

/-! ## The invariant -/

/-- The bytes and the counters.  While the buffer is checked out, the counters are those of the time
before. -/
structure Intact (s : BodyPipe) : Prop where
  delivered : s.taken ++ s.theBuf.content = s.produced
  counted : (s.theGetSize + if s.isCheckedOut then s.checkedOutSize else s.theBuf.content.length) %
    2 ^ 64 = s.thePutSize
  bounded : s.bodySizeKnown = true → s.thePutSize ≤ s.bodySize
  small : s.theBodySize < 2 ^ 63
  fits : s.theBuf.Fits

namespace Intact

theorem congr (intact : Intact s) (same : Unchanged s t) : Intact t where
  delivered := by
    rw [same.taken, same.theBuf, same.produced]
    exact intact.delivered
  counted := by
    rw [same.theGetSize, same.isCheckedOut, same.checkedOutSize, same.theBuf, same.thePutSize]
    exact intact.counted
  bounded := by
    rw [bodySizeKnown, bodySize, same.theBodySize, same.thePutSize]
    exact intact.bounded
  small := by
    rw [same.theBodySize]
    exact intact.small
  fits := by
    rw [same.theBuf]
    exact intact.fits

/-- A size that is announced must not be less than what has been put in. -/
theorem announce (intact : Intact s) {theBodySize : ℤ} (small : theBodySize < 2 ^ 63)
    (bounded : 0 ≤ theBodySize → s.thePutSize ≤ theBodySize.toNat) :
    Intact { s with theBodySize } :=
  ⟨intact.delivered, intact.counted, fun known => bounded (of_decide_eq_true known), small,
    intact.fits⟩

theorem clearProducer {atEof : Bool} (intact : Intact s)
    (happens : s.clearProducer atEof = some t) : Intact t := by
  unfold BodyPipe.clearProducer at happens
  split at happens
  · cases happens
    exact intact
  have cleared : Intact { s with theProducer := .nil } :=
    intact.congr ⟨rfl, rfl, rfl, rfl, rfl, rfl, rfl, rfl⟩
  split at happens
  · cases happens
    refine congr ?_ (unchanged_scheduleBodyEndNotification _)
    split
    · exact cleared
    · refine cleared.announce (int64_mem _).2 fun known => ?_
      have counted := intact.counted
      have put : s.thePutSize < 2 ^ 64 := by
        rw [← counted]
        exact Nat.mod_lt _ (by decide)
      rw [int64] at known ⊢
      dsimp only
      omega
  split at happens
  · cases happens
  · cases happens
    exact cleared.congr (unchanged_scheduleBodyEndNotification _)

/-- Bytes that have been put in are counted. -/
theorem postAppend (happens : s.postAppend size = some t)
    (delivered : s.taken ++ s.theBuf.content = s.produced)
    (counted : (s.theGetSize + s.theBuf.content.length) % 2 ^ 64 =
      (s.thePutSize + size) % 2 ^ 64)
    (bounded : s.bodySizeKnown = true → s.thePutSize + size ≤ s.bodySize)
    (small : s.theBodySize < 2 ^ 63) (fits : s.theBuf.Fits) : Intact t := by
  unfold BodyPipe.postAppend at happens
  by_cases out : s.isCheckedOut = true
  · rw [if_pos out] at happens
    cases happens
  · rw [if_neg out] at happens
    have added : Intact { s with thePutSize := (s.thePutSize + size) % 2 ^ 64 } := by
      refine ⟨delivered, ?_, fun known => ?_, small, fits⟩
      · dsimp only
        rw [if_neg out]
        exact counted
      · exact (Nat.mod_le _ _).trans (bounded known)
    have scheduled := added.congr (unchanged_notifyAppended _ size)
    dsimp only at happens
    split at happens
    · cases happens
      exact scheduled
    · exact scheduled.clearProducer happens

theorem postConsume (happens : s.postConsume size = some t)
    (delivered : s.taken ++ s.theBuf.content = s.produced)
    (counted : (s.theGetSize + size + s.theBuf.content.length) % 2 ^ 64 = s.thePutSize)
    (bounded : s.bodySizeKnown = true → s.thePutSize ≤ s.bodySize)
    (small : s.theBodySize < 2 ^ 63) (fits : s.theBuf.Fits) : Intact t := by
  unfold BodyPipe.postConsume at happens
  by_cases out : s.isCheckedOut = true
  · rw [if_pos out] at happens
    cases happens
  · rw [if_neg out] at happens
    cases happens
    refine ⟨delivered, ?_, bounded, small, fits⟩
    dsimp only
    rw [if_neg out, Nat.mod_add_mod]
    exact counted

/-! ## The operations -/

theorem putMoreData {aBuffer : Bytes} (intact : Intact s)
    (happens : s.putMoreData aBuffer = some t) : Intact t := by
  unfold BodyPipe.putMoreData at happens
  dsimp only at happens
  split at happens
  · cases happens
    exact intact
  obtain ⟨theBuf, appends, happens⟩ := bind_eq_some_iff.mp happens
  obtain ⟨content, fits⟩ := MemBuf.append_fields intact.fits appends
  have length : (aBuffer.take (s.accepted aBuffer.length)).length = s.accepted aBuffer.length := by
    rw [length_take, accepted]
    split
    · omega
    · omega
  by_cases out : s.isCheckedOut = true
  · rw [BodyPipe.postAppend, if_pos out] at happens
    cases happens
  refine postAppend happens ?_ ?_ (fun known => ?_) intact.small fits
  · dsimp only
    rw [content, ← append_assoc, intact.delivered]
  · have counted := intact.counted
    rw [if_neg out] at counted
    dsimp only
    rw [content, length_append, length, ← Nat.add_assoc, ← counted, Nat.mod_add_mod]
  · have bounded := intact.bounded known
    have small := intact.small
    have known' : s.bodySizeKnown = true := known
    dsimp only
    rw [accepted, if_pos known', unproducedSize]
    rw [bodySize] at bounded ⊢
    rw [BodyPipe.bodySize]
    dsimp only
    omega

theorem consume (intact : Intact s) (happens : s.consume size = some t) : Intact t := by
  unfold BodyPipe.consume at happens
  obtain ⟨theBuf, consumes, happens⟩ := bind_eq_some_iff.mp happens
  obtain ⟨within, content, fits⟩ := MemBuf.consume_fields intact.fits consumes
  by_cases out : s.isCheckedOut = true
  · rw [BodyPipe.postConsume, if_pos out] at happens
    cases happens
  refine postConsume happens ?_ ?_ intact.bounded intact.small fits
  · dsimp only
    rw [content, append_assoc, take_append_drop]
    exact intact.delivered
  · have counted := intact.counted
    rw [if_neg out] at counted
    dsimp only
    rw [content, length_drop, ← counted]
    congr 1
    omega

theorem checkIn (intact : Intact s) (listed : s.bodySizeKnown = true →
      s.theBuf.content.length ≤ s.checkedOutSize + s.unproducedSize)
    (happens : s.checkIn = some t) : Intact t := by
  unfold BodyPipe.checkIn at happens
  split at happens
  · cases happens
  next out =>
    rw [not_not] at out
    have counted := intact.counted
    rw [if_pos out] at counted
    dsimp only at happens
    split at happens
    next shrunk =>
      refine postConsume happens intact.delivered ?_ intact.bounded intact.small intact.fits
      dsimp only
      rw [← counted]
      congr 1
      omega
    split at happens
    next grown =>
      refine postAppend happens intact.delivered ?_ (fun known => ?_) intact.small intact.fits
      · dsimp only
        rw [← counted, Nat.mod_add_mod]
        congr 1
        omega
      · have announced := listed known
        have bounded := intact.bounded known
        have small := intact.small
        rw [unproducedSize] at announced
        rw [bodySize] at announced bounded ⊢
        dsimp only
        omega
    next same =>
      cases happens
      refine ⟨intact.delivered, ?_, intact.bounded, intact.small, intact.fits⟩
      dsimp only
      rw [if_neg nofun, ← counted]
      congr 2
      omega

end Intact

/-! ## Runs -/

/-- The size is announced by `setBodySize` only, and what is added to the raw buffer is at most
`unproducedSize`. -/
def Listed (s : BodyPipe) : Event → Prop
  | .expectProductionEndAfter _ => False
  | .checkIn => s.bodySizeKnown = true →
      s.theBuf.content.length ≤ s.checkedOutSize + s.unproducedSize
  | _ => True

instance (s : BodyPipe) : ∀ event, Decidable (s.Listed event)
  | .expectProductionEndAfter _ => .isFalse id
  | .checkIn => inferInstanceAs (Decidable (_ → _))
  | .setBodySize _ | .clearProducer _ | .putMoreData _ | .setConsumerIfNotLate _ | .clearConsumer
  | .expectNoConsumption | .consume _ | .getMoreData _ | .enableAutoConsumption | .checkOut
  | .rawAppend _ | .rawConsume _ | .producerGone | .consumerGone => .isTrue trivial

theorem Intact.next {event : Event} (intact : Intact s) (listed : s.Listed event)
    (happens : s.next event = some t) : Intact t := by
  cases event with
  | setBodySize aBodySize =>
      obtain ⟨wide, size⟩ := ite_none_right_eq_some.mp happens
      unfold BodyPipe.setBodySize at size
      split at size
      · cases size
      next admitted =>
        obtain rfl := some.inj size
        rw [not_or, not_or, not_lt] at admitted
        refine intact.announce (int64_mem _).2 fun known => ?_
        rw [int64] at known ⊢
        omega
  | expectProductionEndAfter size => exact listed.elim
  | clearProducer atEof => exact intact.clearProducer happens
  | putMoreData aBuffer => exact intact.putMoreData happens
  | setConsumerIfNotLate aConsumer => exact intact.congr (unchanged_setConsumerIfNotLate happens)
  | clearConsumer =>
      cases happens
      exact intact.congr (unchanged_clearConsumer s)
  | expectNoConsumption =>
      cases happens
      exact intact.congr (unchanged_expectNoConsumption s)
  | consume size => exact intact.consume happens
  | getMoreData potentialSpaceSize =>
      have more : s.getMoreData potentialSpaceSize = some t := happens
      unfold BodyPipe.getMoreData at more
      split at more
      · cases more
        exact intact
      · exact intact.consume more
  | enableAutoConsumption =>
      cases happens
      exact intact.congr (unchanged_enableAutoConsumption s)
  | checkOut =>
      have out : s.checkOut = some t := happens
      unfold BodyPipe.checkOut at out
      split at out
      · cases out
      next free =>
        cases out
        have counted := intact.counted
        rw [if_neg free] at counted
        exact ⟨intact.delivered, counted, intact.bounded, intact.small, intact.fits⟩
  | rawAppend newContent =>
      obtain ⟨out, raw⟩ := ite_none_right_eq_some.mp happens
      obtain ⟨theBuf, appends, rfl⟩ := map_eq_some_iff.mp raw
      obtain ⟨content, fits⟩ := MemBuf.append_fields intact.fits appends
      have counted := intact.counted
      rw [if_pos out] at counted
      refine ⟨?_, ?_, intact.bounded, intact.small, fits⟩
      · dsimp only
        rw [content, ← append_assoc, intact.delivered]
      · dsimp only
        rw [if_pos out]
        exact counted
  | rawConsume shiftSize =>
      obtain ⟨out, raw⟩ := ite_none_right_eq_some.mp happens
      obtain ⟨theBuf, consumes, rfl⟩ := map_eq_some_iff.mp raw
      obtain ⟨-, content, fits⟩ := MemBuf.consume_fields intact.fits consumes
      have counted := intact.counted
      rw [if_pos out] at counted
      refine ⟨?_, ?_, intact.bounded, intact.small, fits⟩
      · dsimp only
        rw [content, append_assoc, take_append_drop]
        exact intact.delivered
      · dsimp only
        rw [if_pos out]
        exact counted
  | checkIn => exact intact.checkIn listed happens
  | producerGone | consumerGone =>
      obtain rfl := some.inj (ite_none_right_eq_some.mp happens).2
      exact intact.congr ⟨rfl, rfl, rfl, rfl, rfl, rfl, rfl, rfl⟩

theorem intact_initial : Intact {} where
  delivered := rfl
  counted := rfl
  bounded := nofun
  small := by decide
  fits := ⟨by decide, by decide, rfl⟩

/-- The body is delivered intact.  The counters have 64 bits. -/
theorem intact_of_run {events : List Event} {s : BodyPipe}
    (listed : LabelledRun.Allowed next Listed {} events)
    (run : LabelledRun.exec next {} events = some s) :
    (s.isCheckedOut = false →
      (s.theGetSize + s.theBuf.content.length) % 2 ^ 64 = s.thePutSize) ∧
    (s.bodySizeKnown = true → s.thePutSize ≤ s.bodySize) ∧
    s.theBuf.content.length < s.theBuf.capacity ∧ s.theBuf.capacity ≤ MaxCapacity ∧
    s.taken ++ s.theBuf.content = s.produced := by
  have intact : Intact s := LabelledRun.invariant_of_allowed
    (fun intact listed happens => Intact.next intact listed happens) intact_initial listed run
  refine ⟨fun free => ?_, intact.bounded, intact.fits.terminated, ?_, intact.delivered⟩
  · have counted := intact.counted
    rwa [free, if_neg nofun] at counted
  · rw [MaxCapacity, ← intact.fits.max_capacity]
    exact intact.fits.capacity

/-- A body of five bytes, through all four interfaces. -/
def fiveBytes : List Event :=
  [.setBodySize 5, .putMoreData [1, 2], .setConsumerIfNotLate .valid, .checkOut,
    .rawAppend [3, 4], .checkIn, .getMoreData 3, .putMoreData [5, 6], .checkOut, .rawConsume 1,
    .checkIn]

theorem intact_fiveBytes : ∃ s, LabelledRun.exec next {} fiveBytes = some s ∧
    s.taken = [1, 2, 3, 4] ∧ s.theBuf.content = [5] ∧
    (s.isCheckedOut = false →
      (s.theGetSize + s.theBuf.content.length) % 2 ^ 64 = s.thePutSize) := by
  have listed : LabelledRun.Allowed next Listed {} fiveBytes := by decide +kernel
  have reached : (LabelledRun.exec next {} fiveBytes).map (fun s => (s.taken, s.theBuf.content)) =
      some ([1, 2, 3, 4], [5]) := by decide +kernel
  obtain ⟨s, run, ended⟩ := map_eq_some_iff.mp reached
  obtain ⟨taken, content⟩ := Prod.mk.inj ended
  exact ⟨s, run, taken, content, (intact_of_run listed run).1⟩

end BodyPipe
end Squid
