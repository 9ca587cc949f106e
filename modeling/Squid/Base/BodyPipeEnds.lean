import Squid.Base.BodyPipe

/-!
# How a consumer learns that the body has ended

A consumer that is attached to a pipe without a producer has been told how the body ended, unless it
was started by auto-consumption then, was gone when it should have been told, or the size of the body
has changed since.
-/

namespace Squid
namespace BodyPipe

open CRuntime Option

variable {s t : BodyPipe} {size : ℕ}

/-- What the consumer has been told about the end. -/
def ends (s : BodyPipe) : List ConsumerCall := s.scheduled.filter ConsumerCall.isEnd

/-- Where there is a consumer and no producer, the consumer has been told once, and rightly. -/
def Told (s : BodyPipe) : Prop :=
  s.theConsumer.set → ¬ s.theProducer.set → s.ends = [s.endCall]

/-! ## Notifications -/

theorem endCall_isEnd (s : BodyPipe) : s.endCall.isEnd = true := by
  unfold endCall
  split
  · rfl
  · rfl

/-- Consumer and producer, what the consumer knows, and what it should know. -/
structure SameEnd (s t : BodyPipe) : Prop where
  theConsumer : t.theConsumer = s.theConsumer
  theProducer : t.theProducer = s.theProducer
  ends : t.ends = s.ends
  endCall : t.endCall = s.endCall

theorem SameEnd.refl (s : BodyPipe) : SameEnd s s := ⟨rfl, rfl, rfl, rfl⟩

theorem SameEnd.trans {u : BodyPipe} (first : SameEnd s t) (second : SameEnd t u) :
    SameEnd s u where
  theConsumer := second.theConsumer.trans first.theConsumer
  theProducer := second.theProducer.trans first.theProducer
  ends := second.ends.trans first.ends
  endCall := second.endCall.trans first.endCall

theorem SameEnd.told_iff (same : SameEnd s t) : Told t ↔ Told s := by
  rw [Told, Told, same.theConsumer, same.theProducer, same.ends, same.endCall]

theorem sameEnd_scheduleBodyDataNotification (s : BodyPipe) :
    SameEnd s s.scheduleBodyDataNotification := by
  unfold scheduleBodyDataNotification
  split
  · refine ⟨rfl, rfl, ?_, rfl⟩
    rw [ends, ends, List.filter_append]
    exact List.append_nil _
  · exact ⟨rfl, rfl, rfl, rfl⟩

theorem scheduleBodyEndNotification_fields (s : BodyPipe) :
    s.scheduleBodyEndNotification.theConsumer = s.theConsumer ∧
      s.scheduleBodyEndNotification.theProducer = s.theProducer ∧
      s.scheduleBodyEndNotification.endCall = s.endCall ∧
      s.scheduleBodyEndNotification.ends =
        s.ends ++ if s.theConsumer = .valid then [s.endCall] else [] := by
  unfold scheduleBodyEndNotification
  split
  · refine ⟨rfl, rfl, rfl, ?_⟩
    rw [ends, ends, List.filter_append, List.filter_singleton, endCall_isEnd]
    rfl
  · exact ⟨rfl, rfl, rfl, (List.append_nil _).symm⟩

theorem startAutoConsumption_fields (s : BodyPipe) :
    s.startAutoConsumption.theConsumer = .valid ∧
      s.startAutoConsumption.theProducer = s.theProducer ∧
      s.startAutoConsumption.ends = [] ∧ s.startAutoConsumption.endCall = s.endCall := by
  have same := sameEnd_scheduleBodyDataNotification (s.attach .valid)
  exact ⟨same.theConsumer, same.theProducer, same.ends, same.endCall⟩

/-- Auto-consumption must not start without a producer. -/
theorem told_startAutoConsumption_iff (s : BodyPipe) :
    Told s.startAutoConsumption ↔ s.theProducer.set := by
  obtain ⟨consumer, producer, ends, -⟩ := startAutoConsumption_fields s
  rw [Told, consumer, producer, ends]
  constructor
  · intro told
    by_contra unset
    cases told nofun unset
  · exact fun set _ unset => (unset set).elim

/-! ## Clearing the producer -/

/-- The consumer can be told now; or it is gone, and knew before. -/
def Reaches (s : BodyPipe) (call : ConsumerCall) : Prop :=
  s.theConsumer.set → if s.theConsumer = .valid then s.ends = [] else s.ends = [call]

/-- What is left without the producer. -/
def ended (s : BodyPipe) (atEof : Bool) : BodyPipe :=
  { s with
    theProducer := .nil
    theBodySize := if atEof then if s.bodySizeKnown then s.theBodySize else int64 s.thePutSize
      else s.theBodySize }

theorem told_scheduleBodyEndNotification_iff (cleared : s.theProducer = .nil) :
    Told s.scheduleBodyEndNotification ↔ s.Reaches s.endCall := by
  obtain ⟨consumer, producer, call, ends⟩ := scheduleBodyEndNotification_fields s
  rw [Told, Reaches, consumer, producer, call, ends, cleared]
  refine imp_congr_right fun set => ?_
  by_cases valid : s.theConsumer = .valid
  · rw [if_pos valid, if_pos valid]
    constructor
    · intro told
      simpa using told nofun
    · intro untold _
      rw [untold]
      rfl
  · rw [if_neg valid, if_neg valid, List.append_nil]
    exact ⟨fun told => told nofun, fun told _ => told⟩

variable {atEof : Bool}

/-- What `clearProducer` comes to. -/
theorem clearProducer_cases (happens : s.clearProducer atEof = some t) :
    ¬ s.theProducer.set ∧ t = s ∨
      s.theProducer.set ∧ t = (s.ended atEof).scheduleBodyEndNotification := by
  unfold clearProducer at happens
  by_cases set : s.theProducer.set
  · rw [if_neg (not_not.mpr set)] at happens
    refine .inr ⟨set, ?_⟩
    cases atEof with
    | true =>
        rw [if_pos rfl] at happens
        rw [← some.inj happens, ended]
        simp only [if_true]
    | false =>
        rw [if_neg nofun] at happens
        split at happens
        · cases happens
        · rw [← some.inj happens, ended]
          simp only [Bool.false_eq_true, if_false]
  · rw [if_pos set] at happens
    exact .inl ⟨set, (some.inj happens).symm⟩

theorem clearProducer_told_iff (told : Told s) (happens : s.clearProducer atEof = some t) :
    Told t ↔ (s.theProducer.set → s.Reaches (s.ended atEof).endCall) := by
  obtain ⟨unset, rfl⟩ | ⟨set, rfl⟩ := clearProducer_cases happens
  · exact iff_of_true told fun set => (unset set).elim
  · rw [told_scheduleBodyEndNotification_iff rfl]
    exact ⟨fun reaches _ => reaches, fun reaches => reaches set⟩

/-! ## Starting auto-consumption, and putting data in -/

/-- `expectNoConsumption` goes on. -/
def Aborts (s : BodyPipe) : Prop :=
  ¬ (s.abortedConsumption = true ∨ s.exhausted = true ∨ s.theConsumer = .valid)

/-- The pipe with `size` more bytes counted. -/
def putting (s : BodyPipe) (size : ℕ) : BodyPipe :=
  { s with thePutSize := (s.thePutSize + size) % 2 ^ 64 }

/-- `postAppend` starts auto-consumption. -/
def AutoStarts (s : BodyPipe) : Prop := s.mustAutoConsume = true ∧ s.theConsumer ≠ .valid

instance (s : BodyPipe) : Decidable s.Aborts := inferInstanceAs (Decidable (¬ _))

instance (s : BodyPipe) : Decidable s.AutoStarts := inferInstanceAs (Decidable (_ ∧ _))

instance (s : BodyPipe) (call : ConsumerCall) : Decidable (s.Reaches call) :=
  inferInstanceAs (Decidable (_ → _))

/-- What `postAppend` needs.  With a producer, whoever is attached can be told if the body ends.
Without one, auto-consumption does not start, and what has been told stays right. -/
def AppendTells (s : BodyPipe) (size : ℕ) : Prop :=
  if s.theProducer.set then
    (s.putting size).mayNeedMoreData = false → ¬ s.AutoStarts → s.Reaches (s.putting size).endCall
  else ¬ s.AutoStarts ∧ (s.theConsumer.set → (s.putting size).endCall = s.endCall)

theorem expectNoConsumption_told_iff (told : Told s) :
    Told s.expectNoConsumption ↔ (s.Aborts → s.mustAutoConsume = true → s.theProducer.set) := by
  unfold expectNoConsumption
  by_cases stays : s.abortedConsumption = true ∨ s.exhausted = true ∨ s.theConsumer = .valid
  · rw [if_pos stays]
    exact iff_of_true told fun aborts => (aborts stays).elim
  · rw [if_neg stays]
    dsimp only
    by_cases auto : s.mustAutoConsume = true
    · rw [if_pos auto, told_startAutoConsumption_iff]
      exact ⟨fun set _ _ => set, fun set => set stays auto⟩
    · rw [if_neg auto]
      exact iff_of_true told fun _ on => (auto on).elim

theorem enableAutoConsumption_told_iff (told : Told s) :
    Told s.enableAutoConsumption ↔
      (s.theConsumer ≠ .valid → s.theBuf.content ≠ [] → s.theProducer.set) := by
  unfold enableAutoConsumption
  dsimp only
  split
  next starts =>
    rw [told_startAutoConsumption_iff]
    exact ⟨fun set _ _ => set, fun set => set starts.1 starts.2⟩
  next rests =>
    exact iff_of_true told fun free filled => (rests ⟨free, filled⟩).elim

theorem clearConsumer_told_iff (told : Told s) :
    Told s.clearConsumer ↔ (s.theConsumer.set → s.theGetSize ≠ 0 →
      { s with theConsumer := .nil }.Aborts → s.mustAutoConsume = true → s.theProducer.set) := by
  have cleared : Told { s with theConsumer := .nil } := fun set => (set rfl).elim
  unfold clearConsumer
  split
  next set =>
    dsimp only
    split
    next fresh => exact iff_of_true cleared fun _ used => (used fresh).elim
    next used =>
      rw [expectNoConsumption_told_iff cleared]
      exact ⟨fun starts _ _ => starts, fun starts => starts set used⟩
  next unset => exact iff_of_true told fun set => (unset set).elim

variable {aConsumer : CbcPointer}

/-- A new consumer is told at once, unless it is gone already. -/
theorem told_attached_iff (given : aConsumer.set) (same : SameEnd (s.attach aConsumer) t) :
    Told (if t.theProducer = .valid then t else t.scheduleBodyEndNotification) ↔
      (¬ s.theProducer.set → aConsumer = .valid) := by
  have consumer : t.theConsumer = aConsumer := same.theConsumer
  have producer : t.theProducer = s.theProducer := same.theProducer
  have untold : t.ends = [] := same.ends
  cases which : s.theProducer with
  | nil =>
      rw [which] at producer
      rw [if_neg (by rw [producer]; nofun), told_scheduleBodyEndNotification_iff producer, Reaches,
        consumer, untold]
      constructor
      · intro reaches _
        by_contra gone
        have told := reaches given
        rw [if_neg gone] at told
        cases told
      · intro valid _
        rw [if_pos (valid fun set => set rfl)]
  | stale =>
      rw [which] at producer
      rw [if_neg (by rw [producer]; nofun)]
      have kept := (scheduleBodyEndNotification_fields t).2.1
      exact iff_of_true (fun _ unset => (unset (by rw [kept, producer]; nofun)).elim)
        fun unset => (unset nofun).elim
  | valid =>
      rw [which] at producer
      rw [if_pos producer]
      exact iff_of_true (fun _ unset => (unset (by rw [producer]; nofun)).elim)
        fun unset => (unset nofun).elim

theorem setConsumerIfNotLate_told_iff (told : Told s)
    (happens : s.setConsumerIfNotLate aConsumer = some t) :
    Told t ↔ (s.theGetSize = 0 → s.abortedConsumption = false → ¬ s.theProducer.set →
      aConsumer = .valid) := by
  unfold setConsumerIfNotLate at happens
  split at happens
  · cases happens
  next free =>
    have given : aConsumer.set := not_not.mp (not_or.mp free).2
    split at happens
    next used =>
      split at happens
      · cases happens
        exact iff_of_true told fun fresh => (used.ne' fresh).elim
      · cases happens
    next fresh =>
      split at happens
      next aborted =>
        cases happens
        exact iff_of_true told fun _ trusted => by rw [aborted] at trusted; cases trusted
      next trusted =>
        rw [← some.inj happens]
        have same : SameEnd (s.attach aConsumer)
            (if (s.attach aConsumer).theBuf.content = [] then s.attach aConsumer
              else (s.attach aConsumer).scheduleBodyDataNotification) := by
          split
          · exact SameEnd.refl _
          · exact sameEnd_scheduleBodyDataNotification _
        rw [told_attached_iff given same]
        exact ⟨fun valid _ _ => valid,
          fun valid => valid (by omega) (Bool.eq_false_iff.mpr trusted)⟩

/-! ## Putting data in -/

theorem scheduleBodyDataNotification_sizes (s : BodyPipe) :
    s.scheduleBodyDataNotification.theBodySize = s.theBodySize ∧
      s.scheduleBodyDataNotification.thePutSize = s.thePutSize := by
  unfold scheduleBodyDataNotification
  split
  · exact ⟨rfl, rfl⟩
  · exact ⟨rfl, rfl⟩

theorem notifyAppended_sizes (s : BodyPipe) (size : ℕ) :
    (s.notifyAppended size).theBodySize = s.theBodySize ∧
      (s.notifyAppended size).thePutSize = s.thePutSize := by
  unfold notifyAppended
  split
  · obtain ⟨known, put⟩ := scheduleBodyDataNotification_sizes s.startAutoConsumption
    obtain ⟨known', put'⟩ := scheduleBodyDataNotification_sizes (s.attach .valid)
    exact ⟨known.trans known', put.trans put'⟩
  · exact scheduleBodyDataNotification_sizes s

theorem notifyAppended_fields (s : BodyPipe) (positive : 0 < size) :
    SameEnd (if s.AutoStarts then s.attach .valid else s) (s.notifyAppended size) := by
  unfold notifyAppended
  by_cases starts : s.AutoStarts
  · rw [if_pos starts, if_pos ⟨starts.1, starts.2, positive⟩]
    exact (sameEnd_scheduleBodyDataNotification _).trans (sameEnd_scheduleBodyDataNotification _)
  · rw [if_neg starts, if_neg fun auto => starts ⟨auto.1, auto.2.1⟩]
    exact sameEnd_scheduleBodyDataNotification s

/-- A known size is not changed at the end of the body. -/
theorem ended_endCall (whole : s.mayNeedMoreData = false) : (s.ended true).endCall = s.endCall := by
  have known : s.bodySizeKnown = true := by
    unfold mayNeedMoreData at whole
    simp_all
  rw [ended, endCall, endCall, bodySizeKnown, bodySize, if_pos rfl, if_pos known]
  rfl

/-- Without a producer, no new consumer may come, and what is to be told may not change. -/
theorem told_putting_iff (told : Told s) (unset : ¬ s.theProducer.set)
    (same : SameEnd (if s.AutoStarts then (s.putting size).attach .valid else s.putting size) t) :
    Told t ↔ ¬ s.AutoStarts ∧ (s.theConsumer.set → (s.putting size).endCall = s.endCall) := by
  rw [same.told_iff]
  by_cases starts : s.AutoStarts
  · rw [if_pos starts]
    refine iff_of_false (fun told => ?_) fun ok => ok.1 starts
    cases told nofun unset
  · rw [if_neg starts]
    constructor
    · refine fun still => ⟨starts, fun set => ?_⟩
      have once : s.ends = [(s.putting size).endCall] := still set unset
      rw [told set unset] at once
      exact (List.singleton_inj.mp once).symm
    · intro ok set _
      rw [ok.2 set]
      exact told set unset

/-- Only a consumer that was there before can know of the end. -/
theorem SameEnd.reaches_putting
    (same : SameEnd (if s.AutoStarts then (s.putting size).attach .valid else s.putting size) t) :
    (t.ended true).Reaches t.endCall ↔ (¬ s.AutoStarts → s.Reaches (s.putting size).endCall) := by
  have told : (t.ended true).ends = t.ends := rfl
  have consumer : (t.ended true).theConsumer = t.theConsumer := rfl
  rw [Reaches, told, consumer, same.theConsumer, same.ends, same.endCall]
  by_cases starts : s.AutoStarts
  · rw [if_pos starts]
    refine iff_of_true (fun _ => ?_) fun rests => (rests starts).elim
    exact (if_pos rfl).mpr rfl
  · rw [if_neg starts]
    exact ⟨fun reaches _ => reaches, fun reaches => reaches starts⟩

theorem postAppend_told_iff (told : Told s) (positive : 0 < size)
    (happens : s.postAppend size = some t) : Told t ↔ s.AppendTells size := by
  unfold postAppend at happens
  split at happens
  · cases happens
  dsimp only at happens
  change (if ((s.putting size).notifyAppended size).mayNeedMoreData = true then
    some ((s.putting size).notifyAppended size)
    else ((s.putting size).notifyAppended size).clearProducer true) = some t at happens
  have same : SameEnd (if s.AutoStarts then (s.putting size).attach .valid else s.putting size)
      ((s.putting size).notifyAppended size) := notifyAppended_fields (s.putting size) positive
  obtain ⟨known, put⟩ := notifyAppended_sizes (s.putting size) size
  generalize (s.putting size).notifyAppended size = u at same known put happens
  have needs : u.mayNeedMoreData = (s.putting size).mayNeedMoreData := by
    rw [mayNeedMoreData, mayNeedMoreData, unproducedSize, unproducedSize, bodySizeKnown,
      bodySizeKnown, bodySize, bodySize, known, put]
  have producer : u.theProducer = s.theProducer := by
    rw [same.theProducer]
    split <;> rfl
  unfold AppendTells
  by_cases set : s.theProducer.set
  · rw [if_pos set]
    split at happens
    next more =>
      cases happens
      refine iff_of_true (fun _ unset => (unset (producer ▸ set)).elim) fun whole => ?_
      rw [← needs, more] at whole
      cases whole
    next whole =>
      rw [Bool.not_eq_true] at whole
      obtain ⟨unset, _⟩ | ⟨_, rfl⟩ := clearProducer_cases happens
      · exact (unset (producer ▸ set)).elim
      rw [told_scheduleBodyEndNotification_iff rfl, ended_endCall whole, same.reaches_putting]
      exact ⟨fun reaches _ => reaches, fun reaches => reaches (needs ▸ whole)⟩
  · rw [if_neg set]
    have still : t = u := by
      split at happens
      · exact (some.inj happens).symm
      · obtain ⟨_, rfl⟩ | ⟨kept, _⟩ := clearProducer_cases happens
        · rfl
        · exact (set (producer ▸ kept)).elim
    subst still
    exact told_putting_iff told set same

/-! ## Runs -/

/-- What an event needs so that whoever is attached without a producer has been told. -/
def Tells (s : BodyPipe) : Event → Prop
  | .setBodySize aBodySize =>
      s.theConsumer.set → ¬ s.theProducer.set → int64 aBodySize ≠ s.thePutSize
  | .expectProductionEndAfter size =>
      s.bodySizeKnown = false → s.theConsumer.set → ¬ s.theProducer.set →
        int64 ((s.thePutSize + size) % 2 ^ 64 : ℕ) ≠ s.thePutSize
  | .clearProducer atEof => s.theProducer.set → s.Reaches (s.ended atEof).endCall
  | .putMoreData aBuffer =>
      0 < s.accepted aBuffer.length → s.AppendTells (s.accepted aBuffer.length)
  | .setConsumerIfNotLate aConsumer =>
      s.theGetSize = 0 → s.abortedConsumption = false → ¬ s.theProducer.set → aConsumer = .valid
  | .clearConsumer =>
      s.theConsumer.set → s.theGetSize ≠ 0 → { s with theConsumer := .nil }.Aborts →
        s.mustAutoConsume = true → s.theProducer.set
  | .expectNoConsumption => s.Aborts → s.mustAutoConsume = true → s.theProducer.set
  | .enableAutoConsumption => s.theConsumer ≠ .valid → s.theBuf.content ≠ [] → s.theProducer.set
  | .checkIn =>
      s.checkedOutSize < s.theBuf.content.length →
        s.AppendTells (s.theBuf.content.length - s.checkedOutSize)
  | _ => True

/-- Where only the size of the body changes. -/
theorem told_theBodySize_iff {size : ℤ} (told : Told s) (unknown : s.bodySizeKnown = false) :
    Told { s with theBodySize := size } ↔
      (s.theConsumer.set → ¬ s.theProducer.set → size ≠ s.thePutSize) := by
  have before : s.endCall = .noteBodyProducerAborted := by
    rw [endCall, if_neg fun known => by rw [unknown] at known; cases known.1]
  refine imp_congr_right fun consumer => imp_congr_right fun unset => ?_
  have once : s.ends = [.noteBodyProducerAborted] := before ▸ told consumer unset
  change s.ends = _ ↔ _
  rw [once, endCall, bodySizeKnown, bodySize]
  dsimp only
  constructor
  · intro same whole
    rw [if_pos ⟨by simp [whole], by simp [whole]⟩] at same
    cases same
  · intro other
    rw [if_neg fun known => other (by simp at known; omega)]

theorem sameEnd_postConsume (happens : s.postConsume size = some t) : SameEnd s t := by
  unfold postConsume at happens
  split at happens
  · cases happens
  · cases happens
    exact ⟨rfl, rfl, rfl, rfl⟩

theorem sameEnd_consume (happens : s.consume size = some t) : SameEnd s t := by
  obtain ⟨theBuf, _, posted⟩ := bind_eq_some_iff.mp happens
  have same := sameEnd_postConsume posted
  exact ⟨same.theConsumer, same.theProducer, same.ends, same.endCall⟩

theorem sameEnd_getMoreData (happens : s.getMoreData size = some t) : SameEnd s t := by
  unfold getMoreData at happens
  split at happens
  · cases happens
    exact SameEnd.refl s
  · exact sameEnd_consume happens

theorem putMoreData_told_iff {aBuffer : Bytes} (told : Told s)
    (happens : s.putMoreData aBuffer = some t) :
    Told t ↔ (0 < s.accepted aBuffer.length → s.AppendTells (s.accepted aBuffer.length)) := by
  unfold putMoreData at happens
  dsimp only at happens
  split at happens
  next none =>
    cases happens
    exact iff_of_true told fun some => (some.ne' none).elim
  next some =>
    have positive := Nat.pos_of_ne_zero some
    obtain ⟨theBuf, _, posted⟩ := bind_eq_some_iff.mp happens
    have kept : Told { s with
        theBuf, produced := s.produced ++ aBuffer.take (s.accepted aBuffer.length) } := told
    have appended := postAppend_told_iff kept positive posted
    exact appended.trans ⟨fun tells _ => tells, fun tells => tells positive⟩

theorem checkIn_told_iff (told : Told s) (happens : s.checkIn = some t) :
    Told t ↔ (s.checkedOutSize < s.theBuf.content.length →
      s.AppendTells (s.theBuf.content.length - s.checkedOutSize)) := by
  have returned : Told { s with isCheckedOut := false } := told
  unfold checkIn at happens
  split at happens
  · cases happens
  dsimp only at happens
  split at happens
  next shrunk =>
    exact iff_of_true ((sameEnd_postConsume happens).told_iff.mpr returned)
      fun grown => (shrunk.not_gt grown).elim
  next kept =>
    split at happens
    next grown =>
      have appended := postAppend_told_iff returned (Nat.sub_pos_of_lt grown) happens
      exact appended.trans ⟨fun tells _ => tells, fun tells => tells grown⟩
    next same =>
      cases happens
      exact iff_of_true returned fun grown => (same grown).elim

/-- After an event, whoever is attached without a producer has been told if and only if the event
was one that tells. -/
theorem told_next_iff {event : Event} (told : Told s) (happens : s.next event = some t) :
    Told t ↔ s.Tells event := by
  cases event with
  | setBodySize aBodySize =>
      obtain ⟨_, happens⟩ := ite_none_right_eq_some.mp happens
      unfold setBodySize at happens
      obtain ⟨allowed, happens⟩ := ite_none_left_eq_some.mp happens
      rw [← some.inj happens]
      exact told_theBodySize_iff told (Bool.not_eq_true _ ▸ (not_or.mp allowed).1)
  | expectProductionEndAfter size =>
      rw [← some.inj happens, expectProductionEndAfter]
      split
      next known =>
        exact iff_of_true told fun unknown => by rw [known] at unknown; cases unknown
      next unknown =>
        rw [Bool.not_eq_true] at unknown
        rw [told_theBodySize_iff told unknown]
        exact ⟨fun ok _ => ok, fun ok => ok unknown⟩
  | clearProducer atEof => exact clearProducer_told_iff told happens
  | putMoreData aBuffer => exact putMoreData_told_iff told happens
  | setConsumerIfNotLate aConsumer => exact setConsumerIfNotLate_told_iff told happens
  | clearConsumer =>
      rw [← some.inj happens]
      exact clearConsumer_told_iff told
  | expectNoConsumption =>
      rw [← some.inj happens]
      exact expectNoConsumption_told_iff told
  | consume size => exact iff_of_true ((sameEnd_consume happens).told_iff.mpr told) trivial
  | getMoreData size => exact iff_of_true ((sameEnd_getMoreData happens).told_iff.mpr told) trivial
  | enableAutoConsumption =>
      rw [← some.inj happens]
      exact enableAutoConsumption_told_iff told
  | checkOut =>
      obtain ⟨_, happens⟩ := ite_none_left_eq_some.mp happens
      cases happens
      exact iff_of_true told trivial
  | rawAppend newContent | rawConsume shiftSize =>
      obtain ⟨_, happens⟩ := ite_none_right_eq_some.mp happens
      obtain ⟨theBuf, _, rfl⟩ := map_eq_some_iff.mp happens
      exact iff_of_true told trivial
  | checkIn => exact checkIn_told_iff told happens
  | producerGone =>
      obtain ⟨valid, happens⟩ := ite_none_right_eq_some.mp happens
      cases happens
      exact iff_of_true (fun _ unset => (unset nofun).elim) trivial
  | consumerGone =>
      obtain ⟨valid, happens⟩ := ite_none_right_eq_some.mp happens
      cases happens
      exact iff_of_true (fun _ => told (by rw [valid]; nofun)) trivial

/-- In a run every consumer that is left without a producer has been told how the body ended if and
only if every event of the run that takes place is one that tells. -/
theorem told_iff_tells (events : List Event) :
    LabelledRun.Allowed next (fun s event => ∀ t, s.next event = some t → Told t) {} events ↔
      LabelledRun.Allowed next (fun s event => s.next event ≠ none → s.Tells event) {} events := by
  have start : Told {} := fun set => (set rfl).elim
  generalize ({} : BodyPipe) = s at start
  induction events generalizing s with
  | nil => exact Iff.rfl
  | cons event events ih =>
      constructor
      · rintro ⟨ends, later⟩
        refine ⟨fun takes => ?_, fun t happens => (ih t (ends t happens)).mp (later t happens)⟩
        obtain ⟨t, happens⟩ := ne_none_iff_exists'.mp takes
        exact (told_next_iff start happens).mp (ends t happens)
      · rintro ⟨tells, later⟩
        have told : ∀ t, s.next event = some t → Told t := fun t happens =>
          (told_next_iff start happens).mpr (tells (by rw [happens]; nofun))
        exact ⟨told, fun t happens => (ih t (told t happens)).mpr (later t happens)⟩

/-- The body is complete before anybody asks for it, and nobody is going to. -/
def lateAutoConsumption : List Event :=
  [.putMoreData [1, 2, 3], .clearProducer true, .enableAutoConsumption]

/-- The sink is not told that the body has ended. -/
theorem not_told_lateAutoConsumption : ∃ s, LabelledRun.exec next {} lateAutoConsumption = some s ∧
    s.theConsumer.set ∧ ¬ s.theProducer.set ∧ s.bodySize = s.thePutSize ∧
    s.scheduled = [.noteMoreBodyDataAvailable] := by
  have reached : (LabelledRun.exec next {} lateAutoConsumption).map (fun s =>
      (s.theConsumer, s.theProducer, s.bodySize, s.thePutSize, s.scheduled)) =
        some (.valid, .nil, 3, 3, [.noteMoreBodyDataAvailable]) := by decide +kernel
  obtain ⟨s, run, ended⟩ := map_eq_some_iff.mp reached
  simp only [Prod.mk.injEq] at ended
  obtain ⟨consumer, producer, size, put, scheduled⟩ := ended
  refine ⟨s, run, ?_, ?_, size.trans put.symm, scheduled⟩
  · rw [consumer]
    exact nofun
  · rw [producer]
    exact not_not.mpr rfl

end BodyPipe
end Squid
