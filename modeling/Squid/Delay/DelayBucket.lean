import Squid.Http.HdrType
import Squid.Library.LabelledRun
import Mathlib.Tactic.Ring

/-!
# Delay buckets

A `DelayBucket` holds the bytes that may be read at once.  `DelayPools::Update` refills it at the
configured rate for the time that has passed, in `int` arithmetic.
-/

namespace Squid

open CRuntime

structure DelaySpec where
  restore_bps : ℤ
  /-- `restore_bps` is an `int`. -/
  restore_mem : -2 ^ 31 ≤ restore_bps ∧ restore_bps < 2 ^ 31
  max_bytes : ℤ
  /-- `max_bytes` is an `int64_t`. -/
  max_mem : -2 ^ 63 ≤ max_bytes ∧ max_bytes < 2 ^ 63
  deriving DecidableEq

namespace DelaySpec

/-- `w_space`. -/
def wSpace (b : UInt8) : Bool := b = 32 ∨ b = 9 ∨ b = 10 ∨ b = 13

/-- `xatoll(token, 10)`, where `self_destruct` is `none`. -/
def xatoll (token : Bytes) : Option {number : ℤ // -2 ^ 63 ≤ number ∧ number < 2 ^ 63} :=
  let rest := (strtoll 10 token).2
  if rest.length = token.length then none
  else if rest ≠ [] then none
  else some ⟨(strtoll 10 token).1, strtoll_mem 10 token⟩

/-- `DelaySpec::parse` of what is left of the line, where `self_destruct` is `none`. -/
def parse (line : Bytes) : Option DelaySpec :=
  match strtok (· = 47) line with
  | none => none
  | some (token, line) =>
      let (number, rest) := strtoll 10 token
      if rest.length = token.length then none
      else
        match strtok wSpace line with
        | none => none
        | some (token, _) =>
            (xatoll token).map fun max_bytes =>
              ⟨int32 number, int32_mem number, max_bytes.1, max_bytes.2⟩

end DelaySpec

structure DelayBucket where
  /-- `level_`. -/
  level : ℤ
  /-- `level_` is an `int`. -/
  level_mem : -2 ^ 31 ≤ level ∧ level < 2 ^ 31

namespace DelayBucket

/-- `DelayBucket::update`. -/
def update (bucket : DelayBucket) (rate : DelaySpec) (incr : ℤ) : DelayBucket :=
  if rate.restore_bps ≠ -1 then
    let level := int32 (bucket.level + int32 (rate.restore_bps * incr))
    if level > rate.max_bytes then ⟨int32 rate.max_bytes, int32_mem rate.max_bytes⟩
    else ⟨level, int32_mem _⟩
  else bucket

/-- `DelayBucket::bytesWanted`. -/
def bytesWanted (bucket : DelayBucket) (minimum maximum : ℤ) : ℤ :=
  max minimum (min maximum bucket.level)

/-- `DelayBucket::bytesIn`. -/
def bytesIn (bucket : DelayBucket) (qty : ℤ) : DelayBucket :=
  ⟨int32 (bucket.level - qty), int32_mem _⟩

end DelayBucket

/-- A bucket of a configured pool, with what `DelayPools` keeps for it. -/
structure DelayedReads where
  /-- The bucket. -/
  bucket : DelayBucket
  LastUpdate : ℤ
  /-- The last result of `bytesWanted`. -/
  wanted : Option ℤ := none

namespace DelayedReads

variable {rate : DelaySpec}

/-- `incr` of `DelayPools::Update` at the time `squid_curtime`. -/
def incr (reads : DelayedReads) (squid_curtime : ℤ) : ℤ := int32 (squid_curtime - reads.LastUpdate)

/-- `DelayPools::Update` for the bucket. -/
def Update (rate : DelaySpec) (reads : DelayedReads) (squid_curtime : ℤ) : DelayedReads :=
  if reads.incr squid_curtime < 1 then reads
  else
    { reads with
      LastUpdate := squid_curtime
      bucket := reads.bucket.update rate (reads.incr squid_curtime) }

/-- What can happen to a bucket. -/
inductive Call
  | Update (squid_curtime : ℤ)
  | bytesWanted (minimum maximum : ℤ)
  | bytesIn (qty : ℕ)

/-- The step of a run: no more bytes come in than `bytesWanted` has told. -/
def next (rate : DelaySpec) (reads : DelayedReads) : Call → Option DelayedReads
  | .Update squid_curtime => some (reads.Update rate squid_curtime)
  | .bytesWanted minimum maximum =>
      some { reads with wanted := some (reads.bucket.bytesWanted minimum maximum) }
  | .bytesIn qty =>
      match reads.wanted with
      | none => none
      | some wanted =>
          if qty ≤ wanted then some { reads with bucket := reads.bucket.bytesIn qty } else none

/-- The level after a refill without a limit, in exact arithmetic. -/
def refilled (rate : DelaySpec) (reads : DelayedReads) (squid_curtime : ℤ) : ℤ :=
  reads.bucket.level + rate.restore_bps * (squid_curtime - reads.LastUpdate)

/-- The steps that `int` arithmetic takes as intended: a refill does not lower the level, and if it
leaves the range of `int` then what it wraps to is no less than the limit; the bytes that come in do
not take the level out of the range of `int` to above the limit. -/
def Sound (rate : DelaySpec) (reads : DelayedReads) : Call → Prop
  | .Update squid_curtime => reads.incr squid_curtime < 1 ∨
      reads.bucket.level ≤ reads.refilled rate squid_curtime ∧
        (reads.refilled rate squid_curtime < 2 ^ 31 ∨
          rate.max_bytes ≤ int32 (reads.refilled rate squid_curtime))
  | .bytesWanted _ _ => True
  | .bytesIn qty => -2 ^ 31 ≤ reads.bucket.level - qty ∨
      int32 (reads.bucket.level - qty) ≤ rate.max_bytes

instance (reads : DelayedReads) : DecidablePred (Sound rate reads)
  | .Update _ => inferInstanceAs (Decidable (_ ∨ _))
  | .bytesWanted _ _ => .isTrue trivial
  | .bytesIn _ => inferInstanceAs (Decidable (_ ∨ _))

/-- What a refill is for: the level comes to what the time has earned, up to the limit. -/
def Regained (rate : DelaySpec) (before after : DelayedReads) : Prop :=
  after.bucket.level =
    min rate.max_bytes (before.refilled rate after.LastUpdate)

instance (before after : DelayedReads) : Decidable (Regained rate before after) :=
  inferInstanceAs (Decidable (_ = _))

theorem Update_level (enabled : rate.restore_bps ≠ -1) {reads : DelayedReads}
    (capped : reads.bucket.level ≤ rate.max_bytes) {squid_curtime : ℤ}
    (tick : ¬ reads.incr squid_curtime < 1) :
    (reads.Update rate squid_curtime).bucket.level =
        min rate.max_bytes (int32 (reads.refilled rate squid_curtime)) ∧
      (reads.Update rate squid_curtime).LastUpdate = squid_curtime := by
  have refill : int32 (reads.bucket.level + int32 (rate.restore_bps * reads.incr squid_curtime)) =
      int32 (reads.refilled rate squid_curtime) := by
    rw [incr, int32_mul_int32, int32_add_int32, refilled]
  refine ⟨?_, by rw [Update, if_neg tick]⟩
  rw [Update, if_neg tick]
  simp only [DelayBucket.update, if_pos enabled, refill]
  have low := reads.bucket.level_mem.1
  have range := int32_mem (reads.refilled rate squid_curtime)
  split
  next above =>
    rw [min_eq_left above.le]
    exact int32_eq (low.trans capped) (above.trans range.2)
  next below => exact (min_eq_right (not_lt.1 below)).symm

/-- A refill is right just when the step is sound. -/
theorem Update_iff (enabled : rate.restore_bps ≠ -1) {reads : DelayedReads}
    (capped : reads.bucket.level ≤ rate.max_bytes) (squid_curtime : ℤ) :
    ((reads.Update rate squid_curtime).bucket.level ≤ rate.max_bytes ∧
        reads.bucket.level ≤ (reads.Update rate squid_curtime).bucket.level ∧
        Regained rate reads (reads.Update rate squid_curtime)) ↔
      Sound rate reads (.Update squid_curtime) := by
  by_cases idle : reads.incr squid_curtime < 1
  · have same : reads.Update rate squid_curtime = reads := if_pos idle
    simp [Sound, idle, same, capped, Regained, refilled]
  · obtain ⟨level, time⟩ := Update_level enabled capped idle
    have low := reads.bucket.level_mem.1
    simp only [Sound, idle, false_or, Regained, time, level]
    generalize reads.refilled rate squid_curtime = total
    constructor
    · rintro ⟨-, rises, exact_⟩
      unfold int32 at *
      omega
    · rintro ⟨rises, fits⟩
      unfold int32 at *
      omega

variable {after before : DelayedReads}

theorem bytesIn_iff {qty : ℕ} (capped : before.bucket.level ≤ rate.max_bytes)
    (step : next rate before (.bytesIn qty) = some after) :
    after.bucket.level ≤ rate.max_bytes ↔ Sound rate before (.bytesIn qty) := by
  have level : after.bucket.level = int32 (before.bucket.level - qty) := by
    simp only [next] at step
    split at step
    · cases step
    · split at step
      · cases step
        rfl
      · cases step
  have high := before.bucket.level_mem.2
  rw [level, Sound]
  refine ⟨.inr, fun sound => ?_⟩
  rcases sound with fits | wraps
  · rw [int32_eq fits (by omega)]
    omega
  · exact wraps

theorem next_capped (enabled : rate.restore_bps ≠ -1) {label : Call}
    (capped : before.bucket.level ≤ rate.max_bytes) (sound : Sound rate before label)
    (step : next rate before label = some after) : after.bucket.level ≤ rate.max_bytes := by
  cases label with
  | Update squid_curtime =>
      cases Option.some.inj step
      exact ((Update_iff enabled capped squid_curtime).2 sound).1
  | bytesWanted minimum maximum =>
      cases Option.some.inj step
      exact capped
  | bytesIn qty => exact (bytesIn_iff capped step).2 sound

theorem refilled_add (before middle : DelayedReads) (squid_curtime : ℤ) :
    before.refilled rate squid_curtime = before.refilled rate middle.LastUpdate +
      (middle.refilled rate squid_curtime - middle.bucket.level) := by
  unfold refilled
  ring

/-- Refills one after the other are one refill for all the time. -/
theorem Regained.trans {middle : DelayedReads} (first : Regained rate before middle)
    (second : Regained rate middle after)
    (rises : middle.bucket.level ≤ middle.refilled rate after.LastUpdate) :
    Regained rate before after := by
  have total := @refilled_add rate before middle after.LastUpdate
  unfold Regained at *
  omega

/-- A bucket that is only refilled regains what all the time has earned. -/
theorem regained_of_updates (enabled : rate.restore_bps ≠ -1) {times : List ℤ}
    (capped : before.bucket.level ≤ rate.max_bytes)
    (steps : LabelledRun.Allowed (next rate) (Sound rate) before (times.map .Update))
    (run : LabelledRun.exec (next rate) before (times.map .Update) = some after) :
    Regained rate before after ∧ before.bucket.level ≤ before.refilled rate after.LastUpdate := by
  induction times generalizing before with
  | nil =>
      cases Option.some.inj run
      have same : after.refilled rate after.LastUpdate = after.bucket.level := by
        simp [refilled]
      rw [Regained, same]
      exact ⟨(min_eq_right capped).symm, le_refl _⟩
  | cons squid_curtime times ih =>
      obtain ⟨sound, later⟩ := steps
      obtain ⟨below, rises, regained⟩ := (Update_iff enabled capped squid_curtime).2 sound
      obtain ⟨rest, grows⟩ := ih below (later _ rfl) run
      have total := @refilled_add rate before (before.Update rate squid_curtime)
        after.LastUpdate
      refine ⟨regained.trans rest grows, ?_⟩
      have earned : before.bucket.level ≤
          before.refilled rate (before.Update rate squid_curtime).LastUpdate := by
        rw [Regained] at regained
        omega
      omega

/-- In every run of sound steps the level stays within the limit.  After such a run a refill keeps
to the limit, does not lower the level and earns what it should just when it is sound; bytes that
come in leave the level within the limit just when that is sound; and a bucket left alone for some
time regains what the time has earned. -/
theorem level_spec (enabled : rate.restore_bps ≠ -1) {before reads : DelayedReads}
    {labels : List Call} (capped : before.bucket.level ≤ rate.max_bytes)
    (steps : LabelledRun.Allowed (next rate) (Sound rate) before labels)
    (run : LabelledRun.exec (next rate) before labels = some reads) :
    reads.bucket.level ≤ rate.max_bytes ∧
      (∀ squid_curtime, ((reads.Update rate squid_curtime).bucket.level ≤ rate.max_bytes ∧
          reads.bucket.level ≤ (reads.Update rate squid_curtime).bucket.level ∧
          Regained rate reads (reads.Update rate squid_curtime)) ↔
        Sound rate reads (.Update squid_curtime)) ∧
      (∀ qty after, next rate reads (.bytesIn qty) = some after →
        (after.bucket.level ≤ rate.max_bytes ↔ Sound rate reads (.bytesIn qty))) ∧
      ∀ (times : List ℤ) after,
        LabelledRun.Allowed (next rate) (Sound rate) reads (times.map .Update) →
        LabelledRun.exec (next rate) reads (times.map .Update) = some after →
        Regained rate reads after := by
  have below : reads.bucket.level ≤ rate.max_bytes :=
    LabelledRun.invariant_of_allowed (next_capped enabled) capped steps run
  refine ⟨below, Update_iff enabled below, fun qty after step => bytesIn_iff below step, ?_⟩
  intro times after sound refills
  exact (regained_of_updates enabled below sound refills).1

/-- A bucket of 2 GB that is refilled at 100 MB a second. -/
def fastRate : DelaySpec := ⟨100000000, by decide, 2000000000, by decide⟩

/-- The bucket is used up. -/
def drained : DelayedReads := ⟨⟨0, by decide⟩, 1000, none⟩

/-- Ten seconds are refilled, some bytes read, and five seconds refilled. -/
theorem level_spec_fastRate :
    ∃ reads, LabelledRun.exec (next fastRate) drained
        [.Update 1010, .bytesWanted 0 300000000, .bytesIn 200000000] = some reads ∧
      reads.bucket.level ≤ fastRate.max_bytes ∧
      (reads.Update fastRate 1015).bucket.level = 1300000000 ∧
      Regained fastRate reads (reads.Update fastRate 1015) := by
  have spec := @level_spec fastRate (by decide) drained _
    [.Update 1010, .bytesWanted 0 300000000, .bytesIn 200000000] (by decide) (by decide) rfl
  exact ⟨_, rfl, spec.1, by decide, ((spec.2.1 1015).2 (by decide)).2.2⟩

/-- After thirty seconds the refill wraps around and takes the bucket below zero. -/
theorem not_regained_fastRate :
    DelaySpec.parse (ascii " 100000000/2000000000") = some fastRate ∧
      (drained.Update fastRate 1030).bucket.level = -1294967296 ∧
      ¬ (drained.bucket.level ≤ (drained.Update fastRate 1030).bucket.level) ∧
      ¬ Regained fastRate drained (drained.Update fastRate 1030) := by
  decide +kernel

end DelayedReads
end Squid
