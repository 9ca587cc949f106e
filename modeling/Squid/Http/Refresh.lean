import Squid.Library.CRuntime

/-!
# Freshness of stored responses

`refreshStaleness` and `refreshCheck` of `src/refresh.cc`, with the pattern that has been found for
the URL.  What `refreshCheck` logs is left out.

The age of a response is compared with one limit after the other, and how stale it is depends on the
limit that decides: a response that grows older than the pattern's maximum is less stale than it was.
So it can become acceptable again to a client that allows for some staleness.
-/

namespace Squid
namespace Refresh

open CRuntime

/-! ## What is checked -/

/-- The codes of `refreshCheck`. -/
inductive Reason where
  | FRESH_REQUEST_MAX_STALE_ALL
  | FRESH_REQUEST_MAX_STALE_VALUE
  | FRESH_EXPIRES
  | FRESH_LMFACTOR_RULE
  | FRESH_MIN_RULE
  | FRESH_OVERRIDE_EXPIRES
  | STALE_MUST_REVALIDATE
  | FRESH_OVERRIDE_LASTMOD
  | STALE_RELOAD_INTO_IMS
  | STALE_FORCED_RELOAD
  | STALE_EXCEEDS_REQUEST_MAX_AGE_VALUE
  | STALE_EXPIRES
  | STALE_MAX_RULE
  | STALE_LMFACTOR_RULE
  | STALE_MAX_STALE
  | STALE_DEFAULT
  deriving DecidableEq

/-- The number of a code. -/
def Reason.code : Reason → ℕ
  | FRESH_REQUEST_MAX_STALE_ALL => 100
  | FRESH_REQUEST_MAX_STALE_VALUE => 101
  | FRESH_EXPIRES => 102
  | FRESH_LMFACTOR_RULE => 103
  | FRESH_MIN_RULE => 104
  | FRESH_OVERRIDE_EXPIRES => 105
  | FRESH_OVERRIDE_LASTMOD => 106
  | STALE_MUST_REVALIDATE => 200
  | STALE_RELOAD_INTO_IMS => 201
  | STALE_FORCED_RELOAD => 202
  | STALE_EXCEEDS_REQUEST_MAX_AGE_VALUE => 203
  | STALE_EXPIRES => 204
  | STALE_MAX_RULE => 205
  | STALE_LMFACTOR_RULE => 206
  | STALE_MAX_STALE => 207
  | STALE_DEFAULT => 299

structure stale_flags where
  expires : Bool := false
  min : Bool := false
  lmfactor : Bool := false
  max : Bool := false

/-- What is read of a `StoreEntry`. -/
structure StoreEntry where
  expires : ℤ
  lastmod : ℤ
  timestamp : ℤ
  /-- `(timestamp - lastmod) * R->pct`, as a `time_t`. -/
  stale_age : ℤ
  /-- `ENTRY_REVALIDATE` -/
  revalidate : Bool
  /-- The `stale-if-error` of the reply, if it has one. -/
  staleIfError : Option ℤ

/-- What is read of a `RefreshPattern`. -/
structure RefreshPattern where
  min : ℤ
  max : ℤ
  max_stale : ℤ
  refresh_ims : Bool := false
  override_expire : Bool := false
  override_lastmod : Bool := false
  reload_into_ims : Bool := false
  ignore_reload : Bool := false
  ignore_must_revalidate : Bool := false

/-- What is read of the `HttpHdrCc` of a request; a directive that is not set is `none`. -/
structure HttpHdrCc where
  maxAge : Option ℤ := none
  maxStale : Option ℤ := none
  minFresh : Option ℤ := none
  deriving DecidableEq

/-- `HttpHdrCc::MAX_STALE_ANY`. -/
def MAX_STALE_ANY : ℤ := 0x7fffffff

/-- What is read and written of an `HttpRequest`. -/
structure HttpRequest where
  cache_control : Option HttpHdrCc := none
  ignoreCc : Bool := false
  ims : Bool := false
  nocacheHack : Bool := false
  noCache : Bool := false
  failOnValidationError : Bool := false
  staleIfHit : Bool := false
  deriving DecidableEq

/-- What is read of the configuration. -/
structure Config where
  refresh_all_ims : Bool := false
  reload_into_ims : Bool := false
  offline : Bool := false
  maxStale : ℤ
  /-- The build has `USE_HTTP_VIOLATIONS`. -/
  violations : Bool := true

/-! ## The check -/

/-- The last-modified factor applies. -/
def StoreEntry.hasLmfactor (entry : StoreEntry) : Bool :=
  -1 < entry.lastmod && entry.lastmod < entry.timestamp

def refreshStaleness (entry : StoreEntry) (check_time age : ℤ) (R : RefreshPattern) :
    ℤ × stale_flags :=
  if -1 < entry.expires then
    if check_time < entry.expires then (-1, { expires := true })
    else (int32 (check_time - entry.expires), { expires := true })
  else if R.max < age then (int32 (age - R.max), { max := true })
  else if entry.hasLmfactor then
    if entry.stale_age ≤ age then (int32 (age - entry.stale_age), { lmfactor := true })
    else (-1, { lmfactor := true })
  else if age < R.min then (-1, { min := true })
  else (int32 (age - R.min), {})

/-- The `max-age` of the client is exceeded. -/
def HttpHdrCc.exceeded (cc : HttpHdrCc) (config : Config) (R : RefreshPattern) (age : ℤ) : Bool :=
  match cc.maxAge with
  | none => false
  | some maxAge =>
      if config.violations && R.ignore_reload && maxAge == 0 then false
      else maxAge == 0 || maxAge < age

/-- What the `max-stale` of the client decides. -/
def HttpHdrCc.excuses (cc : HttpHdrCc) (staleness : ℤ) : Option Reason :=
  match cc.maxStale with
  | none => none
  | some maxStale =>
      if -1 < staleness then
        if maxStale = MAX_STALE_ANY then some .FRESH_REQUEST_MAX_STALE_ALL
        else if staleness < maxStale then some .FRESH_REQUEST_MAX_STALE_VALUE
        else none
      else none

/-- The request-specific checks of `refreshCheck`: what they decide, and the request. -/
def requestCheck (config : Config) (R : RefreshPattern) (request : HttpRequest)
    (age staleness : ℤ) : Option Reason × HttpRequest :=
  if request.ims && (R.refresh_ims || config.refresh_all_ims) then
    (some .STALE_FORCED_RELOAD, request)
  else if config.violations && request.nocacheHack && !R.ignore_reload then
    if R.reload_into_ims || config.reload_into_ims then (some .STALE_RELOAD_INTO_IMS, request)
    else (some .STALE_FORCED_RELOAD, { request with noCache := true })
  else
    match request.cache_control with
    | none => (none, request)
    | some cc =>
        if cc.exceeded config R age then (some .STALE_EXCEEDS_REQUEST_MAX_AGE_VALUE, request)
        else (cc.excuses staleness, request)

/-- The `max_stale` of `refreshCheck`. -/
def RefreshPattern.limit (R : RefreshPattern) (config : Config) : ℤ :=
  if 0 ≤ R.max_stale then R.max_stale else config.maxStale

/-- The end of `refreshCheck`; `none` if an assertion fails. -/
def verdict (config : Config) (R : RefreshPattern) (age staleness : ℤ) (sf : stale_flags) :
    Option Reason :=
  if staleness = -1 then
    if sf.expires then some .FRESH_EXPIRES
    else if sf.max then none
    else if sf.lmfactor then some .FRESH_LMFACTOR_RULE
    else if sf.min then some .FRESH_MIN_RULE
    else none
  else if 0 ≤ R.limit config ∧ R.limit config < staleness then some .STALE_MAX_STALE
  else if sf.expires then
    if config.violations && R.override_expire && age < R.min then some .FRESH_OVERRIDE_EXPIRES
    else some .STALE_EXPIRES
  else if sf.max then some .STALE_MAX_RULE
  else if sf.lmfactor then
    if config.violations && R.override_lastmod && age < R.min then some .FRESH_OVERRIDE_LASTMOD
    else some .STALE_LMFACTOR_RULE
  else some .STALE_DEFAULT

/-- The directives that the check heeds. -/
def heeded (request : Option HttpRequest) : Option HttpRequest :=
  request.filter fun request => !request.ignoreCc

/-- The `min-fresh` of the client. -/
def minFresh (request : Option HttpRequest) : ℤ :=
  (((heeded request).bind HttpRequest.cache_control).bind HttpHdrCc.minFresh).getD 0

/-- `check_time`, with the `min-fresh` of the client. -/
def checkTime (now delta : ℤ) (request : Option HttpRequest) : ℤ :=
  int64 (int64 (now + delta) + minFresh request)

/-- `age`, with the `min-fresh` of the client; `none` if an assertion fails. -/
def ageAt (now delta : ℤ) (entry : StoreEntry) (request : Option HttpRequest) : Option ℤ :=
  let check_time := int64 (now + delta)
  let age := if entry.timestamp < check_time then int64 (check_time - entry.timestamp) else 0
  if 0 ≤ age then some (int64 (age + minFresh request)) else none

/-- The request fails if it cannot be validated. -/
def failing (request : Option HttpRequest) (fails : Bool) : Option HttpRequest :=
  if fails then request.map fun request =>
    { request with failOnValidationError := true } else request

/-- `refreshCheck`, once the age is known. -/
def checkAged (config : Config) (R : RefreshPattern) (entry : StoreEntry)
    (request : Option HttpRequest) (check_time age : ℤ) : Option (Reason × Option HttpRequest) :=
  let staleness := refreshStaleness entry check_time age R
  let request := failing request (entry.staleIfError.any fun limit => limit < staleness.1)
  if entry.revalidate && -1 < staleness.1 && !(config.violations && R.ignore_must_revalidate) then
    some (.STALE_MUST_REVALIDATE, failing request true)
  else
    let (decided, request) := match heeded request with
      | none => (none, request)
      | some heeded => (requestCheck config R heeded age staleness.1).map id some
    match decided with
    | some reason => some (reason, request)
    | none => (verdict config R age staleness.1 staleness.2).map fun reason =>
        (reason, failing request (reason = .STALE_MAX_STALE))

/-- `refreshCheck` at a time, with the request as it leaves it; `none` if an assertion fails. -/
def refreshCheck (config : Config) (R : RefreshPattern) (now : ℤ) (entry : StoreEntry)
    (request : Option HttpRequest) (delta : ℤ) : Option (Reason × Option HttpRequest) :=
  (ageAt now delta entry request).bind fun age =>
    checkAged config R entry request (checkTime now delta request) age

def refreshIsStaleIfHit : Reason → Bool
  | .FRESH_MIN_RULE | .FRESH_LMFACTOR_RULE | .FRESH_EXPIRES => false
  | _ => true

/-- `refreshCheckHTTP`: whether the entry is stale, and the request. -/
def refreshCheckHTTP (config : Config) (R : RefreshPattern) (now : ℤ) (entry : StoreEntry)
    (request : HttpRequest) : Option (Bool × Option HttpRequest) :=
  (refreshCheck config R now entry (some request) 0).map fun (reason, request) =>
    (!(config.offline || reason.code < 200),
      request.map fun request => { request with staleIfHit := refreshIsStaleIfHit reason })

def refreshCheckICP (config : Config) (R : RefreshPattern) (now : ℤ) (entry : StoreEntry)
    (request : HttpRequest) : Option (Bool × Option HttpRequest) :=
  (refreshCheck config R now entry (some request) 30).map fun (reason, request) =>
    (!(reason.code < 200), request)

/-- The check finds a response stale. -/
def Stale (config : Config) (R : RefreshPattern) (now : ℤ) (entry : StoreEntry)
    (request : Option HttpRequest) (delta : ℤ) : Prop :=
  ∃ outcome, refreshCheck config R now entry request delta = some outcome ∧ 200 ≤ outcome.1.code

/-- The server or the client demands a validation, whatever the pattern says. -/
def Demanded (config : Config) (R : RefreshPattern) (request : HttpRequest) (age : ℤ) : Prop :=
  (request.ims && (R.refresh_ims || config.refresh_all_ims)) = true ∨
    (config.violations && request.nocacheHack && !R.ignore_reload) = true ∨
    ∃ cc, request.cache_control = some cc ∧ cc.exceeded config R age = true

/-- The client accepts a response that is stale by that much. -/
def Excused (request : Option HttpRequest) (staleness : ℤ) : Prop :=
  ∃ maxStale, ((heeded request).bind HttpRequest.cache_control).bind HttpHdrCc.maxStale =
      some maxStale ∧ -1 < staleness ∧ (maxStale = MAX_STALE_ANY ∨ staleness < maxStale)

/-- The pattern overrides the expiry or the last-modified factor. -/
def Overridden (config : Config) (R : RefreshPattern) (age : ℤ) (sf : stale_flags) : Prop :=
  config.violations = true ∧ age < R.min ∧ (sf.expires = true ∧ R.override_expire = true ∨
    sf.expires = false ∧ sf.max = false ∧ sf.lmfactor = true ∧ R.override_lastmod = true)

/-- The verdict is against the response. -/
def Condemned (config : Config) (R : RefreshPattern) (age staleness : ℤ) (sf : stale_flags) :
    Prop :=
  staleness ≠ -1 ∧ (0 ≤ R.limit config ∧ R.limit config < staleness ∨ ¬ Overridden config R age sf)

variable {config : Config} {R : RefreshPattern} {now : ℤ} {entry : StoreEntry}
  {request : Option HttpRequest}

variable {staleness : ℤ}

variable {age : ℤ} {sf : stale_flags}

theorem verdict_stale_iff :
    (∃ reason, verdict config R age staleness sf = some reason ∧ 200 ≤ reason.code) ↔
      Condemned config R age staleness sf := by
  unfold verdict Condemned Overridden
  split
  next fresh =>
    refine iff_of_false ?_ fun stale => stale.1 fresh
    rintro ⟨reason, result, stale⟩
    split_ifs at result <;> cases result <;> exact absurd stale (by decide)
  next notFresh =>
    rw [and_iff_right notFresh]
    split
    next passed => exact iff_of_true ⟨_, rfl, by decide⟩ (.inl passed)
    next within =>
      simp only [within, false_or]
      have spared {reason : Reason} (fresh : reason.code < 200)
          (overridden : Overridden config R age sf) :
          (∃ other, some reason = some other ∧ 200 ≤ other.code) ↔ ¬ Overridden config R age sf := by
        refine iff_of_false ?_ (not_not_intro overridden)
        rintro ⟨other, same, stale⟩
        cases same
        omega
      have blamed {reason : Reason} (stale : 200 ≤ reason.code)
          (plain : ¬ Overridden config R age sf) :
          (∃ other, some reason = some other ∧ 200 ≤ other.code) ↔ ¬ Overridden config R age sf :=
        iff_of_true ⟨reason, rfl, stale⟩ plain
      change _ ↔ ¬ Overridden config R age sf
      cases expires : sf.expires with
      | true =>
          simp only [if_true]
          split
          next set =>
            simp only [Bool.and_eq_true, decide_eq_true_eq] at set
            exact spared (by decide) ⟨set.1.1, set.2, .inl ⟨expires, set.1.2⟩⟩
          next unset =>
            simp only [Bool.and_eq_true, decide_eq_true_eq] at unset
            refine blamed (by decide) fun overridden => ?_
            obtain ⟨allowed, young, ⟨-, set⟩ | ⟨absent, -⟩⟩ := overridden
            · exact unset ⟨⟨allowed, set⟩, young⟩
            · cases expires.symm.trans absent
      | false =>
          simp only [Bool.false_eq_true, if_false]
          split
          next max =>
            refine blamed (by decide) fun overridden => ?_
            obtain ⟨-, -, ⟨present, -⟩ | ⟨-, below, -⟩⟩ := overridden
            · cases expires.symm.trans present
            · cases max.symm.trans below
          next max =>
            split
            next lmfactor =>
              split
              next set =>
                simp only [Bool.and_eq_true, decide_eq_true_eq] at set
                exact spared (by decide) ⟨set.1.1, set.2,
                  .inr ⟨expires, Bool.eq_false_iff.mpr max, lmfactor, set.1.2⟩⟩
              next unset =>
                simp only [Bool.and_eq_true, decide_eq_true_eq] at unset
                refine blamed (by decide) fun overridden => ?_
                obtain ⟨allowed, young, ⟨present, -⟩ | ⟨-, -, -, set⟩⟩ := overridden
                · cases expires.symm.trans present
                · exact unset ⟨⟨allowed, set⟩, young⟩
            next lmfactor =>
              refine blamed (by decide) fun overridden => ?_
              obtain ⟨-, -, ⟨present, -⟩ | ⟨-, -, applies, -⟩⟩ := overridden
              · cases expires.symm.trans present
              · exact lmfactor applies

variable {cc : HttpHdrCc}

theorem excuses_eq_none_iff : cc.excuses staleness = none ↔
    ∀ maxStale, cc.maxStale = some maxStale → -1 < staleness →
      maxStale ≠ MAX_STALE_ANY ∧ maxStale ≤ staleness := by
  unfold HttpHdrCc.excuses
  cases cc.maxStale with
  | none => simp
  | some maxStale =>
      dsimp only
      split_ifs <;> simp_all

theorem code_of_excuses {reason : Reason} (excused : cc.excuses staleness = some reason) :
    reason.code < 200 := by
  unfold HttpHdrCc.excuses at excused
  split at excused
  · cases excused
  · split_ifs at excused <;> cases excused <;> decide

/-- The request-specific checks find nothing, excuse the response or demand a validation. -/
theorem requestCheck_cases (config : Config) (R : RefreshPattern) {r : HttpRequest}
    (held : heeded request = some r) (age staleness : ℤ) :
    (∃ reason, (requestCheck config R r age staleness).1 = some reason ∧ 200 ≤ reason.code ∧
      Demanded config R r age) ∨
    ¬ Demanded config R r age ∧
      ((∃ reason, (requestCheck config R r age staleness).1 = some reason ∧ reason.code < 200 ∧
          Excused request staleness) ∨
        (requestCheck config R r age staleness).1 = none ∧ ¬ Excused request staleness) := by
  unfold requestCheck Demanded Excused
  rw [held, Option.bind_some]
  by_cases ims : (r.ims && (R.refresh_ims || config.refresh_all_ims)) = true
  · rw [if_pos ims]
    exact .inl ⟨_, rfl, by decide, .inl ims⟩
  rw [if_neg ims]
  by_cases reload : (config.violations && r.nocacheHack && !R.ignore_reload) = true
  · rw [if_pos reload]
    refine .inl ?_
    split
    · exact ⟨_, rfl, by decide, .inr (.inl reload)⟩
    · exact ⟨_, rfl, by decide, .inr (.inl reload)⟩
  rw [if_neg reload]
  cases given : r.cache_control with
  | none => exact .inr ⟨by simp [ims, reload], .inr ⟨rfl, by simp⟩⟩
  | some cc =>
      simp only [Option.some.injEq, exists_eq_left', Option.bind_some]
      by_cases exceeded : cc.exceeded config R age = true
      · rw [if_pos exceeded]
        exact .inl ⟨_, rfl, by decide, .inr (.inr exceeded)⟩
      rw [if_neg exceeded]
      refine .inr ⟨not_or.mpr ⟨ims, not_or.mpr ⟨reload, exceeded⟩⟩, ?_⟩
      cases decided : cc.excuses staleness with
      | none =>
          refine .inr ⟨rfl, ?_⟩
          rintro ⟨maxStale, allowed, stale, enough⟩
          have limits := excuses_eq_none_iff.mp decided maxStale allowed stale
          rcases enough with any | less
          · exact limits.1 any
          · omega
      | some reason =>
          refine .inl ⟨reason, rfl, code_of_excuses decided, ?_⟩
          by_contra strict
          have none : cc.excuses staleness = none := by
            rw [excuses_eq_none_iff]
            intro maxStale allowed stale
            refine ⟨fun any => strict ⟨maxStale, allowed, stale, .inl any⟩, ?_⟩
            exact not_lt.mp fun less => strict ⟨maxStale, allowed, stale, .inr less⟩
          cases none.symm.trans decided

theorem heeded_failing (request : Option HttpRequest) (fails : Bool) :
    heeded (failing request fails) = failing (heeded request) fails := by
  cases request with
  | none => cases fails <;> rfl
  | some r =>
      cases fails with
      | false => rfl
      | true =>
          simp only [failing, if_true, Option.map_some, heeded, Option.filter_some]
          split <;> rfl

theorem excused_failing (fails : Bool) (staleness : ℤ) :
    Excused (failing request fails) staleness ↔ Excused request staleness := by
  rw [Excused, Excused, heeded_failing]
  cases heeded request <;> cases fails <;> rfl

theorem demanded_failing (fails : Bool) (age : ℤ) :
    (∃ r, heeded (failing request fails) = some r ∧ Demanded config R r age) ↔
      ∃ r, heeded request = some r ∧ Demanded config R r age := by
  rw [heeded_failing]
  cases heeded request with
  | none => cases fails <;> rfl
  | some r =>
      cases fails with
      | false => rfl
      | true => simp [failing, Demanded]

/-- The reply demands a validation when it is stale. -/
def MustRevalidate (config : Config) (R : RefreshPattern) (entry : StoreEntry) : Prop :=
  entry.revalidate = true ∧ ¬ (config.violations = true ∧ R.ignore_must_revalidate = true)

theorem checkAged_stale_iff (config : Config) (R : RefreshPattern) (entry : StoreEntry)
    (request : Option HttpRequest) (check_time age : ℤ)
    (result : refreshStaleness entry check_time age R = (staleness, sf)) :
    (∃ outcome, checkAged config R entry request check_time age = some outcome ∧
      200 ≤ outcome.1.code) ↔
    MustRevalidate config R entry ∧ -1 < staleness ∨
      (∃ r, heeded request = some r ∧ Demanded config R r age) ∨
      ¬ Excused request staleness ∧ Condemned config R age staleness sf := by
  rw [← excused_failing (entry.staleIfError.any fun limit => limit < staleness),
    ← demanded_failing (entry.staleIfError.any fun limit => limit < staleness)]
  unfold checkAged
  rw [result]
  dsimp only
  generalize failing request (entry.staleIfError.any fun limit => limit < staleness) = request
  have must : (entry.revalidate && -1 < staleness &&
      !(config.violations && R.ignore_must_revalidate)) = true ↔
        MustRevalidate config R entry ∧ -1 < staleness := by
    simp only [Bool.and_eq_true, decide_eq_true_eq, Bool.not_eq_true', Bool.and_eq_false_iff,
      MustRevalidate, not_and, Bool.not_eq_true]
    cases config.violations <;> cases R.ignore_must_revalidate <;> simp
  rw [← must]
  by_cases demands : (entry.revalidate && -1 < staleness &&
      !(config.violations && R.ignore_must_revalidate)) = true
  · rw [if_pos demands]
    exact iff_of_true ⟨_, rfl, Nat.le_refl 200⟩ (.inl demands)
  rw [if_neg demands, or_iff_right demands]
  have verdicts {end_request : Reason → Option HttpRequest} :
      (∃ outcome, ((verdict config R age staleness sf).map fun reason =>
        (reason, end_request reason)) = some outcome ∧ 200 ≤ outcome.1.code) ↔
      Condemned config R age staleness sf := by
    rw [← verdict_stale_iff]
    simp only [Option.map_eq_some_iff]
    constructor
    · rintro ⟨_, ⟨reason, given, rfl⟩, stale⟩
      exact ⟨reason, given, stale⟩
    · rintro ⟨reason, given, stale⟩
      exact ⟨_, ⟨reason, given, rfl⟩, stale⟩
  cases held : heeded request with
  | none =>
      have strict : ¬ Excused request staleness := by
        rintro ⟨maxStale, allowed, -⟩
        rw [held] at allowed
        cases allowed
      simp only [strict, not_false_iff, true_and]
      refine verdicts.trans (or_iff_right ?_).symm
      rintro ⟨r, absent, -⟩
      cases absent
  | some r =>
      simp only [Option.some.injEq, exists_eq_left']
      rcases requestCheck_cases config R held age staleness with
        ⟨reason, decided, stale, demanded⟩ | ⟨lenient, ⟨reason, decided, fresh, excused⟩ |
          ⟨decided, strict⟩⟩
      · simp only [Prod.map, decided, id]
        exact iff_of_true ⟨_, rfl, stale⟩ (.inl demanded)
      · simp only [Prod.map, decided, id]
        refine iff_of_false ?_ (not_or.mpr ⟨lenient, fun against => against.1 excused⟩)
        rintro ⟨outcome, same, stale⟩
        cases same
        exact absurd stale (not_le.mpr fresh)
      · simp only [Prod.map, decided, id, strict, lenient, not_false_iff, true_and, false_or]
        exact verdicts

/-! ## How late a response is -/

/-- The age at which a response becomes stale, below the maximum of the pattern. -/
def since (entry : StoreEntry) (R : RefreshPattern) : ℤ :=
  if entry.hasLmfactor then entry.stale_age else R.min

/-- The staleness of a response, as an exact number; `-1` if it is fresh. -/
def lateness (entry : StoreEntry) (check_time age : ℤ) (R : RefreshPattern) : ℤ :=
  if -1 < entry.expires then
    if check_time < entry.expires then -1 else check_time - entry.expires
  else if R.max < age then age - R.max
  else if since entry R ≤ age then age - since entry R
  else -1

theorem neg_one_le_lateness (entry : StoreEntry) (check_time age : ℤ) (R : RefreshPattern) :
    -1 ≤ lateness entry check_time age R := by
  unfold lateness
  split_ifs <;> omega

/-- The pattern overrides the rule that decides at some age. -/
def Overrides (config : Config) (R : RefreshPattern) (entry : StoreEntry) (age : ℤ) : Prop :=
  config.violations = true ∧ age < R.min ∧ (-1 < entry.expires ∧ R.override_expire = true ∨
    entry.expires ≤ -1 ∧ age ≤ R.max ∧ entry.hasLmfactor = true ∧ R.override_lastmod = true)

theorem refreshStaleness_eq (config : Config) {check_time : ℤ}
    (fits : lateness entry check_time age R < 2 ^ 31) : ∃ sf,
      refreshStaleness entry check_time age R = (lateness entry check_time age R, sf) ∧
      (Overridden config R age sf ↔ Overrides config R entry age) := by
  have wraps {x : ℤ} (nonneg : 0 ≤ x) (small : x < 2 ^ 31) : int32 x = x :=
    int32_eq (by omega) small
  unfold Overridden Overrides
  unfold refreshStaleness
  unfold lateness since at fits ⊢
  by_cases expires : -1 < entry.expires
  · simp only [expires, if_true] at fits ⊢
    by_cases fresh : check_time < entry.expires
    · simp [fresh, expires]
    · rw [if_neg fresh] at fits ⊢
      rw [if_neg fresh, wraps (by omega) fits]
      exact ⟨_, rfl, by simp [expires]⟩
  simp only [expires, if_false, not_lt.mp expires, true_and, false_and, false_or] at fits ⊢
  by_cases old : R.max < age
  · simp only [old, if_true] at fits ⊢
    rw [wraps (by omega) fits]
    exact ⟨_, rfl, by simp [old]⟩
  simp only [old, if_false] at fits ⊢
  cases lmfactor : entry.hasLmfactor with
  | true =>
      simp only [lmfactor, if_true] at fits ⊢
      by_cases stale : entry.stale_age ≤ age
      · rw [if_pos stale] at fits ⊢
        rw [if_pos stale, wraps (by omega) fits]
        exact ⟨_, rfl, by simp [not_lt.mp old]⟩
      · simp [stale, not_lt.mp old]
  | false =>
      simp only [lmfactor, Bool.false_eq_true, if_false] at fits ⊢
      by_cases stale : R.min ≤ age
      · rw [if_pos stale] at fits ⊢
        rw [if_neg (not_lt.mpr stale), wraps (by omega) fits]
        exact ⟨_, rfl, by simp⟩
      · simp [stale, not_le.mp stale]

/-- The age of a response at a time, with the `min-fresh` of the client. -/
def plainAge (now delta : ℤ) (entry : StoreEntry) (request : Option HttpRequest) : ℤ :=
  max 0 (now + delta - entry.timestamp) + minFresh request

/-- A `time_t` can hold the number. -/
def InTime (x : ℤ) : Prop := -2 ^ 63 ≤ x ∧ x < 2 ^ 63

/-- The sums of a check stay within `time_t`, and the staleness within `int`. -/
structure Fits (R : RefreshPattern) (now : ℤ) (entry : StoreEntry) (request : Option HttpRequest)
    (delta : ℤ) : Prop where
  time : InTime (now + delta)
  difference : InTime (now + delta - entry.timestamp)
  check_time : InTime (now + delta + minFresh request)
  age : InTime (plainAge now delta entry request)
  staleness : lateness entry (now + delta + minFresh request)
    (plainAge now delta entry request) R < 2 ^ 31

variable {delta : ℤ}

section

variable (fits : Fits R now entry request delta)
include fits

theorem Fits.checkTime_eq : checkTime now delta request = now + delta + minFresh request := by
  rw [checkTime, int64_eq fits.time.1 fits.time.2, int64_eq fits.check_time.1 fits.check_time.2]

theorem Fits.ageAt_eq :
    ageAt now delta entry request = some (plainAge now delta entry request) := by
  have age := int64_eq fits.age.1 fits.age.2
  rw [plainAge] at age ⊢
  simp only [ageAt, int64_eq fits.time.1 fits.time.2]
  by_cases later : entry.timestamp < now + delta
  · rw [if_pos later, int64_eq fits.difference.1 fits.difference.2, if_pos (by omega)]
    rw [max_eq_right (by omega)] at age ⊢
    rw [age]
  · rw [if_neg later, if_pos le_rfl]
    rw [max_eq_left (by omega)] at age ⊢
    rw [age]

/-- A check finds a response stale if a validation is demanded, or if it is late, the client does
not put up with it, and the pattern does not override it. -/
theorem Fits.stale_iff :
    Stale config R now entry request delta ↔
      MustRevalidate config R entry ∧ -1 < lateness entry (now + delta + minFresh request)
        (plainAge now delta entry request) R ∨
      (∃ r, heeded request = some r ∧
        Demanded config R r (plainAge now delta entry request)) ∨
      ¬ Excused request (lateness entry (now + delta + minFresh request)
        (plainAge now delta entry request) R) ∧
      lateness entry (now + delta + minFresh request) (plainAge now delta entry request) R ≠ -1 ∧
        (0 ≤ R.limit config ∧ R.limit config < lateness entry (now + delta + minFresh request)
          (plainAge now delta entry request) R ∨
        ¬ Overrides config R entry (plainAge now delta entry request)) := by
  obtain ⟨sf, result, overrides⟩ := refreshStaleness_eq config fits.staleness
  rw [← overrides]
  unfold Stale refreshCheck
  rw [fits.ageAt_eq, Option.bind_some, fits.checkTime_eq]
  exact checkAged_stale_iff config R entry request _ _ result

end

/-! ## Later checks -/

/-- Between two checks a response outgrows the maximum of the pattern, and what is demanded of it at
the first one is forgiven at the second one, as it counts as less stale. -/
structure Revived (config : Config) (R : RefreshPattern) (now : ℤ) (entry : StoreEntry)
    (request : Option HttpRequest) (d1 d2 : ℤ) : Prop where
  unset : entry.expires ≤ -1
  before : plainAge now d1 entry request ≤ R.max
  after : R.max < plainAge now d2 entry request
  allowed : ∃ maxStale, ((heeded request).bind HttpRequest.cache_control).bind HttpHdrCc.maxStale =
      some maxStale ∧ maxStale ≠ MAX_STALE_ANY ∧
    maxStale ≤ plainAge now d1 entry request - since entry R ∧
    plainAge now d2 entry request - R.max < maxStale
  blamed : 0 ≤ R.limit config ∧ R.limit config < plainAge now d1 entry request - since entry R ∨
    ¬ Overrides config R entry (plainAge now d1 entry request)
  unforced : ¬ MustRevalidate config R entry
  undemanded : ∀ r, heeded request = some r →
    ¬ Demanded config R r (plainAge now d2 entry request)

theorem Demanded.mono {r : HttpRequest} {a1 a2 : ℤ} (le : a1 ≤ a2)
    (demanded : Demanded config R r a1) : Demanded config R r a2 := by
  refine demanded.imp_right fun demanded => demanded.imp_right fun ⟨cc, given, exceeded⟩ =>
    ⟨cc, given, ?_⟩
  unfold HttpHdrCc.exceeded at exceeded ⊢
  cases limit : cc.maxAge with
  | none => simp [limit] at exceeded
  | some maxAge =>
      simp only [limit] at exceeded ⊢
      split at exceeded
      · cases exceeded
      next heeds =>
        rw [if_neg heeds]
        simp only [Bool.or_eq_true, beq_iff_eq, decide_eq_true_eq] at exceeded ⊢
        omega

variable {a1 a2 : ℤ}

theorem Overrides.anti (le : a1 ≤ a2) (overrides : Overrides config R entry a2) :
    Overrides config R entry a1 := by
  obtain ⟨allowed, young, rule⟩ := overrides
  refine ⟨allowed, by omega, rule.imp_right fun ⟨unset, below, rest⟩ => ⟨unset, by omega, rest⟩⟩

theorem Excused.anti {s1 s2 : ℤ} (stale : -1 < s1) (le : s1 ≤ s2)
    (excused : Excused request s2) : Excused request s1 := by
  obtain ⟨maxStale, given, -, enough⟩ := excused
  exact ⟨maxStale, given, stale, enough.imp_right fun less => by omega⟩

variable {t1 t2 : ℤ}

/-- Unless the maximum is passed, a response does not get less late. -/
theorem lateness_mono (time : t1 ≤ t2) (age : a1 ≤ a2)
    (same : -1 < entry.expires ∨ a2 ≤ R.max ∨ R.max < a1) :
    lateness entry t1 a1 R ≤ lateness entry t2 a2 R := by
  unfold lateness
  split_ifs <;> omega

theorem lateness_stays (time : t1 ≤ t2) (age : a1 ≤ a2) (stale : -1 < lateness entry t1 a1 R) :
    -1 < lateness entry t2 a2 R := by
  unfold lateness at stale ⊢
  split_ifs at stale ⊢ <;> omega

/-- A response that was modified fifty seconds before it was received. -/
def oldEntry : StoreEntry where
  expires := -1
  lastmod := 950
  timestamp := 1000
  stale_age := 10
  revalidate := false
  staleIfError := none

/-- The default pattern. -/
def defaultPattern : RefreshPattern where
  min := 0
  max := 259200
  max_stale := -1

/-- A request with a `max-stale`. -/
def patientRequest (maxStale : ℤ) : HttpRequest where
  cache_control := some { maxStale := some maxStale }

end Refresh
end Squid
