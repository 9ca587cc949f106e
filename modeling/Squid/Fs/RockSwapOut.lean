import Squid.Fs.RockSwapDir
import Squid.Store.SwapOutDecisions

/-!
# Rock cells for entries

A new entry from its creation to the moment its swap-out starts, among any `cache_dir`s: its reply
is set, as in `src/Server.cc` and `src/http.cc`, and perhaps given up for another one, as in
`src/forward.cc`; it grows, it is completed and it is swapped out.  A Rock directory is selected by
sizes in which -1 means unknown, and is then promised a reply of a known size.
-/

namespace Squid
namespace Rock

open CRuntime Option
open Swap (StoreEntry MemObject Call Decision StoreStatus)
open Dirs (Answers View Algorithm storeDirSelectSwapDir)

/-! ## The configuration -/

/-- A configured `cache_dir`. -/
inductive Dir where
  | rock (dir : SwapDir)
  | other (sd : Dirs.SwapDir)

namespace Dir

/-- The common part. -/
def base : Dir → Dirs.SwapDir
  | rock dir => dir.toSwapDir
  | other sd => sd

/-- `canStore`: the load. -/
def canStore (answers : Answers) (special : Bool) (diskSpaceNeeded : ℤ) : Dir → Option ℤ
  | rock dir => dir.loadToStore answers special diskSpaceNeeded
  | other sd => sd.loadToStore answers special diskSpaceNeeded

end Dir

/-- The configuration, as far as it decides what is swapped out. -/
structure Site where
  /-- `Config.cacheSwap.swapDirs`. -/
  swapDirs : List Dir
  /-- `Config.Store.maxObjectSize`. -/
  maxObjectSize : ℤ
  /-- `Config.Store.maxInMemObjSize`. -/
  maxInMemObjSize : ℤ
  memory_cache_first : Bool
  /-- `Config.retry.onerror`. -/
  onerror : Bool
  /-- `Config.negativeTtl > 0`. -/
  negativeTtl : Bool

namespace Site

def update_maxobjsize (site : Site) : ℤ :=
  let ms := site.swapDirs.foldl (fun ms dir =>
    let storeMax := dir.base.maxObjectSize site.maxObjectSize
    if ms < storeMax then storeMax else ms) (-1)
  if ms < site.maxInMemObjSize then site.maxInMemObjSize else ms

def config (site : Site) : Swap.Config :=
  ⟨site.swapDirs.length, site.maxInMemObjSize, site.memory_cache_first, site.update_maxobjsize⟩

/-- What the selection sees of the directories, where `objsize` is as it computes it. -/
def view (site : Site) (answers : ℕ → Answers) (special : Bool) (expectedReplySize : ℤ)
    (swap_hdr_sz : ℕ) : View where
  canStore i :=
    let objsize := if expectedReplySize ≠ -1 then int64 (expectedReplySize + swap_hdr_sz) else -1
    (site.swapDirs[i]?).bind fun dir => dir.canStore (answers i) special objsize
  cur_free i :=
    match site.swapDirs[i]? with
    | some dir => int64 (dir.base.max_size - (answers i).currentSize)
    | none => 0
  maxObjectSize i :=
    match site.swapDirs[i]? with
    | some dir => dir.base.maxObjectSize site.maxObjectSize
    | none => 0

end Site

/-! ## Replies -/

/-- `HttpReply`. -/
structure Reply where
  /-- `sline.version.major`. -/
  major : ℕ := 1
  /-- `sline.status`. -/
  status : ℕ
  content_length : ℤ := -1
  hdr_sz : ℤ := 0

/-- `HttpReply::bodySize`. -/
def Reply.bodySize (reply : Reply) (headMethod : Bool) : ℤ :=
  if reply.major < 1 then -1
  else if headMethod then 0
  else if reply.status = 200 then reply.content_length
  else if reply.status = 204 then 0
  else if reply.status = 304 then 0
  else if reply.status < 200 then 0
  else reply.content_length

/-- `FwdState::reforwardableStatus`. -/
def reforwardableStatus (onerror : Bool) (status : ℕ) : Bool :=
  if status ∈ [502, 504] then true
  else if status ∈ [403, 500, 501, 503] then onerror
  else false

/-- What `cacheableReply` finds out about a reply, apart from its status. -/
structure Verdict where
  /-- One of the checks before the status forbids to cache the reply. -/
  forbidden : Bool := false
  /-- The reply is fresh enough for its status. -/
  fresh : Bool := true
  /-- `httpMakeVaryMark` fails. -/
  varyFails : Bool := false

/-- `HttpStateData::cacheableReply`. -/
def cacheableReply (status : ℕ) (verdict : Verdict) : ℤ :=
  if verdict.forbidden then 0
  else if status ∈ [200, 203, 300, 301, 308, 410] then if verdict.fresh then 1 else 0
  else if status ∈ [302, 307] then if verdict.fresh then 1 else 0
  else if status ∈ [204, 305, 400, 403, 404, 405, 414, 500, 501, 502, 503, 504] then -1
  else 0

/-- A reply that another server may replace is not cached as a good one. -/
theorem cacheableReply_ne_one {onerror : Bool} {status : ℕ}
    (again : reforwardableStatus onerror status) (verdict : Verdict) :
    cacheableReply status verdict ≠ 1 := by
  have error : status ∈ [502, 504] ∨ status ∈ [403, 500, 501, 503] := by
    unfold reforwardableStatus at again
    split at again
    · next now => exact .inl now
    · split at again
      · next now => exact .inr now
      · cases again
  have split : status = 502 ∨ status = 504 ∨ status = 403 ∨ status = 500 ∨ status = 501 ∨
      status = 503 := by
    simp only [List.mem_cons, List.not_mem_nil, or_false] at error
    tauto
  unfold cacheableReply
  rcases split with rfl | rfl | rfl | rfl | rfl | rfl <;> cases verdict.forbidden <;> simp

/-! ## An entry and its reply -/

/-- An entry that a server fills. -/
structure Transfer where
  entry : StoreEntry := {}
  /-- The reply of the entry, once the server has set one. -/
  reply : Option Reply := none
  /-- The method is `HEAD`. -/
  headMethod : Bool := false
  /-- The flag `ENTRY_CACHABLE`. -/
  cachable : Bool := true
  /-- The flag `ENTRY_NEGCACHED`. -/
  negcached : Bool := false
  /-- The flag `ENTRY_FWD_HDR_WAIT`. -/
  fwdHdrWait : Bool := true

namespace Transfer

/-- The size that the reply promises, or -1. -/
def promisedSize (t : Transfer) : ℤ :=
  match t.reply with
  | none => -1
  | some reply =>
      if 0 ≤ reply.bodySize t.headMethod ∧ 0 < reply.hdr_sz then
        int64 (reply.bodySize t.headMethod + reply.hdr_sz)
      else -1

def expectedReplySize (t : Transfer) : ℤ := t.entry.mem_obj.expectedReplySize t.promisedSize

/-- The part of `checkTooSmall` that does not depend on the configuration. -/
def checkTooSmall (t : Transfer) (special : Bool) : Bool :=
  ¬ special ∧ t.entry.store_status = .STORE_OK ∧ t.entry.mem_obj.object_sz < 0

/-- What `swapOut` is told agrees with the reply and with the flags that `checkCachable` tests. -/
def Agrees (t : Transfer) (call : Call) : Prop :=
  call.promisedSize = t.promisedSize ∧
    (call.checkCachable = true →
      t.cachable = true ∧ t.negcached = false ∧ t.checkTooSmall call.special = false)

instance (t : Transfer) (call : Call) : Decidable (t.Agrees call) :=
  inferInstanceAs (Decidable (_ ∧ _))

/-- `HttpStateData::haveParsedReplyHeaders`. -/
def haveParsedReplyHeaders (site : Site) (t : Transfer) (status : ℕ) (verdict : Verdict) :
    Transfer :=
  let t := { t with fwdHdrWait := t.fwdHdrWait && reforwardableStatus site.onerror status }
  if verdict.varyFails then { t with cachable := false }
  else if cacheableReply status verdict = 1 then t
  else if cacheableReply status verdict = 0 then { t with cachable := false }
  else if site.negativeTtl then { t with negcached := true }
  else { t with cachable := false }

/-- `StoreEntry::startWriting`, where the reply packs to `head`; it dies unless the entry is
empty. -/
def startWriting (t : Transfer) (reply : Reply) (head : Bytes) : Option Transfer :=
  match t.entry.mem_obj.endOffset, t.entry.append head with
  | .ok start, .ok entry =>
      match entry.mem_obj.endOffset with
      | .ok stop =>
          if start = 0 then some { t with entry, reply := some { reply with hdr_sz := int32 stop } }
          else none
      | .error _ => none
  | _, _ => none

/-- `StoreEntry::reset`. -/
def reset (t : Transfer) : Transfer :=
  { t with
    reply := none
    entry := { t.entry with
      mem_obj := { t.entry.mem_obj with
        data_hdr := {}
        write_pending := fun _ => false
        inmem_lo := 0 }
      object := [] } }

/-- Whether the entry is waiting for another reply: a server has failed before it has sent one, or
its reply may be given up. -/
def waits (site : Site) (t : Transfer) : Bool :=
  match t.reply with
  | none => true
  | some reply => t.fwdHdrWait && reforwardableStatus site.onerror reply.status

/-- `mayStartSwapOut`, unless it dies. -/
def mayStartSwapOut (site : Site) (t : Transfer) (call : Call) : Option Transfer :=
  match t.entry.mayStartSwapOut site.config call with
  | .ok (_, entry) => some { t with entry }
  | .error _ => none

end Transfer

/-- What happens to an entry. -/
inductive Event where
  | store (event : Swap.Event)
  /-- An HTTP server sets the reply: `ServerStateData::setFinalReply`. -/
  | setFinalReply (reply : Reply) (head : Bytes) (verdict : Verdict)
  /-- Another server sets the reply: `replaceHttpReply`, with the flag `ENTRY_CACHABLE` after
  that. -/
  | replaceHttpReply (reply : Reply) (head : Bytes) (cachable : Bool)
  /-- The request is forwarded again. -/
  | reset

/-- The store handles an event. -/
def Transfer.handle (site : Site) (t : Transfer) (event : Swap.Event) : Option Transfer :=
  match t.entry.handle site.config event with
  | some (.ok entry) => some { t with entry }
  | _ => none

/-- The next event; `none` where it cannot occur or the process dies.  A server sets one reply, and
only while the entry has none. -/
def next (site : Site) (t : Transfer) : Event → Option Transfer
  | .store (.swapOut call) => if t.Agrees call then t.handle site (.swapOut call) else none
  | .store event => t.handle site event
  | .setFinalReply reply head verdict =>
      if t.entry.store_status = .STORE_PENDING ∧ t.reply = none then
        (t.haveParsedReplyHeaders site reply.status verdict).startWriting reply head
      else none
  | .replaceHttpReply reply head cachable =>
      if t.entry.store_status = .STORE_PENDING ∧ t.reply = none then
        { t with cachable, fwdHdrWait := false }.startWriting reply head
      else none
  | .reset =>
      if t.entry.store_status = .STORE_PENDING ∧ t.entry.mem_obj.sio = none ∧ t.waits site then
        some t.reset
      else none

/-- A new entry, or one that has been loaded from the memory cache. -/
structure Transfer.Fresh (t : Transfer) : Prop where
  undecided : t.entry.mem_obj.decision ≠ .swPossible
  pending : t.entry.store_status = .STORE_PENDING → t.entry.mem_obj.object_sz = -1 ∧ t.reply = none
  small : t.entry.mem_obj.object_sz < 2 ^ 63

/-- Holds between two events. -/
structure Transfer.Invariant (site : Site) (t : Transfer) : Prop where
  pending : t.entry.store_status = .STORE_PENDING → t.entry.mem_obj.object_sz = -1
  small : t.entry.mem_obj.object_sz < 2 ^ 63
  /-- The swap-out of a reply of unknown size is not found possible. -/
  known : t.entry.mem_obj.decision = .swPossible → 0 ≤ t.expectedReplySize
  /-- Nor is that of a reply that may be given up. -/
  waiting : t.entry.store_status = .STORE_PENDING → t.reply ≠ none → t.waits site = true →
    (t.cachable = false ∨ t.negcached = true) ∧ t.entry.mem_obj.decision ≠ .swPossible

namespace Transfer

variable {site : Site} {t : Transfer}

theorem Fresh.invariant (fresh : t.Fresh) : t.Invariant site where
  pending waiting := (fresh.pending waiting).1
  small := fresh.small
  known possible := absurd possible fresh.undecided
  waiting pending set := absurd (fresh.pending pending).2 set

theorem expectedReplySize_entry {entry : StoreEntry}
    (same : entry.mem_obj.object_sz = t.entry.mem_obj.object_sz) :
    { t with entry }.expectedReplySize = t.expectedReplySize := by
  unfold expectedReplySize MemObject.expectedReplySize promisedSize
  rw [same]

namespace Invariant

theorem promisedSize_lt (t : Transfer) : t.promisedSize < 2 ^ 63 := by
  unfold promisedSize
  split
  · decide
  · split
    · exact (int64_mem _).2
    · decide

theorem expectedReplySize_lt (inv : t.Invariant site) : t.expectedReplySize < 2 ^ 63 := by
  have small := inv.small
  have promised := promisedSize_lt t
  unfold Transfer.expectedReplySize MemObject.expectedReplySize
  split <;> assumption

/-- An entry without a reply is undecided. -/
theorem undecided (inv : t.Invariant site) (pending : t.entry.store_status = .STORE_PENDING)
    (none : t.reply = none) : t.entry.mem_obj.decision ≠ .swPossible := by
  intro possible
  have known := inv.known possible
  have size := inv.pending pending
  unfold Transfer.expectedReplySize MemObject.expectedReplySize promisedSize at known
  rw [none, size] at known
  simp at known

variable {entry : StoreEntry}

/-- A decision keeps the invariant when there is a limit for all directories. -/
theorem decides (inv : t.Invariant site) (limited : 0 ≤ site.config.store_maxobjsize) {call : Call}
    (agrees : t.Agrees call) (decides : Swap.Decides site.config call t.entry entry) :
    { t with entry }.Invariant site where
  pending pending := by
    rw [decides.store_status] at pending
    exact decides.object_sz.trans (inv.pending pending)
  small := by
    dsimp only
    rw [decides.object_sz]
    exact inv.small
  known possible := by
    rw [expectedReplySize_entry decides.object_sz]
    rcases decides.possible possible with already | found
    · exact inv.known already
    · have plain : call.special = false := by simpa using found.special
      have large := (agrees.2 found.checkCachable).2.2
      unfold checkTooSmall at large
      rcases found.size limited with known | complete
      · rw [agrees.1] at known
        exact known
      · rw [plain] at large
        have size : 0 ≤ t.entry.mem_obj.object_sz := by simpa [complete] using large
        unfold Transfer.expectedReplySize MemObject.expectedReplySize
        rw [if_pos size]
        exact size
  waiting pending set waits := by
    rw [decides.store_status] at pending
    obtain ⟨uncached, undecided⟩ := inv.waiting pending set waits
    refine ⟨uncached, fun possible => ?_⟩
    rcases decides.possible possible with already | found
    · exact undecided already
    · obtain ⟨cachable, fine, -⟩ := agrees.2 found.checkCachable
      rcases uncached with uncachable | negative
      · exact absurd (uncachable.symm.trans cachable) (by decide)
      · exact absurd (negative.symm.trans fine) (by decide)

theorem leaves (inv : t.Invariant site) (same : Swap.Same t.entry entry) :
    { t with entry }.Invariant site where
  pending pending := by
    rw [same.store_status] at pending
    exact same.object_sz.trans (inv.pending pending)
  small := by
    dsimp only
    rw [same.object_sz]
    exact inv.small
  known possible := by
    rw [expectedReplySize_entry same.object_sz]
    exact inv.known (same.possible possible)
  waiting pending set waits := by
    rw [same.store_status] at pending
    obtain ⟨uncached, undecided⟩ := inv.waiting pending set waits
    exact ⟨uncached, fun possible => undecided (same.possible possible)⟩

/-- A complete object has the size that it has got, or the one that was promised. -/
theorem complete (inv : t.Invariant site) (pending : t.entry.store_status = .STORE_PENDING)
    (small : entry.mem_obj.object_sz < 2 ^ 63) (complete : entry.store_status = .STORE_OK)
    (same : entry.mem_obj.decision = t.entry.mem_obj.decision) :
    { t with entry }.Invariant site where
  pending pending := absurd (complete.symm.trans pending) (by decide)
  small := small
  known possible := by
    have known := inv.known (same.symm.trans possible)
    unfold Transfer.expectedReplySize MemObject.expectedReplySize at known ⊢
    rw [inv.pending pending, if_neg (by decide)] at known
    split
    · next size => exact size
    · exact known
  waiting pending := absurd (complete.symm.trans pending) (by decide)

end Invariant

variable {after : Transfer}

variable {head : Bytes} {reply : Reply}

theorem startWriting_spec (starts : t.startWriting reply head = some after) :
    ∃ entry hdr_sz, Swap.Same t.entry entry ∧
      after = { t with entry, reply := some { reply with hdr_sz } } := by
  have leaves : Swap.Leaves t.entry (t.entry.append head) := by
    unfold StoreEntry.append
    refine Swap.Leaves.bind_any _ fun endOffset => ?_
    split
    · exact ⟨rfl, rfl, id⟩
    · trivial
  unfold startWriting at starts
  split at starts
  · next start entry begins appends =>
      split at starts
      · next stop ends =>
          split at starts
          · cases starts
            exact ⟨entry, _, leaves.of_ok appends, rfl⟩
          · cases starts
      · cases starts
  · cases starts

theorem haveParsedReplyHeaders_frame (status : ℕ) (verdict : Verdict) :
    (t.haveParsedReplyHeaders site status verdict).entry = t.entry ∧
      (t.haveParsedReplyHeaders site status verdict).reply = t.reply := by
  unfold haveParsedReplyHeaders
  dsimp only
  split
  · exact ⟨rfl, rfl⟩
  · split
    · exact ⟨rfl, rfl⟩
    · split
      · exact ⟨rfl, rfl⟩
      · split <;> exact ⟨rfl, rfl⟩

/-- A reply that may be given up is not cached. -/
theorem haveParsedReplyHeaders_uncached {status : ℕ} {verdict : Verdict}
    (again : reforwardableStatus site.onerror status) :
    (t.haveParsedReplyHeaders site status verdict).cachable = false ∨
      (t.haveParsedReplyHeaders site status verdict).negcached = true := by
  unfold haveParsedReplyHeaders
  dsimp only
  rw [if_neg (cacheableReply_ne_one again verdict)]
  split
  · exact .inl rfl
  · split
    · exact .inl rfl
    · split
      · exact .inr rfl
      · exact .inl rfl

/-- Setting a reply keeps the invariant, if a reply that may be given up is not cached. -/
theorem invariant_startWriting (size : t.entry.mem_obj.object_sz = -1)
    (undecided : t.entry.mem_obj.decision ≠ .swPossible)
    (uncached : t.fwdHdrWait = true → reforwardableStatus site.onerror reply.status = true →
      t.cachable = false ∨ t.negcached = true) (starts : t.startWriting reply head = some after) :
    after.Invariant site := by
  obtain ⟨entry, hdr_sz, same, rfl⟩ := startWriting_spec starts
  have still : entry.mem_obj.decision ≠ .swPossible :=
    fun possible => undecided (same.possible possible)
  refine ⟨fun _ => same.object_sz.trans size, ?_, fun possible => ?_, fun _ _ waits => ?_⟩
  · dsimp only
    rw [same.object_sz, size]
    decide
  · exact absurd possible still
  · obtain ⟨waiting, again⟩ := Bool.and_eq_true_iff.mp waits
    exact ⟨uncached waiting again, still⟩

theorem Invariant.reset (inv : t.Invariant site)
    (pending : t.entry.store_status = .STORE_PENDING) (waits : t.waits site = true) :
    t.reset.Invariant site := by
  have undecided : t.entry.mem_obj.decision ≠ .swPossible := by
    cases given : t.reply with
    | none => exact inv.undecided pending given
    | some reply => exact (inv.waiting pending (by simp [given]) waits).2
  exact ⟨inv.pending, inv.small, fun possible => absurd possible undecided,
    fun _ set => absurd rfl set⟩

/-- The events of the store keep the invariant. -/
theorem Invariant.handle (inv : t.Invariant site) (limited : 0 ≤ site.config.store_maxobjsize)
    {event : Swap.Event} (agrees : ∀ call, event = .swapOut call → t.Agrees call)
    (step : t.handle site event = some after) : after.Invariant site := by
  unfold Transfer.handle at step
  split at step
  · next entry occurs =>
      cases step
      by_cases completes : event = .complete
      · subst completes
        simp only [StoreEntry.handle, ite_none_right_eq_some, some.injEq] at occurs
        obtain ⟨pending, done⟩ := occurs
        obtain ⟨small, complete, same⟩ := (Swap.complete_outcome t.entry).of_ok done
        exact inv.complete pending small complete same
      · by_cases decides : ∃ call, event = .swapOut call
        · obtain ⟨call, rfl⟩ := decides
          simp only [StoreEntry.handle, some.injEq] at occurs
          exact inv.decides limited (agrees call rfl)
            ((Swap.swapOut_decides site.config call t.entry).of_ok occurs)
        · have leaves := Swap.handle_leaves completes
            (fun call same => decides ⟨call, same⟩) occurs
          exact inv.leaves leaves
  · cases step

end Transfer

variable {site : Site}

variable {after before : Transfer}

theorem next_store {event : Swap.Event} (step : next site before (.store event) = some after) :
    before.handle site event = some after ∧
      ∀ call, event = .swapOut call → before.Agrees call := by
  cases event with
  | swapOut call =>
      simp only [next, ite_none_right_eq_some] at step
      refine ⟨step.2, fun other same => ?_⟩
      cases same
      exact step.1
  | _ =>
      refine ⟨step, fun call same => ?_⟩
      cases same

/-- Every event keeps the invariant. -/
theorem next_invariant (limited : 0 ≤ site.config.store_maxobjsize) {event : Event}
    (inv : before.Invariant site) (step : next site before event = some after) :
    after.Invariant site := by
  cases event with
  | store event =>
      obtain ⟨handled, agrees⟩ := next_store step
      exact inv.handle limited agrees handled
  | setFinalReply reply head verdict =>
      simp only [next, ite_none_right_eq_some] at step
      obtain ⟨⟨pending, none⟩, starts⟩ := step
      obtain ⟨entry, -⟩ :=
        @Transfer.haveParsedReplyHeaders_frame site before reply.status verdict
      refine Transfer.invariant_startWriting ?_ ?_ (fun _ again => ?_) starts
      · rw [entry]
        exact inv.pending pending
      · rw [entry]
        exact inv.undecided pending none
      · exact Transfer.haveParsedReplyHeaders_uncached again
  | replaceHttpReply reply head cachable =>
      simp only [next, ite_none_right_eq_some] at step
      obtain ⟨⟨pending, none⟩, starts⟩ := step
      refine Transfer.invariant_startWriting ?_ ?_ (fun waiting _ => ?_) starts
      · exact inv.pending pending
      · exact inv.undecided pending none
      · cases waiting
  | reset =>
      simp only [next, ite_none_right_eq_some, some.injEq] at step
      obtain ⟨⟨pending, -, waits⟩, rfl⟩ := step
      exact inv.reset pending waits

/-! ## What the selection relies on -/

variable {dir : SwapDir} {index : ℕ}

/-- With a Rock directory there is a limit for all directories. -/
theorem limited_of_rock (rock : site.swapDirs[index]? = some (.rock dir)) :
    0 ≤ site.config.store_maxobjsize := by
  let step (ms : ℤ) (dir : Dir) : ℤ :=
    if ms < dir.base.maxObjectSize site.maxObjectSize then
      dir.base.maxObjectSize site.maxObjectSize else ms
  have grows (ms : ℤ) (dirs : List Dir) : ms ≤ dirs.foldl step ms := by
    induction dirs generalizing ms with
    | nil => exact le_rfl
    | cons next dirs ih =>
        refine le_trans ?_ (ih (step ms next))
        dsimp only [step]
        split <;> omega
  have covers (ms : ℤ) (dirs : List Dir) (member : Dir.rock dir ∈ dirs) :
      0 ≤ dirs.foldl step ms := by
    induction dirs generalizing ms with
    | nil => simp at member
    | cons next dirs ih =>
        rcases List.mem_cons.mp member with rfl | later
        · refine le_trans ?_ (grows (step ms (.rock dir)) dirs)
          have size : (Dir.rock dir).base.maxObjectSize site.maxObjectSize = dir.max_objsize :=
            if_pos (by have := dir.nonneg; dsimp only [Dir.base]; omega)
          have nonneg := dir.nonneg
          dsimp only [step]
          rw [size]
          split <;> omega
        · exact ih (step ms next) later
  have start := covers (-1) site.swapDirs (List.mem_of_getElem? rock)
  change 0 ≤ site.update_maxobjsize
  unfold Site.update_maxobjsize
  dsimp only
  change 0 ≤ if site.swapDirs.foldl step (-1) < site.maxInMemObjSize then site.maxInMemObjSize
    else site.swapDirs.foldl step (-1)
  split <;> omega

namespace SwapDir

/-- The assertions about an entry that gets a cell of this directory, writes its metadata and at
most the expected bytes of its reply, and closes the cell. -/
def Holds (dir : SwapDir) (expectedReplySize : ℤ) (swap_hdr_sz : ℕ) : Prop :=
  ∀ theFile openForWriting, ∃ created,
    dir.createStoreIo expectedReplySize swap_hdr_sz theFile openForWriting = .ok created ∧
      ∀ io, created = some io → ∀ metaData pages, metaData.length = swap_hdr_sz →
        (pages.flatten.length : ℤ) ≤ expectedReplySize →
          ∃ request, io.writeEntry metaData pages = .ok request

variable {dir : SwapDir} {expectedReplySize : ℤ} {swap_hdr_sz : ℕ}

/-- The end of the cell, as `canStore` and `createStoreIo` compute it. -/
theorem payloadEnd_eq :
    int64 (cellHeaderSize + int64 (expectedReplySize + swap_hdr_sz)) =
      int64 (cellHeaderSize + (expectedReplySize + swap_hdr_sz)) := by
  unfold int64
  omega

/-- A size that fits is counted exactly; one that does not becomes negative. -/
theorem payloadEnd_spec (nonneg : 0 ≤ expectedReplySize) (small : expectedReplySize < 2 ^ 63)
    (metaData : swap_hdr_sz < 2 ^ 31) :
    if expectedReplySize + swap_hdr_sz + cellHeaderSize < 2 ^ 63 then
      int64 (cellHeaderSize + (expectedReplySize + swap_hdr_sz)) =
        cellHeaderSize + expectedReplySize + swap_hdr_sz
    else int64 (cellHeaderSize + (expectedReplySize + swap_hdr_sz)) < 0 := by
  unfold int64 cellHeaderSize
  split <;> omega

/-- What `canStore` accepts gets a cell. -/
theorem createStoreIo_ok (nonneg : 0 ≤ expectedReplySize) (positive : 0 < swap_hdr_sz)
    (fits : int64 (cellHeaderSize + (expectedReplySize + swap_hdr_sz)) < dir.max_objsize)
    (openForWriting : Option (Fin dir.entryLimit)) :
    dir.createStoreIo expectedReplySize swap_hdr_sz true openForWriting =
      .ok (openForWriting.map fun filen =>
        dir.cell filen (int64 (cellHeaderSize + (expectedReplySize + swap_hdr_sz)))) := by
  unfold createStoreIo
  rw [if_neg (by decide), if_neg (by omega), if_neg (by omega)]
  dsimp only
  rw [add_comm (swap_hdr_sz : ℤ), payloadEnd_eq, if_neg (by omega)]
  cases openForWriting with
  | none => rfl
  | some filen =>
      have inside := dir.slot_inside filen (int64_mem _).1 fits.le
      exact if_neg (by simpa using inside)

/-- The assertions hold for what `canStore` accepts, if the size of the cell can be counted. -/
theorem holds_iff (nonneg : 0 ≤ expectedReplySize) (small : expectedReplySize < 2 ^ 63)
    (positive : 0 < swap_hdr_sz) (metaData : swap_hdr_sz < 2 ^ 31)
    (fits : int64 (cellHeaderSize + (expectedReplySize + swap_hdr_sz)) < dir.max_objsize) :
    dir.Holds expectedReplySize swap_hdr_sz ↔
      expectedReplySize + swap_hdr_sz + cellHeaderSize < 2 ^ 63 := by
  have counted := payloadEnd_spec nonneg small metaData
  constructor
  · intro holds
    by_contra large
    rw [if_neg large] at counted
    obtain ⟨created, creates, writes⟩ := holds true (some ⟨0, dir.positive⟩)
    rw [createStoreIo_ok nonneg positive fits] at creates
    cases creates
    obtain ⟨request, written⟩ := writes _ rfl (List.replicate swap_hdr_sz 0) [] (by simp) (by simpa)
    have short : (dir.cell 0
        (int64 (cellHeaderSize + (expectedReplySize + swap_hdr_sz)))).payloadEnd <
        cellHeaderSize := by
      dsimp only [cell]
      omega
    obtain ⟨fault, dies⟩ := IoState.writeEntry_error short (List.replicate swap_hdr_sz 0) []
    rw [dies] at written
    cases written
  · intro countable
    rw [if_pos countable] at counted
    intro theFile openForWriting
    cases theFile with
    | false =>
        refine ⟨none, rfl, fun io none => ?_⟩
        cases none
    | true =>
        refine ⟨_, createStoreIo_ok nonneg positive fits openForWriting, fun io opened => ?_⟩
        obtain ⟨filen, -, rfl⟩ := map_eq_some_iff.mp opened
        intro metaData pages size short
        refine IoState.writeEntry_ok rfl fits ?_
        dsimp only [cell]
        rw [counted, size]
        push_cast
        omega

end SwapDir

/-- A selected Rock directory has found the size acceptable. -/
theorem fits_of_selected {answers : ℕ → Answers} {special : Bool} {expectedReplySize : ℤ}
    {swap_hdr_sz : ℕ} {algorithm : Algorithm} (known : 0 ≤ expectedReplySize)
    (selected : storeDirSelectSwapDir algorithm site.swapDirs.length
      (site.view answers special expectedReplySize swap_hdr_sz) = some index)
    (rock : site.swapDirs[index]? = some (.rock dir)) :
    int64 (cellHeaderSize + (expectedReplySize + swap_hdr_sz)) < dir.max_objsize := by
  obtain ⟨load, can⟩ := Dirs.canStore_of_select selected
  dsimp only [Site.view] at can
  rw [rock, if_pos (by omega : expectedReplySize ≠ -1)] at can
  change dir.loadToStore _ special (int64 (expectedReplySize + swap_hdr_sz)) = some load at can
  unfold SwapDir.loadToStore at can
  split at can
  · cases can
  · next stores =>
      rw [not_not] at stores
      have limited : dir.max_objsize ≠ -1 := by
        have nonneg := dir.nonneg
        omega
      have fits := (Dirs.SwapDir.acceptable_of_limit limited
        (Dirs.SwapDir.acceptable_of_canStore stores)).2
      rw [SwapDir.payloadEnd_eq] at fits
      exact fits

/-! ## Swap-outs to Rock directories -/

/-- When a swap-out that has been found possible selects a Rock directory, the size of the reply is
known, and the cell takes it exactly if the size of the cell can be counted. -/
theorem selected_holds_iff {site : Site} {start before t : Transfer} {events : List Event}
    (fresh : start.Fresh) (run : LabelledRun.exec (next site) start events = some before)
    {call : Call} (agrees : before.Agrees call)
    (decided : before.mayStartSwapOut site call = some t)
    (possible : t.entry.mem_obj.decision = .swPossible) (positive : 0 < call.swap_hdr_sz)
    (metaData : call.swap_hdr_sz < 2 ^ 31) {algorithm : Algorithm} {answers : ℕ → Answers}
    {index : ℕ} {dir : SwapDir}
    (selected : storeDirSelectSwapDir algorithm site.swapDirs.length
      (site.view answers call.special t.expectedReplySize call.swap_hdr_sz) = some index)
    (rock : site.swapDirs[index]? = some (.rock dir)) :
    dir.Holds t.expectedReplySize call.swap_hdr_sz ↔
      t.expectedReplySize + call.swap_hdr_sz + cellHeaderSize < 2 ^ 63 := by
  have limited := limited_of_rock rock
  have reached : before.Invariant site :=
    LabelledRun.invariant (fun inv step => next_invariant limited inv step) fresh.invariant run
  have inv : t.Invariant site := by
    have decides := Swap.mayStartSwapOut_decides site.config call before.entry
    unfold Transfer.mayStartSwapOut at decided
    split at decided
    · next may entry done =>
        cases decided
        exact reached.decides limited agrees (decides.of_ok done)
    · cases decided
  have known := inv.known possible
  exact SwapDir.holds_iff known inv.expectedReplySize_lt positive metaData
    (fits_of_selected known selected rock)

/-- A Rock directory of 31 slots, where any size is large enough. -/
def wideDir : SwapDir where
  max_size := 2 ^ 20
  min_objsize := -2 ^ 63
  max_objsize := 2 ^ 15
  entryLimit := 31
  nonneg := by decide
  positive := by decide
  usable := by decide
  bounded := by decide

/-- Another directory stores everything else. -/
def wideSite : Site where
  swapDirs := [.rock wideDir, .other { max_size := 2 ^ 40, max_objsize := 2 ^ 63 - 1 }]
  maxObjectSize := 2 ^ 22
  maxInMemObjSize := 2 ^ 19
  memory_cache_first := true
  onerror := false
  negativeTtl := false

/-- A head of 19 bytes. -/
def okHead : Bytes :=
  [72, 84, 84, 80, 47, 49, 46, 49, 32, 50, 48, 48, 32, 79, 75, 13, 10, 13, 10]

/-- A reply of this length, and a page of it. -/
def runOfLength (content_length : ℤ) : List Event :=
  [.setFinalReply { status := 200, content_length } okHead {},
    .store (.append (List.replicate 4096 7))]

/-- The next call of `swapOut`, for an entry with 300 bytes of metadata. -/
def callOfLength (content_length : ℤ) : Call :=
  { promisedSize := content_length + 19, swap_hdr_sz := 300 }

/-- The entry after the run and its decision. -/
def decidedOfLength (content_length : ℤ) : Option Transfer :=
  (LabelledRun.exec (next wideSite) {} (runOfLength content_length)).bind fun before =>
    if before.Agrees (callOfLength content_length) then
      before.mayStartSwapOut wideSite (callOfLength content_length)
    else none

/-- What the selection gets of the entry, and what it selects. -/
def selectionOfLength (content_length : ℤ) : Option (Decision × ℤ × Option ℕ) :=
  (decidedOfLength content_length).map fun t =>
    (t.entry.mem_obj.decision, t.expectedReplySize,
      storeDirSelectSwapDir .leastLoad wideSite.swapDirs.length
        (wideSite.view (fun _ => {}) false t.expectedReplySize 300))

theorem exists_of_selectionOfLength {content_length expected : ℤ} {selected : Option ℕ}
    (selection : selectionOfLength content_length = some (.swPossible, expected, selected)) :
    ∃ before t, LabelledRun.exec (next wideSite) {} (runOfLength content_length) = some before ∧
      before.Agrees (callOfLength content_length) ∧
      before.mayStartSwapOut wideSite (callOfLength content_length) = some t ∧
      t.entry.mem_obj.decision = .swPossible ∧ t.expectedReplySize = expected ∧
      storeDirSelectSwapDir .leastLoad wideSite.swapDirs.length
        (wideSite.view (fun _ => {}) false t.expectedReplySize 300) = selected := by
  obtain ⟨t, decided, same⟩ := map_eq_some_iff.mp selection
  obtain ⟨before, run, agreed⟩ := bind_eq_some_iff.mp decided
  rw [ite_none_right_eq_some] at agreed
  simp only [Prod.mk.injEq] at same
  exact ⟨before, t, run, agreed.1, agreed.2, same.1, same.2.1, same.2.2⟩

/-- The sizes wrap, so that a Rock directory is selected for a reply of 2 ^ 63 - 200 bytes. -/
theorem not_holds_hugeReply : ∃ before t,
    LabelledRun.exec (next wideSite) {} (runOfLength (2 ^ 63 - 200)) = some before ∧
      before.Agrees (callOfLength (2 ^ 63 - 200)) ∧
      before.mayStartSwapOut wideSite (callOfLength (2 ^ 63 - 200)) = some t ∧
      t.entry.mem_obj.decision = .swPossible ∧
      storeDirSelectSwapDir .leastLoad wideSite.swapDirs.length
        (wideSite.view (fun _ => {}) false t.expectedReplySize 300) = some 0 ∧
      wideSite.swapDirs[0]? = some (.rock wideDir) ∧ ¬ wideDir.Holds t.expectedReplySize 300 := by
  have selection : selectionOfLength (2 ^ 63 - 200) =
      some (.swPossible, 2 ^ 63 - 181, some 0) := by decide +kernel
  obtain ⟨before, t, run, agrees, decided, possible, expected, selected⟩ :=
    exists_of_selectionOfLength selection
  refine ⟨before, t, run, agrees, decided, possible, selected, rfl, fun holds => ?_⟩
  rw [expected] at selected holds
  have counted := (SwapDir.holds_iff (by decide) (by decide) (by decide) (by decide)
    (fits_of_selected (by decide) selected rfl)).mp holds
  exact absurd counted (by decide)

theorem holds_smallReply : wideDir.Holds 1019 300 := by
  have selection : selectionOfLength 1000 = some (.swPossible, 1019, some 0) := by
    decide +kernel
  obtain ⟨before, t, run, agrees, decided, possible, expected, selected⟩ :=
    exists_of_selectionOfLength selection
  have fresh : ({} : Transfer).Fresh := ⟨by simp, by simp, by decide⟩
  rw [← expected]
  refine (selected_holds_iff fresh run agrees decided possible (by decide) (by decide)
    selected rfl).mpr ?_
  rw [expected]
  decide

end Rock
end Squid
