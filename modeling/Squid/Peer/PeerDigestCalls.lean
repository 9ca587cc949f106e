import Squid.Peer.PeerDigest

/-!
# The calls that take a digest out of the store

One lemma for each way a stage can go, the rounds of the loop, and what a call makes of the bytes
that it finds in the buffer: they are headers, a control block and what is stored in the mask.
-/

namespace Squid
namespace PeerDigest

open CRuntime List

/-! ## The parts -/

@[simp]
theorem CacheDigest.mask_size_counted (cd : CacheDigest) (cblock : StoreDigestCBlock) :
    (cd.counted cblock).mask_size = cd.mask_size := rfl

variable {buf : Bytes}

theorem CacheDigest.mask_memcpy (cd : CacheDigest) {off : ℕ}
    (fits : off + buf.length ≤ cd.mask_size) : (cd.memcpy fits).mask =
      cd.mask.take off ++ buf ++ cd.mask.drop (off + buf.length) := rfl

@[simp]
theorem CacheDigest.mask_size_memcpy (cd : CacheDigest) {off : ℕ}
    (fits : off + buf.length ≤ cd.mask_size) : (cd.memcpy fits).mask_size = cd.mask_size := by
  rw [mask_size, mask_memcpy]
  rw [mask_size] at fits ⊢
  simp only [length_append, length_take, length_drop]
  omega

theorem StoreDigestCBlock.read_mask_size_lt (buf : Bytes) : (read buf).mask_size < 2 ^ 31 := by
  simp only [read, int32]
  omega

variable {cblock : StoreDigestCBlock}

/-- An accepted block announces fewer than `2 ^ 28` bytes, as many as its digest has. -/
theorem StoreDigestCBlock.Accepted.mask_size (accepted : cblock.Accepted)
    (small : cblock.mask_size < 2 ^ 31) :
    0 < cblock.mask_size ∧ cblock.mask_size < 2 ^ 28 ∧
      (cacheDigestCalcMaskSize cblock.capacity cblock.bits_per_entry : ℤ) = cblock.mask_size := by
  obtain ⟨-, -, positive, size, -⟩ := accepted
  simp only [not_or, not_le] at positive
  have range (x : ℤ) : -2 ^ 31 ≤ int32 x ∧ int32 x < 2 ^ 31 := by
    unfold int32
    omega
  have product := range (int32 (cblock.capacity * cblock.bits_per_entry) + 7)
  rw [cacheDigestCalcMaskSize] at size ⊢
  omega

theorem cacheDigestCreate_of_accepted (accepted : cblock.Accepted)
    (small : cblock.mask_size < 2 ^ 31) :
    ∃ cd, cacheDigestCreate cblock.capacity cblock.bits_per_entry = .ok cd ∧
      (cd.mask_size : ℤ) = cblock.mask_size := by
  obtain ⟨positive, -, size⟩ := accepted.mask_size small
  have checked := accepted.2.2.1
  simp only [not_or, not_le] at checked
  have bits : (0 : ℤ) < cblock.bits_per_entry := by exact_mod_cast checked.2.2.2.1
  rw [cacheDigestCreate, dif_pos ⟨checked.2.2.1, bits⟩, dif_pos (by omega)]
  refine ⟨_, rfl, ?_⟩
  rw [CacheDigest.mask_size, length_replicate, size]

theorem StoreDigestCBlock.Accepted.digest (accepted : cblock.Accepted)
    (small : cblock.mask_size < 2 ^ 31) (cd : Option CacheDigest) :
    ∃ new, cblock.digest cd = .ok new ∧ (new.mask_size : ℤ) = cblock.mask_size := by
  rw [StoreDigestCBlock.digest]
  cases kept : cd.filter fun cd => cblock.mask_size = cd.mask_size with
  | none => exact cacheDigestCreate_of_accepted accepted small
  | some old =>
      obtain ⟨-, size⟩ := Option.filter_eq_some_iff.mp kept
      exact ⟨old, rfl, (of_decide_eq_true size).symm⟩

theorem peerDigestSetCBlock_accepted (cd : Option CacheDigest)
    (accepted : (StoreDigestCBlock.read buf).Accepted) :
    ∃ new, peerDigestSetCBlock cd buf = .ok (some new) ∧
      (new.mask_size : ℤ) = (StoreDigestCBlock.read buf).mask_size := by
  obtain ⟨new, adapted, size⟩ :=
    accepted.digest (StoreDigestCBlock.read_mask_size_lt buf) cd
  refine ⟨new.counted (StoreDigestCBlock.read buf), ?_, by rw [new.mask_size_counted, size]⟩
  simp only [peerDigestSetCBlock, if_pos accepted, adapted]
  rfl

theorem peerDigestSetCBlock_refused (cd : Option CacheDigest)
    (refused : ¬ (StoreDigestCBlock.read buf).Accepted) :
    peerDigestSetCBlock cd buf = .ok none := by
  unfold peerDigestSetCBlock
  simp only [refused, if_false]

/-- The mask has been received. -/
def Reason.Whole (reason : Reason) : Prop := reason = .success ∨ reason = .useless

namespace Fetch

@[simp]
theorem length_moved (buf : Bytes) (retsize : ℕ) :
    (moved buf retsize).length = buf.length - retsize := by
  simp only [moved, length_take, length_append, length_drop]
  omega

@[simp]
theorem moved_zero (buf : Bytes) : moved buf 0 = buf := by simp [moved]

variable {buf : Bytes} {retsize : ℕ}

theorem moved_eq_nil_iff : moved buf retsize = [] ↔ buf.length ≤ retsize := by
  rw [← length_eq_zero_iff, length_moved]
  omega

/-- Of the bytes that are left, the first `retsize` are moved. -/
theorem getElem?_moved {i : ℕ} (inside : i < buf.length - retsize) :
    (moved buf retsize)[i]? = buf[if i < retsize then retsize + i else i]? := by
  rw [moved, List.getElem?_take_of_lt inside]
  split
  next front =>
    rw [List.getElem?_append_left (by simp only [length_take, length_drop]; omega),
      List.getElem?_take_of_lt front, List.getElem?_drop]
  next back =>
    rw [List.getElem?_append_right (by simp only [length_take]; omega), List.getElem?_drop]
    congr 1
    simp only [length_take, length_drop]
    omega

variable {fetch : Fetch} {rounds : ℕ}

theorem fetchedEnough_nonempty (fetch : Fetch) {size : ℕ} (nonempty : size ≠ 0) :
    fetch.FetchedEnough false size = none := by
  rw [FetchedEnough, if_neg Bool.false_ne_true, if_neg nonempty]

/-! ## The rounds of the loop -/

variable {gone : Bool}

theorem loop_error {fault : Fault} (fails : fetch.stage gone = .error fault) :
    loop (rounds + 1) fetch gone = .error fault := by
  rw [loop, fails]
  rfl

variable {last : Fetch} {reason : Reason}

theorem loop_over (ends : fetch.stage gone = .ok (.finish reason last)) :
    loop (rounds + 1) fetch gone = .ok (.finish reason last) := by
  rw [loop, ends]
  rfl

variable {after : Fetch}

theorem loop_stays (reads : fetch.stage gone = .ok (.read retsize after))
    (stays : fetch.state = after.state ∨ after.buf.length ≤ retsize) :
    loop (rounds + 1) fetch gone = .ok (.more { after with buf := moved after.buf retsize }) := by
  rw [loop, reads]
  refine if_neg ?_
  rw [Ne, Ne, moved_eq_nil_iff]
  tauto

theorem loop_goes (reads : fetch.stage gone = .ok (.read retsize after))
    (goes : fetch.state ≠ after.state) (left : retsize < after.buf.length) :
    loop (rounds + 1) fetch gone =
      loop rounds { after with buf := moved after.buf retsize } gone := by
  rw [loop, reads]
  refine if_pos ⟨goes, ?_⟩
  rw [Ne, moved_eq_nil_iff]
  omega

/-! ## The stages, with bytes in the buffer -/

section Stages

variable (some : fetch.buf.length ≠ 0)
include some

theorem fetchReply_unended (start : fetch.offset = 0) (unended : headersEnd fetch.buf = 0) :
    fetch.FetchReply false = .ok (if SM_PAGE_SIZE ≤ fetch.buf.length
      then .finish .replyTooBig fetch else .read 0 fetch) := by
  rw [FetchReply, if_neg (not_not_intro start), fetchedEnough_nonempty _ some]
  dsimp only
  rw [if_neg (not_not_intro unended)]
  split <;> rfl

/-- What `peerDigestFetchReply` makes of the status. -/
theorem fetchReply_ended (start : fetch.offset = 0) (ended : headersEnd fetch.buf ≠ 0) :
    fetch.FetchReply false =
      if fetch.status = 0 then .error .assertion
      else if fetch.status = 304 then
        match fetch.old_status with
        | none => .error .assertion
        | Option.some status =>
            if fetch.cd.isSome then
              .ok (.finish .notModified { fetch with status, old_status := none })
            else .ok (.read 0 { fetch with status, old_status := none, state := .headers })
      else if fetch.status = 200 then
        .ok (.read 0 { fetch with old_status := none, state := .headers })
      else .ok (.finish .badStatus fetch) := by
  rw [FetchReply, if_neg (not_not_intro start), fetchedEnough_nonempty _ some]
  exact if_pos ended

theorem swapInHeaders_ended (start : fetch.offset = 0) (ended : headersEnd fetch.buf ≠ 0) :
    fetch.SwapInHeaders false =
      if fetch.status = 0 then .error .assertion
      else if fetch.status ≠ 200 then .ok (.finish .statusError fetch)
      else .ok (.read (headersEnd fetch.buf) { fetch with state := .cblock }) := by
  rw [SwapInHeaders, fetchedEnough_nonempty _ some]
  dsimp only
  rw [if_neg (not_not_intro start), if_pos ended]

theorem swapInCBlock_short (short : fetch.buf.length < StoreDigestCBlockSize) :
    fetch.SwapInCBlock false = .ok (.read 0 fetch) := by
  have small : ¬ SM_PAGE_SIZE ≤ fetch.buf.length := by
    simp only [StoreDigestCBlockSize, SM_PAGE_SIZE] at short ⊢
    omega
  rw [SwapInCBlock, fetchedEnough_nonempty _ some]
  dsimp only
  rw [if_neg (by omega), if_neg small]

theorem swapInCBlock_refused (long : StoreDigestCBlockSize ≤ fetch.buf.length)
    (refused : ¬ (StoreDigestCBlock.read fetch.buf).Accepted) :
    fetch.SwapInCBlock false = .ok (.finish .invalidCBlock fetch) := by
  rw [SwapInCBlock, fetchedEnough_nonempty _ some]
  dsimp only
  rw [if_pos long, peerDigestSetCBlock_refused _ refused]
  rfl

theorem swapInCBlock_accepted (long : StoreDigestCBlockSize ≤ fetch.buf.length)
    (accepted : (StoreDigestCBlock.read fetch.buf).Accepted) : ∃ cd,
      fetch.SwapInCBlock false =
        .ok (.read StoreDigestCBlockSize { fetch with cd := Option.some cd, state := .mask }) ∧
      (cd.mask_size : ℤ) = (StoreDigestCBlock.read fetch.buf).mask_size := by
  obtain ⟨cd, set, size⟩ := peerDigestSetCBlock_accepted fetch.cd accepted
  refine ⟨cd, ?_, size⟩
  rw [SwapInCBlock, fetchedEnough_nonempty _ some]
  dsimp only
  rw [if_pos long, set]
  rfl

/-- The mask is not full yet, or just full. -/
theorem swapInMask_fits {cd : CacheDigest} (held : fetch.cd = Option.some cd)
    (fits : fetch.mask_offset + fetch.buf.length ≤ cd.mask_size) :
    fetch.SwapInMask false =
      if fetch.mask_offset + fetch.buf.length = cd.mask_size then
        .ok (.finish (if peerDigestUseful (cd.memcpy fits) then .success else .useless)
          { fetch with
            cd := Option.some (cd.memcpy fits)
            mask_offset := fetch.mask_offset + fetch.buf.length })
      else .ok (.read fetch.buf.length { fetch with
        cd := Option.some (cd.memcpy fits)
        mask_offset := fetch.mask_offset + fetch.buf.length }) := by
  rw [SwapInMask, held]
  dsimp only
  rw [dif_pos fits, fetchedEnough_nonempty _ some]
  dsimp only
  split
  next full =>
    have all : fetch.mask_offset + fetch.buf.length = (cd.memcpy fits).mask_size := by
      rw [CacheDigest.mask_size_memcpy]
      omega
    rw [if_neg (by omega), if_pos (by omega), FetchedEnough, if_neg Bool.false_ne_true, if_pos rfl]
    dsimp only
    rw [if_neg (not_not_intro all)]
    split <;> split <;> simp_all
  next more => rw [if_neg (by omega)]

omit some in
theorem swapInMask_overruns {cd : CacheDigest} (held : fetch.cd = Option.some cd)
    (beyond : cd.mask_size < fetch.mask_offset + fetch.buf.length) :
    fetch.SwapInMask gone = .error .overrun := by
  rw [SwapInMask, held]
  dsimp only
  rw [dif_neg (by omega)]

end Stages

/-! ## The calls -/

variable {delivery : Delivery}

theorem handleReply_enough (fits : (fetch.buf ++ delivery.data).length ≤ SM_PAGE_SIZE)
    (enough : delivery.gone = true ∨ (fetch.buf ++ delivery.data).length = 0) :
    ∃ reason last, fetch.HandleReply delivery = .ok (.finish reason last) := by
  have ends : ∃ reason, ({ fetch with buf := fetch.buf ++ delivery.data } : Fetch).FetchedEnough
      delivery.gone (fetch.buf ++ delivery.data).length = some reason := by
    rw [FetchedEnough]
    split
    · exact ⟨_, rfl⟩
    · rename_i stays
      rw [if_pos (enough.resolve_left stays)]
      split
      · exact ⟨_, rfl⟩
      · split
        · exact ⟨_, rfl⟩
        · split <;> exact ⟨_, rfl⟩
  obtain ⟨reason, ends⟩ := ends
  refine ⟨reason, { fetch with buf := fetch.buf ++ delivery.data }, ?_⟩
  simp only [HandleReply]
  rw [if_neg (not_lt.mpr fits)]
  simp only [ends]
  rfl

theorem handleReply_eq (fits : (fetch.buf ++ delivery.data).length ≤ SM_PAGE_SIZE)
    (stays : delivery.gone = false) (some : (fetch.buf ++ delivery.data).length ≠ 0) :
    fetch.HandleReply delivery =
      (loop 4 { fetch with buf := fetch.buf ++ delivery.data } false).map fun
        | .more after => .more { after with offset := after.offset + delivery.data.length }
        | .finish reason last => .finish reason last := by
  simp only [HandleReply]
  rw [if_neg (not_lt.mpr fits), stays, fetchedEnough_nonempty _ some]
  cases loop 4 { fetch with buf := fetch.buf ++ delivery.data } false with
  | error fault => rfl
  | ok call => cases call <;> rfl

/-- A call that asks for more has found bytes. -/
theorem loop_of_next (goes : fetch.next delivery = some after) :
    (fetch.buf ++ delivery.data).length ≠ 0 ∧
      ∃ last, loop 4 { fetch with buf := fetch.buf ++ delivery.data } false = .ok (.more last) ∧
        after = { last with offset := last.offset + delivery.data.length } := by
  rw [next] at goes
  by_cases fits : (fetch.buf ++ delivery.data).length ≤ SM_PAGE_SIZE
  swap
  · simp only [HandleReply] at goes
    rw [if_pos (not_le.mp fits)] at goes
    cases goes
  by_cases enough : delivery.gone = true ∨ (fetch.buf ++ delivery.data).length = 0
  · obtain ⟨reason, last, ends⟩ := handleReply_enough fits enough
    rw [ends] at goes
    cases goes
  obtain ⟨stays, some⟩ := not_or.mp enough
  rw [handleReply_eq fits (Bool.eq_false_iff.mpr stays) some] at goes
  refine ⟨some, ?_⟩
  cases done : loop 4 { fetch with buf := fetch.buf ++ delivery.data } false with
  | error fault => rw [done] at goes; cases goes
  | ok call =>
      rw [done] at goes
      cases call with
      | finish reason last => cases goes
      | more last =>
          cases goes
          exact ⟨last, rfl, rfl⟩

/-- A call that ends with the whole mask has found bytes. -/
theorem loop_of_whole (unfilled : ∀ cd, fetch.cd = some cd → fetch.mask_offset ≠ cd.mask_size)
    (ends : fetch.HandleReply delivery = .ok (.finish reason last)) (whole : reason.Whole) :
    (fetch.buf ++ delivery.data).length ≠ 0 ∧
      loop 4 { fetch with buf := fetch.buf ++ delivery.data } false = .ok (.finish reason last) := by
  by_cases fits : (fetch.buf ++ delivery.data).length ≤ SM_PAGE_SIZE
  swap
  · simp only [HandleReply] at ends
    rw [if_pos (not_le.mp fits)] at ends
    cases ends
  by_cases gone : delivery.gone = true
  · simp only [HandleReply, FetchedEnough, gone] at ends
    rw [if_neg (not_lt.mpr fits)] at ends
    cases ends
    cases whole <;> contradiction
  by_cases empty : (fetch.buf ++ delivery.data).length = 0
  · simp only [HandleReply, FetchedEnough, gone, empty] at ends
    rw [if_neg (Nat.not_lt_zero _)] at ends
    cases held : fetch.cd with
    | none =>
        simp only [held] at ends
        cases ends
        cases whole <;> contradiction
    | some cd =>
        simp only [held, unfilled cd held, Ne, not_false_iff, if_true] at ends
        cases ends
        cases whole <;> contradiction
  refine ⟨empty, ?_⟩
  rw [handleReply_eq fits (Bool.eq_false_iff.mpr gone) empty] at ends
  cases done : loop 4 { fetch with buf := fetch.buf ++ delivery.data } false with
  | error fault => rw [done] at ends; cases ends
  | ok call =>
      rw [done] at ends
      cases call with
      | more after => cases ends
      | finish reason last =>
          cases ends
          rfl

/-! ## What becomes of the bytes -/

/-- The bytes that have been stored in a mask of that size. -/
def Call.Stores (call : Call) (got : Bytes) (size : ℤ) : Prop :=
  match call with
  | .more after => after.state = .mask ∧ after.buf = [] ∧ after.mask_offset = got.length ∧
      (got.length : ℤ) < size ∧ ∃ cd, after.cd = some cd ∧ (cd.mask_size : ℤ) = size ∧
        cd.mask.take got.length = got
  | .finish reason last => reason.Whole →
      ∃ cd, last.cd = some cd ∧ (cd.mask_size : ℤ) = size ∧ cd.mask = got

/-- The bytes that have been found from the control block on. -/
def Call.Reads (call : Call) (buf : Bytes) : Prop :=
  if buf.length < StoreDigestCBlockSize then
    match call with
    | .more after => after.state = .cblock ∧ after.buf = buf ∧ after.mask_offset = 0
    | .finish reason _ => ¬ reason.Whole
  else call.Stores (moved buf StoreDigestCBlockSize) (StoreDigestCBlock.read buf).mask_size

theorem Call.reads_finish (broken : ¬ reason.Whole) : (Call.finish reason last).Reads buf := by
  rw [Call.Reads]
  split
  · exact broken
  · exact fun whole => (broken whole).elim

/-- The bytes that have been found from the headers on. -/
def Call.Begins (call : Call) (buf : Bytes) : Prop :=
  if headersEnd buf = 0 then
    match call with
    | .more after => after.state = .reply ∧ after.buf = buf ∧ after.mask_offset = 0
    | .finish reason _ => ¬ reason.Whole
  else call.Reads (moved buf (headersEnd buf))

/-- What has been stored so far. -/
structure Storing (fetch : Fetch) (got : Bytes) (size : ℤ) : Prop where
  at_mask : fetch.state = .mask
  mask_offset : fetch.mask_offset = got.length
  room : (got.length : ℤ) < size
  stored : ∃ cd, fetch.cd = some cd ∧ (cd.mask_size : ℤ) = size ∧ cd.mask.take got.length = got

theorem Storing.call {got : Bytes} {size : ℤ} (storing : Storing fetch got size)
    (some : fetch.buf.length ≠ 0) {call : Call}
    (done : loop (rounds + 1) fetch false = .ok call) : call.Stores (got ++ fetch.buf) size := by
  obtain ⟨at_mask, mask_offset, -, cd, held, sized, stored⟩ := storing
  have stage : fetch.stage false = fetch.SwapInMask false := by rw [stage, at_mask]
  by_cases fits : fetch.mask_offset + fetch.buf.length ≤ cd.mask_size
  swap
  · rw [swapInMask_overruns held (not_le.mp fits)] at stage
    cases (loop_error stage).symm.trans done
  have front : (cd.memcpy fits).mask.take (got ++ fetch.buf).length = got ++ fetch.buf := by
    rw [CacheDigest.mask_memcpy, mask_offset, stored, take_left]
  have size' : ((cd.memcpy fits).mask_size : ℤ) = size := by rw [cd.mask_size_memcpy, sized]
  rw [swapInMask_fits some held fits] at stage
  split at stage
  next full =>
    cases (loop_over stage).symm.trans done
    refine fun _ => ⟨cd.memcpy fits, rfl, size', ?_⟩
    rwa [take_of_length_le] at front
    rw [length_append, ← mask_offset, full]
    exact (cd.mask_size_memcpy fits).le
  next =>
    cases (loop_stays stage (.inl rfl)).symm.trans done
    refine ⟨at_mask, ?_, ?_, ?_, _, rfl, size', front⟩
    · rw [moved_eq_nil_iff]
    · rw [length_append, ← mask_offset]
    · rw [length_append, ← mask_offset, ← sized]
      omega

theorem reads_cblock (some : fetch.buf.length ≠ 0) (at_cblock : fetch.state = .cblock)
    (start : fetch.mask_offset = 0) {call : Call}
    (done : loop (rounds + 2) fetch false = .ok call) : call.Reads fetch.buf := by
  have stage : fetch.stage false = fetch.SwapInCBlock false := by rw [stage, at_cblock]
  unfold Call.Reads
  split
  next short =>
    rw [swapInCBlock_short some short] at stage
    cases (loop_stays stage (.inl rfl)).symm.trans done
    exact ⟨at_cblock, moved_zero _, start⟩
  next long =>
    have long := not_lt.mp long
    by_cases accepted : (StoreDigestCBlock.read fetch.buf).Accepted
    swap
    · rw [swapInCBlock_refused some long accepted] at stage
      cases (loop_over stage).symm.trans done
      exact fun whole => by cases whole <;> contradiction
    obtain ⟨cd, reads, size⟩ := swapInCBlock_accepted some long accepted
    have positive := (accepted.mask_size (StoreDigestCBlock.read_mask_size_lt _)).1
    rw [reads] at stage
    by_cases left : StoreDigestCBlockSize < fetch.buf.length
    · rw [loop_goes stage (by simp [at_cblock]) left] at done
      have begun : Storing { fetch with
          cd := Option.some cd, state := .mask
          buf := moved fetch.buf StoreDigestCBlockSize } [] (StoreDigestCBlock.read fetch.buf).mask_size :=
        ⟨rfl, start, positive, cd, rfl, size, rfl⟩
      have stored := begun.call (by rw [length_moved]; omega) done
      simpa only [List.nil_append] using stored
    · cases (loop_stays stage (.inr (not_lt.mp left))).symm.trans done
      have none : moved fetch.buf StoreDigestCBlockSize = [] :=
        moved_eq_nil_iff.mpr (not_lt.mp left)
      rw [none]
      exact ⟨rfl, rfl, start, positive, cd, rfl, size, rfl⟩

theorem reads_headers (some : fetch.buf.length ≠ 0) (at_headers : fetch.state = .headers)
    (first : fetch.offset = 0) (start : fetch.mask_offset = 0) (ended : headersEnd fetch.buf ≠ 0)
    {call : Call} (done : loop (rounds + 3) fetch false = .ok call) :
    call.Reads (moved fetch.buf (headersEnd fetch.buf)) := by
  have stage : fetch.stage false = fetch.SwapInHeaders false := by rw [stage, at_headers]
  rw [swapInHeaders_ended some first ended] at stage
  split at stage
  · cases (loop_error stage).symm.trans done
  split at stage
  · cases (loop_over stage).symm.trans done
    exact Call.reads_finish fun whole => by cases whole <;> contradiction
  by_cases left : headersEnd fetch.buf < fetch.buf.length
  · rw [loop_goes stage (by simp [at_headers]) left] at done
    have next := @reads_cblock { fetch with
      state := .cblock, buf := moved fetch.buf (headersEnd fetch.buf) } rounds
    exact next (by rw [length_moved]; omega) rfl start done
  · cases (loop_stays stage (.inr (not_lt.mp left))).symm.trans done
    have none : moved fetch.buf (headersEnd fetch.buf) = [] := moved_eq_nil_iff.mpr (not_lt.mp left)
    rw [none]
    exact ⟨rfl, rfl, start⟩

/-- The first call, which has to find all of the headers. -/
theorem begins_reply (some : fetch.buf.length ≠ 0) (at_reply : fetch.state = .reply)
    (start : fetch.mask_offset = 0) {call : Call} (done : loop 4 fetch false = .ok call) :
    fetch.offset = 0 ∧ call.Begins fetch.buf := by
  have stage : fetch.stage false = fetch.FetchReply false := by rw [stage, at_reply]
  by_cases first : fetch.offset = 0
  swap
  · rw [FetchReply, if_pos first] at stage
    cases (loop_error stage).symm.trans done
  refine ⟨first, ?_⟩
  unfold Call.Begins
  split
  next unended =>
    rw [fetchReply_unended some first unended] at stage
    split at stage
    · cases (loop_over stage).symm.trans done
      exact fun whole => by cases whole <;> contradiction
    · cases (loop_stays stage (.inl rfl)).symm.trans done
      exact ⟨at_reply, moved_zero _, start⟩
  next ended =>
    have goes {after : Fetch} (reads : fetch.stage false = .ok (.read 0 after))
        (at_headers : after.state = .headers) (buf : after.buf = fetch.buf)
        (offset : after.offset = 0) (mask_offset : after.mask_offset = 0) :
        call.Reads (moved fetch.buf (headersEnd fetch.buf)) := by
      rw [loop_goes reads (by simp [at_reply, at_headers]) (by rw [buf]; omega), moved_zero]
        at done
      rw [← buf] at some ended ⊢
      exact reads_headers some at_headers offset mask_offset ended done
    rw [fetchReply_ended some first ended] at stage
    split at stage
    · cases (loop_error stage).symm.trans done
    split at stage
    · split at stage
      · cases (loop_error stage).symm.trans done
      split at stage
      · cases (loop_over stage).symm.trans done
        exact Call.reads_finish fun whole => by cases whole <;> contradiction
      · have reads := goes stage (by rfl) (by rfl) (by exact first) (by exact start)
        exact reads
    split at stage
    · have reads := goes stage (by rfl) (by rfl) (by exact first) (by exact start)
      exact reads
    · cases (loop_over stage).symm.trans done
      exact Call.reads_finish fun whole => by cases whole <;> contradiction

end Fetch

/-! ## A reply -/

/-- Some headers. -/
def okHeaders : Bytes :=
  [72, 84, 84, 80, 47, 49, 46, 48, 32, 50, 48, 48, 32, 79, 75, 13, 10, 13, 10]

/-- The control block of a digest of that many bytes, for that many entries of eight bits. -/
def blockOf (size : UInt8) : Bytes :=
  [0, 5, 0, 3, 0, 0, 0, size, 0, 0, 0, 0, 0, 0, 0, 0, 0, 0, 0, size, 8, 4] ++ List.replicate 106 0

end PeerDigest
end Squid
