import Squid.Peer.PeerDigestCalls
import Squid.Library.LabelledRun

/-!
# What a peer can break with its digest

A copy of the mask or an assertion of a stage fails exactly when the headers do not arrive at once,
when the status of the reply is one that nobody expects, or when there are more bytes than the
control block announces.  The bits that are looked up are always inside the mask.
-/

namespace Squid
namespace PeerDigest

open CRuntime

/-! ## What has to fit -/

/-- If a control block at the front of the buffer is accepted, it announces the bytes behind it. -/
def BlockFits (buf : Bytes) : Prop :=
  StoreDigestCBlockSize ≤ buf.length → (StoreDigestCBlock.read buf).Accepted →
    (buf.length : ℤ) ≤ StoreDigestCBlockSize + (StoreDigestCBlock.read buf).mask_size

/-- The status is known, and what is behind the headers of an accepted reply fits. -/
def StatusFits (status : ℕ) (buf : Bytes) : Prop :=
  status ≠ 0 ∧ (status = 200 → BlockFits (Fetch.moved buf (headersEnd buf)))

namespace Fetch

/-- If the headers are all there, they fit; without a change there is an old entry, which takes the
place of the new one unless its digest is still in memory. -/
def ReplyFits (fetch : Fetch) (buf : Bytes) : Prop :=
  headersEnd buf ≠ 0 → StatusFits fetch.status buf ∧
    (fetch.status = 304 → ∃ old, fetch.old_status = some old ∧
      (fetch.cd = none → StatusFits old buf))

/-- What is delivered fits what there is. -/
def Contained (fetch : Fetch) (delivery : Delivery) : Prop :=
  (fetch.buf ++ delivery.data).length ≤ SM_PAGE_SIZE ∧
    (delivery.gone = false → (fetch.buf ++ delivery.data).length ≠ 0 →
      match fetch.state with
      | .reply => fetch.offset = 0 ∧ fetch.ReplyFits (fetch.buf ++ delivery.data)
      | .headers => True
      | .cblock => BlockFits (fetch.buf ++ delivery.data)
      | .mask => ∀ cd, fetch.cd = some cd →
          fetch.mask_offset + (fetch.buf ++ delivery.data).length ≤ cd.mask_size)

/-- No copy and no assertion fails. -/
def Safe (fetch : Fetch) (delivery : Delivery) : Prop := (fetch.HandleReply delivery).isOk = true

/-- What holds between two calls. -/
structure Resting (fetch : Fetch) : Prop where
  headers : fetch.state ≠ .headers
  start : fetch.state ≠ .mask → fetch.mask_offset = 0
  mask : fetch.state = .mask → fetch.cd ≠ none

/-! ## The rounds -/

variable {fetch : Fetch} {rounds : ℕ}

theorem safe_mask (some : fetch.buf.length ≠ 0) (at_mask : fetch.state = .mask) {cd : CacheDigest}
    (held : fetch.cd = Option.some cd) : (loop (rounds + 1) fetch false).isOk = true ↔
      fetch.mask_offset + fetch.buf.length ≤ cd.mask_size := by
  have stage : fetch.stage false = fetch.SwapInMask false := by rw [stage, at_mask]
  by_cases fits : fetch.mask_offset + fetch.buf.length ≤ cd.mask_size
  · refine iff_of_true ?_ fits
    rw [swapInMask_fits some held fits] at stage
    split at stage
    · rw [loop_over stage]
      rfl
    · rw [loop_stays stage (.inl rfl)]
      rfl
  · refine iff_of_false ?_ fits
    rw [swapInMask_overruns held (not_le.mp fits)] at stage
    rw [loop_error stage]
    exact Bool.false_ne_true

theorem safe_cblock (some : fetch.buf.length ≠ 0) (at_cblock : fetch.state = .cblock)
    (start : fetch.mask_offset = 0) :
    (loop (rounds + 2) fetch false).isOk = true ↔ BlockFits fetch.buf := by
  have stage : fetch.stage false = fetch.SwapInCBlock false := by rw [stage, at_cblock]
  by_cases long : StoreDigestCBlockSize ≤ fetch.buf.length
  · by_cases accepted : (StoreDigestCBlock.read fetch.buf).Accepted
    · obtain ⟨cd, reads, size⟩ := swapInCBlock_accepted some long accepted
      rw [reads] at stage
      have positive := (accepted.mask_size (StoreDigestCBlock.read_mask_size_lt _)).1
      by_cases left : StoreDigestCBlockSize < fetch.buf.length
      · rw [loop_goes stage (by simp [at_cblock]) left]
        refine (safe_mask ?_ (by rfl) (by rfl)).trans ?_
        · rw [length_moved]
          exact Nat.sub_ne_zero_of_lt left
        · rw [length_moved, BlockFits]
          simp only [long, accepted, true_imp_iff, start]
          omega
      · rw [loop_stays stage (.inr (not_lt.mp left))]
        refine iff_of_true rfl fun _ _ => ?_
        omega
    · rw [swapInCBlock_refused some long accepted] at stage
      rw [loop_over stage]
      exact iff_of_true rfl fun _ holds => (accepted holds).elim
  · rw [swapInCBlock_short some (not_le.mp long)] at stage
    rw [loop_stays stage (.inl rfl)]
    exact iff_of_true rfl fun holds => (long holds).elim

theorem safe_headers (some : fetch.buf.length ≠ 0) (at_headers : fetch.state = .headers)
    (first : fetch.offset = 0) (start : fetch.mask_offset = 0)
    (ended : headersEnd fetch.buf ≠ 0) :
    (loop (rounds + 3) fetch false).isOk = true ↔ StatusFits fetch.status fetch.buf := by
  have stage : fetch.stage false = fetch.SwapInHeaders false := by rw [stage, at_headers]
  rw [swapInHeaders_ended some first ended] at stage
  rw [StatusFits]
  by_cases unknown : fetch.status = 0
  · rw [if_pos unknown] at stage
    rw [loop_error stage]
    exact iff_of_false Bool.false_ne_true fun fits => fits.1 unknown
  · rw [if_neg unknown] at stage
    by_cases ok : fetch.status = 200
    · rw [if_neg (not_not_intro ok)] at stage
      simp only [ok, true_imp_iff]
      by_cases left : headersEnd fetch.buf < fetch.buf.length
      · rw [loop_goes stage (by simp [at_headers]) left]
        refine (safe_cblock ?_ (by rfl) (by exact start)).trans ?_
        · rw [length_moved]
          exact Nat.sub_ne_zero_of_lt left
        · exact (and_iff_right (by decide)).symm
      · rw [loop_stays stage (.inr (not_lt.mp left))]
        refine iff_of_true rfl ⟨by decide, fun long => ?_⟩
        rw [length_moved, StoreDigestCBlockSize] at long
        omega
    · rw [if_pos ok] at stage
      rw [loop_over stage]
      exact iff_of_true rfl ⟨unknown, fun same => (ok same).elim⟩

theorem safe_reply (some : fetch.buf.length ≠ 0) (at_reply : fetch.state = .reply)
    (start : fetch.mask_offset = 0) :
    (loop 4 fetch false).isOk = true ↔ fetch.offset = 0 ∧ fetch.ReplyFits fetch.buf := by
  have stage : fetch.stage false = fetch.FetchReply false := by rw [stage, at_reply]
  by_cases first : fetch.offset = 0
  swap
  · rw [FetchReply, if_pos first] at stage
    rw [loop_error stage]
    exact iff_of_false Bool.false_ne_true fun fits => first fits.1
  simp only [first, true_and]
  by_cases ended : headersEnd fetch.buf = 0
  · rw [fetchReply_unended some first ended] at stage
    refine iff_of_true ?_ fun not => (not ended).elim
    split at stage
    · rw [loop_over stage]
      rfl
    · rw [loop_stays stage (.inl rfl)]
      rfl
  rw [fetchReply_ended some first ended] at stage
  have goes {after : Fetch} (reads : fetch.stage false = .ok (.read 0 after))
      (at_headers : after.state = .headers) (buf : after.buf = fetch.buf) (offset : after.offset = 0)
      (mask_offset : after.mask_offset = 0) :
      (loop 4 fetch false).isOk = true ↔ StatusFits after.status fetch.buf := by
    rw [loop_goes reads (by simp [at_reply, at_headers]) (by rw [buf]; omega)]
    refine (safe_headers ?_ (by exact at_headers) (by exact offset) (by exact mask_offset) ?_).trans ?_
    · rwa [moved_zero, buf]
    · rwa [moved_zero, buf]
    · rw [moved_zero, buf]
  rw [ReplyFits]
  simp only [Ne, ended, not_false_iff, true_imp_iff]
  by_cases unknown : fetch.status = 0
  · rw [if_pos unknown] at stage
    rw [loop_error stage]
    exact iff_of_false Bool.false_ne_true fun fits => fits.1.1 unknown
  rw [if_neg unknown] at stage
  by_cases unchanged : fetch.status = 304
  · rw [if_pos unchanged] at stage
    have fits : StatusFits 304 fetch.buf := ⟨by decide, fun same => by cases same⟩
    simp only [unchanged, fits, true_imp_iff, true_and]
    cases held : fetch.old_status with
    | none =>
        rw [held] at stage
        rw [loop_error stage]
        exact iff_of_false Bool.false_ne_true fun fits => by simp at fits
    | some old =>
        rw [held] at stage
        simp only [Option.some.injEq, exists_eq_left']
        cases kept : fetch.cd with
        | none =>
            simp only [kept, Option.isSome_none, Bool.false_eq_true, if_false,
              true_imp_iff] at stage ⊢
            exact goes stage (by rfl) (by rfl) (by exact first) (by exact start)
        | some cd =>
            simp only [kept, Option.isSome_some, if_true] at stage
            rw [loop_over stage]
            exact iff_of_true rfl fun absent => by cases absent
  · rw [if_neg unchanged] at stage
    simp only [unchanged, false_imp_iff, and_true]
    by_cases ok : fetch.status = 200
    · rw [if_pos ok] at stage
      have fits := goes stage (by rfl) (by rfl) (by exact first) (by exact start)
      exact fits
    · rw [if_neg ok] at stage
      rw [loop_over stage]
      exact iff_of_true rfl ⟨unknown, fun same => (ok same).elim⟩

/-! ## The calls -/

theorem Resting.safe_iff (resting : Resting fetch) (delivery : Delivery) :
    fetch.Safe delivery ↔ fetch.Contained delivery := by
  rw [Safe, Contained]
  by_cases fits : (fetch.buf ++ delivery.data).length ≤ SM_PAGE_SIZE
  swap
  · refine iff_of_false ?_ fun contained => fits contained.1
    simp only [HandleReply]
    rw [if_pos (not_le.mp fits)]
    exact Bool.false_ne_true
  simp only [fits, true_and]
  by_cases enough : delivery.gone = true ∨ (fetch.buf ++ delivery.data).length = 0
  · obtain ⟨reason, last, ends⟩ := handleReply_enough fits enough
    rw [ends]
    refine iff_of_true rfl fun stays some => ?_
    rcases enough with gone | empty
    · cases stays.symm.trans gone
    · exact (some empty).elim
  obtain ⟨stays, some⟩ := not_or.mp enough
  have stays := Bool.eq_false_iff.mpr stays
  have same : (fetch.HandleReply delivery).isOk =
      (loop 4 { fetch with buf := fetch.buf ++ delivery.data } false).isOk := by
    rw [handleReply_eq fits stays some]
    cases loop 4 { fetch with buf := fetch.buf ++ delivery.data } false <;> rfl
  rw [same]
  simp only [stays, some, Ne, not_false_iff, true_imp_iff]
  split
  next at_reply =>
    have start := resting.start (by rw [at_reply]; decide)
    exact safe_reply some at_reply start
  next at_headers => exact (resting.headers at_headers).elim
  next at_cblock =>
    have start := resting.start (by rw [at_cblock]; decide)
    exact safe_cblock some at_cblock start
  next at_mask =>
    obtain ⟨cd, held⟩ := Option.ne_none_iff_exists'.mp (resting.mask at_mask)
    have safe := @safe_mask { fetch with buf := fetch.buf ++ delivery.data } 3 some at_mask cd held
    refine safe.trans ⟨fun room other same => ?_, fun room => room cd held⟩
    cases held.symm.trans same
    exact room

variable {after : Fetch} {call : Call}

theorem Resting.of_stores {got : Bytes} {size : ℤ} (stores : call.Stores got size)
    (more : call = .more after) : Resting after := by
  subst more
  obtain ⟨at_mask, -, -, -, cd, held, -⟩ := stores
  exact ⟨by rw [at_mask]; decide, fun other => (other at_mask).elim, fun _ => by simp [held]⟩

theorem Resting.of_reads {buf : Bytes} (reads : call.Reads buf) (more : call = .more after) :
    Resting after := by
  unfold Call.Reads at reads
  split at reads
  · subst more
    obtain ⟨at_cblock, -, start⟩ := reads
    exact ⟨by rw [at_cblock]; decide, fun _ => start,
      fun at_mask => by cases at_cblock.symm.trans at_mask⟩
  · exact of_stores reads more

theorem Resting.of_begins {buf : Bytes} (begins : call.Begins buf) (more : call = .more after) :
    Resting after := by
  unfold Call.Begins at begins
  split at begins
  · subst more
    obtain ⟨at_reply, -, start⟩ := begins
    exact ⟨by rw [at_reply]; decide, fun _ => start,
      fun at_mask => by cases at_reply.symm.trans at_mask⟩
  · exact of_reads begins more

theorem Resting.round (resting : Resting fetch) (some : fetch.buf.length ≠ 0) {last : Fetch}
    (done : loop 4 fetch false = .ok (.more last)) : Resting last := by
  cases state : fetch.state with
  | reply =>
      have start := resting.start (by rw [state]; decide)
      exact of_begins (begins_reply some state start done).2 rfl
  | headers => exact (resting.headers state).elim
  | cblock =>
      have start := resting.start (by rw [state]; decide)
      exact of_reads (reads_cblock some state start done) rfl
  | mask =>
      obtain ⟨cd, held⟩ := Option.ne_none_iff_exists'.mp (resting.mask state)
      have stage : fetch.stage false = fetch.SwapInMask false := by rw [stage, state]
      have fits : fetch.mask_offset + fetch.buf.length ≤ cd.mask_size :=
        (@safe_mask fetch 3 some state cd held).mp (by rw [done]; rfl)
      rw [swapInMask_fits some held fits] at stage
      split at stage
      · cases (loop_over stage).symm.trans done
      · cases (loop_stays stage (.inl rfl)).symm.trans done
        exact ⟨resting.headers, fun other => (other state).elim, fun _ absent => by cases absent⟩

theorem Resting.next (resting : Resting fetch) {delivery : Delivery}
    (goes : fetch.next delivery = some after) : Resting after := by
  obtain ⟨some, last, done, rfl⟩ := loop_of_next goes
  have filled : Resting { fetch with buf := fetch.buf ++ delivery.data } :=
    ⟨resting.headers, resting.start, resting.mask⟩
  have kept := filled.round some done
  exact ⟨kept.headers, kept.start, kept.mask⟩

end Fetch

/-! ## Runs -/

/-- The bits of every key are inside the mask. -/
def IndicesFit (cd : CacheDigest) : Prop :=
  ∀ tmp_keys, ∃ hashed_keys, cacheDigestHashKey cd tmp_keys = some hashed_keys ∧
    hashed_keys.length = tmp_keys.length ∧ ∀ bit ∈ hashed_keys, bit < cd.mask_size * 8

theorem indicesFit_of_set {cd : Option CacheDigest} {new : CacheDigest} {buf : Bytes}
    (set : peerDigestSetCBlock cd buf = .ok (some new)) : IndicesFit new := by
  have accepted : (StoreDigestCBlock.read buf).Accepted := by
    by_contra refused
    rw [peerDigestSetCBlock_refused cd refused] at set
    cases set
  obtain ⟨other, same, size⟩ := peerDigestSetCBlock_accepted cd accepted
  cases same.symm.trans set
  obtain ⟨positive, small, -⟩ := accepted.mask_size (StoreDigestCBlock.read_mask_size_lt buf)
  have bits : new.bit_count = new.mask_size * 8 := by
    rw [CacheDigest.bit_count, int32_eq (by omega) (by omega)]
    omega
  intro tmp_keys
  rw [cacheDigestHashKey, bits, if_neg (by omega)]
  refine ⟨_, rfl, List.length_map _, fun bit member => ?_⟩
  obtain ⟨word, -, rfl⟩ := List.mem_map.mp member
  exact Nat.mod_lt _ (by omega)

instance (fetch : Fetch) (delivery : Delivery) : Decidable (fetch.Safe delivery) :=
  inferInstanceAs (Decidable (_ = true))

end PeerDigest
end Squid
