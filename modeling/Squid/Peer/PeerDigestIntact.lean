import Squid.Peer.PeerDigestCalls

/-!
# Whether a digest arrives as it was sent

Of the bytes that a stage leaves in the buffer only as many are moved to its front as the stage has
read.  So the mask is received as it was sent exactly when the bytes that were not moved happen to be
the ones that should have been there.
-/

namespace Squid
namespace PeerDigest

open CRuntime List

/-! ## What is received -/

/-- The calls up to the one that ends the fetch. -/
inductive Fetch.Ends : Fetch → List Delivery → Reason → Fetch → Prop
  | last {fetch : Fetch} {delivery : Delivery} {reason : Reason} {last : Fetch}
      (ends : fetch.HandleReply delivery = .ok (.finish reason last)) :
      Ends fetch [delivery] reason last
  | more {fetch middle : Fetch} {delivery : Delivery} {deliveries : List Delivery}
      {reason : Reason} {last : Fetch} (goes : fetch.next delivery = some middle)
      (later : Ends middle deliveries reason last) : Ends fetch (delivery :: deliveries) reason last

/-- The buffer when it first holds a control block, and what is delivered later. -/
def gather (buf : Bytes) : List Bytes → Bytes × Bytes
  | [] => (buf, [])
  | segment :: segments =>
      if StoreDigestCBlockSize ≤ buf.length then (buf, segment ++ segments.flatten)
      else gather (buf ++ segment) segments

variable {buf : Bytes}

theorem gather_of_le (long : StoreDigestCBlockSize ≤ buf.length) (segments : List Bytes) :
    gather buf segments = (buf, segments.flatten) := by
  cases segments with
  | nil => rfl
  | cons segment segments => exact if_pos long

theorem gather_of_lt (short : buf.length < StoreDigestCBlockSize) (segment : Bytes)
    (segments : List Bytes) : gather buf (segment :: segments) = gather (buf ++ segment) segments :=
  if_neg (not_le.mpr short)

/-- The mask that has been received: the buffer after the control block, and what came later. -/
def Received (last : Fetch) (parts : Bytes × Bytes) : Prop :=
  StoreDigestCBlockSize ≤ parts.1.length ∧ ∃ cd, last.cd = some cd ∧
    (cd.mask_size : ℤ) = (StoreDigestCBlock.read parts.1).mask_size ∧
    cd.mask = Fetch.moved parts.1 StoreDigestCBlockSize ++ parts.2

namespace Fetch

variable {fetch last : Fetch} {deliveries : List Delivery} {reason : Reason}

theorem unfilled_of_start (start : fetch.mask_offset = 0) (cd : CacheDigest)
    (_ : fetch.cd = some cd) : fetch.mask_offset ≠ cd.mask_size := by
  have sized := cd.sized
  rw [start, CacheDigest.mask_size]
  omega

theorem Storing.ends {got : Bytes} {size : ℤ} (storing : Storing fetch got size)
    (empty : fetch.buf = []) (ends : Ends fetch deliveries reason last) (whole : reason.Whole) :
    ∃ cd, last.cd = some cd ∧ (cd.mask_size : ℤ) = size ∧
      cd.mask = got ++ (deliveries.map Delivery.data).flatten := by
  induction ends generalizing got with
  | @last fetch delivery reason last ends =>
      have unfilled : ∀ cd, fetch.cd = some cd → fetch.mask_offset ≠ cd.mask_size := by
        intro cd held
        obtain ⟨other, same, sized, -⟩ := storing.stored
        cases same.symm.trans held
        have room := storing.room
        rw [storing.mask_offset]
        omega
      obtain ⟨some, done⟩ := loop_of_whole unfilled ends whole
      have filled : Storing { fetch with buf := fetch.buf ++ delivery.data } got size :=
        ⟨storing.at_mask, storing.mask_offset, storing.room, storing.stored⟩
      simpa [empty] using filled.call some done whole
  | @more fetch middle delivery deliveries reason last goes _ ih =>
      obtain ⟨some, after, done, rfl⟩ := loop_of_next goes
      have filled : Storing { fetch with buf := fetch.buf ++ delivery.data } got size :=
        ⟨storing.at_mask, storing.mask_offset, storing.room, storing.stored⟩
      obtain ⟨at_mask, none, mask_offset, room, stored⟩ := filled.call some done
      have received := ih ⟨at_mask, mask_offset, room, stored⟩ none whole
      simpa [empty, List.append_assoc] using received

variable {buf : Bytes}

/-- The last call finds the end of the mask. -/
theorem Call.Reads.received (reads : (Call.finish reason last).Reads buf) (whole : reason.Whole) :
    Received last (buf, []) := by
  rw [Call.Reads] at reads
  split at reads
  · exact (reads whole).elim
  next long =>
    obtain ⟨cd, held, size, mask⟩ := reads whole
    exact ⟨not_lt.mp long, cd, held, size, by rw [mask, List.append_nil]⟩

/-- A call that goes on leaves the control block to be completed, or the mask. -/
theorem Call.Reads.ends_long {after : Fetch} (reads : (Call.more after).Reads buf)
    (long : StoreDigestCBlockSize ≤ buf.length) {offset : ℕ}
    (ends : Ends { after with offset } deliveries reason last) (whole : reason.Whole) :
    Received last (buf, (deliveries.map Delivery.data).flatten) := by
  rw [Call.Reads, if_neg (not_lt.mpr long)] at reads
  obtain ⟨at_mask, none, mask_offset, room, stored⟩ := reads
  have storing : Storing { after with offset } (moved buf StoreDigestCBlockSize)
      (StoreDigestCBlock.read buf).mask_size := ⟨at_mask, mask_offset, room, stored⟩
  exact ⟨long, storing.ends none ends whole⟩

theorem ends_cblock (at_cblock : fetch.state = .cblock) (start : fetch.mask_offset = 0)
    (short : fetch.buf.length < StoreDigestCBlockSize)
    (ends : Ends fetch deliveries reason last) (whole : reason.Whole) :
    Received last (gather fetch.buf (deliveries.map Delivery.data)) := by
  induction ends with
  | @last fetch delivery reason last ends =>
      obtain ⟨some, done⟩ := loop_of_whole (unfilled_of_start start) ends whole
      have reads := @reads_cblock { fetch with buf := fetch.buf ++ delivery.data } 2 some at_cblock
        start _ done
      rw [List.map_singleton, gather_of_lt short]
      exact reads.received whole
  | @more fetch middle delivery deliveries reason last goes later ih =>
      obtain ⟨some, after, done, rfl⟩ := loop_of_next goes
      have reads := @reads_cblock { fetch with buf := fetch.buf ++ delivery.data } 2 some at_cblock
        start _ done
      rw [List.map_cons, gather_of_lt short]
      by_cases longer : StoreDigestCBlockSize ≤ (fetch.buf ++ delivery.data).length
      · rw [gather_of_le longer]
        exact reads.ends_long longer later whole
      · rw [Call.Reads, if_pos (not_le.mp longer)] at reads
        obtain ⟨at_cblock, buf, start⟩ := reads
        have received := ih at_cblock start (by rw [buf]; exact not_le.mp longer) whole
        rwa [buf] at received

/-- Nothing ends well once a part of the headers has been passed. -/
theorem offset_of_ends (at_reply : fetch.state = .reply) (start : fetch.mask_offset = 0)
    (ends : Ends fetch deliveries reason last) (whole : reason.Whole) : fetch.offset = 0 := by
  cases ends with
  | @last _ delivery _ _ ends =>
      obtain ⟨some, done⟩ := loop_of_whole (unfilled_of_start start) ends whole
      exact (@begins_reply { fetch with buf := fetch.buf ++ delivery.data } some at_reply start _
        done).1
  | @more _ middle delivery deliveries _ _ goes later =>
      obtain ⟨some, after, done, -⟩ := loop_of_next goes
      exact (@begins_reply { fetch with buf := fetch.buf ++ delivery.data } some at_reply start _
        done).1

/-- The first delivery holds all of the headers, and the mask is what the rest comes to. -/
theorem ends_request {cd : Option CacheDigest} {status : ℕ} {old_status : Option ℕ}
    (ends : Ends (peerDigestRequest cd status old_status) deliveries reason last)
    (whole : reason.Whole) : ∃ first later, deliveries = first :: later ∧
      headersEnd first.data ≠ 0 ∧
      Received last (gather (moved first.data (headersEnd first.data)) (later.map Delivery.data)) := by
  have start : (peerDigestRequest cd status old_status).mask_offset = 0 := rfl
  have at_reply : (peerDigestRequest cd status old_status).state = .reply := rfl
  have buf : (peerDigestRequest cd status old_status).buf = [] := rfl
  generalize peerDigestRequest cd status old_status = fetch at ends start at_reply buf
  cases ends with
  | @last _ delivery _ _ ends =>
      obtain ⟨some, done⟩ := loop_of_whole (unfilled_of_start start) ends whole
      obtain ⟨-, begins⟩ := @begins_reply { fetch with buf := fetch.buf ++ delivery.data } some at_reply
        start _ done
      simp only [buf, List.nil_append, Call.Begins] at begins
      split at begins
      next => exact (begins whole).elim
      next ended => exact ⟨delivery, [], rfl, ended, begins.received whole⟩
  | @more _ middle delivery deliveries _ _ goes later =>
      obtain ⟨some, after, done, rfl⟩ := loop_of_next goes
      obtain ⟨-, begins⟩ := @begins_reply { fetch with buf := fetch.buf ++ delivery.data } some at_reply
        start _ done
      simp only [buf, List.nil_append, Call.Begins] at begins some
      split at begins
      next =>
        have first := offset_of_ends (by exact begins.1) (by exact begins.2.2) later whole
        dsimp only at first
        omega
      next ended =>
        refine ⟨delivery, deliveries, rfl, ended, ?_⟩
        by_cases long : StoreDigestCBlockSize ≤ (moved delivery.data (headersEnd delivery.data)).length
        · rw [gather_of_le long]
          exact begins.ends_long long later whole
        · rw [Call.Reads, if_pos (not_le.mp long)] at begins
          obtain ⟨at_cblock, same, start⟩ := begins
          rw [← same] at long ⊢
          have received := ends_cblock (by exact at_cblock) (by exact start)
            (by exact not_le.mp long) later whole
          exact received

end Fetch

/-! ## Where the bytes come from -/

/-- How many bytes after the headers the buffer has had when it first holds a control block. -/
def gathered (bytes : ℕ) : List Bytes → ℕ
  | [] => bytes
  | segment :: segments =>
      if StoreDigestCBlockSize ≤ bytes then bytes else gathered (bytes + segment.length) segments

theorem gather_eq (buf : Bytes) (segments : List Bytes) :
    buf.length ≤ gathered buf.length segments ∧
    gathered buf.length segments ≤ buf.length + segments.flatten.length ∧
    gather buf segments = (buf ++ segments.flatten.take (gathered buf.length segments - buf.length),
      segments.flatten.drop (gathered buf.length segments - buf.length)) := by
  induction segments generalizing buf with
  | nil => simp [gather, gathered]
  | cons segment segments ih =>
      by_cases long : StoreDigestCBlockSize ≤ buf.length
      · rw [gather_of_le long, gathered, if_pos long]
        simp
      · obtain ⟨more, less, same⟩ := ih (buf ++ segment)
        rw [length_append] at more less same
        rw [gather_of_lt (not_le.mp long), gathered, if_neg long, same, flatten_cons, length_append]
        refine ⟨by omega, by omega, ?_⟩
        have beyond : gathered (buf.length + segment.length) segments - buf.length =
            segment.length + (gathered (buf.length + segment.length) segments -
              (buf.length + segment.length)) := by omega
        rw [beyond, take_length_add_append, drop_length_add_append, List.append_assoc]

/-- Which byte after the headers stands in a place of the buffer, when `d` bytes came together with
`h` bytes of headers. -/
def source (h d j : ℕ) : ℕ := if h ≤ j ∧ j < d then j - h else j

/-- The control block that is found, in a reply with the bytes `T` after the headers. -/
def foundBlock (h d : ℕ) (T : Bytes) : Bytes :=
  (List.range StoreDigestCBlockSize).map fun j => T.getD (source h d j) 0

/-- The size that is read is that of the mask, and the bytes of the mask that came together with the
end of the control block are those that stand in their places, when `d` bytes came together with the
headers and `b` bytes up to the one that completed the control block. -/
def Undisturbed (h d b : ℕ) (C M : Bytes) : Prop :=
  (StoreDigestCBlock.read (foundBlock h d (C ++ M))).mask_size = M.length ∧
    ∀ i < b - StoreDigestCBlockSize, M[i]? =
      (C ++ M)[source h d (if i < StoreDigestCBlockSize then StoreDigestCBlockSize + i else i)]?

variable {T : Bytes} {d j : ℕ}

/-- The buffer after the headers and later segments, byte by byte. -/
theorem getElem?_moved_append {H later : Bytes} (enough : d ≤ T.length)
    (later_eq : later <+: T.drop d) (inside : j < d + later.length) :
    (Fetch.moved (H ++ T.take d) H.length ++ later)[j]? = T[source H.length d j]? := by
  have length : (Fetch.moved (H ++ T.take d) H.length).length = d := by
    rw [Fetch.length_moved, length_append, length_take]
    omega
  rw [source]
  by_cases front : j < d
  · rw [List.getElem?_append_left (by omega), Fetch.getElem?_moved (by
      rw [length_append, length_take]
      omega)]
    split
    next short =>
      rw [if_neg (by omega), List.getElem?_append_right (by omega), Nat.add_sub_cancel_left,
        List.getElem?_take_of_lt front]
    next long =>
      rw [if_pos ⟨by omega, front⟩, List.getElem?_append_right (by omega),
        List.getElem?_take_of_lt (by omega)]
  · rw [List.getElem?_append_right (by omega), length, if_neg (by omega)]
    obtain ⟨rest, whole⟩ := later_eq
    have at_drop : (T.drop d)[j - d]? = T[j]? := by
      rw [List.getElem?_drop]
      congr 1
      omega
    rw [← at_drop, ← whole, List.getElem?_append_left (by omega)]

theorem ntoh_congr {buf' : Bytes} {off size : ℕ} (same : ∀ j < off + size, buf[j]? = buf'[j]?) :
    ntoh buf off size = ntoh buf' off size := by
  have fields : (buf.drop off).take size = (buf'.drop off).take size := by
    apply ext_getElem?
    intro i
    by_cases inside : i < size
    · rw [List.getElem?_take_of_lt inside, List.getElem?_take_of_lt inside, List.getElem?_drop,
        List.getElem?_drop, same _ (by omega)]
    · rw [List.getElem?_take_eq_none (not_lt.mp inside),
        List.getElem?_take_eq_none (not_lt.mp inside)]
  rw [ntoh, fields, ntoh]

variable {h : ℕ}

theorem getElem?_foundBlock (inside : j < StoreDigestCBlockSize)
    (enough : StoreDigestCBlockSize ≤ T.length) : (foundBlock h d T)[j]? = T[source h d j]? := by
  have bound : source h d j < T.length := by
    rw [source]
    split <;> omega
  rw [foundBlock, List.getElem?_map, List.getElem?_range inside, Option.map_some,
    List.getElem?_eq_getElem bound, getD_eq_getElem?_getD, List.getElem?_eq_getElem bound,
    Option.getD_some]

/-- Little that comes together is undisturbed. -/
theorem undisturbed_of_short {b : ℕ} {C M : Bytes} (block : C.length = StoreDigestCBlockSize)
    (size : (StoreDigestCBlock.read C).mask_size = M.length) (headers : d ≤ h)
    (few : b ≤ 2 * StoreDigestCBlockSize) : Undisturbed h d b C M := by
  have stays (j : ℕ) : source h d j = j := by
    rw [source]
    split <;> omega
  have same : foundBlock h d (C ++ M) = C := by
    apply ext_getElem?
    intro j
    by_cases inside : j < StoreDigestCBlockSize
    · rw [getElem?_foundBlock inside (by rw [length_append]; omega), stays,
        List.getElem?_append_left (by omega)]
    · rw [List.getElem?_eq_none (by simp [foundBlock]; omega), List.getElem?_eq_none (by omega)]
  refine ⟨by rw [same, size], fun i inside => ?_⟩
  rw [if_pos (by omega), stays, List.getElem?_append_right (by omega), block,
    Nat.add_sub_cancel_left]

/-- A mask that has been received whole is the one that was sent if and only if the bytes that came
together with an earlier part are undisturbed. -/
theorem mask_eq_iff_undisturbed {H C M : Bytes} {cd : Option CacheDigest} {status : ℕ}
    {old_status : Option ℕ} {deliveries : List Delivery} {reason : Reason} {last : Fetch}
    (headers : headersEnd H = H.length) (ne : H ≠ []) (block : C.length = StoreDigestCBlockSize)
    (sent : (deliveries.map Delivery.data).flatten <+: H ++ (C ++ M))
    (ends : Fetch.Ends (peerDigestRequest cd status old_status) deliveries reason last)
    (whole : reason.Whole) :
    (∃ digest, last.cd = some digest ∧ digest.mask = M) ↔
      Undisturbed H.length (((deliveries.map Delivery.data).headD []).length - H.length)
        (gathered (((deliveries.map Delivery.data).headD []).length - H.length)
          (deliveries.map Delivery.data).tail) C M := by
  obtain ⟨first, later, rfl, ended, received⟩ := Fetch.ends_request ends whole
  simp only [List.map_cons, flatten_cons, headD_cons, tail_cons] at sent ⊢
  generalize later.map Delivery.data = segments at sent received ⊢
  generalize first.data = first at sent ended received ⊢
  have positive : H.length ≠ 0 := by simpa using ne
  have front : headersEnd first = H.length := by
    obtain ⟨rest, all⟩ := sent
    calc headersEnd first = headersEnd (H ++ (C ++ M)) := by
          rw [← all, List.append_assoc, headersEnd_append _ ended]
      _ = H.length := by rw [headersEnd_append _ (by rwa [headers]), headers]
  rw [front] at received
  have longer : H.length ≤ first.length := front ▸ headersEnd_le first
  -- The stream after the headers, cut where the first segment ends.
  obtain ⟨body, rfl⟩ : ∃ body, first = H ++ body := by
    have prefixes := prefix_of_prefix_length_le (prefix_append H (C ++ M))
      ((prefix_append first _).trans sent) longer
    exact ⟨_, prefixes.choose_spec.symm⟩
  rw [List.append_assoc, prefix_append_right_inj] at sent
  have cut : body = (C ++ M).take body.length :=
    prefix_iff_eq_take.mp ((prefix_append body _).trans sent)
  have rest : segments.flatten <+: (C ++ M).drop body.length := by
    obtain ⟨more, all⟩ := sent
    exact ⟨more, by rw [← all, List.append_assoc, drop_left]⟩
  have enough : body.length ≤ (C ++ M).length := ((prefix_append body _).trans sent).length_le
  have length : (Fetch.moved (H ++ body) H.length).length = body.length := by
    rw [Fetch.length_moved, length_append, Nat.add_sub_cancel_left]
  have parts := gather_eq (Fetch.moved (H ++ body) H.length) segments
  rw [length] at parts
  rw [length_append, Nat.add_sub_cancel_left]
  generalize gathered body.length segments = b at parts ⊢
  obtain ⟨more, less, parts⟩ := parts
  rw [parts] at received
  -- What the buffer holds when the control block is complete.
  have found_length : (Fetch.moved (H ++ body) H.length ++
      segments.flatten.take (b - body.length)).length = b := by
    rw [length_append, length, length_take]
    omega
  have found_bytes : ∀ j < b, (Fetch.moved (H ++ body) H.length ++
      segments.flatten.take (b - body.length))[j]? = (C ++ M)[source H.length body.length j]? := by
    intro j inside
    have bytes := getElem?_moved_append enough ((List.take_prefix (b - body.length) _).trans rest)
      (H := H) (j := j) (by rw [length_take]; omega)
    rwa [← cut] at bytes
  generalize Fetch.moved (H ++ body) H.length ++
    segments.flatten.take (b - body.length) = buf at received found_length found_bytes
  obtain ⟨long, digest, held, size, mask⟩ := received
  dsimp only at long size mask
  have whole_block : StoreDigestCBlockSize ≤ (C ++ M).length := by
    rw [length_append, block]
    exact Nat.le_add_right _ _
  have announced : (StoreDigestCBlock.read buf).mask_size =
      (StoreDigestCBlock.read (foundBlock H.length body.length (C ++ M))).mask_size := by
    simp only [StoreDigestCBlock.read]
    rw [ntoh_congr fun j inside => ?_]
    have inside : j < StoreDigestCBlockSize := by
      rw [StoreDigestCBlockSize]
      omega
    rw [getElem?_foundBlock inside whole_block, found_bytes j (by omega)]
  have stored : ∀ i < b - StoreDigestCBlockSize, digest.mask[i]? = (C ++ M)[source H.length
      body.length (if i < StoreDigestCBlockSize then StoreDigestCBlockSize + i else i)]? := by
    intro i inside
    rw [mask, List.getElem?_append_left (by rw [Fetch.length_moved]; omega),
      Fetch.getElem?_moved (by omega), found_bytes]
    split <;> omega
  have present : (∃ other, last.cd = some other ∧ other.mask = M) ↔ digest.mask = M := by
    simp [held]
  rw [present]
  constructor
  · rintro rfl
    refine ⟨?_, stored⟩
    rw [← announced, ← size, CacheDigest.mask_size]
  · rintro ⟨same, undisturbed⟩
    have lengths : digest.mask.length = M.length := by
      rw [announced, same, CacheDigest.mask_size] at size
      exact_mod_cast size
    apply ext_getElem?
    intro i
    by_cases early : i < b - StoreDigestCBlockSize
    · rw [stored i early, undisturbed i early]
    -- The later segments have not been moved.
    by_cases inside : i < M.length
    swap
    · rw [List.getElem?_eq_none (by omega), List.getElem?_eq_none (by omega)]
    have total := congrArg List.length mask
    rw [length_append, Fetch.length_moved, length_drop] at total
    have place : (C ++ M)[StoreDigestCBlockSize + i]? = M[i]? := by
      rw [List.getElem?_append_right (by omega), block, Nat.add_sub_cancel_left]
    obtain ⟨beyond, all⟩ := rest
    rw [← place, mask, List.getElem?_append_right (by rw [Fetch.length_moved]; omega),
      Fetch.length_moved, List.getElem?_drop]
    have tail : ((C ++ M).drop body.length)[StoreDigestCBlockSize + i - body.length]? =
        (C ++ M)[StoreDigestCBlockSize + i]? := by
      have index : body.length + (StoreDigestCBlockSize + i - body.length) =
          StoreDigestCBlockSize + i := by omega
      rw [List.getElem?_drop, index]
    have index : b - body.length + (i - (b - StoreDigestCBlockSize)) =
        StoreDigestCBlockSize + i - body.length := by omega
    rw [← tail, ← all, List.getElem?_append_left (by omega), found_length, index]

/-- How a call ends, and the mask that it leaves. -/
def maskAtEnd : Except Fault Fetch.Call → Option (Reason × Option Bytes)
  | .ok (.finish reason last) => some (reason, last.cd.map CacheDigest.mask)
  | _ => none

variable {mask : Bytes} {reason : Reason}

theorem of_maskAtEnd {outcome : Except Fault Fetch.Call}
    (ends : maskAtEnd outcome = some (reason, some mask)) :
    ∃ last digest, outcome = .ok (.finish reason last) ∧ last.cd = some digest ∧
      digest.mask = mask := by
  match outcome with
  | .ok (.finish _ last) =>
      obtain ⟨rfl, kept⟩ := Prod.mk.inj (Option.some.inj ends)
      obtain ⟨digest, held, same⟩ := Option.map_eq_some_iff.mp kept
      exact ⟨last, digest, rfl, held, same⟩

/-- How a run ends, and the mask that it leaves. -/
def maskOfRun (fetch : Fetch) : List Delivery → Option (Reason × Option Bytes)
  | [] => none
  | [delivery] => maskAtEnd (fetch.HandleReply delivery)
  | delivery :: deliveries => (fetch.next delivery).bind fun after => maskOfRun after deliveries

theorem of_maskOfRun {fetch : Fetch} {deliveries : List Delivery}
    (ends : maskOfRun fetch deliveries = some (reason, some mask)) :
    ∃ last digest, fetch.Ends deliveries reason last ∧ last.cd = some digest ∧
      digest.mask = mask := by
  induction deliveries generalizing fetch with
  | nil => cases ends
  | cons delivery deliveries ih =>
      cases deliveries with
      | nil =>
          obtain ⟨last, digest, finished, held, same⟩ := of_maskAtEnd ends
          exact ⟨last, digest, .last finished, held, same⟩
      | cons second deliveries =>
          obtain ⟨after, goes, later⟩ := Option.bind_eq_some_iff.mp ends
          obtain ⟨last, digest, finished, held, same⟩ := ih later
          exact ⟨last, digest, .more goes finished, held, same⟩

/-- Long headers. -/
def longHeaders : Bytes :=
  okHeaders.take 17 ++ [88, 58, 32] ++ List.replicate 330 97 ++ [13, 10, 13, 10]

/-- A mask of two hundred bytes. -/
def longMask : Bytes := List.replicate 128 1 ++ List.replicate 72 2

/-- When all of it comes at once, the end of the mask is not the one that was sent. -/
theorem not_intact_longMask : ∃ last digest, Fetch.Ends (peerDigestRequest none 200 none)
    [{ data := longHeaders ++ (blockOf 200 ++ longMask) }] .success last ∧
    headersEnd longHeaders = longHeaders.length ∧ (StoreDigestCBlock.read (blockOf 200)).Accepted ∧
    (StoreDigestCBlock.read (blockOf 200)).mask_size = longMask.length ∧
    last.cd = some digest ∧ digest.mask ≠ longMask := by
  have ends : maskOfRun (peerDigestRequest none 200 none)
      [{ data := longHeaders ++ (blockOf 200 ++ longMask) }] =
        some (.success, some (List.replicate 200 1)) := by decide +kernel
  obtain ⟨last, digest, finished, held, mask⟩ := of_maskOfRun ends
  refine ⟨last, digest, finished, by decide +kernel, by decide +kernel, by decide +kernel, held, ?_⟩
  rw [mask]
  decide

/-- A small digest in three parts. -/
def smallDeliveries : List Delivery := [{ data := okHeaders }, { data := blockOf 1 },
    { data := [7] }]

theorem intact_smallDeliveries : ∃ last, Fetch.Ends (peerDigestRequest none 200 none)
    smallDeliveries .success last ∧ ∃ digest, last.cd = some digest ∧ digest.mask = [7] := by
  have ends : maskOfRun (peerDigestRequest none 200 none) smallDeliveries =
      some (.success, some [7]) := by decide +kernel
  obtain ⟨last, digest, finished, held, mask⟩ := of_maskOfRun ends
  refine ⟨last, finished, ?_⟩
  have sent : (smallDeliveries.map Delivery.data).flatten <+: okHeaders ++ (blockOf 1 ++ [7]) := by
    decide +kernel
  refine (mask_eq_iff_undisturbed (by decide +kernel) (by decide) (by decide +kernel) sent finished
    (.inl rfl)).mpr ?_
  exact undisturbed_of_short (by decide +kernel) (by decide +kernel) (by decide +kernel)
    (by decide +kernel)

end PeerDigest
end Squid
