import Squid.Http.HttpReplyStability
import Squid.Http.HttpStateData

/-!
# Replies in pieces

What the job does with the headers of a server, in whatever pieces they come, and what it counts of
them.
-/

namespace Squid

open CRuntime List

/-! ## Headers -/

namespace HttpReply

theorem dropWhile_isPrefix {p : UInt8 → Bool} {s t : Bytes} (start : s <+: t) :
    s.dropWhile p <+: t.dropWhile p := by
  obtain ⟨rest, rfl⟩ := start
  rw [dropWhile_append]
  split
  · next empty =>
      rw [isEmpty_iff.mp empty]
      exact nil_prefix
  · exact prefix_append _ _

/-- The beginning of a checked start line passes the check, or is too short for it. -/
theorem sane_of_prefix (text : StatusText) {buf : Bytes}
    (start : buf <+: ascii "HTTP/" ++ text.bytes) :
    ∃ sane, sanityCheckStartLine {} buf 0 = ({}, sane, 0) := by
  by_cases short : buf.length < 9
  · exact ⟨false, if_pos short⟩
  obtain ⟨rest, rfl⟩ : ascii "HTTP/" <+: buf :=
    prefix_of_prefix_length_le (prefix_append _ _) start (by simp [ascii]; omega)
  have long : 4 ≤ rest.length := by
    rw [length_append] at short
    simp [ascii] at short
    omega
  have part : rest <+: text.bytes := (prefix_append_right_inj _).mp start
  obtain ⟨b, version, eq⟩ := exists_cons_of_ne_nil text.version_ne
  have versions : rest.takeWhile inVersion ≠ [] := by
    obtain ⟨t, whole⟩ := part
    cases rest with
    | nil => exact absurd long (by decide)
    | cons c rest =>
        rw [StatusText.bytes, eq] at whole
        have same : c = b := head_eq_of_cons_eq whole
        rw [same, takeWhile_cons_of_pos (text.inVersion b (by simp [eq]))]
        exact cons_ne_nil _ _
  have behind : (rest.dropWhile inVersion).dropWhile (· == 32) <+: text.digit :: text.reason := by
    have dropped : (text.bytes.dropWhile inVersion).dropWhile (· == 32) =
        text.digit :: text.reason := by
      obtain ⟨spaces, sp⟩ := text.spaces_cons
      have all (c : UInt8) (member : c ∈ text.spaces) : (c == 32) = true :=
        beq_iff_eq.mpr (text.space c member)
      have plain : (text.digit == 32) = false := by
        rw [beq_eq_false_iff_ne]
        rintro digit
        exact absurd (digit ▸ text.isDigit) (by decide)
      have stop : (text.spaces ++ text.digit :: text.reason).dropWhile inVersion =
          text.spaces ++ text.digit :: text.reason := by
        rw [sp, cons_append, dropWhile_cons_of_neg (by decide)]
      rw [StatusText.bytes, dropWhile_append_of_pos text.inVersion, stop,
        dropWhile_append_of_pos all, dropWhile_cons_of_neg (by simp [plain])]
    rw [← dropped]
    exact dropWhile_isPrefix (dropWhile_isPrefix part)
  refine ⟨true, ?_⟩
  rw [sanityCheckStartLine_http long, if_neg versions, checkStatus]
  split
  · next c reason found =>
      rw [found] at behind
      obtain ⟨t, whole⟩ := behind
      have same : c = text.digit := head_eq_of_cons_eq whole
      rw [if_pos (same ▸ text.isDigit)]
  · rfl

end HttpReply

/-- A reply header, as it is parsed on its own. -/
structure ReplyHeader (config : HttpMsgConfig) where
  bytes : Bytes
  reply : HttpReply
  /-- It is one of HTTP. -/
  http : ascii "HTTP/" <+: bytes
  /-- It is text. -/
  plain : 0 ∉ bytes
  /-- It ends with the empty line. -/
  ends : headersEnd bytes = bytes.length
  /-- A buffer can hold it. -/
  small : bytes.length < memBufMaxSize
  /-- It is accepted. -/
  accepted : ∃ parsed, HttpReply.parse config {} ⟨bytes, bytes.length + 1, bytes.length + 1⟩ false =
    .ok parsed ∧ parsed.success = true ∧ parsed.reply = reply

namespace ReplyHeader

variable {config : HttpMsgConfig} (header : ReplyHeader config)

theorem bytes_ne : header.bytes ≠ [] := by
  obtain ⟨rest, eq⟩ := header.http
  rw [← eq]
  exact cons_ne_nil _ _

/-- The buffer with the header alone. -/
def buf : MemBuf := ⟨header.bytes, header.bytes.length + 1, header.bytes.length + 1⟩

theorem readable : HttpReply.Readable header.buf :=
  ⟨Nat.lt_succ_self _, header.small, header.plain⟩

/-- Whatever follows it, the header is parsed as it is alone. -/
theorem parse_append {readBuf : MemBuf} (sized : HttpReply.Sized readBuf) {more : Bytes}
    (content : readBuf.content = header.bytes ++ more) (eof : Bool) :
    ∃ parsed, HttpReply.parse config {} readBuf eof = .ok parsed ∧ parsed.success = true ∧
      parsed.reply = header.reply := by
  obtain ⟨parsed, accepted, success, reply⟩ := header.accepted
  rcases HttpReply.parse_spec config header.readable header.http false with
    ⟨other, failed, no, _⟩ | ⟨result, _, longer⟩
  · cases failed.symm.trans accepted
    rw [success] at no
    cases no
  · have alone := longer header.buf [] false header.readable.sized (List.append_nil _).symm
    refine ⟨parsed, ?_, success, reply⟩
    rw [longer readBuf more eof sized content, ← alone]
    exact accepted

/-- A part of the header has no end. -/
theorem headersEnd_prefix {part : Bytes} (start : part <+: header.bytes)
    (less : part ≠ header.bytes) : headersEnd part = 0 := by
  by_contra found
  obtain ⟨rest, eq⟩ := start
  have whole := header.ends
  rw [← eq, headersEnd_append rest found] at whole
  have within := headersEnd_le part
  rw [length_append] at whole
  have none : rest = [] := length_eq_zero_iff.mp (by omega)
  rw [none, List.append_nil] at eq
  exact less eq

/-- The checks that the header has passed. -/
theorem checked : ∃ text : StatusText, header.bytes = ascii "HTTP/" ++ text.bytes ∧
    header.bytes.length ≤ config.maxReplyHeaderSize := by
  obtain ⟨parsed, accepted, success, _⟩ := header.accepted
  obtain ⟨rest, eq⟩ := header.http
  have found : headersEnd header.bytes ≠ 0 := by
    rw [header.ends, ne_eq, length_eq_zero_iff]
    exact header.bytes_ne
  have line : 10 ∈ rest := by
    obtain ⟨front, mid, tail, split, _⟩ :=
      exists_empty_line (show 72 ∈ header.bytes.head? by rw [← eq]; rfl) rfl found
    have member : 10 ∈ header.bytes := by
      rw [split]
      simp
    rw [← eq, mem_append] at member
    exact member.resolve_left (by decide)
  have room : ¬header.bytes.length + 1 ≤ header.bytes.length := by omega
  unfold HttpReply.parse at accepted
  rw [if_neg room] at accepted
  rcases sane : HttpReply.sanityCheckStartLine {} header.bytes (headersEnd header.bytes) with
    ⟨reply, _ | _, error⟩
  · simp only [sane] at accepted
    cases accepted
    cases success
  · simp only [sane] at accepted
    split at accepted
    · cases accepted
      cases success
    · next fits =>
        rw [not_or, header.ends] at fits
        rw [← eq] at sane
        obtain ⟨_, text, same⟩ := HttpReply.exists_text line sane
        exact ⟨text, by rw [← eq, same], Nat.not_lt.mp fits.1⟩

/-- A part of the header is too short, and nothing is wrong with it. -/
theorem parse_prefix {readBuf : MemBuf} (sized : HttpReply.Sized readBuf)
    (part : readBuf.content <+: header.bytes) (less : readBuf.content ≠ header.bytes) :
    ∃ parsed, HttpReply.parse config {} readBuf false = .ok parsed ∧ parsed.success = false ∧
      parsed.error = 0 := by
  obtain ⟨text, whole, small⟩ := header.checked
  have none := header.headersEnd_prefix part less
  have room : ¬readBuf.capacity ≤ readBuf.content.length := Nat.not_le.mpr sized.terminated
  obtain ⟨sane, checks⟩ := HttpReply.sane_of_prefix text (whole ▸ part)
  have fits : ¬(config.maxReplyHeaderSize < 0 ∨
      True ∧ config.maxReplyHeaderSize < readBuf.content.length) := by
    have shorter := part.length_le
    omega
  unfold HttpReply.parse
  rw [if_neg room]
  simp only [none, checks]
  cases sane with
  | false => exact ⟨_, rfl, rfl, rfl⟩
  | true =>
      dsimp only
      rw [if_neg fits, if_pos trivial]
      exact ⟨_, rfl, rfl, rfl⟩

end ReplyHeader

/-! ## The buffer -/

/-- The buffer of the job, whose size has a limit. -/
structure Room (readBuf : MemBuf) : Prop where
  terminated : readBuf.Terminated
  max_capacity : readBuf.max_capacity = 256 * 1024
  small : readBuf.capacity ≤ readBuf.max_capacity

variable {readBuf : MemBuf}

theorem Room.sized (room : Room readBuf) : HttpReply.Sized readBuf := by
  have small := room.small
  rw [room.max_capacity] at small
  exact ⟨room.terminated, small.trans (by decide)⟩

theorem Room.length_lt (room : Room readBuf) : readBuf.content.length < 256 * 1024 := by
  have small := room.small
  rw [room.max_capacity] at small
  exact Nat.lt_of_lt_of_le room.terminated small

/-- What is left in the buffer has room. -/
theorem Room.shorter (room : Room readBuf) {content : Bytes}
    (shorter : content.length ≤ readBuf.content.length) : Room { readBuf with content } :=
  ⟨Nat.lt_of_le_of_lt shorter room.terminated, room.max_capacity, room.small⟩

theorem Room.append (room : Room readBuf) {bytes : Bytes}
    (fits : readBuf.content.length + bytes.length < readBuf.capacity) :
    Room { readBuf with content := readBuf.content ++ bytes } where
  terminated := by
    rw [← length_append] at fits
    exact fits
  max_capacity := room.max_capacity
  small := room.small

namespace HttpStateData

theorem ok_bind {α β : Type} (a : α) (f : α → Except HttpStateFault β) :
    (Except.ok a >>= f) = f a := rfl

theorem must_true : must true = .ok () := rfl

theorem replyBodySpace_le (small : readBuf.capacity ≤ readBuf.max_capacity) (minSpace : ℕ) :
    replyBodySpace readBuf minSpace ≤ readBuf.potentialSpaceSize := by
  unfold replyBodySpace
  split
  · exact min_le_right _ _
  · exact Nat.sub_le_sub_right small _

/-- A read is scheduled for which there is space, unless there is almost none. -/
theorem maybeReadVirginBody_spec {state : HttpStateData} (room : Room state.readBuf)
    (idle : state.reading = none) :
    ∃ capacity do_next_read reading,
      maybeReadVirginBody { state with do_next_read := true } = .ok { state with
        readBuf := { state.readBuf with capacity }, do_next_read, reading } ∧
      Room { state.readBuf with capacity } ∧
      ∀ n ∈ reading, state.readBuf.content.length + n < capacity := by
  obtain ⟨read_size, size⟩ : ∃ read_size, read_size = replyBodySpace state.readBuf
      (if state.headers_parsed then 0 else 1024) := ⟨_, rfl⟩
  have small := room.small
  have terminated := room.terminated
  unfold MemBuf.Terminated at terminated
  by_cases tight : read_size < 2
  · refine ⟨state.readBuf.capacity, true, none, ?_, room, by simp⟩
    simp only [maybeReadVirginBody, ← size]
    rw [if_pos tight]
    simp only [idle]
    rfl
  · have bound : state.readBuf.content.length + read_size < state.readBuf.max_capacity := by
      have limit := replyBodySpace_le small (if state.headers_parsed then 0 else 1024)
      rw [← size] at limit
      unfold MemBuf.potentialSpaceSize at limit
      omega
    obtain ⟨capacity, space, enough, limited⟩ := MemBuf.space_some bound
      (by rw [room.max_capacity]; decide) small
    refine ⟨capacity, false, some read_size, ?_, ⟨?_, room.max_capacity, limited⟩, ?_⟩
    · simp only [maybeReadVirginBody, ← size]
      rw [if_neg tight]
      simp only [if_true, space, ofMemBuf, ok_bind]
      rfl
    · exact Nat.lt_of_le_of_lt (Nat.le_add_right _ _) enough
    · intro n member
      cases Option.some.inj member
      exact enough

/-! ## Processing the headers -/

/-- Nothing of the reply has been taken over. -/
structure Fresh (state : HttpStateData) : Prop where
  headers_parsed : state.headers_parsed = false
  virginReply : state.virginReply = none
  eof : state.eof = false
  lastChunk : state.lastChunk = false
  truncated : state.body_bytes_truncated = 0
  pending : state.adaptationAccessCheckPending = false
  body : state.virginReplyBody = []
  status : state.status = none
  done : state.done = false
  reading : state.reading = none
  room : Room state.readBuf

variable {config : HttpStateConfig} {state : HttpStateData}

theorem processReplyHeader_prefix (fresh : Fresh state) (header : ReplyHeader config.msg)
    (part : state.readBuf.content <+: header.bytes)
    (less : state.readBuf.content ≠ header.bytes) :
    processReplyHeader config state = .ok state := by
  by_cases empty : state.readBuf.content = []
  · simp only [processReplyHeader, fresh.headers_parsed, empty]
    rfl
  obtain ⟨parsed, eq, failed, error⟩ := header.parse_prefix fresh.room.sized part less
  have isHttp : ¬(5 < state.readBuf.content.length ∧
      state.readBuf.content.take 5 ≠ ascii "HTTP/") := by
    rintro ⟨long, other⟩
    obtain ⟨rest, same⟩ : ascii "HTTP/" <+: state.readBuf.content :=
      prefix_of_prefix_length_le header.http part (by simp [ascii]; omega)
    exact other (by rw [← same]; rfl)
  simp only [processReplyHeader, fresh.headers_parsed, fresh.eof, if_neg empty, eq, ofMessage,
    Bool.not_false, must_true, ok_bind, failed, error, Bool.and_eq_true, decide_eq_true_eq]
  rw [if_neg fun all => isHttp ⟨all.1.1.2, all.1.2⟩]
  rfl

/-- A whole header is taken out of the buffer. -/
theorem processReplyHeader_header (fresh : Fresh state) (header : ReplyHeader config.msg)
    {more : Bytes} (whole : state.readBuf.content = header.bytes ++ more) :
    processReplyHeader config state = processNewReply
      { state with
        readBuf := { state.readBuf with content := more }
        header_bytes_read := header.bytes.length } header.reply := by
  obtain ⟨parsed, eq, success, reply⟩ := header.parse_append fresh.room.sized whole state.eof
  have some : state.readBuf.content ≠ [] := by
    rw [whole]
    exact append_ne_nil_of_left_ne_nil header.bytes_ne more
  have found : headersEnd state.readBuf.content = header.bytes.length := by
    rw [whole, headersEnd_append more (by rw [header.ends]; simp [header.bytes_ne]), header.ends]
  have consumed : state.readBuf.consume header.bytes.length =
      .some { state.readBuf with content := more } := by
    rw [MemBuf.consume, if_pos (by rw [whole]; simp), whole, drop_left]
  have bound := header.small
  unfold memBufMaxSize at bound
  have length : int32 header.bytes.length = header.bytes.length := int32_eq (by omega) (by omega)
  simp only [processReplyHeader, fresh.headers_parsed, if_neg some, eq, ofMessage, Bool.not_false,
    must_true, ok_bind, success, found, consumed, ofMemBuf, length, reply]
  rfl

end HttpStateData

/-! ## What the server sends -/

/-- The header is that of a control message. -/
def ReplyHeader.Control {config : HttpMsgConfig} (header : ReplyHeader config) : Prop :=
  header.reply.sline.protocol = .http ∧ 100 ≤ header.reply.sline.status ∧
    header.reply.sline.status < 200

/-- Control messages, a reply with a body of a known size, and whatever the server sends behind its
header. -/
structure Exchange (config : HttpStateConfig) where
  interim : List (ReplyHeader config.msg)
  final : ReplyHeader config.msg
  after : Bytes
  /-- The size of the body. -/
  clen : ℕ
  /-- Whether the reply says `Connection: close`. -/
  closes : Bool
  /-- Whether the reply is persistent. -/
  keeps : Bool
  control : ∀ header ∈ interim, header.Control
  /-- The final reply is no control message, and its status is none that stands for an error. -/
  status : 200 ≤ final.reply.sline.status ∧ final.reply.sline.status ≠ 600 ∧
    final.reply.sline.status ≠ 601
  chunked : final.reply.header.chunked = .ok false
  bodySize : final.reply.bodySize config = .ok clen
  hasClose : final.reply.header.hasConnDir config.httpViolations (ascii "close") = .ok closes
  persistent : final.reply.persistent config = .ok keeps

namespace Exchange

variable {config : HttpStateConfig} (x : Exchange config)

/-- The size is the length that the header gives, unless the reply cannot have a body. -/
theorem size_spec :
    (x.final.reply.expectBody config = true → x.final.reply.contentLength = .ok x.clen) ∧
      (x.final.reply.expectBody config = false → x.clen = 0) := by
  have size := x.bodySize
  have final := x.status.1
  unfold HttpReply.bodySize at size
  unfold HttpReply.expectBody
  by_cases old : x.final.reply.sline.major < 1
  · rw [if_pos old] at size
    have negative := Except.ok.inj size
    omega
  rw [if_neg old] at size
  by_cases isHead : config.isHead = true
  · rw [if_pos isHead] at size ⊢
    have none := Except.ok.inj size
    exact ⟨by simp, fun _ => by omega⟩
  rw [if_neg isHead] at size ⊢
  have later : ¬x.final.reply.sline.status < 200 := by omega
  rw [if_neg later]
  by_cases noContent : x.final.reply.sline.status = 204
  · rw [noContent] at size ⊢
    have none := Except.ok.inj size
    exact ⟨by simp, fun _ => by omega⟩
  by_cases notModified : x.final.reply.sline.status = 304
  · rw [notModified] at size ⊢
    have none := Except.ok.inj size
    exact ⟨by simp, fun _ => by omega⟩
  rw [if_neg noContent, if_neg notModified]
  rw [if_neg noContent, if_neg notModified, if_neg later, ite_self] at size
  exact ⟨fun _ => size, by simp⟩

theorem expectingBody : x.final.reply.expectingBody config =
    .ok (if x.final.reply.expectBody config then some (x.clen : ℤ) else none) := by
  unfold HttpReply.expectingBody
  by_cases expects : x.final.reply.expectBody config = true
  · have length := x.size_spec.1 expects
    have known : (0 : ℤ) ≤ x.clen := Int.natCast_nonneg x.clen
    rw [if_pos expects, if_pos expects, x.chunked, length]
    simp only [bind, Except.bind, Bool.false_eq_true, if_false, known, if_true]
    rfl
  · rw [if_neg expects, if_neg expects]
    rfl

end Exchange

namespace HttpStateData

variable {config : HttpStateConfig} {state : HttpStateData}

/-- As long as there is no reply, the headers are processed. -/
theorem processReply_fresh (fresh : Fresh state) :
    processReply config state =
      (processReplyHeader config { state with handling1xx := false } >>= fun state =>
        continueAfterParsingHeader state >>= fun result =>
          if result.2 then processReplyBody config
            { result.1 with adaptationAccessCheckPending := config.adaptation }
          else .ok result.1) := by
  have once : must (!state.handling1xx || !state.headers_parsed) = .ok () := by
    rw [fresh.headers_parsed, Bool.not_false, Bool.or_true]
    rfl
  unfold processReply
  rw [once]
  exact if_neg (by rw [fresh.headers_parsed]; exact Bool.false_ne_true)

theorem continueAfterParsingHeader_fresh (fresh : Fresh state)
    (handled : state.handling1xx = false) :
    continueAfterParsingHeader state =
      (maybeReadVirginBody { state with do_next_read := true } >>= fun state =>
        .ok (state, false)) := by
  unfold continueAfterParsingHeader
  rw [if_neg (by rw [handled]; exact Bool.false_ne_true),
    if_pos (by rw [fresh.headers_parsed, fresh.eof]; rfl)]
  rfl

theorem processReply_prefix (fresh : Fresh state) (header : ReplyHeader config.msg)
    (part : state.readBuf.content <+: header.bytes)
    (less : state.readBuf.content ≠ header.bytes) :
    ∃ capacity do_next_read reading, processReply config state = .ok { state with
        readBuf := { state.readBuf with capacity }, do_next_read, reading, handling1xx := false } ∧
      Room { state.readBuf with capacity } ∧
      ∀ n ∈ reading, state.readBuf.content.length + n < capacity := by
  have fresh' : Fresh { state with handling1xx := false } := { fresh with }
  obtain ⟨capacity, do_next_read, reading, eq, room⟩ :=
    @maybeReadVirginBody_spec { state with handling1xx := false } fresh.room fresh.reading
  refine ⟨capacity, do_next_read, reading, ?_, room⟩
  rw [processReply_fresh fresh, processReplyHeader_prefix fresh' header part less, ok_bind,
    continueAfterParsingHeader_fresh fresh' rfl, eq]
  rfl

theorem processNewReply_control (unhandled : state.handling1xx = false)
    {header : ReplyHeader config.msg} (control : header.Control) :
    processNewReply state header.reply = .ok { state with handling1xx := true } := by
  have unhandled : must (!state.handling1xx) = .ok () := by
    rw [unhandled]
    rfl
  unfold processNewReply
  refine (if_pos control).trans ?_
  unfold handle1xx
  rw [unhandled]
  rfl

theorem processNewReply_final (unset : state.virginReply = none) (x : Exchange config) :
    processNewReply state x.final.reply = .ok { state with
      chunked := false, virginReply := some x.final.reply, headers_parsed := true } := by
  have noControl : ¬(x.final.reply.sline.protocol = .http ∧ 100 ≤ x.final.reply.sline.status ∧
      x.final.reply.sline.status < 200) := fun control => by
    have final := x.status.1
    omega
  have unset : must state.virginReply.isNone = .ok () := by
    rw [unset]
    rfl
  have setReply (chunked : Bool) (decoder : Option Chunked.Parser) :
      { state with chunked := chunked, httpChunkDecoder := decoder }.setVirginReply x.final.reply =
        .ok { state with
          chunked := chunked, httpChunkDecoder := decoder
          virginReply := some x.final.reply, headers_parsed := true } := by
    unfold setVirginReply
    change (must state.virginReply.isNone >>= _) = _
    rw [unset]
    rfl
  unfold processNewReply
  rw [if_neg noControl, x.chunked]
  simp only [ofAbort, ok_bind, Bool.false_eq_true, and_false, decide_false, if_false, setReply]

theorem continueAfterParsingHeader_control (handling : state.handling1xx = true)
    (unparsed : state.headers_parsed = false) :
    continueAfterParsingHeader state = .ok (state, false) := by
  have unparsed : must (!state.headers_parsed) = .ok () := by
    rw [unparsed]
    rfl
  unfold continueAfterParsingHeader
  rw [if_pos handling, unparsed]
  rfl

theorem continueAfterParsingHeader_final (handled : state.handling1xx = false)
    (parsed : state.headers_parsed = true) (x : Exchange config)
    (reply : state.virginReply = some x.final.reply) :
    continueAfterParsingHeader state = .ok (state, true) := by
  have noError : ¬(x.final.reply.sline.status = 600 ∧
      ¬(x.final.reply.sline.major = 0 ∧ x.final.reply.sline.minor = 9)) := fun error =>
    x.status.2.1 error.1
  unfold continueAfterParsingHeader
  rw [if_neg (by rw [handled]; exact Bool.false_ne_true), if_neg (by simp [parsed]), if_pos parsed,
    reply]
  exact (if_neg noError).trans (if_neg x.status.2.2)

variable {more : Bytes}

/-- A control message is taken out. -/
theorem processReply_control (fresh : Fresh state) (header : ReplyHeader config.msg)
    (control : header.Control) (whole : state.readBuf.content = header.bytes ++ more) :
    processReply config state = .ok { state with
      readBuf := { state.readBuf with content := more }
      header_bytes_read := header.bytes.length
      handling1xx := true } := by
  have fresh' : Fresh { state with handling1xx := false } := { fresh with }
  rw [processReply_fresh fresh, processReplyHeader_header fresh' header whole,
    processNewReply_control rfl control, ok_bind,
    continueAfterParsingHeader_control rfl (by exact fresh.headers_parsed)]
  rfl

/-- The final reply is taken over. -/
theorem processReply_final (fresh : Fresh state) (x : Exchange config)
    (whole : state.readBuf.content = x.final.bytes ++ more) :
    processReply config state = processReplyBody config { state with
      readBuf := { state.readBuf with content := more }
      header_bytes_read := x.final.bytes.length
      handling1xx := false
      chunked := false
      virginReply := some x.final.reply
      headers_parsed := true
      adaptationAccessCheckPending := config.adaptation } := by
  have fresh' : Fresh { state with handling1xx := false } := { fresh with }
  rw [processReply_fresh fresh, processReplyHeader_header fresh' x.final whole,
    processNewReply_final (by exact fresh.virginReply) x, ok_bind,
    continueAfterParsingHeader_final rfl rfl x rfl]
  rfl

/-! ## Processing the body -/

/-- The reply is there, and nothing of its body has been cut off. -/
structure HasReply (x : Exchange config) (state : HttpStateData) : Prop where
  virginReply : state.virginReply = some x.final.reply
  headers_parsed : state.headers_parsed = true
  chunked : state.chunked = false
  truncated : state.body_bytes_truncated = 0
  room : Room state.readBuf

/-- What the job takes for the number of bytes of the body. -/
def counted (state : HttpStateData) : ℤ := state.reply_bytes_read - state.header_bytes_read

/-- How many bytes are cut off. -/
def extras (x : Exchange config) (state : HttpStateData) : ℕ :=
  if x.final.reply.expectBody config then (state.counted - x.clen).toNat else 0

variable {x : Exchange config}

theorem truncateVirginBody_spec (reply : HasReply x state)
    (within : state.extras x ≤ state.readBuf.content.length) :
    truncateVirginBody config state x.final.reply = .ok { state with
      readBuf := { state.readBuf with
        content := state.readBuf.content.take (state.readBuf.content.length - state.extras x) }
      body_bytes_truncated := state.extras x } := by
  have unchanged (none : state.extras x = 0) : state = { state with
      readBuf := { state.readBuf with
        content := state.readBuf.content.take (state.readBuf.content.length - state.extras x) }
      body_bytes_truncated := state.extras x } := by
    rw [none, Nat.sub_zero, take_length, Nat.cast_zero, ← reply.truncated]
  have parsed : must state.headers_parsed = .ok () := by
    rw [reply.headers_parsed]
    rfl
  unfold truncateVirginBody
  rw [parsed, ok_bind, x.expectingBody]
  by_cases expects : x.final.reply.expectBody config = true
  · rw [if_pos expects]
    have known : ¬(x.clen : ℤ) < 0 := Int.not_lt.mpr (Int.natCast_nonneg x.clen)
    have size : state.extras x = (state.counted - x.clen).toNat := if_pos expects
    simp only [ofAbort, ok_bind, if_neg known, reply.truncated, Int.sub_zero]
    by_cases fits : state.counted ≤ x.clen
    · refine (if_pos fits).trans (congrArg Except.ok (unchanged ?_))
      rw [size]
      omega
    · refine (if_neg fits).trans ?_
      have cut : state.readBuf.truncate (state.counted - x.clen).toNat = some { state.readBuf with
          content := state.readBuf.content.take (state.readBuf.content.length - state.extras x) } := by
        rw [← size]
        exact if_pos within
      have small : int32 (0 + (state.counted - x.clen)) = state.extras x := by
        have bound := reply.room.length_lt
        rw [size] at within ⊢
        rw [int32_eq (by omega) (by omega)]
        omega
      change (ofMemBuf (state.readBuf.truncate (state.counted - x.clen).toNat) >>= _) = _
      rw [cut, ← small]
      rfl
  · rw [if_neg expects]
    exact congrArg Except.ok (unchanged (if_neg expects))

/-- What is passed on of the buffer. -/
def passed (x : Exchange config) (state : HttpStateData) : Bytes :=
  state.readBuf.content.take (state.readBuf.content.length - state.extras x)

theorem writeReplyBody_spec (reply : HasReply x state)
    (within : state.extras x ≤ state.readBuf.content.length) :
    writeReplyBody config state x.final.reply = .ok { state with
      readBuf := { state.readBuf with content := [] }
      virginReplyBody := state.virginReplyBody ++ state.passed x
      body_bytes_truncated := state.extras x } := by
  unfold writeReplyBody
  rw [truncateVirginBody_spec reply within, ok_bind]
  have consumed : MemBuf.consume { state.readBuf with content := state.passed x }
      (state.passed x).length = some { state.readBuf with content := [] } := by
    rw [MemBuf.consume, if_pos (Nat.le_refl _), drop_length]
  change (ofMemBuf (MemBuf.consume { state.readBuf with content := state.passed x }
    (state.passed x).length) >>= _) = _
  rw [consumed]
  rfl

/-- Whether the connection can be used again. -/
def verdict (x : Exchange config) (state : HttpStateData) : ConnectionStatus :=
  if !x.closes && state.keepalive && state.request_sent && x.keeps then .COMPLETE_PERSISTENT_MSG
  else .COMPLETE_NONPERSISTENT_MSG

theorem statusIfComplete_eq (x : Exchange config) (state : HttpStateData) :
    statusIfComplete config state x.final.reply = .ok (state.verdict x) := by
  unfold statusIfComplete verdict
  rw [x.hasClose, x.persistent]
  cases x.closes <;> cases state.keepalive <;> cases state.request_sent <;> cases x.keeps <;> rfl

/-- What `persistentConnStatus` returns. -/
def connStatus (x : Exchange config) (state : HttpStateData) : ConnectionStatus :=
  if state.eof then .COMPLETE_NONPERSISTENT_MSG
  else if 0 < x.clen ∧ state.counted < x.clen then .INCOMPLETE_MSG
  else if 0 < x.clen ∧ 0 < state.body_bytes_truncated then .COMPLETE_NONPERSISTENT_MSG
  else state.verdict x

theorem persistentConnStatus_eq (x : Exchange config) (notChunked : state.chunked = false) :
    persistentConnStatus config state x.final.reply = .ok (state.connStatus x) := by
  unfold persistentConnStatus connStatus
  by_cases eof : state.eof = true
  · rw [if_pos eof, if_pos eof]
    rfl
  rw [if_neg eof, if_neg eof, if_neg (by simp [notChunked]), x.bodySize]
  simp only [ofAbort, ok_bind]
  rw [if_neg (Int.not_lt.mpr (Int.natCast_nonneg x.clen))]
  by_cases none : x.clen = 0
  · rw [if_neg (by omega), if_neg (by omega), if_neg (by omega), statusIfComplete_eq]
  · have expects : x.final.reply.expectBody config = true := by
      by_contra no
      exact none (x.size_spec.2 (Bool.eq_false_iff.mpr no))
    have positive : 0 < x.clen := Nat.pos_of_ne_zero none
    have sum : state.reply_bytes_read - state.header_bytes_read = state.counted := rfl
    rw [if_pos (by omega), x.size_spec.1 expects]
    simp only [ok_bind, sum]
    by_cases fewer : state.counted < x.clen
    · simp only [fewer, positive, and_self, if_true]
      rfl
    by_cases cut : 0 < state.body_bytes_truncated
    · simp only [fewer, cut, positive, and_self, and_false, if_true, if_false]
      rfl
    · simp only [fewer, cut, and_false, if_false]
      exact statusIfComplete_eq x state

end HttpStateData
end Squid
