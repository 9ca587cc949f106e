import Squid.Http.HttpStateFraming

/-!
# Runs over a connection

Where the job is after any events, what it has counted and what it has passed on: the counters start
again after a control message, whatever has been read behind it.
-/

namespace Squid

open CRuntime List

/-! ## What has been received -/

namespace HttpStateData

/-- The bytes of the server. -/
def received : List Event → Bytes
  | [] => []
  | .read bytes :: events => bytes ++ received events
  | _ :: events => received events

/-- How far the read that brings the first `n` bytes goes beyond them. -/
def behind : ℕ → List Event → ℕ
  | 0, _ => 0
  | _ + 1, [] => 0
  | n + 1, .read bytes :: events =>
      if bytes.length ≤ n then behind (n + 1 - bytes.length) events else bytes.length - (n + 1)
  | n + 1, _ :: events => behind (n + 1) events

@[simp]
theorem behind_zero (events : List Event) : behind 0 events = 0 := by
  cases events <;> rfl

theorem received_append (front back : List Event) :
    received (front ++ back) = received front ++ received back := by
  induction front with
  | nil => rfl
  | cons event front ih =>
      cases event with
      | read bytes => simp only [cons_append, received, ih, List.append_assoc]
      | _ => exact ih

/-- The event brings no bytes. -/
def Event.Silent : Event → Prop
  | .read _ => False
  | _ => True

variable {event : Event}

theorem received_silent (past : List Event) (silent : event.Silent) :
    received (past ++ [event]) = received past := by
  rw [received_append]
  cases event with
  | read bytes => cases silent
  | _ => exact List.append_nil _

theorem received_read (past : List Event) (bytes : Bytes) :
    received (past ++ [.read bytes]) = received past ++ bytes := by
  rw [received_append]
  exact congrArg (received past ++ ·) (List.append_nil bytes)

theorem behind_silent (n : ℕ) (past : List Event) (silent : event.Silent) :
    behind n (past ++ [event]) = behind n past := by
  induction past generalizing n with
  | nil =>
      cases n with
      | zero => rw [behind_zero, behind_zero]
      | succ n =>
          cases event with
          | read bytes => cases silent
          | _ => rfl
  | cons first past ih =>
      cases n with
      | zero => rw [behind_zero, behind_zero]
      | succ n =>
          cases first with
          | read bytes =>
              simp only [cons_append, behind]
              rw [ih]
          | _ => exact ih (n + 1)

theorem behind_read (n : ℕ) (past : List Event) (bytes : Bytes) :
    behind n (past ++ [.read bytes]) =
      if n ≤ (received past).length then behind n past
      else (received past).length + bytes.length - n := by
  induction past generalizing n with
  | nil =>
      cases n with
      | zero => simp
      | succ n =>
          simp only [List.nil_append, behind, received, length_nil, Nat.zero_add]
          rw [if_neg (show ¬n + 1 ≤ 0 by omega)]
          split
          · next within =>
              have none : bytes.length - (n + 1) = 0 := by omega
              rw [none]
              cases n + 1 - bytes.length <;> rfl
          · rfl
  | cons first past ih =>
      cases n with
      | zero => simp
      | succ n =>
          cases first with
          | read first =>
              simp only [cons_append, behind, received, length_append, ih]
              by_cases within : first.length ≤ n
              · rw [if_pos within, if_pos within]
                split <;> split <;> omega
              · rw [if_neg within, if_neg within, if_pos (by omega)]
          | _ => exact ih (n + 1)

/-- Nothing is behind what has not been received. -/
theorem behind_of_lt {n : ℕ} {past : List Event} (less : (received past).length < n) :
    behind n past = 0 := by
  induction past generalizing n with
  | nil => cases n <;> rfl
  | cons first past ih =>
      cases n with
      | zero => rfl
      | succ n =>
          cases first with
          | read bytes =>
              simp only [received, length_append] at less
              simp only [behind]
              rw [if_pos (by omega)]
              exact ih (by omega)
          | _ => exact ih less

/-- What the read brings of the next bytes is not behind them. -/
theorem behind_add (n m : ℕ) (past : List Event) (within : m ≤ behind n past) :
    behind (n + m) past = behind n past - m := by
  induction past generalizing n with
  | nil =>
      cases n with
      | zero =>
          rw [behind_zero] at within
          rw [Nat.le_zero.mp within, Nat.sub_zero]
      | succ n =>
          have none : m = 0 := Nat.le_zero.mp within
          rw [none, Nat.sub_zero]
  | cons first past ih =>
      cases n with
      | zero =>
          rw [behind_zero] at within
          rw [Nat.le_zero.mp within, Nat.sub_zero]
      | succ n =>
          rw [Nat.add_right_comm]
          cases first with
          | read bytes =>
              simp only [behind] at within ⊢
              by_cases whole : bytes.length ≤ n
              · rw [if_pos whole] at within ⊢
                rw [if_pos (by omega), ← ih _ within]
                congr 1
                omega
              · rw [if_neg whole] at within ⊢
                by_cases all : bytes.length ≤ n + m
                · have none : n + m + 1 - bytes.length = 0 := by omega
                  rw [if_pos all, none, behind_zero]
                  omega
                · rw [if_neg all]
                  omega
          | _ =>
              have later := ih (n + 1) within
              rw [Nat.add_right_comm] at later
              exact later

end HttpStateData

/-! ## What is sent -/

/-- The bytes of headers. -/
def bytesOf {config : HttpMsgConfig} (headers : List (ReplyHeader config)) : Bytes :=
  headers.flatMap ReplyHeader.bytes

variable {config : HttpMsgConfig}

theorem bytesOf_append (front back : List (ReplyHeader config)) :
    bytesOf (front ++ back) = bytesOf front ++ bytesOf back := flatMap_append

theorem bytesOf_snoc (front : List (ReplyHeader config)) (header : ReplyHeader config) :
    bytesOf (front ++ [header]) = bytesOf front ++ header.bytes := by
  rw [bytesOf_append, bytesOf, bytesOf, flatMap_singleton]

namespace Exchange

variable {config : HttpStateConfig} (x : Exchange config)

def headers : List (ReplyHeader config.msg) := x.interim ++ [x.final]

/-- Where the control messages end. -/
def interimLength : ℕ := (bytesOf x.interim).length

/-- Where the body begins. -/
def headersLength : ℕ := (bytesOf x.headers).length

def stream : Bytes := bytesOf x.headers ++ x.after

variable {x} in
theorem headersLength_split {front back : List (ReplyHeader config.msg)}
    {header : ReplyHeader config.msg} (split : x.headers = front ++ header :: back) :
    x.headersLength =
      (bytesOf front).length + (header.bytes.length + (bytesOf back).length) := by
  rw [headersLength, split, bytesOf_append, length_append, bytesOf, bytesOf,
    flatMap_cons, length_append]
  rfl

/-- The server sends nothing else, and it sends the headers before it closes the connection. -/
structure Serves (events : List HttpStateData.Event) : Prop where
  stream : HttpStateData.received events <+: x.stream
  eof : ∀ front back, events = front ++ .eof :: back →
    x.headersLength ≤ (HttpStateData.received front).length

variable {x}

theorem Serves.front {front back : List HttpStateData.Event} (serves : x.Serves (front ++ back)) :
    x.Serves front where
  stream := by
    refine List.IsPrefix.trans ?_ serves.stream
    rw [HttpStateData.received_append]
    exact prefix_append _ _
  eof first rest eq := serves.eof first (rest ++ back) (by rw [eq]; simp)

theorem Serves.of_noEof {events : List HttpStateData.Event}
    (stream : HttpStateData.received events <+: x.stream) (noEof : .eof ∉ events) :
    x.Serves events where
  stream := stream
  eof front back eq := absurd (by rw [eq]; simp) noEof

end Exchange

namespace HttpStateData

/-! ## Evaluating the body -/

variable {config : HttpStateConfig} {x : Exchange config} {state : HttpStateData}

/-- The state behind `writeReplyBody`. -/
def written (x : Exchange config) (state : HttpStateData) : HttpStateData :=
  { state with
    readBuf := { state.readBuf with content := [] }
    virginReplyBody := state.virginReplyBody ++ state.passed x
    body_bytes_truncated := state.extras x }

theorem processReplyBody_eq (reply : HasReply x state)
    (checked : state.adaptationAccessCheckPending = false)
    (within : state.extras x ≤ state.readBuf.content.length) :
    processReplyBody config state = afterReplyBody config (state.written x) x.final.reply := by
  unfold processReplyBody
  rw [reply.virginReply, reply.headers_parsed]
  simp only [checked, reply.chunked, Bool.false_eq_true, if_false]
  rw [writeReplyBody_spec reply within]
  rfl

theorem afterReplyBody_eq (notChunked : state.chunked = false) :
    afterReplyBody config state x.final.reply =
      match state.connStatus x with
      | .INCOMPLETE_MSG => maybeReadVirginBody
          { state with status := some .INCOMPLETE_MSG, do_next_read := true }
      | .COMPLETE_PERSISTENT_MSG => .ok { state with
          status := some .COMPLETE_PERSISTENT_MSG, do_next_read := false, done := true }
      | .COMPLETE_NONPERSISTENT_MSG => .ok { state with
          status := some .COMPLETE_NONPERSISTENT_MSG, done := true } := by
  unfold afterReplyBody
  rw [persistentConnStatus_eq x notChunked, ok_bind]
  cases state.connStatus x <;> rfl

/-- More is to be read. -/
theorem processReplyBody_incomplete (reply : HasReply x state)
    (checked : state.adaptationAccessCheckPending = false)
    (within : state.extras x ≤ state.readBuf.content.length) (idle : state.reading = none)
    (incomplete : (state.written x).connStatus x = .INCOMPLETE_MSG) :
    ∃ capacity do_next_read reading,
      processReplyBody config state = .ok { state.written x with
        readBuf := { state.readBuf with content := [], capacity }
        do_next_read, reading, status := some .INCOMPLETE_MSG } ∧
      Room { state.readBuf with content := [], capacity } ∧
      ∀ n ∈ reading, n < capacity := by
  have room : Room { state.readBuf with content := [] } := reply.room.shorter (Nat.zero_le _)
  obtain ⟨capacity, do_next_read, reading, eq, spacious, space⟩ :=
    @maybeReadVirginBody_spec { state.written x with status := some .INCOMPLETE_MSG } room idle
  refine ⟨capacity, do_next_read, reading, ?_, spacious, fun n member => ?_⟩
  · rw [processReplyBody_eq reply checked within, afterReplyBody_eq (by exact reply.chunked),
      incomplete]
    exact eq
  · have fits := space n member
    rwa [show (written x state).readBuf.content.length = 0 from rfl, Nat.zero_add] at fits

/-- The reply is complete, or the connection has gone. -/
theorem processReplyBody_complete (reply : HasReply x state)
    (checked : state.adaptationAccessCheckPending = false)
    (within : state.extras x ≤ state.readBuf.content.length)
    (complete : (state.written x).connStatus x ≠ .INCOMPLETE_MSG) :
    ∃ do_next_read, processReplyBody config state = .ok { state.written x with
      do_next_read, status := some ((state.written x).connStatus x), done := true } := by
  rw [processReplyBody_eq reply checked within, afterReplyBody_eq (by exact reply.chunked)]
  cases conn : (state.written x).connStatus x with
  | INCOMPLETE_MSG => exact absurd conn complete
  | COMPLETE_PERSISTENT_MSG => exact ⟨false, rfl⟩
  | COMPLETE_NONPERSISTENT_MSG => exact ⟨state.do_next_read, rfl⟩

/-! ## Where the job is -/

/-- The body, as far as it has been received. -/
def bodyOf (x : Exchange config) (past : List Event) : Bytes :=
  (received past).drop x.headersLength

/-- The job is reading a header, behind the headers that it has taken. -/
structure AtHeader (front : List (ReplyHeader config.msg)) (header : ReplyHeader config.msg)
    (past : List Event) (state : HttpStateData) : Prop where
  fresh : Fresh { state with reading := none }
  unhandled : state.handling1xx = false
  content : received past = bytesOf front ++ state.readBuf.content
  part : state.readBuf.content.length < header.bytes.length
  counts : state.reply_bytes_read =
    state.readBuf.content.length - behind (bytesOf front).length past
  space : ∀ n ∈ state.reading, state.readBuf.content.length + n < state.readBuf.capacity

variable {back front : List (ReplyHeader config.msg)} {header : ReplyHeader config.msg}
  {past : List Event}

/-- Some header is still missing. -/
theorem AtHeader.received_lt (here : AtHeader front header past state)
    (split : x.headers = front ++ header :: back) : (received past).length < x.headersLength := by
  have part := here.part
  rw [Exchange.headersLength_split split, here.content, length_append]
  omega

/-- The last of the headers is a control message, which is being forwarded. -/
structure AtControl (front : List (ReplyHeader config.msg)) (past : List Event)
    (state : HttpStateData) : Prop where
  fresh : Fresh state
  handling : state.handling1xx = true
  content : received past = bytesOf front ++ state.readBuf.content
  latest : behind (bytesOf front).length past = state.readBuf.content.length

/-- The reply is there, and what has come of its body is in the buffer or was passed on. -/
structure Arrived (x : Exchange config) (past : List Event) (state : HttpStateData) : Prop where
  reply : HasReply x state
  idle : state.reading = none
  unhandled : state.handling1xx = false
  eof : state.eof = false
  content : received past = bytesOf x.headers ++ (state.virginReplyBody ++ state.readBuf.content)
  counts : state.counted =
    (state.virginReplyBody ++ state.readBuf.content).length - behind x.interimLength past
  /-- All of it has come with the header, or a part of it was not enough. -/
  first : state.virginReplyBody = [] ∧ behind x.headersLength past = state.readBuf.content.length ∨
    0 < x.clen ∧ state.virginReplyBody.length < x.clen + behind x.interimLength past

/-- The job is reading the body. -/
structure AtBody (x : Exchange config) (past : List Event) (state : HttpStateData) : Prop where
  reply : HasReply x state
  unhandled : state.handling1xx = false
  checked : state.adaptationAccessCheckPending = false
  eof : state.eof = false
  empty : state.readBuf.content = []
  content : received past = bytesOf x.headers ++ state.virginReplyBody
  counts : state.counted = state.virginReplyBody.length - behind x.interimLength past
  positive : 0 < x.clen
  fewer : state.virginReplyBody.length < x.clen + behind x.interimLength past
  status : state.status = some .INCOMPLETE_MSG
  space : ∀ n ∈ state.reading, n < state.readBuf.capacity

/-- What has become of the reply. -/
inductive Outcome (x : Exchange config) (past : List Event) (state : HttpStateData) : Prop
  /-- There were enough bytes. -/
  | filled (noEof : .eof ∉ past) (positive : 0 < x.clen)
      (enough : x.clen + behind x.interimLength past ≤ (bodyOf x past).length)
      (body : state.virginReplyBody =
        (bodyOf x past).take (x.clen + behind x.interimLength past))
      (status : state.status = some
        (if x.clen + behind x.interimLength past < (bodyOf x past).length then
          .COMPLETE_NONPERSISTENT_MSG else state.verdict x))
  /-- There is no body. -/
  | bodiless (noEof : .eof ∉ past) (none : x.clen = 0)
      (length : (bodyOf x past).length = behind x.headersLength past)
      (body : state.virginReplyBody = if x.final.reply.expectBody config then
        (bodyOf x past).take (behind x.interimLength past) else bodyOf x past)
      (status : state.status = some (state.verdict x))
  /-- The server has closed the connection. -/
  | cut (atEof : .eof ∈ past) (positive : 0 < x.clen)
      (fewer : (bodyOf x past).length < x.clen + behind x.interimLength past)
      (body : state.virginReplyBody = bodyOf x past)
      (status : state.status = some .COMPLETE_NONPERSISTENT_MSG)

/-- The job is done. -/
structure AtEnd (x : Exchange config) (past : List Event) (state : HttpStateData) : Prop where
  idle : state.reading = none
  unhandled : state.handling1xx = false
  checked : state.adaptationAccessCheckPending = false
  done : state.done = true
  received : bytesOf x.headers <+: received past
  outcome : Outcome x past state

/-- What the connection is kept for. -/
def terms (state : HttpStateData) : Bool × Bool := (state.keepalive, state.request_sent)

/-- Where the job is after these events. -/
inductive Phase (x : Exchange config) (past : List Event) (state : HttpStateData) : Prop
  | header (noEof : .eof ∉ past) {front back : List (ReplyHeader config.msg)}
      {header : ReplyHeader config.msg} (split : x.headers = front ++ header :: back)
      (here : AtHeader front header past state)
  | control (noEof : .eof ∉ past) {front back : List (ReplyHeader config.msg)}
      {header : ReplyHeader config.msg} (split : x.headers = front ++ header :: back)
      (here : AtControl front past state)
  | check (noEof : .eof ∉ past) (pending : state.adaptationAccessCheckPending = true)
      (body : state.virginReplyBody = []) (status : state.status = none)
      (arrived : Arrived x past state)
  | body (noEof : .eof ∉ past) (here : AtBody x past state)
  | done (here : AtEnd x past state)

theorem bodyOf_eq {body : Bytes} (content : received past = bytesOf x.headers ++ body) :
    bodyOf x past = body := by
  rw [bodyOf, content, Exchange.headersLength, drop_left]

section

variable (here : Arrived x past state)
include here

/-- The bytes in excess are those of the last read. -/
theorem Arrived.extras_le : state.extras x ≤ state.readBuf.content.length := by
  have counts := here.counts
  rw [length_append] at counts
  unfold extras
  split
  · rcases here.first with ⟨none, -⟩ | ⟨-, fewer⟩
    · rw [none, length_nil] at counts
      omega
    · omega
  · exact Nat.zero_le _

/-- More of the body is to be read. -/
theorem Arrived.incomplete (noEof : .eof ∉ past)
    (checked : state.adaptationAccessCheckPending = false)
    (more : 0 < x.clen ∧ state.counted < x.clen) :
    ∃ after, processReplyBody config state = .ok after ∧ Phase x past after ∧
      after.terms = state.terms := by
  have counts := here.counts
  have incomplete : (state.written x).connStatus x = .INCOMPLETE_MSG := by
    unfold connStatus
    rw [if_neg (by simp [written, here.eof])]
    exact if_pos more
  have none : state.extras x = 0 := by
    unfold extras
    split <;> omega
  have all : state.passed x = state.readBuf.content := by
    rw [passed, none, Nat.sub_zero, take_length]
  obtain ⟨capacity, do_next_read, reading, eq, room, space⟩ :=
    processReplyBody_incomplete here.reply checked here.extras_le here.idle incomplete
  refine ⟨_, eq, .body noEof ?_, rfl⟩
  exact {
    reply := ⟨here.reply.virginReply, here.reply.headers_parsed, here.reply.chunked,
      congrArg Nat.cast none, room⟩
    unhandled := here.unhandled
    checked := checked
    eof := here.eof
    empty := rfl
    content := by
      simp only [written, all]
      exact here.content
    counts := by
      simp only [written, all]
      exact counts
    positive := more.1
    fewer := by
      simp only [written, all]
      omega
    status := rfl
    space := space }

/-- What is passed on when the reply is complete. -/
theorem Arrived.outcome (noEof : .eof ∉ past) (enough : ¬(0 < x.clen ∧ state.counted < x.clen))
    {after : HttpStateData} (body : after.virginReplyBody = state.virginReplyBody ++ state.passed x)
    (verdict : after.verdict x = state.verdict x)
    (status : after.status = some (if 0 < x.clen ∧ 0 < state.extras x then
      .COMPLETE_NONPERSISTENT_MSG else state.verdict x)) : Outcome x past after := by
  have counts := here.counts
  have arrived := bodyOf_eq here.content
  rw [length_append] at counts
  by_cases none : x.clen = 0
  · obtain ⟨empty, latest⟩ : state.virginReplyBody = [] ∧
        behind x.headersLength past = state.readBuf.content.length :=
      here.first.resolve_right fun other => by omega
    rw [empty, List.nil_append] at arrived body
    rw [empty, length_nil] at counts
    refine .bodiless noEof none (by rw [arrived, latest]) ?_ ?_
    · rw [body, passed, extras, arrived]
      split
      · rcases Nat.le_total (behind x.interimLength past) state.readBuf.content.length with
          within | beyond
        · congr 1
          omega
        · rw [take_of_length_le beyond, take_of_length_le (by omega)]
      · rw [Nat.sub_zero, take_length]
    · rw [status, verdict, if_neg (by omega)]
  · have positive : 0 < x.clen := Nat.pos_of_ne_zero none
    have expects : x.final.reply.expectBody config = true := by
      by_contra no
      exact none (x.size_spec.2 (Bool.eq_false_iff.mpr no))
    have size : state.extras x = (state.counted - x.clen).toNat := if_pos expects
    have started : state.virginReplyBody.length ≤ x.clen + behind x.interimLength past := by
      rcases here.first with ⟨empty, -⟩ | ⟨-, fewer⟩
      · rw [empty]
        exact Nat.zero_le _
      · exact fewer.le
    have length : (bodyOf x past).length =
        state.virginReplyBody.length + state.readBuf.content.length := by
      rw [arrived, length_append]
    refine .filled noEof positive (by omega) ?_ ?_
    · rw [body, arrived, take_append, take_of_length_le started, passed]
      congr 2
      omega
    · rw [status, verdict]
      congr 1
      refine if_congr ?_ rfl rfl
      omega

/-- The body of a reply is evaluated: it is incomplete, or the job is done. -/
theorem Arrived.evaluate (noEof : .eof ∉ past)
    (checked : state.adaptationAccessCheckPending = false) :
    ∃ after, processReplyBody config state = .ok after ∧ Phase x past after ∧
      after.terms = state.terms := by
  by_cases more : 0 < x.clen ∧ state.counted < x.clen
  · exact here.incomplete noEof checked more
  have connStatus : (state.written x).connStatus x =
      if 0 < x.clen ∧ 0 < state.extras x then .COMPLETE_NONPERSISTENT_MSG
      else state.verdict x := by
    unfold connStatus
    rw [if_neg (by simp [written, here.eof])]
    refine (if_neg more).trans ?_
    simp only [written, Int.natCast_pos]
    rfl
  have complete : (state.written x).connStatus x ≠ .INCOMPLETE_MSG := by
    rw [connStatus]
    unfold verdict
    split <;> try split
    all_goals exact ConnectionStatus.noConfusion
  obtain ⟨do_next_read, eq⟩ := processReplyBody_complete here.reply checked here.extras_le complete
  refine ⟨_, eq, .done ⟨here.idle, here.unhandled, checked, rfl, ?_, ?_⟩, rfl⟩
  · rw [here.content]
    exact prefix_append _ _
  · exact here.outcome noEof more rfl rfl (by rw [connStatus])

end

/-! ## Events -/

theorem processReply_parsed (parsed : state.headers_parsed = true)
    (unhandled : state.handling1xx = false) :
    processReply config state = processReplyBody config state := by
  have same : { state with handling1xx := false } = state := by rw [← unhandled]
  have once : must (!state.handling1xx || !state.headers_parsed) = .ok () := by
    rw [unhandled, Bool.not_false, Bool.true_or]
    rfl
  unfold processReply
  rw [once, ok_bind, same]
  exact if_pos parsed

/-- While the adaptation check is pending, the body waits. -/
theorem processReplyBody_pending (reply : HasReply x state)
    (pending : state.adaptationAccessCheckPending = true) :
    processReplyBody config state = .ok state := by
  unfold processReplyBody
  rw [reply.virginReply, reply.headers_parsed]
  exact if_pos pending

variable {bytes : Bytes}

/-- The bytes that were read fit. -/
theorem readReply_bytes (some : bytes ≠ [])
    (fits : state.readBuf.content.length + bytes.length < state.readBuf.capacity) :
    readReply config state bytes = processReply config { state with
      do_next_read := false
      reading := none
      readBuf := { state.readBuf with content := state.readBuf.content ++ bytes }
      reply_bytes_read := state.reply_bytes_read + bytes.length } := by
  have appended : state.readBuf.appended bytes =
      .some { state.readBuf with content := state.readBuf.content ++ bytes } := if_pos fits
  unfold readReply
  rw [if_neg some]
  simp only [appended, ofMemBuf, ok_bind]

theorem readReply_eof (empty : state.readBuf.content = []) :
    readReply config state [] = processReply config { state with
      eof := true, do_next_read := false, reading := none } := by
  unfold readReply
  rw [if_pos rfl]
  exact if_neg fun both => both.1 empty

/-- A header is looked for in the buffer: a part of it is kept, and a whole one is processed. -/
theorem Fresh.advance (fresh : Fresh state) (noEof : .eof ∉ past)
    (split : x.headers = front ++ header :: back) (serves : received past <+: x.stream)
    (content : received past = bytesOf front ++ state.readBuf.content)
    (counts : state.reply_bytes_read =
      state.readBuf.content.length - behind (bytesOf front).length past)
    (whole : header.bytes.length ≤ state.readBuf.content.length →
      behind ((bytesOf front).length + header.bytes.length) past =
        state.readBuf.content.length - header.bytes.length) :
    ∃ after, processReply config state = .ok after ∧ Phase x past after ∧
      after.terms = state.terms := by
  have ahead : state.readBuf.content <+: header.bytes ++ (bytesOf back ++ x.after) := by
    have headers : bytesOf x.headers = bytesOf front ++ (header.bytes ++ bytesOf back) := by
      rw [split, bytesOf_append]
      rfl
    rw [content, Exchange.stream, headers, List.append_assoc, List.append_assoc] at serves
    exact (prefix_append_right_inj _).mp serves
  rcases Nat.lt_or_ge state.readBuf.content.length header.bytes.length with short | long
  · have part : state.readBuf.content <+: header.bytes :=
      prefix_of_prefix_length_le ahead (prefix_append _ _) short.le
    obtain ⟨capacity, do_next_read, reading, eq, room, space⟩ :=
      processReply_prefix fresh header part fun same => by
        rw [same] at short
        exact lt_irrefl _ short
    refine ⟨_, eq, .header noEof split ?_, rfl⟩
    exact {
      fresh := { fresh with room := room, reading := rfl }
      unhandled := rfl
      content := content
      part := short
      counts := counts
      space := space }
  obtain ⟨more, eq⟩ : header.bytes <+: state.readBuf.content :=
    prefix_of_prefix_length_le (prefix_append _ _) ahead long
  have length : state.readBuf.content.length = header.bytes.length + more.length := by
    rw [← eq, length_append]
  have room : Room { state.readBuf with content := more } := fresh.room.shorter (by omega)
  have latest : behind (bytesOf (front ++ [header])).length past = more.length := by
    rw [bytesOf_snoc, length_append, whole long]
    omega
  have taken : received past = bytesOf (front ++ [header]) ++ more := by
    rw [bytesOf_snoc, List.append_assoc, eq, content]
  cases back with
  | cons following back =>
      have control : header.Control := by
        refine x.control header ?_
        have interim := congrArg List.dropLast split
        rw [Exchange.headers, dropLast_concat, dropLast_append_of_ne_nil (by simp),
          dropLast_cons_of_ne_nil (by simp)] at interim
        rw [interim]
        simp
      refine ⟨_, processReply_control fresh header control eq.symm,
        .control noEof (split.trans (append_cons _ _ _)) ?_, rfl⟩
      exact {
        fresh := { fresh with room := room }
        handling := rfl
        content := taken
        latest := latest }
  | nil =>
      obtain ⟨same, last⟩ := append_inj' split rfl
      cases last
      subst same
      rw [processReply_final fresh x eq.symm]
      have arrived (checked : Bool) : Arrived x past { state with
          readBuf := { state.readBuf with content := more }
          header_bytes_read := x.final.bytes.length
          handling1xx := false
          chunked := false
          virginReply := some x.final.reply
          headers_parsed := true
          adaptationAccessCheckPending := checked } := {
        reply := ⟨rfl, rfl, rfl, fresh.truncated, room⟩
        idle := fresh.reading
        unhandled := rfl
        eof := fresh.eof
        content := by
          rw [fresh.body]
          exact taken
        counts := by
          rw [fresh.body, counted, counts, Exchange.interimLength]
          simp only [List.nil_append]
          omega
        first := .inl ⟨fresh.body, latest⟩ }
      cases pending : config.adaptation with
      | false => exact (arrived false).evaluate noEof rfl
      | true =>
          exact ⟨_, processReplyBody_pending (arrived true).reply rfl,
            .check noEof rfl fresh.body fresh.status (arrived true), rfl⟩

/-! ## Steps -/

variable {event : Event}

theorem not_mem_snoc (noEof : .eof ∉ past) (other : event ≠ .eof) : .eof ∉ past ++ [event] := by
  rw [mem_append, mem_singleton, not_or]
  exact ⟨noEof, other.symm⟩

/-- An event that brings no bytes changes nothing of what has come. -/
theorem Arrived.silent (here : Arrived x past state) (silent : event.Silent) :
    Arrived x (past ++ [event]) state where
  reply := here.reply
  idle := here.idle
  unhandled := here.unhandled
  eof := here.eof
  content := by rw [received_silent past silent, here.content]
  counts := by rw [behind_silent _ past silent, here.counts]
  first := by
    rw [behind_silent _ past silent, behind_silent _ past silent]
    exact here.first

/-- The rest of the request is sent while the reply is read. -/
theorem Phase.requestSent (phase : Phase x past state) (running : state.done = false) :
    Phase x (past ++ [.requestSent]) { state with request_sent := true } := by
  have same := received_silent past (show Event.requestSent.Silent from trivial)
  have latest (n : ℕ) := behind_silent n past (show Event.requestSent.Silent from trivial)
  have snoc (noEof : .eof ∉ past) : .eof ∉ past ++ [.requestSent] :=
    not_mem_snoc noEof Event.noConfusion
  cases phase with
  | header noEof split here =>
      refine .header (snoc noEof) split ?_
      exact {
        fresh := { here.fresh with }
        unhandled := here.unhandled
        content := same.trans here.content
        part := here.part
        counts := by rw [latest]; exact here.counts
        space := here.space }
  | control noEof split here =>
      refine .control (snoc noEof) split ?_
      exact {
        fresh := { here.fresh with }
        handling := here.handling
        content := same.trans here.content
        latest := (latest _).trans here.latest }
  | check noEof pending body status arrived =>
      have arrived := arrived.silent (show Event.requestSent.Silent from trivial)
      exact .check (snoc noEof) pending body status { arrived with reply := { arrived.reply with } }
  | body noEof here =>
      refine .body (snoc noEof) ?_
      exact { here with
        reply := { here.reply with }
        content := same.trans here.content
        counts := by rw [latest]; exact here.counts
        fewer := by rw [latest]; exact here.fewer }
  | done here => exact absurd (here.done.symm.trans running) Bool.noConfusion

variable {n : ℕ}

/-- A read brings more of the body. -/
theorem AtBody.read (here : AtBody x past state) (noEof : .eof ∉ past) (some : bytes ≠ [])
    (reading : n ∈ state.reading) (fits : bytes.length ≤ n) :
    ∃ after, readReply config state bytes = .ok after ∧ Phase x (past ++ [.read bytes]) after ∧
      after.terms = state.terms := by
  have before : x.interimLength ≤ (received past).length := by
    rw [here.content, Exchange.headers, bytesOf_append, Exchange.interimLength]
    simp only [length_append]
    omega
  have latest : behind x.interimLength (past ++ [.read bytes]) = behind x.interimLength past := by
    rw [behind_read, if_pos before]
  have room : state.readBuf.content.length + bytes.length < state.readBuf.capacity := by
    rw [here.empty, length_nil, Nat.zero_add]
    exact fits.trans_lt (here.space n reading)
  have counts := here.counts
  rw [readReply_bytes some room, here.empty, List.nil_append,
    processReply_parsed (by exact here.reply.headers_parsed) (by exact here.unhandled)]
  refine Arrived.evaluate ?_ (not_mem_snoc noEof Event.noConfusion) here.checked
  exact {
    reply := { here.reply with
      room := by
        have appended := here.reply.room.append room
        rw [here.empty] at appended
        exact appended }
    idle := rfl
    unhandled := here.unhandled
    eof := here.eof
    content := by rw [received_read, here.content, List.append_assoc]
    counts := by
      rw [latest, length_append]
      unfold counted at counts ⊢
      dsimp only
      omega
    first := .inr ⟨here.positive, by rw [latest]; exact here.fewer⟩ }

/-- The server closes the connection before the body is complete. -/
theorem AtBody.eof_read (here : AtBody x past state) :
    ∃ after, readReply config state [] = .ok after ∧ Phase x (past ++ [.eof]) after ∧
      after.terms = state.terms := by
  have same := received_silent past (show Event.eof.Silent from trivial)
  have latest := behind_silent x.interimLength past (show Event.eof.Silent from trivial)
  have counts := here.counts
  have fewer := here.fewer
  obtain ⟨closed, eq⟩ : ∃ closed : HttpStateData, closed = { state with
    eof := true, do_next_read := false, reading := none } := ⟨_, rfl⟩
  have reply : HasReply x closed := by
    rw [eq]
    exact { here.reply with }
  have none : closed.extras x = 0 := by
    rw [eq]
    unfold extras
    split
    · unfold counted at counts ⊢
      dsimp only
      omega
    · rfl
  have status : (closed.written x).connStatus x = .COMPLETE_NONPERSISTENT_MSG := by
    rw [eq]
    rfl
  have passed : closed.passed x = [] := by
    rw [eq]
    unfold passed
    rw [here.empty]
    exact take_nil
  obtain ⟨do_next_read, result⟩ := processReplyBody_complete reply (by rw [eq]; exact here.checked)
    (by rw [none]; exact Nat.zero_le _) (by rw [status]; exact ConnectionStatus.noConfusion)
  rw [readReply_eof here.empty, ← eq, processReply_parsed reply.headers_parsed
    (by rw [eq]; exact here.unhandled)]
  refine ⟨_, result, .done ⟨by rw [eq]; rfl, by rw [eq]; exact here.unhandled,
    by rw [eq]; exact here.checked, rfl, ?_, ?_⟩, by rw [eq]; rfl⟩
  · rw [same, here.content]
    exact prefix_append _ _
  · have body : bodyOf x (past ++ [.eof]) = state.virginReplyBody :=
      bodyOf_eq (same.trans here.content)
    refine .cut (by simp) here.positive ?_ ?_ (by rw [status])
    · rw [body, latest]
      exact fewer
    · rw [body, written, passed, eq, List.append_nil]

/-- A read brings more of a header. -/
theorem AtHeader.read (here : AtHeader front header past state) (noEof : .eof ∉ past)
    (split : x.headers = front ++ header :: back) (some : bytes ≠ []) (reading : n ∈ state.reading)
    (fits : bytes.length ≤ n) (serves : x.Serves (past ++ [.read bytes])) :
    ∃ after, readReply config state bytes = .ok after ∧ Phase x (past ++ [.read bytes]) after ∧
      after.terms = state.terms := by
  have length : (received past).length =
      (bytesOf front).length + state.readBuf.content.length := by
    rw [here.content, length_append]
  have part := here.part
  have room : state.readBuf.content.length + bytes.length < state.readBuf.capacity :=
    (Nat.add_le_add_left fits _).trans_lt (here.space n reading)
  rw [readReply_bytes some room]
  refine Fresh.advance ?_ (not_mem_snoc noEof Event.noConfusion) split serves.stream ?_ ?_ ?_
  · exact { here.fresh with room := here.fresh.room.append room }
  · rw [received_read, here.content, List.append_assoc]
  · rw [behind_read, if_pos (by omega), length_append]
    dsimp only
    rw [here.counts]
    omega
  · intro _
    rw [behind_read, if_neg (by omega), length_append]
    omega

/-- The control message has been forwarded, and the next header may be there already. -/
theorem AtControl.proceed (here : AtControl front past state) (noEof : .eof ∉ past)
    (split : x.headers = front ++ header :: back) (serves : x.Serves (past ++ [.proceedAfter1xx])) :
    ∃ after, HttpStateData.proceedAfter1xx config state = .ok after ∧
      Phase x (past ++ [.proceedAfter1xx]) after ∧ after.terms = state.terms := by
  have handling : must state.handling1xx = .ok () := by
    rw [here.handling]
    rfl
  have latest (n : ℕ) := behind_silent n past (show Event.proceedAfter1xx.Silent from trivial)
  unfold HttpStateData.proceedAfter1xx
  rw [handling, ok_bind]
  refine Fresh.advance { here.fresh with } (not_mem_snoc noEof Event.noConfusion) split
    serves.stream ?_ ?_ ?_
  · rw [received_silent past (show Event.proceedAfter1xx.Silent from trivial), here.content]
  · rw [latest, here.latest]
    exact (Int.sub_self _).symm
  · intro long
    rw [latest, ← here.latest]
    exact behind_add _ _ past (by rw [here.latest]; exact long)

/-- Each event that can happen is handled without a failed assertion. -/
theorem Phase.step {past : List Event} (phase : Phase x past state) {event : Event}
    (enabled : state.Enabled event = true) (serves : x.Serves (past ++ [event])) :
    ∃ after, handle config state event = .ok after ∧ Phase x (past ++ [event]) after ∧
      after.keepalive = state.keepalive ∧
      after.request_sent = (state.request_sent || decide (event = .requestSent)) := by
  have silent (other : event ≠ .requestSent) (all : ∃ after, handle config state event = .ok after ∧
      Phase x (past ++ [event]) after ∧ after.terms = state.terms) :
      ∃ after, handle config state event = .ok after ∧ Phase x (past ++ [event]) after ∧
        after.keepalive = state.keepalive ∧
        after.request_sent = (state.request_sent || decide (event = .requestSent)) := by
    obtain ⟨after, eq, phase, terms⟩ := all
    obtain ⟨keepalive, request_sent⟩ := Prod.mk.inj terms
    refine ⟨after, eq, phase, keepalive, ?_⟩
    rw [decide_eq_false other, Bool.or_false, request_sent]
  cases event with
  | read bytes =>
      apply silent Event.noConfusion
      simp only [Enabled, Bool.and_eq_true, decide_eq_true_eq, Option.any_eq_true] at enabled
      obtain ⟨some, n, reading, fits⟩ := enabled
      cases phase with
      | header noEof split here => exact here.read noEof split some reading fits serves
      | control _ _ here =>
          rw [here.fresh.reading] at reading
          cases reading
      | check _ _ _ _ arrived =>
          rw [arrived.idle] at reading
          cases reading
      | body noEof here => exact here.read noEof some reading fits
      | done here =>
          rw [here.idle] at reading
          cases reading
  | eof =>
      apply silent Event.noConfusion
      obtain ⟨n, reading⟩ := Option.isSome_iff_exists.mp enabled
      cases phase with
      | header _ split here =>
          exact absurd (serves.eof past [] rfl) (Nat.not_le.mpr (here.received_lt split))
      | control _ _ here =>
          rw [here.fresh.reading] at reading
          cases reading
      | check _ _ _ _ arrived =>
          rw [arrived.idle] at reading
          cases reading
      | body _ here => exact here.eof_read
      | done here =>
          rw [here.idle] at reading
          cases reading
  | proceedAfter1xx =>
      apply silent Event.noConfusion
      cases phase with
      | header _ _ here => exact absurd (here.unhandled.symm.trans enabled) Bool.noConfusion
      | control noEof split here => exact here.proceed noEof split serves
      | check _ _ _ _ arrived => exact absurd (arrived.unhandled.symm.trans enabled) Bool.noConfusion
      | body _ here | done here => exact absurd (here.unhandled.symm.trans enabled) Bool.noConfusion
  | aclCheckDone =>
      apply silent Event.noConfusion
      cases phase with
      | header _ _ here | control _ _ here =>
          exact absurd (here.fresh.pending.symm.trans enabled) Bool.noConfusion
      | check noEof _ _ _ arrived =>
          have arrived := arrived.silent (show Event.aclCheckDone.Silent from trivial)
          refine Arrived.evaluate ?_ (not_mem_snoc noEof Event.noConfusion) rfl
          exact { arrived with reply := { arrived.reply with } }
      | body _ here | done here => exact absurd (here.checked.symm.trans enabled) Bool.noConfusion
  | requestSent =>
      simp only [Enabled, Bool.not_eq_true'] at enabled
      exact ⟨_, rfl, phase.requestSent enabled, rfl, (Bool.or_true _).symm⟩

/-- The job has just sent the request. -/
theorem Phase.start (keepalive request_sent : Bool) :
    Phase x [] (start keepalive request_sent) := by
  obtain ⟨header, back, split⟩ : ∃ header back, x.headers = header :: back :=
    exists_cons_of_ne_nil (append_ne_nil_of_right_ne_nil _ (cons_ne_nil _ _))
  have room : Room { capacity := 16 * 1024, max_capacity := 256 * 1024 } :=
    ⟨show 0 < 16 * 1024 by decide, rfl, show 16 * 1024 ≤ 256 * 1024 by decide⟩
  refine .header not_mem_nil (split.trans (List.nil_append _).symm) ?_
  exact {
    fresh := ⟨rfl, rfl, rfl, rfl, rfl, rfl, rfl, rfl, rfl, rfl, room⟩
    unhandled := rfl
    content := rfl
    part := length_pos_iff.mpr header.bytes_ne
    counts := rfl
    space := by
      rintro n ⟨⟩
      exact show 0 + (16 * 1024 - 1) < 16 * 1024 by decide }

/-! ## Runs -/

/-- What the job was told about the connection. -/
structure Told (keepalive request_sent : Bool) (past : List Event) (state : HttpStateData) :
    Prop where
  keepalive : state.keepalive = keepalive
  request_sent : state.request_sent = (request_sent || decide (.requestSent ∈ past))

variable {keepalive request_sent : Bool}

theorem next_eq_some {after : HttpStateData} (step : next config state event = some after) :
    state.Enabled event = true ∧ handle config state event = .ok after := by
  unfold next at step
  split at step
  · next enabled =>
      refine ⟨enabled, ?_⟩
      cases result : handle config state event with
      | error fault =>
          rw [result] at step
          cases step
      | ok other =>
          rw [result] at step
          exact congrArg Except.ok (Option.some.inj step)
  · cases step

theorem exec_phase {past events : List Event} {final : HttpStateData}
    (phase : Phase x past state) (told : Told keepalive request_sent past state)
    (serves : x.Serves (past ++ events))
    (run : LabelledRun.exec (next config) state events = some final) :
    Phase x (past ++ events) final ∧ Told keepalive request_sent (past ++ events) final := by
  induction events generalizing past state with
  | nil =>
      cases run
      rw [List.append_nil]
      exact ⟨phase, told⟩
  | cons event events ih =>
      rw [LabelledRun.exec_cons, Option.bind_eq_some_iff] at run
      obtain ⟨after, step, later⟩ := run
      obtain ⟨enabled, handled⟩ := next_eq_some step
      rw [append_cons] at serves ⊢
      obtain ⟨other, same, phase, keepalive, request_sent⟩ := phase.step enabled serves.front
      cases handled.symm.trans same
      refine ih phase ⟨keepalive.trans told.keepalive, ?_⟩ serves later
      rw [request_sent, told.request_sent, Bool.or_assoc]
      congr 1
      rw [← Bool.decide_or]
      refine decide_eq_decide.mpr ?_
      rw [mem_append, mem_singleton, eq_comm]

/-- In every run the job is in one of its phases. -/
theorem phase_of_run {events : List Event} {final : HttpStateData} (serves : x.Serves events)
    (run : LabelledRun.exec (next config) (start keepalive request_sent) events = some final) :
    Phase x events final ∧ Told keepalive request_sent events final :=
  @exec_phase _ _ _ _ _ [] _ _ (Phase.start keepalive request_sent)
    ⟨rfl, (Bool.or_false _).symm⟩ serves run

theorem AtEnd.stuck (here : AtEnd x past state) (event : Event) :
    next config state event = none := by
  refine if_neg fun enabled => ?_
  cases event with
  | read bytes =>
      simp only [Enabled, here.idle, Bool.and_eq_true] at enabled
      cases enabled.2
  | eof => exact absurd (here.idle ▸ enabled : (none : Option ℕ).isSome = true) Bool.noConfusion
  | proceedAfter1xx => exact absurd (here.unhandled.symm.trans enabled) Bool.noConfusion
  | aclCheckDone => exact absurd (here.checked.symm.trans enabled) Bool.noConfusion
  | requestSent =>
      simp only [Enabled, here.done] at enabled
      cases enabled

end HttpStateData
end Squid
