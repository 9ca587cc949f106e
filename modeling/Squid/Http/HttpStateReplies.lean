import Squid.Http.HttpStateRuns

/-!
# Where a reply ends

What the job passes on of a reply, when it takes the reply for complete and when it keeps the
connection: that is the reply as it was sent just when no counter has lost bytes that were read
ahead.
-/

namespace Squid

open CRuntime List Option

namespace HttpStateData

variable {config : HttpStateConfig} {x : Exchange config} {state : HttpStateData}
  {keepalive request_sent : Bool}

/-! ## Framing -/

/-- Nothing is passed on before the reply is there; from then on, the first bytes of the body are
passed on, the reply is complete when all of them have come, and the connection is kept only if
nothing has come behind them. -/
structure Framed (x : Exchange config) (past : List Event) (state : HttpStateData) : Prop where
  before : (received past).length < x.headersLength ∨ state.handling1xx = true ∨
    state.adaptationAccessCheckPending = true → state.virginReplyBody = [] ∧ state.status = none
  after : x.headersLength ≤ (received past).length → state.handling1xx = false →
    state.adaptationAccessCheckPending = false →
      state.virginReplyBody = (bodyOf x past).take x.clen ∧
      ∃ status, state.status = some status ∧
        (status ≠ .INCOMPLETE_MSG ↔ x.clen ≤ (bodyOf x past).length ∨ .eof ∈ past) ∧
        (status = .COMPLETE_PERSISTENT_MSG →
          (received past).length ≤ x.headersLength + x.clen)

/-- Neither side asks for the connection to be closed. -/
def Reusable (x : Exchange config) (keepalive request_sent : Bool) (events : List Event) : Prop :=
  x.closes = false ∧ keepalive = true ∧ (request_sent = true ∨ .requestSent ∈ events) ∧
    x.keeps = true

/-- The read that ends the control messages brings nothing else, unless the body does not come to
its end; behind a reply without a body nothing is read with its header, unless it is cut off and the
connection is not kept. -/
def Fits (x : Exchange config) (keepalive request_sent : Bool) (events : List Event) : Prop :=
  if 0 < x.clen then
    behind x.interimLength events = 0 ∨ (bodyOf x events).length < x.clen
  else
    behind x.headersLength events = 0 ∨
      x.final.reply.expectBody config = true ∧ behind x.interimLength events = 0 ∧
        ¬Reusable x keepalive request_sent events

theorem bodyOf_length (x : Exchange config) (past : List Event) :
    (bodyOf x past).length = (received past).length - x.headersLength := length_drop

theorem behind_append {n : ℕ} {front back : List Event} (none : behind n (front ++ back) = 0) :
    behind n front = 0 := by
  induction back using List.reverseRecOn with
  | nil => rwa [List.append_nil] at none
  | append_singleton back event ih =>
      rw [← List.append_assoc] at none
      cases event with
      | read bytes =>
          rw [behind_read] at none
          split at none
          · exact ih none
          · next later =>
              refine behind_of_lt (lt_of_le_of_lt ?_ (Nat.not_le.mp later))
              rw [received_append, length_append]
              exact Nat.le_add_right _ _
      | eof => exact ih ((behind_silent n _ (show Event.eof.Silent from trivial)).symm.trans none)
      | proceedAfter1xx => exact ih ((behind_silent n _
          (show Event.proceedAfter1xx.Silent from trivial)).symm.trans none)
      | aclCheckDone => exact ih ((behind_silent n _
          (show Event.aclCheckDone.Silent from trivial)).symm.trans none)
      | requestSent => exact ih ((behind_silent n _
          (show Event.requestSent.Silent from trivial)).symm.trans none)

theorem Fits.front {front back : List Event}
    (fits : Fits x keepalive request_sent (front ++ back)) :
    Fits x keepalive request_sent front := by
  unfold Fits at fits ⊢
  by_cases positive : 0 < x.clen
  · rw [if_pos positive] at fits ⊢
    refine fits.imp behind_append fun fewer => lt_of_le_of_lt ?_ fewer
    rw [bodyOf_length, bodyOf_length, received_append, length_append]
    omega
  · rw [if_neg positive] at fits ⊢
    refine fits.imp behind_append fun cut => ⟨cut.1, behind_append cut.2.1, fun kept => ?_⟩
    exact cut.2.2 ⟨kept.1, kept.2.1, kept.2.2.1.imp_right (List.mem_append_left _), kept.2.2.2⟩

variable {past : List Event}

theorem verdict_persistent (told : Told keepalive request_sent past state) :
    state.verdict x = .COMPLETE_PERSISTENT_MSG ↔ Reusable x keepalive request_sent past := by
  unfold verdict Reusable
  rw [told.keepalive, told.request_sent]
  cases x.closes <;> cases keepalive <;> cases request_sent <;> cases x.keeps <;> simp

theorem verdict_ne (x : Exchange config) (state : HttpStateData) :
    state.verdict x ≠ .INCOMPLETE_MSG := by
  unfold verdict
  split <;> exact ConnectionStatus.noConfusion

/-- Where the condition holds, what has become of the reply is right. -/
theorem Outcome.framed (outcome : Outcome x past state)
    (received_le : x.headersLength ≤ (received past).length)
    (told : Told keepalive request_sent past state) (fits : Fits x keepalive request_sent past) :
    state.virginReplyBody = (bodyOf x past).take x.clen ∧
      ∃ status, state.status = some status ∧
        (status ≠ .INCOMPLETE_MSG ↔ x.clen ≤ (bodyOf x past).length ∨ .eof ∈ past) ∧
        (status = .COMPLETE_PERSISTENT_MSG →
          (received past).length ≤ x.headersLength + x.clen) := by
  have length := bodyOf_length x past
  unfold Fits at fits
  cases outcome with
  | filled noEof positive enough body status =>
      rw [if_pos positive] at fits
      have none : behind x.interimLength past = 0 := fits.resolve_right fun fewer => by omega
      rw [none, Nat.add_zero] at enough body status
      refine ⟨body, _, status, iff_of_true ?_ (.inl enough), fun kept => ?_⟩
      · split
        · exact ConnectionStatus.noConfusion
        · exact verdict_ne x state
      · split at kept
        · cases kept
        · omega
  | bodiless noEof none latest body status =>
      rw [if_neg (by omega)] at fits
      refine ⟨?_, _, status, iff_of_true (verdict_ne x state) (.inl (by omega)), fun kept => ?_⟩
      · rw [none, take_zero, body]
        rcases fits with empty | ⟨expects, empty, -⟩
        · rw [length_eq_zero_iff.mp (latest.trans empty), take_nil, ite_self]
        · rw [if_pos expects, empty, take_zero]
      · have empty := fits.resolve_right fun cut => cut.2.2 ((verdict_persistent told).mp kept)
        omega
  | cut atEof positive fewer body status =>
      rw [if_pos positive] at fits
      have short : (bodyOf x past).length < x.clen := by
        rcases fits with none | less
        · rwa [none] at fewer
        · exact less
      refine ⟨?_, _, status, iff_of_true ConnectionStatus.noConfusion (.inr atEof),
        ConnectionStatus.noConfusion⟩
      rw [body, take_of_length_le short.le]

theorem Phase.framed (phase : Phase x past state) (told : Told keepalive request_sent past state)
    (fits : Fits x keepalive request_sent past) : Framed x past state := by
  have length := bodyOf_length x past
  cases phase with
  | header _ split here =>
      refine ⟨fun _ => ⟨here.fresh.body, here.fresh.status⟩, fun whole => ?_⟩
      exact absurd whole (Nat.not_le.mpr (here.received_lt split))
  | control _ _ here =>
      refine ⟨fun _ => ⟨here.fresh.body, here.fresh.status⟩, fun _ unhandled => ?_⟩
      exact absurd (here.handling.symm.trans unhandled) Bool.noConfusion
  | check _ pending body status =>
      refine ⟨fun _ => ⟨body, status⟩, fun _ _ checked => ?_⟩
      exact absurd (pending.symm.trans checked) Bool.noConfusion
  | body noEof here =>
      have body := bodyOf_eq here.content
      have fewer : state.virginReplyBody.length < x.clen := by
        unfold Fits at fits
        rw [if_pos here.positive, body] at fits
        rcases fits with none | less
        · have fewer := here.fewer
          rwa [none] at fewer
        · exact less
      refine ⟨?_, fun _ _ _ => ?_⟩
      · rintro (short | handling | pending)
        · rw [here.content, Exchange.headersLength, length_append] at short
          omega
        · exact absurd (here.unhandled.symm.trans handling) Bool.noConfusion
        · exact absurd (here.checked.symm.trans pending) Bool.noConfusion
      · rw [body]
        refine ⟨(take_of_length_le fewer.le).symm, _, here.status, ?_, ?_⟩
        · exact iff_of_false (fun other => other rfl) (not_or.mpr ⟨Nat.not_le.mpr fewer, noEof⟩)
        · exact ConnectionStatus.noConfusion
  | done here =>
      have received_le := here.received.length_le
      refine ⟨?_, fun _ _ _ => here.outcome.framed received_le told fits⟩
      rintro (short | handling | pending)
      · exact absurd short (Nat.not_lt.mpr received_le)
      · exact absurd (here.unhandled.symm.trans handling) Bool.noConfusion
      · exact absurd (here.checked.symm.trans pending) Bool.noConfusion

/-- A complete reply that is right meets the condition. -/
theorem Outcome.fits (outcome : Outcome x past state) (noEof : .eof ∉ past)
    (received_le : x.headersLength ≤ (received past).length)
    (told : Told keepalive request_sent past state)
    (body : state.virginReplyBody = (bodyOf x past).take x.clen)
    (persistent : state.status = some .COMPLETE_PERSISTENT_MSG →
      (received past).length ≤ x.headersLength + x.clen) : Fits x keepalive request_sent past := by
  have length := bodyOf_length x past
  have passed := congrArg List.length body
  unfold Fits
  cases outcome with
  | filled _ positive enough filled _ =>
      rw [if_pos positive]
      refine .inl ?_
      rw [filled, length_take, length_take] at passed
      omega
  | bodiless _ none latest bodiless status =>
      rw [if_neg (by omega), or_iff_not_imp_left]
      intro extra
      rw [none, take_zero, length_nil, bodiless] at passed
      split at passed
      · next expects =>
          rw [length_take] at passed
          refine ⟨expects, by omega, fun kept => ?_⟩
          have all := persistent (by rw [status, (verdict_persistent told).mpr kept])
          omega
      · omega
  | cut atEof => exact absurd atEof noEof

/-- The server closes the connection in the middle of the body, and nothing happens afterwards. -/
theorem body_before_eof {front back : List Event} {final : HttpStateData}
    (serves : x.Serves (front ++ .eof :: back))
    (run : LabelledRun.exec (next config) (start keepalive request_sent) (front ++ .eof :: back) =
      some final) :
    back = [] ∧ ∃ before, LabelledRun.exec (next config) (start keepalive request_sent) front =
      some before ∧ AtBody x front before := by
  rw [LabelledRun.exec_append, bind_eq_some_iff] at run
  obtain ⟨before, first, run⟩ := run
  rw [LabelledRun.exec_cons, bind_eq_some_iff] at run
  obtain ⟨closed, step, later⟩ := run
  obtain ⟨enabled, handled⟩ := next_eq_some step
  obtain ⟨phase, told⟩ := phase_of_run serves.front first
  have whole := serves.eof front back rfl
  rw [append_cons] at serves
  have done : AtEnd x (front ++ [.eof]) closed := by
    obtain ⟨other, same, phase, -⟩ := phase.step enabled serves.front
    cases handled.symm.trans same
    cases phase with
    | done here => exact here
    | _ noEof => exact absurd (List.mem_append_right front (mem_singleton_self _)) noEof
  constructor
  · cases back with
    | nil => rfl
    | cons event back =>
        rw [LabelledRun.exec_cons, done.stuck event] at later
        cases later
  · refine ⟨before, first, ?_⟩
    obtain ⟨n, reading⟩ := isSome_iff_exists.mp enabled
    cases phase with
    | header _ split here => exact absurd whole (Nat.not_le.mpr (here.received_lt split))
    | control _ _ here =>
        rw [here.fresh.reading] at reading
        cases reading
    | check _ _ _ _ arrived =>
        rw [arrived.idle] at reading
        cases reading
    | body _ here => exact here
    | done here =>
        rw [here.idle] at reading
        cases reading

theorem fits_of_framed {events : List Event} {final : HttpStateData} (serves : x.Serves events)
    (run : LabelledRun.exec (next config) (start keepalive request_sent) events = some final)
    (unhandled : final.handling1xx = false) (checked : final.adaptationAccessCheckPending = false)
    (framed : ∀ front back state, events = front ++ back →
      LabelledRun.exec (next config) (start keepalive request_sent) front = some state →
        Framed x front state) :
    Fits x keepalive request_sent events := by
  have atFinal := framed events [] final (List.append_nil _).symm run
  obtain ⟨phase, told⟩ := phase_of_run serves run
  have ofBody {past : List Event} {state : HttpStateData} (here : AtBody x past state)
      (right : Framed x past state) : (bodyOf x past).length < x.clen := by
    have there : x.headersLength ≤ (received past).length := by
      rw [here.content, length_append]
      exact Nat.le_add_right _ _
    obtain ⟨-, status, same, complete, -⟩ := right.after there here.unhandled here.checked
    cases here.status.symm.trans same
    by_contra enough
    exact complete.mpr (.inl (Nat.not_lt.mp enough)) rfl
  cases phase with
  | header _ split here =>
      have short := here.received_lt split
      unfold Fits
      by_cases positive : 0 < x.clen
      · rw [if_pos positive, bodyOf_length]
        exact .inr (by omega)
      · rw [if_neg positive]
        exact .inl (behind_of_lt short)
  | control _ _ here => exact absurd (here.handling.symm.trans unhandled) Bool.noConfusion
  | check _ pending => exact absurd (pending.symm.trans checked) Bool.noConfusion
  | body _ here =>
      unfold Fits
      rw [if_pos here.positive]
      exact .inr (ofBody here atFinal)
  | done here =>
      have received_le := here.received.length_le
      obtain ⟨body, status, same, complete, persistent⟩ :=
        atFinal.after received_le unhandled checked
      by_cases noEof : .eof ∈ events
      · obtain ⟨front, back, split⟩ := append_of_mem noEof
        subst split
        obtain ⟨rfl, before, first, here⟩ := body_before_eof serves run
        have short := ofBody here (framed front _ before rfl first)
        have same := received_silent front (show Event.eof.Silent from trivial)
        unfold Fits
        rw [if_pos here.positive, bodyOf, same]
        exact .inr short
      · refine here.outcome.fits noEof received_le told body fun kept => ?_
        cases same.symm.trans kept
        exact persistent rfl

/-! ## A reply behind a control message -/

/-- The reply that the bytes are parsed as. -/
def replyOf (config : HttpMsgConfig) (bytes : Bytes) : Option HttpReply :=
  match HttpReply.parse config {} ⟨bytes, bytes.length + 1, bytes.length + 1⟩ false with
  | .ok parsed => if parsed.success then some parsed.reply else none
  | .error _ => none

theorem replyOf_eq_some {config : HttpMsgConfig} {bytes : Bytes} {reply : HttpReply}
    (eq : replyOf config bytes = some reply) :
    ∃ parsed, HttpReply.parse config {} ⟨bytes, bytes.length + 1, bytes.length + 1⟩ false =
      .ok parsed ∧ parsed.success = true ∧ parsed.reply = reply := by
  unfold replyOf at eq
  split at eq
  · next parsed result =>
      rw [ite_none_right_eq_some, some_inj] at eq
      exact ⟨parsed, result, eq⟩
  · cases eq

/-- A request without adaptation. -/
def getConfig : HttpStateConfig where
  msg := ⟨64 * 1024, true⟩
  httpViolations := true
  isHead := false
  adaptation := false
  gatewaying := ⟨[], 1, 1⟩

def continueBytes : Bytes := ascii "HTTP/1.1 100 Continue\r\n\r\n"

def okBytes : Bytes := ascii "HTTP/1.1 200 OK\r\nContent-Length: 3\r\n\r\n"

/-- `100 Continue`. -/
def continueHeader : ReplyHeader getConfig.msg where
  bytes := continueBytes
  reply := (replyOf getConfig.msg continueBytes).get (by decide +kernel)
  http := by decide +kernel
  plain := by decide +kernel
  ends := by decide +kernel
  small := by decide +kernel
  accepted := replyOf_eq_some (some_get _).symm

/-- A reply with three bytes. -/
def okHeader : ReplyHeader getConfig.msg where
  bytes := okBytes
  reply := (replyOf getConfig.msg okBytes).get (by decide +kernel)
  http := by decide +kernel
  plain := by decide +kernel
  ends := by decide +kernel
  small := by decide +kernel
  accepted := replyOf_eq_some (some_get _).symm

def continued : Exchange getConfig where
  interim := [continueHeader]
  final := okHeader
  after := ascii "abc"
  clen := 3
  closes := false
  keeps := true
  control := by
    intro header member
    rw [mem_singleton.mp member]
    unfold ReplyHeader.Control
    decide +kernel
  status := by decide +kernel
  chunked := by decide +kernel
  bodySize := by decide +kernel
  hasClose := by decide +kernel
  persistent := by decide +kernel

/-! ## The whole job -/

/-- No step of a job stops the program; and once no control message and no adaptation check is
outstanding, all that was passed on and decided was right just when the bytes that were read ahead
did no harm. -/
theorem framed_iff_fits (x : Exchange config) (keepalive request_sent : Bool)
    {events : List Event} {final : HttpStateData} (serves : x.Serves events)
    (run : LabelledRun.exec (next config) (start keepalive request_sent) events = some final) :
    (∀ event, final.Enabled event = true → x.Serves (events ++ [event]) →
      ∃ after, final.handle config event = .ok after) ∧
    (final.handling1xx = false → final.adaptationAccessCheckPending = false →
      ((∀ front back state, events = front ++ back →
          LabelledRun.exec (next config) (start keepalive request_sent) front = some state →
            Framed x front state) ↔
        Fits x keepalive request_sent events)) := by
  constructor
  · intro event enabled further
    obtain ⟨after, handled, -⟩ := (phase_of_run serves run).1.step enabled further
    exact ⟨after, handled⟩
  · refine fun unhandled checked => ⟨fits_of_framed serves run unhandled checked, ?_⟩
    intro fits front back state split first
    subst split
    obtain ⟨phase, told⟩ := phase_of_run serves.front first
    exact phase.framed told fits.front

/-- The reply comes in a read of its own. -/
theorem framed_iff_fits_apart : ∃ final : HttpStateData,
    LabelledRun.exec (next getConfig) (start true true)
      [.read continueBytes, .proceedAfter1xx, .read (okBytes ++ ascii "abc")] = some final ∧
    Framed continued [.read continueBytes, .proceedAfter1xx, .read (okBytes ++ ascii "abc")]
      final := by
  have served : continued.Serves
      [.read continueBytes, .proceedAfter1xx, .read (okBytes ++ ascii "abc")] :=
    .of_noEof (by decide +kernel) (by decide +kernel)
  have fits : Fits continued true true
      [.read continueBytes, .proceedAfter1xx, .read (okBytes ++ ascii "abc")] :=
    .inl (by decide +kernel)
  have run : (LabelledRun.exec (next getConfig) (start true true)
      [.read continueBytes, .proceedAfter1xx, .read (okBytes ++ ascii "abc")]).map
        (fun state => (state.handling1xx, state.adaptationAccessCheckPending)) =
      some (false, false) := by
    decide +kernel
  obtain ⟨final, eq, facts⟩ := map_eq_some_iff.mp run
  obtain ⟨handling, pending⟩ := Prod.mk.inj facts
  exact ⟨final, eq, ((framed_iff_fits continued true true served eq).2 handling pending).mpr fits
    _ [] final (List.append_nil _).symm eq⟩

/-- The reply comes with the control message: its body is passed on, and the job goes on reading. -/
theorem not_framed_together : ∃ final : HttpStateData,
    continued.Serves [.read (continueBytes ++ (okBytes ++ ascii "abc")), .proceedAfter1xx] ∧
    LabelledRun.exec (next getConfig) (start true true)
      [.read (continueBytes ++ (okBytes ++ ascii "abc")), .proceedAfter1xx] = some final ∧
    bodyOf continued [.read (continueBytes ++ (okBytes ++ ascii "abc")), .proceedAfter1xx] =
      ascii "abc" ∧
    final.status = some .INCOMPLETE_MSG ∧
    ¬Framed continued [.read (continueBytes ++ (okBytes ++ ascii "abc")), .proceedAfter1xx]
      final := by
  have served : continued.Serves
      [.read (continueBytes ++ (okBytes ++ ascii "abc")), .proceedAfter1xx] :=
    .of_noEof (by decide +kernel) (by decide +kernel)
  have run : (LabelledRun.exec (next getConfig) (start true true)
      [.read (continueBytes ++ (okBytes ++ ascii "abc")), .proceedAfter1xx]).map
        (fun state => (state.status, state.handling1xx, state.adaptationAccessCheckPending)) =
      some (some .INCOMPLETE_MSG, false, false) := by
    decide +kernel
  obtain ⟨final, eq, facts⟩ := map_eq_some_iff.mp run
  obtain ⟨status, handling, pending⟩ :
      final.status = some .INCOMPLETE_MSG ∧ final.handling1xx = false ∧
        final.adaptationAccessCheckPending = false := by
    simpa only [Prod.mk.injEq] using facts
  refine ⟨final, served, eq, by decide +kernel, status, fun framed => ?_⟩
  obtain ⟨-, other, same, complete, -⟩ := framed.after (by decide +kernel) handling pending
  cases status.symm.trans same
  exact complete.mpr (.inl (by decide +kernel)) rfl

end HttpStateData
end Squid
