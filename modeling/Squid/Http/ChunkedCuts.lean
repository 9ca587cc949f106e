import Squid.Http.ChunkedSizes

/-!
# Arrival of the raw data

The raw bytes come in pieces, with a call of `parse` after each.  Where no size is ambiguous, the
calls together do what the decoder makes of all the bytes, so the cuts between the pieces cannot be
seen.  An ambiguous size shows them.
-/

namespace Squid
namespace Chunked

open CRuntime List

/-! ## One call -/

/-- Outcome of a call: the parser has advanced and stands still for a reason. -/
def CallAdvances (future : Bytes) (parser : Parser) : Except Failure Parser → Prop
  | .ok next => Advances future parser next ∧ next.mayContinue = false ∧
      (next.doNeedMoreData = true → next.theStep = .psMessageEnd ∨ Waits next)
  | .error _ => (decode parser.decoder (parser.theIn ++ future)).1 = .failed

/-- No size ahead is ambiguous. -/
def Plain (decoder : Decoder) (bytes : Bytes) : Prop :=
  AtSizes (fun rest => ¬ Ambiguous rest) decoder bytes

variable {parser : Parser}

theorem advances_refl (wf : WF parser) (future : Bytes) : Advances future parser parser :=
  ⟨wf, fun _ => rfl, fun _ => id, id, le_rfl, rfl⟩

variable {future : Bytes}

variable {next : Parser}

theorem Advances.call {result : Except Failure Parser} (advances : Advances future parser next)
    (call : CallAdvances future next result) : CallAdvances future parser result := by
  cases result with
  | ok final => exact ⟨advances.trans call.1, call.2⟩
  | error failure =>
      have thrown : conclude ([] ++ next.theOut) (decode next.decoder (next.theIn ++ future)) =
          .thrown := conclude_eq_thrown.mpr call
      rw [advances.concluded []] at thrown
      exact conclude_eq_thrown.mp thrown

/-- What a step preserves, the loop preserves; it ends before the fuel does. -/
theorem run_advances {fuel : ℕ} (wf : WF parser)
    (plain : Plain parser.decoder (parser.theIn ++ future))
    (waits : parser.doNeedMoreData = true → parser.theStep = .psMessageEnd ∨ Waits parser)
    (enough : parser.mayContinue = true → parser.steps < fuel) :
    CallAdvances future parser (Parser.run fuel parser) := by
  induction fuel generalizing parser with
  | zero =>
      have stopped : parser.mayContinue = false := by
        by_contra may
        exact Nat.not_lt_zero _ (enough (by simpa using may))
      exact ⟨advances_refl wf future, stopped, waits⟩
  | succ fuel ih =>
      cases may : parser.mayContinue with
      | false =>
          rw [Parser.run, may, if_neg Bool.false_ne_true]
          exact ⟨advances_refl wf future, may, waits⟩
      | true =>
          have step := step_advances wf may plain
          rw [Parser.run, may, if_pos rfl]
          cases result : parser.step with
          | error failure =>
              rw [result] at step
              exact step
          | ok next =>
              rw [result] at step
              obtain ⟨advances, progress, waits⟩ := step
              have rest := ih advances.wf (advances.sizes _ plain) (fun more => .inr (waits more))
                fun again => by
                  have := progress again
                  have := enough may
                  omega
              exact advances.call rest

/-! ## All calls -/

/-- A call: what is appended to the raw buffer before it, and the capacity of the output buffer. -/
structure Offer where
  piece : Bytes
  max_capacity : ℕ

/-- The parser and its buffers before the call; the output has been drained. -/
def Parser.load (parser : Parser) (offer : Offer) : Parser :=
  { parser with
    theIn := parser.theIn ++ offer.piece
    theOut := []
    max_capacity := offer.max_capacity }

/-- The calls one after the other, with the output they have given so far. -/
def receive : Parser × Bytes → List Offer → Except Failure (Parser × Bytes)
  | state, [] => .ok state
  | (parser, emitted), offer :: offers =>
      (parser.load offer).parse.bind fun next => receive (next, emitted ++ next.theOut) offers

/-- All pieces together. -/
def joined (offers : List Offer) : Bytes := offers.flatMap Offer.piece

/-- What the calls come to. -/
def outcome : Except Failure (Parser × Bytes) → Outcome
  | .error _ => .thrown
  | .ok (parser, emitted) =>
      if parser.theStep = .psMessageEnd then .complete emitted parser.theIn else .unfinished emitted

/-- The output buffers have room for all the bytes. -/
def Spacious (bytes : Bytes) (offers : List Offer) : Prop :=
  ∀ offer ∈ offers, bytes.length + 1 < offer.max_capacity

/-- The cuts between the pieces of the stream do not matter. -/
def CutsAgree (stream : Bytes) : Prop :=
  ∀ first second, joined first = stream → joined second = stream → Spacious stream first →
    Spacious stream second → outcome (receive ({}, []) first) = outcome (receive ({}, []) second)

@[simp]
theorem load_decoder (parser : Parser) (offer : Offer) :
    (parser.load offer).decoder = parser.decoder := rfl

@[simp]
theorem load_theIn (parser : Parser) (offer : Offer) :
    (parser.load offer).theIn = parser.theIn ++ offer.piece := rfl

@[simp]
theorem load_theOut (parser : Parser) (offer : Offer) : (parser.load offer).theOut = [] := rfl

theorem WF.load (wf : WF parser) (offer : Offer) : WF (parser.load offer) :=
  ⟨wf.size, wf.extension, wf.lastExtension, wf.body, wf.chunkEnd, wf.trailer, wf.unquoted⟩

theorem waits_of_empty (empty : parser.theIn = []) :
    parser.theStep = .psMessageEnd ∨ Waits parser := by
  by_cases ended : parser.theStep = .psMessageEnd
  · exact .inl ended
  · right
    refine ⟨?_, ?_, ?_⟩
    · rw [empty, decode_nil]
      unfold Parser.decoder
      split <;> trivial
    · simp [empty]
    · exact fun _ => empty

/-- A call on a parser whose raw content goes on with `future`. -/
theorem parse_advances (wf : WF parser) (plain : Plain parser.decoder (parser.theIn ++ future)) :
    CallAdvances future parser parser.parse := by
  have reset : Advances future parser { parser with doNeedMoreData := parser.theIn.isEmpty } :=
    ⟨⟨wf.size, wf.extension, wf.lastExtension, wf.body, wf.chunkEnd, wf.trailer, wf.unquoted⟩,
      fun _ => rfl, fun _ => id, id, le_rfl, rfl⟩
  refine reset.call (run_advances reset.wf (reset.sizes _ plain) ?_ ?_)
  · intro empty
    exact waits_of_empty (by simpa using empty)
  · intro _
    simp only [Parser.steps]
    split <;> omega

/-- A parser that has done what it can with the data it has. -/
def AtRest (parser : Parser) : Prop :=
  parser.theStep = .psMessageEnd ∨
    (decode parser.decoder parser.theIn).1.Undecided ∧ (decode parser.decoder parser.theIn).2 = []

theorem AtRest.outcome_eq (rest : AtRest parser) (emitted : Bytes) :
    outcome (.ok (parser, emitted)) = conclude emitted (decode parser.decoder parser.theIn) := by
  by_cases ended : parser.theStep = .psMessageEnd
  · simp [outcome, ended, Parser.decoder, conclude]
  · obtain ⟨undecided, silent⟩ := rest.resolve_left ended
    generalize decode parser.decoder parser.theIn = result at undecided silent ⊢
    obtain ⟨decoder, output⟩ := result
    dsimp only at undecided silent
    rw [conclude_undecided undecided, silent, outcome, if_neg ended, List.append_nil]

/-- With room for its content, a parser does not stop for lack of space. -/
theorem waits_of_stopped (stopped : parser.mayContinue = false)
    (waits : parser.doNeedMoreData = true → parser.theStep = .psMessageEnd ∨ Waits parser)
    (room : parser.theOut.length + 1 < parser.max_capacity) :
    parser.theStep = .psMessageEnd ∨ Waits parser ∧ parser.needsMoreSpace = false := by
  have space : parser.needsMoreSpace = false := by
    rw [Parser.needsMoreSpace, Parser.potentialSpaceSize, Bool.and_eq_false_iff]
    exact .inr (decide_eq_false (by omega))
  by_cases ended : parser.theStep = .psMessageEnd
  · exact .inl ended
  · have more : parser.doNeedMoreData = true := by
      simpa [Parser.mayContinue, space, ended] using stopped
    exact .inr ⟨(waits more).resolve_left ended, space⟩

variable {emitted : Bytes} {offer : Offer} {offers : List Offer}

/-- A call and the later ones; `start` is where the call can be said to begin. -/
theorem outcome_receive_cons {start : Parser}
    (call : CallAdvances (joined offers) start (parser.load offer).parse)
    (plain : Plain start.decoder (start.theIn ++ joined offers)) (out : start.theOut = [])
    (capacity : start.max_capacity = offer.max_capacity)
    (room : ∀ o ∈ offer :: offers, start.theIn.length + (joined offers).length + 1 < o.max_capacity)
    (later : ∀ {next : Parser} {emitted : Bytes}, WF next → AtRest next →
      Plain next.decoder (next.theIn ++ joined offers) →
      (∀ o ∈ offers, next.theIn.length + (joined offers).length + 1 < o.max_capacity) →
      outcome (receive (next, emitted) offers) =
        conclude emitted (decode next.decoder (next.theIn ++ joined offers))) :
    outcome (receive (parser, emitted) (offer :: offers)) =
      conclude emitted (decode start.decoder (start.theIn ++ joined offers)) := by
  rw [receive]
  cases result : (parser.load offer).parse with
  | error failure =>
      rw [result] at call
      exact (conclude_eq_thrown.mpr call).symm
  | ok next =>
      rw [result] at call
      obtain ⟨advances, stopped, waits⟩ := call
      have shrinks := advances.shrinks
      rw [out, length_nil] at shrinks
      have resting : AtRest next := by
        have first := room offer (by simp)
        have same := advances.capacity
        exact (waits_of_stopped stopped waits (by omega)).imp_right fun ⟨wait, space⟩ =>
          ⟨wait.undecided, wait.silent space⟩
      have concluded := advances.concluded emitted
      rw [out, List.append_nil] at concluded
      rw [← concluded]
      refine later advances.wf resting (advances.sizes _ plain) ?_
      intro o member
      have := room o (by simp [member])
      omega

/-- Where no size is ambiguous, the calls come to what the decoder makes of all the bytes. -/
theorem outcome_receive (wf : WF parser) (rest : AtRest parser)
    (plain : Plain parser.decoder (parser.theIn ++ joined offers)) (room : ∀ offer ∈ offers,
      parser.theIn.length + (joined offers).length + 1 < offer.max_capacity) :
    outcome (receive (parser, emitted) offers) =
      conclude emitted (decode parser.decoder (parser.theIn ++ joined offers)) := by
  induction offers generalizing parser emitted with
  | nil => simpa [joined, receive] using rest.outcome_eq emitted
  | cons offer offers ih =>
      have whole : parser.theIn ++ joined (offer :: offers) =
          (parser.load offer).theIn ++ joined offers := by
        simp [joined]
      rw [whole] at plain ⊢
      refine outcome_receive_cons (parse_advances (wf.load offer) plain) plain rfl rfl ?_ ih
      intro o member
      have := room o member
      simpa [joined, Nat.add_assoc] using this

@[simp]
theorem decoder_initial : ({} : Parser).decoder = .size [] := rfl

theorem wf_initial : WF {} := by
  constructor <;> simp

theorem atRest_initial : AtRest {} := .inr ⟨trivial, rfl⟩

theorem cutsAgree_of_plain {stream : Bytes} (plain : Plain (.size []) stream) :
    CutsAgree stream := by
  have same : ∀ offers, joined offers = stream → Spacious stream offers →
      outcome (receive ({}, []) offers) = conclude [] (decode (.size []) stream) := by
    rintro offers rfl spacious
    refine outcome_receive wf_initial atRest_initial plain ?_
    simpa [Spacious] using spacious
  intro first second whole whole' spacious spacious'
  rw [same first whole spacious, same second whole' spacious']

/-! ## Ambiguous sizes -/

variable {blanks sign : Bytes}

variable {c : UInt8}

/-- White space and signs are no digits. -/
theorem isDigit_eq_false (spaces : ∀ b ∈ blanks, isSpace b = true)
    (kinds : sign = [] ∨ sign = [43] ∨ sign = [45]) (member : c ∈ blanks ++ sign) :
    isDigit 16 c = false := by
  by_contra digit
  obtain ⟨blank, minus, plus⟩ := plain_of_isDigit_sixteen (by simpa using digit)
  rcases mem_append.mp member with member | member
  · simp [spaces c member] at blank
  · rcases kinds with rfl | rfl | rfl
    · simp at member
    · exact plus (by simpa using member)
    · exact minus (by simpa using member)

/-- The decoder does not come back to a size after an ambiguous one. -/
theorem decode_ambiguous {bytes : Bytes} (ambiguous : Ambiguous bytes) :
    (decode (.size []) bytes).1 ≠ .size [] := by
  obtain ⟨blanks, sign, d, rest, rfl, ne, spaces, -, kinds⟩ | ⟨x, digits, line, b, rest, rfl, mark,
    -⟩ :=
    ambiguous
  · have other : ∀ c ∈ blanks ++ sign, isDigit 16 c = false := fun c member =>
      isDigit_eq_false spaces (kinds.imp_right (Or.imp_right And.left)) member
    obtain ⟨c, tail, split⟩ := exists_cons_of_ne_nil ne
    rw [← List.append_assoc, split, cons_append, decode_cons, Decoder.feed,
      other c (by simp [split])]
    simp
  · have last := decode_last (show Decoder.Last (.lastExtension {}) from trivial)
      (x :: (digits ++ (line ++ b :: rest)))
    rw [decode_mark mark]
    intro starts
    rw [starts] at last
    exact last

variable {front : Bytes}

theorem plain_of_decode (starts : (decode (.size []) front).1 = .size []) :
    Plain (.size []) front := by
  rw [Plain, atSizes_iff]
  rintro before b back rfl earlier ambiguous
  apply decode_ambiguous ambiguous
  rwa [decode_append, earlier] at starts

variable {capacity : ℕ}

/-- After bytes that end where a size starts, the parser waits for that size. -/
theorem receive_front (starts : (decode (.size []) front).1 = .size [])
    (room : front.length + 1 < capacity) :
    ∃ parser emitted, WF parser ∧ parser.theStep = .psChunkSize ∧ parser.theIn = [] ∧
      ∀ offers, receive ({}, []) (⟨front, capacity⟩ :: offers) =
        receive (parser, emitted) offers := by
  have whole : (({} : Parser).load ⟨front, capacity⟩).theIn ++ [] = front := by simp
  have call : CallAdvances [] (({} : Parser).load ⟨front, capacity⟩)
      (({} : Parser).load ⟨front, capacity⟩).parse := by
    refine parse_advances (wf_initial.load _) ?_
    rw [whole]
    exact plain_of_decode starts
  have start : (decode (({} : Parser).load ⟨front, capacity⟩).decoder
      ((({} : Parser).load ⟨front, capacity⟩).theIn ++ [])).1 = .size [] := by
    rw [whole]
    exact starts
  cases result : (({} : Parser).load ⟨front, capacity⟩).parse with
  | error failure =>
      rw [result] at call
      have failed := start.symm.trans call
      simp at failed
  | ok next =>
      rw [result] at call
      obtain ⟨advances, stopped, waits⟩ := call
      have atSize := advances.atSize start
      rw [List.append_nil] at atSize
      have running : next.theStep ≠ .psMessageEnd := by
        intro ended
        simp [Parser.decoder, ended] at atSize
      have space : next.theOut.length + 1 < next.max_capacity := by
        have shrinks := advances.shrinks
        have same : next.max_capacity = capacity := advances.capacity
        simp at shrinks
        omega
      have wait := (waits_of_stopped stopped waits space).resolve_left running
      have empty := wait.1.consumed atSize
      rw [empty, decode_nil] at atSize
      have here : next.theStep = .psChunkSize := by
        unfold Parser.decoder at atSize
        split at atSize <;> simp_all
      refine ⟨next, next.theOut, advances.wf, here, empty, fun offers => ?_⟩
      rw [receive, result]
      rfl

/-- The first step of a call that waits for a size. -/
theorem parse_size (here : parser.theStep = .psChunkSize) (ne : parser.theIn ≠ []) :
    parser.parse = (parseChunkSize { parser with doNeedMoreData := false }).bind
      (Parser.run (2 * parser.theIn.length + 2)) := by
  have loaded : parser.theIn.isEmpty = false := by simpa using ne
  rw [Parser.parse, loaded, Parser.run, if_pos]
  · rw [Parser.step, here]
  · simp [Parser.mayContinue, Parser.needsMoreSpace, here]

/-- Calls that start with a step for the size, on the way of the decoder or not. -/
theorem outcome_receive_size (here : parser.theStep = .psChunkSize)
    (step : parseChunkSize { parser.load offer with doNeedMoreData := false } = .ok next)
    (wf : WF next) (waiting : next.doNeedMoreData = false) (other : next.theStep ≠ .psChunkSize)
    (ne : (parser.load offer).theIn ≠ [])
    (shorter : next.theIn.length ≤ (parser.load offer).theIn.length) (out : next.theOut = [])
    (capacity : next.max_capacity = offer.max_capacity)
    (plain : Plain next.decoder (next.theIn ++ joined offers)) (room : ∀ o ∈ offer :: offers,
      next.theIn.length + (joined offers).length + 1 < o.max_capacity) :
    outcome (receive (parser, emitted) (offer :: offers)) =
      conclude emitted (decode next.decoder (next.theIn ++ joined offers)) := by
  refine outcome_receive_cons ?_ plain out capacity room outcome_receive
  rw [parse_size (show (parser.load offer).theStep = .psChunkSize from here) ne, step]
  refine run_advances wf plain (by simp [waiting]) ?_
  intro _
  simp only [Parser.steps, other, if_false]
  omega

/-- Calls that start with a number, whether it is the decoder's or not. -/
theorem outcome_receive_number (wf : WF parser) (here : parser.theStep = .psChunkSize)
    (empty : parser.theIn = []) (arrived : offer.piece.dropWhile (isDigit 16) ≠ []) {value : ℕ}
    {p : Bytes} (read : strtoll 16 offer.piece = (saturate false value, p))
    (shorter : p.length < offer.piece.length)
    (plain : value ≠ 0 → Plain (.extension (saturate false value).toNat {})
      (offer.piece ++ joined offers)) (room : ∀ o ∈ offer :: offers,
      offer.piece.length + (joined offers).length + 1 < o.max_capacity) :
    outcome (receive (parser, emitted) (offer :: offers)) =
      if value = 0 then conclude emitted (decode (.lastExtension {}) (p ++ joined offers))
      else conclude emitted (decode (.extension (saturate false value).toNat {})
        (offer.piece ++ joined offers)) := by
  have content : (parser.load offer).theIn = offer.piece := by simp [empty]
  have ne : (parser.load offer).theIn ≠ [] := by
    rw [content]
    intro nothing
    simp [nothing] at shorter
  have unquoted := wf.unquoted (by simp [here])
  have ready : WF { parser.load offer with doNeedMoreData := false } :=
    ⟨wf.size, wf.extension, wf.lastExtension, wf.body, wf.chunkEnd, wf.trailer, wf.unquoted⟩
  rw [← content] at arrived read shorter plain room ⊢
  have step := parseChunkSize_read ready here arrived read shorter
  by_cases zero : value = 0
  · rw [if_pos zero] at step ⊢
    refine outcome_receive_size here step ?_ rfl nofun ne shorter.le rfl rfl ?_ ?_
    · constructor <;> simp [Parser.load, unquoted]
    · exact atSizes_last (show Decoder.Last (.lastExtension {}) from trivial) _
    · intro o member
      have := room o member
      simp only
      omega
  · rw [if_neg zero] at step ⊢
    have positive := saturate_toNat_ne_zero zero
    have decoder : (Decoder.extension (saturate false value).toNat
        { quoted := (parser.load offer).inQuoted, slashed := (parser.load offer).inSlashed }) =
          .extension (saturate false value).toNat {} := by
      simp [Parser.load, unquoted]
    rw [← decoder] at plain ⊢
    refine outcome_receive_size here step ?_ rfl nofun ne le_rfl rfl rfl (plain zero) room
    exact ⟨nofun, fun _ => ⟨Nat.pos_of_ne_zero positive, positive⟩, nofun, nofun, nofun, nofun,
      fun other => absurd rfl other⟩

/-- A call that finds no number throws. -/
theorem parse_unread (wf : WF parser) (here : parser.theStep = .psChunkSize)
    (empty : parser.theIn = []) (arrived : offer.piece.dropWhile (isDigit 16) ≠ [])
    (unread : strtoll 16 offer.piece = (0, offer.piece)) :
    (parser.load offer).parse = .error .corruptedChunkSize := by
  have content : (parser.load offer).theIn = offer.piece := by simp [empty]
  have ne : (parser.load offer).theIn ≠ [] := by
    rw [content]
    intro nothing
    simp [nothing] at arrived
  have fresh : (parser.load offer).theChunkSize = 0 := wf.size here
  rw [parse_size (show (parser.load offer).theStep = .psChunkSize from here) ne, parseChunkSize,
    if_neg (by simp [fresh]), content, if_neg arrived]
  simp [StringToInt64, unread, Except.bind]

theorem feed_blank (space : isSpace c = true) (ne : c ≠ 10) : ({} : Quote).feed c = some {} := by
  have quote : c ≠ 34 := by
    rintro rfl
    simp [isSpace] at space
  simp [Quote.feed, quote, ne]

variable {d : UInt8}

/-- Together with the digit, the white space and the sign are read as a size. -/
theorem receive_signed (wf : WF parser) (here : parser.theStep = .psChunkSize)
    (empty : parser.theIn = []) (spaces : ∀ b ∈ blanks, isSpace b = true) (lines : 10 ∉ blanks)
    (digit : isDigit 16 d = true) (kinds : sign = [] ∨ sign = [43] ∨ sign = [45] ∧ d = 48)
    (arrived : (blanks ++ (sign ++ [d])).dropWhile (isDigit 16) ≠ [])
    (room : (blanks ++ (sign ++ [d])).length + 1 < capacity) (emitted : Bytes) :
    outcome (receive (parser, emitted) [⟨blanks ++ (sign ++ [d]), capacity⟩]) ≠ .thrown := by
  have plain : ∀ c ∈ blanks ++ (sign ++ [d]), ({} : Quote).feed c = some {} := by
    intro c member
    rcases mem_append.mp member with blank | member
    · exact feed_blank (spaces c blank) fun lf => lines (lf ▸ blank)
    · rcases mem_append.mp member with marks | last
      · rcases kinds with rfl | rfl | ⟨rfl, -⟩
        · simp at marks
        · rw [mem_singleton.mp marks]
          rfl
        · rw [mem_singleton.mp marks]
          rfl
      · rw [mem_singleton.mp last]
        exact feed_digit digit
  have sized := decode_extension_plain plain (saturate false (magnitude 16 [d])).toNat
  rw [outcome_receive_number wf here empty arrived (strtoll_sign_digit spaces digit kinds)]
  · rw [ne_eq]
    split
    · rw [conclude_eq_thrown]
      simp [joined]
    · rw [conclude_eq_thrown]
      simp [joined, sized]
  · simp only [length_append, length_nil, length_cons]
    omega
  · intro _
    rw [joined, flatMap_nil, List.append_nil]
    exact atSizes_extension (by rw [sized])
  · simpa [joined] using room

/-- A size after white space or a sign is lost when the cut comes right before its digits. -/
theorem not_cutsAgree_signed (starts : (decode (.size []) front).1 = .size [])
    (ne : blanks ++ sign ≠ []) (spaces : ∀ b ∈ blanks, isSpace b = true) (lines : 10 ∉ blanks)
    (digit : isDigit 16 d = true) (kinds : sign = [] ∨ sign = [43] ∨ sign = [45] ∧ d = 48) :
    ¬ CutsAgree (front ++ (blanks ++ (sign ++ [d]))) := by
  intro agree
  let capacity := (front ++ (blanks ++ (sign ++ [d]))).length + 2
  have cut := agree [⟨front, capacity⟩, ⟨blanks ++ sign, capacity⟩, ⟨[d], capacity⟩]
    [⟨front, capacity⟩, ⟨blanks ++ (sign ++ [d]), capacity⟩] (by simp [joined]) (by simp [joined])
    (by simp [Spacious, capacity]) (by simp [Spacious, capacity])
  obtain ⟨parser, emitted, wf, here, empty, later⟩ := receive_front starts
    (show front.length + 1 < capacity by simp only [capacity, length_append]; omega)
  have signs : sign = [] ∨ sign = [43] ∨ sign = [45] := kinds.imp_right (Or.imp_right And.left)
  have first (back : Bytes) : (blanks ++ sign ++ back).dropWhile (isDigit 16) ≠ [] := by
    obtain ⟨c, tail, split⟩ := exists_cons_of_ne_nil ne
    simp [split, isDigit_eq_false spaces signs (show c ∈ blanks ++ sign by simp [split])]
  have thrown : outcome (receive (parser, emitted) [⟨blanks ++ sign, capacity⟩, ⟨[d], capacity⟩]) =
      .thrown := by
    rw [receive, parse_unread wf here empty (by simpa using first []) (strtoll_sign spaces signs)]
    rfl
  rw [later, later, thrown] at cut
  refine receive_signed wf here empty spaces lines digit kinds ?_ ?_ emitted cut.symm
  · simpa using first [d]
  · simp only [capacity, length_append]
    omega

section Marked

variable {x : UInt8} {digits line : Bytes} {crlfBeg : ℕ}

/-- The line after a size other than zero. -/
theorem decode_marked_extension (mark : x = 120 ∨ x = 88)
    (all : ∀ d ∈ digits, isDigit 16 d = true)
    (ends : (findCrlf line false false).1 = some (crlfBeg, line.length)) (size : ℕ) :
    decode (.extension size {}) (48 :: x :: (digits ++ line)) = (.body size, []) := by
  rw [← cons_append, ← cons_append, decode_append,
    decode_extension_plain (feed_marked mark all), before_nil]
  exact (isLine_extension size).decode_ends ends

/-- The same line, taken for the extensions of the last chunk. -/
theorem decode_marked_last (mark : x = 120 ∨ x = 88) (all : ∀ d ∈ digits, isDigit 16 d = true)
    (ends : (findCrlf line false false).1 = some (crlfBeg, line.length)) :
    decode (.lastExtension {}) (x :: (digits ++ line)) = (.trailer {} true, []) := by
  rw [← cons_append, decode_append, decode_lastExtension_plain, before_nil]
  · exact isLine_lastExtension.decode_ends ends
  · exact fun c member => feed_marked mark all c (List.mem_cons_of_mem _ member)

theorem dropWhile_mark (mark : x = 120 ∨ x = 88) (back : Bytes) :
    (48 :: x :: back).dropWhile (isDigit 16) ≠ [] := by
  simp [show isDigit 16 48 = true by decide, (mark_spec mark).1]

variable {parser : Parser} {b : UInt8} {capacity : ℕ}

/-- Cut off from its digits, the `0x` is the last chunk. -/
theorem receive_marked_apart (wf : WF parser) (here : parser.theStep = .psChunkSize)
    (empty : parser.theIn = []) (mark : x = 120 ∨ x = 88)
    (all : ∀ d ∈ digits, isDigit 16 d = true)
    (ends : (findCrlf line false false).1 = some (crlfBeg, line.length))
    (room : (48 :: x :: (digits ++ (line ++ [b]))).length + 1 < capacity) (emitted : Bytes) :
    outcome (receive (parser, emitted)
      [⟨[48, x], capacity⟩, ⟨digits ++ (line ++ [b]), capacity⟩]) ≠
        .unfinished (emitted ++ [b]) := by
  have read : strtoll 16 [48, x] = (saturate false 0, [x]) := by
    rw [strtoll_marked mark]
    rfl
  have whole : [x] ++ joined [⟨digits ++ (line ++ [b]), capacity⟩] =
      x :: (digits ++ line) ++ [b] := by
    simp [joined]
  have silent := Decoder.Last.silent (show Decoder.Last (.trailer {} true) from trivial) b
  rw [outcome_receive_number wf here empty (dropWhile_mark mark []) read (by simp) (absurd rfl),
    if_pos rfl, whole, decode_append, decode_marked_last mark all ends, before_nil, decode_cons,
    silent, before_nil, decode_nil]
  · cases (Decoder.feed (.trailer {} true) b).1 <;> simp [conclude]
  · simp only [joined, flatMap_cons, flatMap_nil, length_append, length_cons,
      length_nil, mem_cons, not_mem_nil, or_false] at room ⊢
    rintro o (rfl | rfl) <;> dsimp only <;> omega

/-- Together they are a chunk with a body. -/
theorem receive_marked_together (wf : WF parser) (here : parser.theStep = .psChunkSize)
    (empty : parser.theIn = []) (mark : x = 120 ∨ x = 88)
    (all : ∀ d ∈ digits, isDigit 16 d = true) (nonzero : magnitude 16 digits ≠ 0)
    (ends : (findCrlf line false false).1 = some (crlfBeg, line.length))
    (room : (48 :: x :: (digits ++ (line ++ [b]))).length + 1 < capacity) (emitted : Bytes) :
    outcome (receive (parser, emitted) [⟨48 :: x :: (digits ++ (line ++ [b])), capacity⟩]) =
      .unfinished (emitted ++ [b]) := by
  have taken : (digits ++ (line ++ [b])).takeWhile (isDigit 16) =
      digits ++ (line ++ [b]).takeWhile (isDigit 16) := takeWhile_append_of_pos all
  have positive : magnitude 16 ((digits ++ (line ++ [b])).takeWhile (isDigit 16)) ≠ 0 := by
    rw [taken]
    exact magnitude_append_ne_zero (by decide) nonzero _
  have read := strtoll_marked mark (digits ++ (line ++ [b]))
  rw [if_neg (by intro none; simp [none, magnitude] at positive)] at read
  have shorter : ((digits ++ (line ++ [b])).dropWhile (isDigit 16)).length <
      (48 :: x :: (digits ++ (line ++ [b]))).length := by
    have := (dropWhile_suffix (isDigit 16) (l := digits ++ (line ++ [b]))).length_le
    simp only [length_cons]
    omega
  have whole : 48 :: x :: (digits ++ (line ++ [b])) ++ joined [] =
      48 :: x :: (digits ++ line) ++ [b] := by
    simp [joined]
  have line_decoded := decode_marked_extension mark all ends
    (saturate false (magnitude 16 ((digits ++ (line ++ [b])).takeWhile (isDigit 16)))).toNat
  rw [outcome_receive_number wf here empty (dropWhile_mark mark _) read shorter, if_neg positive,
    whole, decode_append, line_decoded, before_nil, decode_cons, decode_nil, conclude_before]
  · simp only [Decoder.feed]
    split <;> simp [conclude]
  · intro _
    rw [whole, Plain, atSizes_append, line_decoded]
    exact ⟨atSizes_extension (by rw [line_decoded]), by simp, trivial⟩
  · simpa [joined] using room

end Marked

/-- A `0x` and the digits after it are taken for different sizes when the cut comes between. -/
theorem not_cutsAgree_marked {digits line : Bytes} {x b : UInt8} {crlfBeg : ℕ}
    (starts : (decode (.size []) front).1 = .size []) (mark : x = 120 ∨ x = 88)
    (all : ∀ d ∈ digits, isDigit 16 d = true) (nonzero : magnitude 16 digits ≠ 0)
    (ends : (findCrlf line false false).1 = some (crlfBeg, line.length)) :
    ¬ CutsAgree (front ++ 48 :: x :: (digits ++ (line ++ [b]))) := by
  intro agree
  let capacity := (front ++ 48 :: x :: (digits ++ (line ++ [b]))).length + 2
  have cut := agree [⟨front, capacity⟩, ⟨[48, x], capacity⟩, ⟨digits ++ (line ++ [b]), capacity⟩]
    [⟨front, capacity⟩, ⟨48 :: x :: (digits ++ (line ++ [b])), capacity⟩] (by simp [joined])
    (by simp [joined]) (by simp [Spacious, capacity]) (by simp [Spacious, capacity])
  obtain ⟨parser, emitted, wf, here, empty, later⟩ := receive_front starts
    (show front.length + 1 < capacity by simp only [capacity, length_append]; omega)
  have room : (48 :: x :: (digits ++ (line ++ [b]))).length + 1 < capacity := by
    simp only [capacity, length_append]
    omega
  rw [later, later, receive_marked_together wf here empty mark all nonzero ends room] at cut
  exact receive_marked_apart wf here empty mark all ends room emitted cut

/-- Where no size is ambiguous, the cuts cannot be seen.  Conversely, an ambiguous size shows them
in the stream up to there, if not later: the one exception is white space with a line feed, where
the white space itself may be taken for a body and be rejected. -/
theorem cutsAgree_plain (stream : Bytes) :
    (AtSizes (fun rest => ¬ Ambiguous rest) (.size []) stream → CutsAgree stream) ∧
      ((∀ front, front <+: stream → CutsAgree front) →
        AtSizes (fun rest => Ambiguous rest → 10 ∈ rest.takeWhile isSpace) (.size []) stream) := by
  refine ⟨cutsAgree_of_plain, fun agree => ?_⟩
  rw [atSizes_iff]
  rintro front c back rfl starts ambiguous
  by_contra lines
  obtain ⟨blanks, sign, d, rest, split, ne, spaces, digit, kinds⟩ |
    ⟨x, digits, line, b, rest, split, mark, all, nonzero, crlfBeg, ends⟩ := ambiguous
  · rw [split, takeWhile_append_of_pos spaces] at lines
    refine not_cutsAgree_signed starts ne spaces (fun lf => lines (by simp [lf])) digit kinds
      (agree _ ?_)
    rw [split]
    exact ⟨rest, by simp⟩
  · refine not_cutsAgree_marked (b := b) starts mark all nonzero ends (agree _ ?_)
    rw [split]
    exact ⟨rest, by simp⟩

/-- A message of one chunk, ` 5 CRLF hello CRLF 0 CRLF CRLF`. -/
def blankSizeMessage : Bytes :=
  [32, 53, 13, 10, 104, 101, 108, 108, 111, 13, 10, 48, 13, 10, 13, 10]

/-- The message is decoded, but not when the parser is called after the first byte. -/
theorem not_cutsAgree_blankSizeMessage : ¬ CutsAgree blankSizeMessage := by
  intro agree
  have cut := agree [⟨blankSizeMessage, 100⟩]
    [⟨blankSizeMessage.take 1, 100⟩, ⟨blankSizeMessage.drop 1, 100⟩] rfl rfl
    (by simp [Spacious, blankSizeMessage]) (by simp [Spacious, blankSizeMessage])
  have together : outcome (receive ({}, []) [⟨blankSizeMessage, 100⟩]) =
      .complete [104, 101, 108, 108, 111] [] := by
    decide
  have apart : outcome (receive ({}, []) [⟨blankSizeMessage.take 1, 100⟩,
      ⟨blankSizeMessage.drop 1, 100⟩]) = .thrown := by
    decide
  rw [together, apart] at cut
  simp at cut

end Chunked
end Squid
