import Squid.Http.ChunkedDecoder

/-!
# The parser follows the byte-by-byte decoder

Every step of `ChunkedCodingParser` but the one for the chunk size moves the parser along the
decoder: what the decoder makes of the raw content is split between the output of the step and what
the decoder makes of the content that is left.
-/

namespace Squid
namespace Chunked

open CRuntime List

/-! ## `findCrlf` finds the end of the decoder's line -/

/-- The offset `crOff` of the first CR of a run, as the decoder sees it. -/
def blankSoFar (i : ℕ) (crOff : Option ℕ) : Bool :=
  crOff = some 0 || (i = 0 && crOff = none)

/-- What a result of the search from offset `i` says about the decoder. -/
def FoundLine (stay : Quote → Bool → Decoder) (eol : Bool → Decoder) (i : ℕ) (start : Decoder)
    (content : Bytes) : Option (ℕ × ℕ) × Bool × Bool → Prop
  | (none, quoted, slashed) =>
      ∃ blank, decode start content = (stay { quoted, slashed } blank, [])
  | (some (crlfBeg, crlfEnd), _, _) =>
      i < crlfEnd ∧ crlfEnd ≤ i + content.length ∧
        decode start (content.take (crlfEnd - i)) = (eol (crlfBeg = 0), [])

section FindCrlf

variable {stay : Quote → Bool → Decoder} {eol : Bool → Decoder}

theorem FoundLine.cons {i : ℕ} {start next : Decoder} {c : UInt8} {content : Bytes}
    {result : Option (ℕ × ℕ) × Bool × Bool} (found : FoundLine stay eol (i + 1) next content result)
    (fed : start.feed c = (next, [])) : FoundLine stay eol i start (c :: content) result := by
  have whole (bytes : Bytes) : decode start (c :: bytes) = decode next bytes := by
    rw [decode_cons, fed, before_nil]
  obtain ⟨_ | ⟨crlfBeg, crlfEnd⟩, quoted, slashed⟩ := result
  · obtain ⟨blank, rest⟩ := found
    exact ⟨blank, (whole content).trans rest⟩
  · obtain ⟨low, high, rest⟩ := found
    refine ⟨by omega, by simp only [length_cons]; omega, ?_⟩
    rw [show crlfEnd - i = crlfEnd - (i + 1) + 1 by omega, take_succ_cons, whole, rest]

theorem foundLine_eol {i crlfBeg : ℕ} {start : Decoder} {content : Bytes} {quoted slashed : Bool}
    (fed : start.feed 10 = (eol (crlfBeg = 0), [])) :
    FoundLine stay eol i start (10 :: content) (some (crlfBeg, i + 1), quoted, slashed) := by
  refine ⟨by omega, by simp only [length_cons]; omega, ?_⟩
  rw [Nat.add_sub_cancel_left, take_succ_cons, take_zero, decode_cons, fed]
  rfl

theorem findCrlfFrom_spec (line : IsLine stay eol) (i : ℕ) (crOff : Option ℕ) (quote : Quote)
    (closed : crOff ≠ none → quote = {}) (content : Bytes) :
    FoundLine stay eol i (stay quote (blankSoFar i crOff)) content
      (findCrlfFrom i crOff quote.quoted quote.slashed content) := by
  induction content generalizing i crOff quote with
  | nil => exact ⟨_, rfl⟩
  | cons c content ih =>
      have fed := line quote (blankSoFar i crOff) c
      have later : ∀ j, blankSoFar (j + 1) none = false := by simp [blankSoFar]
      obtain ⟨quoted, slashed⟩ := quote
      have no_cr : quoted = true ∨ slashed = true → crOff = none := by
        intro inside
        by_contra cr
        have outside := closed cr
        simp only [Quote.mk.injEq] at outside
        simp [outside] at inside
      cases slashed with
      | true =>
          cases no_cr (.inr rfl)
          refine (ih (i + 1) none { quoted } nofun).cons ?_
          rw [fed, later]
          simp [Quote.feed, staysBlank]
      | false =>
          cases quoted with
          | true =>
              cases no_cr (.inl rfl)
              simp only [Quote.feed, staysBlank] at fed
              by_cases slash : c = 92
              · simp only [findCrlfFrom, slash]
                refine (ih (i + 1) none { quoted := true, slashed := true } nofun).cons ?_
                rw [← slash, fed, later]
                simp [slash]
              · by_cases close : c = 34
                · simp only [findCrlfFrom, close]
                  refine (ih (i + 1) none {} nofun).cons ?_
                  rw [← close, fed, later]
                  simp [close]
                · simp only [findCrlfFrom, slash, close]
                  refine (ih (i + 1) none { quoted := true } nofun).cons ?_
                  rw [fed, later]
                  simp [slash, close]
          | false =>
              simp only [Quote.feed, staysBlank] at fed
              by_cases opens : c = 34
              · simp only [findCrlfFrom, opens]
                refine (ih (i + 1) none { quoted := true } nofun).cons ?_
                rw [← opens, fed, later]
                simp [opens]
              · by_cases lf : c = 10
                · subst lf
                  have beg : ∀ crlfBeg, (crlfBeg = 0 ↔ blankSoFar i crOff = true) →
                      (stay {} (blankSoFar i crOff)).feed 10 = (eol (crlfBeg = 0), []) := by
                    intro crlfBeg same
                    rw [fed]
                    simp [same]
                  cases crOff with
                  | none => exact foundLine_eol (beg i (by simp [blankSoFar]))
                  | some cr => exact foundLine_eol (beg cr (by simp [blankSoFar]))
                · by_cases cr : c = 13
                  · subst cr
                    cases crOff with
                    | none =>
                        refine (ih (i + 1) (some i) {} fun _ => rfl).cons ?_
                        rw [fed]
                        simp [blankSoFar]
                    | some first =>
                        refine (ih (i + 1) (some first) {} fun _ => rfl).cons ?_
                        rw [fed]
                        simp [blankSoFar]
                  · have same : findCrlfFrom i crOff false false (c :: content) =
                        findCrlfFrom (i + 1) none false false content := by
                      cases crOff <;> simp [findCrlfFrom, opens, lf, cr]
                    rw [same]
                    refine (ih (i + 1) none {} nofun).cons ?_
                    rw [fed, later]
                    simp [opens, lf, beq_eq_false_iff_ne.mpr cr]

theorem findCrlf_spec (line : IsLine stay eol) (quote : Quote) (content : Bytes) :
    FoundLine stay eol 0 (stay quote true) content
      (findCrlf content quote.quoted quote.slashed) :=
  findCrlfFrom_spec line 0 none quote nofun content

end FindCrlf

/-! ## The parser's state as a state of the decoder -/

/-- The decoder's state before the raw content. -/
def Parser.decoder (parser : Parser) : Decoder :=
  match parser.theStep with
  | .psChunkSize => .size []
  | .psUnusedChunkExtension =>
      .extension parser.theLeftBodySize { quoted := parser.inQuoted, slashed := parser.inSlashed }
  | .psLastChunkExtension => .lastExtension {}
  | .psChunkBody => .body parser.theLeftBodySize
  | .psChunkEnd => .chunkEnd {} true
  | .psTrailer => .trailer {} true
  | .psMessageEnd => .done []

/-- The fields agree with the step. -/
structure WF (parser : Parser) : Prop where
  size : parser.theStep = .psChunkSize → parser.theChunkSize = 0
  extension : parser.theStep = .psUnusedChunkExtension →
    0 < parser.theLeftBodySize ∧ parser.theChunkSize ≠ 0
  lastExtension : parser.theStep = .psLastChunkExtension → parser.theChunkSize = 0
  body : parser.theStep = .psChunkBody → 0 < parser.theLeftBodySize
  chunkEnd : parser.theStep = .psChunkEnd → parser.theLeftBodySize = 0
  trailer : parser.theStep = .psTrailer → parser.theChunkSize = 0
  /-- Quoted strings are tracked between calls in unused extensions only. -/
  unquoted : parser.theStep ≠ .psUnusedChunkExtension →
    parser.inQuoted = false ∧ parser.inSlashed = false

/-- Steps left: at most one step in two leaves the raw content as it is. -/
def Parser.steps (parser : Parser) : ℕ :=
  2 * parser.theIn.length + if parser.theStep = .psChunkSize then 1 else 0

/-- The parser asks for more data in the right place. -/
structure Waits (parser : Parser) : Prop where
  undecided : (decode parser.decoder parser.theIn).1.Undecided
  /-- All content is output, as far as there is space. -/
  silent : parser.needsMoreSpace = false → (decode parser.decoder parser.theIn).2 = []
  /-- No line that is complete is kept. -/
  consumed : (decode parser.decoder parser.theIn).1 = .size [] → parser.theIn = []

/-- The step from `parser` to `next` follows the decoder. -/
structure Follows (parser next : Parser) : Prop where
  wf : WF next
  /-- The decoder gives the output for the raw content that is taken. -/
  decoded : ∃ used content, parser.theIn = used ++ next.theIn ∧
    next.theOut = parser.theOut ++ content ∧
    decode parser.decoder used = (next.decoder, content)
  /-- The parser does not go round in circles. -/
  progress : next.mayContinue = true → next.steps < parser.steps
  waits : next.doNeedMoreData = true → Waits next
  capacity : next.max_capacity = parser.max_capacity

/-- A step follows the decoder, and throws only where the decoder fails. -/
def StepFollows (parser : Parser) : Except Failure Parser → Prop
  | .ok next => Follows parser next
  | .error _ => (decode parser.decoder parser.theIn).1 = .failed

/-! ## The steps that look for the end of a line -/

section Steps

variable {parser : Parser}

theorem continue_of_mayContinue (may : parser.mayContinue = true) :
    parser.doNeedMoreData = false ∧ parser.needsMoreSpace = false ∧
      parser.theStep ≠ .psMessageEnd := by
  simpa [Parser.mayContinue, and_assoc] using may

/-- The parser keeps the content and asks for more. -/
theorem follows_wait (wf : WF parser) (waits : Waits { parser with doNeedMoreData := true }) :
    Follows parser { parser with doNeedMoreData := true } :=
  ⟨⟨wf.size, wf.extension, wf.lastExtension, wf.body, wf.chunkEnd, wf.trailer, wf.unquoted⟩,
    ⟨[], [], by simp, by simp, rfl⟩, by simp [Parser.mayContinue], fun _ => waits, rfl⟩

/-- No end of a line in the raw content. -/
theorem waits_line {state : Decoder}
    (decoded : decode parser.decoder parser.theIn = (state, []))
    (undecided : state.Undecided) (other : state ≠ .size []) :
    Waits { parser with doNeedMoreData := true } := by
  have same : decode { parser with doNeedMoreData := true : Parser }.decoder parser.theIn =
      (state, []) := decoded
  refine ⟨?_, ?_, ?_⟩ <;> simp [same, undecided, other]

/-- The parser takes a line without giving content. -/
theorem follows_line {next : Parser} (wf : WF next) {crlfEnd : ℕ}
    (waiting : parser.doNeedMoreData = false) (same : next.doNeedMoreData = parser.doNeedMoreData)
    (out : next.theOut = parser.theOut) (capacity : next.max_capacity = parser.max_capacity)
    (rest : next.theIn = parser.theIn.drop crlfEnd) (low : 0 < crlfEnd)
    (high : crlfEnd ≤ parser.theIn.length)
    (decoded : decode parser.decoder (parser.theIn.take crlfEnd) = (next.decoder, [])) :
    Follows parser next := by
  refine ⟨wf, ⟨parser.theIn.take crlfEnd, [], by simp [rest], by simp [out], decoded⟩, ?_, ?_,
    capacity⟩
  · intro _
    simp only [Parser.steps, rest, length_drop]
    split <;> omega
  · simp [same, waiting]

theorem parseUnusedChunkExtension_follows (wf : WF parser)
    (here : parser.theStep = .psUnusedChunkExtension) (waiting : parser.doNeedMoreData = false) :
    Follows parser (parseUnusedChunkExtension parser) := by
  obtain ⟨left, chunk⟩ := wf.extension here
  have found := findCrlf_spec (isLine_extension parser.theLeftBodySize)
    { quoted := parser.inQuoted, slashed := parser.inSlashed } parser.theIn
  unfold parseUnusedChunkExtension
  dsimp only at found
  split
  · rename_i crlfBeg crlfEnd quoted slashed result
    rw [result] at found
    obtain ⟨low, high, rest⟩ := found
    refine follows_line ?_ waiting rfl rfl rfl rfl low (by omega) ?_
    · constructor <;> simp [chunk, left]
    · simpa [Parser.decoder, here, chunk] using rest
  · rename_i quoted slashed result
    rw [result] at found
    obtain ⟨_, rest⟩ := found
    have moved : decode parser.decoder parser.theIn = (.extension parser.theLeftBodySize
        { quoted, slashed }, []) := by
      simpa [Parser.decoder, here] using rest
    refine ⟨?_, ⟨parser.theIn, [], by simp, by simp, ?_⟩, ?_, fun _ => ⟨?_, ?_, ?_⟩, rfl⟩
    · constructor <;> simp [here, left, chunk]
    · rw [moved]
      simp [Parser.decoder, here]
    · simp [Parser.mayContinue]
    · simp [Parser.decoder, here, Decoder.Undecided]
    · simp
    · simp

theorem parseLastChunkExtension_follows (wf : WF parser)
    (here : parser.theStep = .psLastChunkExtension) (waiting : parser.doNeedMoreData = false) :
    Follows parser (parseLastChunkExtension parser) := by
  have chunk := wf.lastExtension here
  have unquoted := wf.unquoted (by simp [here])
  have found := findCrlf_spec isLine_lastExtension {} parser.theIn
  have decoder : parser.decoder = .lastExtension {} := by simp [Parser.decoder, here]
  unfold parseLastChunkExtension
  generalize findCrlf parser.theIn false false = result at found ⊢
  obtain ⟨_ | ⟨crlfBeg, crlfEnd⟩, quoted, slashed⟩ := result
  · obtain ⟨_, rest⟩ := found
    rw [← decoder] at rest
    exact follows_wait wf (waits_line rest trivial nofun)
  · obtain ⟨low, high, rest⟩ := found
    refine follows_line ?_ waiting rfl rfl rfl rfl low (by omega) ?_
    · constructor <;> simp [chunk, unquoted]
    · simpa [Parser.decoder, here, chunk] using rest

theorem parseChunkEnd_follows (wf : WF parser) (here : parser.theStep = .psChunkEnd)
    (waiting : parser.doNeedMoreData = false) : StepFollows parser (parseChunkEnd parser) := by
  have left := wf.chunkEnd here
  have unquoted := wf.unquoted (by simp [here])
  have found := findCrlf_spec isLine_chunkEnd {} parser.theIn
  have decoder : parser.decoder = .chunkEnd {} true := by simp [Parser.decoder, here]
  rw [parseChunkEnd, if_neg (by simp [left])]
  generalize findCrlf parser.theIn false false = result at found ⊢
  obtain ⟨_ | ⟨crlfBeg, crlfEnd⟩, quoted, slashed⟩ := result
  · obtain ⟨_, rest⟩ := found
    rw [← decoder] at rest
    exact follows_wait wf (waits_line rest trivial nofun)
  · obtain ⟨low, high, rest⟩ := found
    dsimp only
    by_cases blank : crlfBeg = 0
    · rw [if_neg (by simp [blank])]
      refine follows_line ?_ waiting rfl rfl rfl rfl low (by omega) ?_
      · constructor <;> simp [unquoted]
      · simpa [Parser.decoder, here, blank] using rest
    · rw [if_pos blank]
      have whole := decode_append (.chunkEnd {} true) (parser.theIn.take crlfEnd)
        (parser.theIn.drop crlfEnd)
      rw [take_append_drop] at whole
      rw [Nat.sub_zero] at rest
      simp [StepFollows, decoder, whole, rest, blank]

/-- A trailer header ends the message, is skipped, or is incomplete. -/
theorem parseTrailerHeader_follows (wf : WF parser) (here : parser.theStep = .psTrailer)
    (waiting : parser.doNeedMoreData = false) :
    Follows parser (parseTrailerHeader parser) := by
  have chunk := wf.trailer here
  have unquoted := wf.unquoted (by simp [here])
  have found := findCrlf_spec isLine_trailer {} parser.theIn
  have decoder : parser.decoder = .trailer {} true := by simp [Parser.decoder, here]
  unfold parseTrailerHeader
  generalize findCrlf parser.theIn false false = result at found ⊢
  obtain ⟨_ | ⟨crlfBeg, crlfEnd⟩, quoted, slashed⟩ := result
  · obtain ⟨_, rest⟩ := found
    rw [← decoder] at rest
    exact follows_wait wf (waits_line rest trivial nofun)
  · obtain ⟨low, high, rest⟩ := found
    by_cases blank : crlfBeg = 0
    · refine follows_line ?_ waiting rfl rfl rfl rfl low (by omega) ?_
      · constructor <;> simp [blank, unquoted]
      · simpa [Parser.decoder, here, blank] using rest
    · refine follows_line ?_ waiting rfl rfl rfl rfl low (by omega) ?_
      · constructor <;> simp [blank, here, unquoted, chunk]
      · simpa [Parser.decoder, here, blank] using rest

theorem Follows.trans {middle next : Parser} (first : Follows parser middle)
    (steps : middle.steps ≤ parser.steps) (second : Follows middle next) : Follows parser next := by
  obtain ⟨used, content, taken, out, decoded⟩ := first.decoded
  obtain ⟨used', content', taken', out', decoded'⟩ := second.decoded
  refine ⟨second.wf, ⟨used ++ used', content ++ content', ?_, ?_, ?_⟩, ?_, second.waits,
    second.capacity.trans first.capacity⟩
  · rw [taken, taken', List.append_assoc]
  · rw [out', out, List.append_assoc]
  · rw [decode_append, decoded, decoded']
    rfl
  · intro may
    have := second.progress may
    omega

theorem parseTrailerHeaders_of_not_mayContinue (stopped : parser.mayContinue = false)
    (fuel : ℕ) : parseTrailerHeaders fuel parser = parser := by
  cases fuel with
  | zero => rfl
  | succ fuel => simp [parseTrailerHeaders, stopped]

theorem parseTrailerHeader_theStep (here : parser.theStep = .psTrailer) :
    (parseTrailerHeader parser).theStep = .psTrailer ∨
      (parseTrailerHeader parser).theStep = .psMessageEnd := by
  unfold parseTrailerHeader
  split
  · dsimp only
    split
    · exact .inr rfl
    · exact .inl here
  · exact .inl here

theorem parseTrailerHeaders_follows (wf : WF parser) (here : parser.theStep = .psTrailer)
    (may : parser.mayContinue = true) {fuel : ℕ} (enough : parser.theIn.length < fuel) :
    Follows parser (parseTrailerHeaders fuel parser) := by
  induction fuel generalizing parser with
  | zero => omega
  | succ fuel ih =>
      have header := parseTrailerHeader_follows wf here (continue_of_mayContinue may).1
      rw [parseTrailerHeaders, if_pos may]
      cases again : (parseTrailerHeader parser).mayContinue with
      | false =>
          rw [parseTrailerHeaders_of_not_mayContinue again]
          exact header
      | true =>
          have shorter := header.progress again
          have still : (parseTrailerHeader parser).theStep = .psTrailer :=
            (parseTrailerHeader_theStep here).resolve_right (continue_of_mayContinue again).2.2
          simp only [Parser.steps, still, here, reduceCtorEq, if_false, add_zero] at shorter
          refine header.trans ?_ (ih header.wf still again (by omega))
          simp only [Parser.steps, still, here]
          omega

theorem parseTrailer_follows (wf : WF parser) (here : parser.theStep = .psTrailer)
    (may : parser.mayContinue = true) : StepFollows parser (parseTrailer parser) := by
  rw [parseTrailer, if_neg (by simp [wf.trailer here])]
  exact parseTrailerHeaders_follows wf here may (Nat.lt_succ_self _)

/-! ## The body -/

theorem decode_body_take {left count : ℕ} {content : Bytes} (positive : 0 < left)
    (le : count ≤ left) (short : count ≤ content.length) :
    decode (.body left) (content.take count) =
      (if left - count = 0 then .chunkEnd {} true else .body (left - count),
        content.take count) := by
  have length : (content.take count).length = count := by simpa using short
  by_cases all : left - count = 0
  · have whole : left = (content.take count).length := by omega
    have ne : content.take count ≠ [] := by
      intro empty
      simp only [empty, length_nil] at length
      omega
    rw [if_pos all]
    nth_rewrite 1 [whole]
    exact decode_body_all ne
  · rw [if_neg all, decode_body (by omega), length]

theorem safeSize_le (parser : Parser) :
    parser.safeSize ≤ parser.theLeftBodySize ∧ parser.safeSize ≤ parser.theIn.length := by
  simp only [Parser.safeSize, Parser.availSize]
  omega

section

variable (here : parser.theStep = .psChunkBody)
include here

/-- The body step stops for one of its two reasons. -/
theorem moveBody_stops (more : parser.theLeftBodySize - parser.safeSize ≠ 0) :
    parser.moveBody.doNeedMoreData = true ∨ parser.moveBody.needsMoreSpace = true := by
  simp only [Parser.moveBody, Parser.needsMoreSpace, Parser.potentialSpaceSize, here, decide_true,
    Bool.true_and, decide_eq_true_iff, length_append, length_take]
  simp only [Parser.safeSize, Parser.availSize, Parser.potentialSpaceSize] at more ⊢
  omega

/-- With space left, all that is there of the body has been moved. -/
theorem moveBody_theIn_nil (waits : parser.moveBody.doNeedMoreData = true)
    (space : parser.moveBody.needsMoreSpace = false) : parser.moveBody.theIn = [] := by
  simp only [Parser.moveBody, Parser.needsMoreSpace, Parser.potentialSpaceSize, here, decide_true,
    Bool.true_and, decide_eq_true_iff, decide_eq_false_iff_not, length_append,
    length_take, drop_eq_nil_iff] at waits space ⊢
  simp only [Parser.safeSize, Parser.availSize, Parser.potentialSpaceSize] at waits space ⊢
  omega

theorem moveBody_decoded (left : 0 < parser.theLeftBodySize) :
    decode parser.decoder (parser.theIn.take parser.safeSize) =
      (if parser.moveBody.theLeftBodySize = 0 then .chunkEnd {} true
        else .body parser.moveBody.theLeftBodySize, parser.theIn.take parser.safeSize) := by
  have bounds := safeSize_le parser
  simp only [Parser.decoder, here]
  exact decode_body_take left bounds.1 bounds.2

end

theorem parseChunkBody_follows (wf : WF parser) (here : parser.theStep = .psChunkBody)
    (may : parser.mayContinue = true) : StepFollows parser (parseChunkBody parser) := by
  have left := wf.body here
  have unquoted := wf.unquoted (by simp [here])
  have bounds := safeSize_le parser
  have decoded := moveBody_decoded here left
  have space : 0 < parser.potentialSpaceSize := by
    have room := (continue_of_mayContinue may).2.1
    simp only [Parser.needsMoreSpace, here, decide_true, Bool.true_and, decide_eq_false_iff_not]
      at room
    omega
  rw [parseChunkBody, if_neg (by omega)]
  by_cases all : parser.moveBody.theLeftBodySize = 0
  · rw [if_pos all] at decoded ⊢
    have enough : parser.moveBody.doNeedMoreData = false := by
      simp only [Parser.moveBody, decide_eq_false_iff_not] at all ⊢
      simp only [Parser.safeSize, Parser.availSize] at all ⊢
      omega
    refine ⟨?_, ⟨_, _, (take_append_drop parser.safeSize parser.theIn).symm, rfl, ?_⟩, ?_, ?_,
      rfl⟩
    · have none_left : parser.theLeftBodySize - parser.safeSize = 0 := all
      constructor <;> simp [none_left, Parser.moveBody, unquoted]
    · rw [decoded]
      simp [Parser.decoder]
    · intro _
      simp only [Parser.steps, here, reduceCtorEq, if_false, Parser.moveBody, length_drop]
      simp only [Parser.moveBody] at all
      omega
    · simp [enough]
  · rw [if_neg all] at decoded ⊢
    have stops := moveBody_stops here all
    have still : parser.moveBody.theStep = .psChunkBody := here
    rw [if_pos (by simpa using stops)]
    have decoder : parser.moveBody.decoder = .body parser.moveBody.theLeftBodySize := by
      simp [Parser.decoder, still]
    refine ⟨?_, ⟨_, _, (take_append_drop parser.safeSize parser.theIn).symm, rfl, ?_⟩, ?_, ?_,
      rfl⟩
    · constructor <;> simp [here, Parser.moveBody, unquoted]
      exact Nat.lt_of_sub_ne_zero all
    · rw [decoded, decoder]
    · intro again
      have stopped := continue_of_mayContinue again
      simp [stopped.1, stopped.2.1] at stops
    · intro waits
      have short : parser.moveBody.theIn.length < parser.moveBody.theLeftBodySize := by
        simp only [Parser.moveBody, decide_eq_true_iff, length_drop] at waits ⊢
        simp only [Parser.availSize] at waits
        omega
      refine ⟨?_, fun space => ?_, ?_⟩
      · rw [decoder, decode_body short]
        trivial
      · rw [moveBody_theIn_nil here waits space, decode_nil]
      · simp [decoder, decode_body short]

/-- Every step but the one for the chunk size follows the decoder. -/
theorem step_follows (wf : WF parser) (may : parser.mayContinue = true)
    (other : parser.theStep ≠ .psChunkSize) : StepFollows parser parser.step := by
  obtain ⟨waiting, _, running⟩ := continue_of_mayContinue may
  unfold Parser.step
  split <;> rename_i here
  · exact absurd here other
  · exact parseUnusedChunkExtension_follows wf here waiting
  · exact parseLastChunkExtension_follows wf here waiting
  · exact parseChunkBody_follows wf here may
  · exact parseChunkEnd_follows wf here waiting
  · exact parseTrailer_follows wf here may
  · exact absurd here running

end Steps

end Chunked
end Squid
