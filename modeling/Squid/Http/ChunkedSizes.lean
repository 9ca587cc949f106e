import Squid.Http.ChunkedSimulation

/-!
# Chunk sizes

`parseChunkSize` makes sure that a byte after the hexadecimal digits has arrived, and leaves the
number to `strtoll`.  That function also takes white space and a sign before the digits, and a
`0x`, none of which the check has looked at: there the size depends on how much has arrived.
Everywhere else the step follows the decoder.
-/

namespace Squid
namespace Chunked

open CRuntime List

/-- White space or a sign before the digits of a size that is not negative. -/
def SignedSize (bytes : Bytes) : Prop :=
  ∃ blanks sign d rest, bytes = blanks ++ (sign ++ d :: rest) ∧ blanks ++ sign ≠ [] ∧
    (∀ b ∈ blanks, isSpace b = true) ∧ isDigit 16 d = true ∧
    (sign = [] ∨ sign = [43] ∨ sign = [45] ∧ d = 48)

/-- A `0x` before a size other than zero, on a line that is complete and not the last one. -/
def MarkedSize (bytes : Bytes) : Prop :=
  ∃ x digits line b rest, bytes = 48 :: x :: (digits ++ (line ++ b :: rest)) ∧
    (x = 120 ∨ x = 88) ∧ (∀ d ∈ digits, isDigit 16 d = true) ∧ magnitude 16 digits ≠ 0 ∧
    ∃ crlfBeg, (findCrlf line false false).1 = some (crlfBeg, line.length)

/-- What `parseChunkSize` reads at the start of the bytes depends on how they arrive. -/
def Ambiguous (bytes : Bytes) : Prop := SignedSize bytes ∨ MarkedSize bytes

variable {bytes : Bytes}

theorem Ambiguous.append (ambiguous : Ambiguous bytes) (more : Bytes) :
    Ambiguous (bytes ++ more) := by
  obtain ⟨blanks, sign, d, rest, rfl, signed⟩ | ⟨x, digits, line, b, rest, rfl, marked⟩ := ambiguous
  · exact .inl ⟨blanks, sign, d, rest ++ more, by simp, signed⟩
  · exact .inr ⟨x, digits, line, b, rest ++ more, by simp, marked⟩

/-! ## Lines without sizes -/

/-- A hexadecimal digit is no special byte of a line. -/
theorem feed_digit {d : UInt8} (digit : isDigit 16 d = true) : ({} : Quote).feed d = some {} := by
  rw [isDigit_sixteen_iff] at digit
  have quote : d ≠ 34 := by rw [ne_eq, ← UInt8.toNat_inj]; simp; omega
  have lf : d ≠ 10 := by rw [ne_eq, ← UInt8.toNat_inj]; simp; omega
  simp [Quote.feed, quote, lf]

variable {eol : Bool → Decoder} {stay : Quote → Bool → Decoder}

/-- Bytes that are not special do not end a line. -/
theorem IsLine.decode_plain (line : IsLine stay eol)
    (plain : ∀ b ∈ bytes, ({} : Quote).feed b = some {}) (blank : Bool) :
    ∃ after, decode (stay {} blank) bytes = (stay {} after, []) := by
  induction bytes generalizing blank with
  | nil => exact ⟨blank, rfl⟩
  | cons b bytes ih =>
      obtain ⟨after, rest⟩ := ih (fun c member => plain c (by simp [member])) (staysBlank {} blank b)
      refine ⟨after, ?_⟩
      rw [decode_cons, line, plain b (by simp)]
      exact rest

theorem decode_extension_plain (plain : ∀ b ∈ bytes, ({} : Quote).feed b = some {}) (left : ℕ) :
    decode (.extension left {}) bytes = (.extension left {}, []) := by
  obtain ⟨_, decoded⟩ := (isLine_extension left).decode_plain plain true
  exact decoded

theorem decode_lastExtension_plain (plain : ∀ b ∈ bytes, ({} : Quote).feed b = some {}) :
    decode (.lastExtension {}) bytes = (.lastExtension {}, []) := by
  obtain ⟨_, decoded⟩ := isLine_lastExtension.decode_plain plain true
  exact decoded

variable {crlfBeg : ℕ}

/-- A line that `findCrlf` finds to end with its last byte. -/
theorem IsLine.decode_ends (isLine : IsLine stay eol) {line : Bytes}
    (ends : (findCrlf line false false).1 = some (crlfBeg, line.length)) :
    decode (stay {} true) line = (eol (crlfBeg = 0), []) := by
  have found := findCrlf_spec isLine {} line
  dsimp only at found
  generalize findCrlf line false false = result at ends found
  obtain ⟨place, quoted, slashed⟩ := result
  dsimp only at ends
  subst ends
  have whole := found.2.2
  rwa [Nat.sub_zero, take_length] at whole

/-- A state after the last size. -/
def Decoder.Last : Decoder → Prop
  | .lastExtension _ | .trailer _ _ | .done _ => True
  | _ => False

variable {decoder : Decoder}

theorem Decoder.Last.feed (last : decoder.Last) (b : UInt8) : (decoder.feed b).1.Last := by
  cases decoder <;> first | exact last.elim | skip
  all_goals
    simp only [Decoder.feed]
    repeat' split
    all_goals trivial

theorem decode_last (last : decoder.Last) (bytes : Bytes) : (decode decoder bytes).1.Last := by
  induction bytes generalizing decoder with
  | nil => exact last
  | cons b bytes ih => exact ih (last.feed b)

theorem Decoder.Last.silent (last : decoder.Last) (b : UInt8) : (decoder.feed b).2 = [] := by
  cases decoder <;> first | exact last.elim | skip
  all_goals
    simp only [Decoder.feed]
    repeat' split
    all_goals rfl

variable {holds : Bytes → Prop}

theorem atSizes_last (last : decoder.Last) (bytes : Bytes) : AtSizes holds decoder bytes := by
  induction bytes generalizing decoder with
  | nil => trivial
  | cons b bytes ih =>
      refine ⟨?_, ih (last.feed b)⟩
      rintro rfl
      exact last.elim

/-- Without content, a line of extensions has not been left far behind. -/
theorem atSizes_extension {left : ℕ} {quote : Quote}
    (silent : (decode (.extension left quote) bytes).2 = []) :
    AtSizes holds (.extension left quote) bytes := by
  induction bytes generalizing quote with
  | nil => trivial
  | cons b bytes ih =>
      refine ⟨nofun, ?_⟩
      rw [decode_cons, Decoder.feed] at silent
      rw [Decoder.feed]
      cases fed : quote.feed b with
      | some after =>
          rw [fed] at silent
          exact ih silent
      | none =>
          rw [fed] at silent
          cases bytes with
          | nil => trivial
          | cons c bytes => simp [before, decode_cons, Decoder.feed] at silent

/-- The bytes after the end of a line do not matter for finding it. -/
theorem findCrlfFrom_take {i : ℕ} {crOff : Option ℕ} {quoted slashed : Bool} {content : Bytes}
    {crlfEnd : ℕ}
    (found : (findCrlfFrom i crOff quoted slashed content).1 = some (crlfBeg, crlfEnd)) :
    i < crlfEnd ∧ (findCrlfFrom i crOff quoted slashed (content.take (crlfEnd - i))).1 =
      some (crlfBeg, crlfEnd) := by
  have longer : ∀ {i : ℕ} {c : UInt8} {rest : Bytes}, i + 1 < crlfEnd →
      (c :: rest).take (crlfEnd - i) = c :: rest.take (crlfEnd - (i + 1)) := by
    intro i c rest low
    rw [show crlfEnd - i = crlfEnd - (i + 1) + 1 by omega, take_succ_cons]
  fun_induction findCrlfFrom i crOff quoted slashed content with
  | case1 => simp at found
  | case7 i c rest | case10 i c rest =>
      obtain ⟨rfl, rfl⟩ : _ = crlfBeg ∧ i + 1 = crlfEnd := by simpa using found
      refine ⟨by omega, ?_⟩
      rw [Nat.add_sub_cancel_left, take_succ_cons]
      simp [findCrlfFrom, *]
  | _ =>
      rename_i ih
      obtain ⟨low, later⟩ := ih found
      refine ⟨by omega, ?_⟩
      rw [longer low]
      simp [findCrlfFrom, *]

/-! ## Steps towards the decoder's outcome -/

/-- `next` is on the way of `parser`, when `future` follows the raw content. -/
structure Advances (future : Bytes) (parser next : Parser) : Prop where
  wf : WF next
  concluded : ∀ emitted,
    conclude (emitted ++ next.theOut) (decode next.decoder (next.theIn ++ future)) =
      conclude (emitted ++ parser.theOut) (decode parser.decoder (parser.theIn ++ future))
  sizes : ∀ holds, AtSizes holds parser.decoder (parser.theIn ++ future) →
    AtSizes holds next.decoder (next.theIn ++ future)
  atSize : (decode parser.decoder (parser.theIn ++ future)).1 = .size [] →
    (decode next.decoder (next.theIn ++ future)).1 = .size []
  shrinks : next.theOut.length + next.theIn.length ≤ parser.theOut.length + parser.theIn.length
  capacity : next.max_capacity = parser.max_capacity

variable {parser : Parser}

variable {next : Parser}

theorem Advances.trans {future : Bytes} {middle : Parser} (first : Advances future parser middle)
    (second : Advances future middle next) :
    Advances future parser next where
  wf := second.wf
  concluded emitted := (second.concluded emitted).trans (first.concluded emitted)
  sizes holds atSizes := second.sizes holds (first.sizes holds atSizes)
  atSize starts := second.atSize (first.atSize starts)
  shrinks := second.shrinks.trans first.shrinks
  capacity := second.capacity.trans first.capacity

/-- A step advances, and throws only where the decoder fails. -/
def StepAdvances (future : Bytes) (parser : Parser) : Except Failure Parser → Prop
  | .ok next => Advances future parser next ∧
    (next.mayContinue = true → next.steps < parser.steps) ∧
      (next.doNeedMoreData = true → Waits next)
  | .error _ => (decode parser.decoder (parser.theIn ++ future)).1 = .failed

theorem Follows.advances (follows : Follows parser next) (future : Bytes) :
    Advances future parser next := by
  obtain ⟨used, content, taken, out, decoded⟩ := follows.decoded
  have whole : parser.theIn ++ future = used ++ (next.theIn ++ future) := by
    rw [taken, List.append_assoc]
  refine ⟨follows.wf, ?_, ?_, ?_, ?_, follows.capacity⟩
  · intro emitted
    rw [whole, decode_append parser.decoder, decoded, conclude_before, out, List.append_assoc]
  · intro holds atSizes
    rw [whole, atSizes_append, decoded] at atSizes
    exact atSizes.2
  · intro starts
    rwa [whole, decode_append parser.decoder, decoded] at starts
  · have short := length_decode_le parser.decoder used
    rw [decoded] at short
    simp only [out, taken, length_append]
    dsimp only at short
    omega

theorem StepFollows.advances {result : Except Failure Parser} (follows : StepFollows parser result)
    (future : Bytes) : StepAdvances future parser result := by
  cases result with
  | ok next =>
      have step : Follows parser next := follows
      exact ⟨step.advances future, step.progress, step.waits⟩
  | error failure =>
      have failed : (decode parser.decoder parser.theIn).1 = .failed := follows
      simp [StepAdvances, decode_append, failed, before]

/-! ## The step for the size -/

/-- A number that is read although no digit comes first is ambiguous or negative. -/
theorem stringToInt64_unread {b : UInt8} (other : isDigit 16 b = false)
    (unsigned : ¬ SignedSize (b :: bytes)) :
    StringToInt64 (b :: bytes) 16 = none ∨
      ∃ size p, StringToInt64 (b :: bytes) 16 = some (size, p) ∧ size < 0 := by
  obtain ⟨sign, signed, kinds⟩ := skipSign_spec ((b :: bytes).dropWhile isSpace)
  by_cases found : ∃ d rest,
      (skipSign ((b :: bytes).dropWhile isSpace)).2 = d :: rest ∧ isDigit 16 d = true
  · obtain ⟨d, rest, tail, digit⟩ := found
    rw [tail] at signed
    have whole : b :: bytes = (b :: bytes).takeWhile isSpace ++ (sign ++ d :: rest) := by
      rw [← signed, takeWhile_append_dropWhile]
    have ne : (b :: bytes).takeWhile isSpace ++ sign ≠ [] := by
      intro empty
      obtain ⟨no_blanks, no_sign⟩ := append_eq_nil_iff.mp empty
      rw [no_blanks, no_sign] at whole
      obtain ⟨rfl, -⟩ := List.cons.inj whole
      simp [digit] at other
    have kept (plain : sign = [] ∨ sign = [43] ∨ sign = [45] ∧ d = 48) : False :=
      unsigned ⟨_, sign, d, rest, whole, ne, fun c member => mem_takeWhile_imp member, digit,
        plain⟩
    obtain ⟨plus, -⟩ | ⟨minus, negative⟩ := kinds
    · exact (kept (plus.imp_right .inl)).elim
    · have nonzero : d ≠ 48 := fun zero => kept (.inr (.inr ⟨minus, zero⟩))
      have read := strtoll_some (Prod.ext negative tail) digit nonzero
      have shorter : (rest.dropWhile (isDigit 16)).length < (b :: bytes).length := by
        have := (dropWhile_suffix (isDigit 16) (l := rest)).length_le
        rw [whole, length_append, length_append, length_cons]
        omega
      right
      refine ⟨_, _, by rw [StringToInt64, read, if_pos (Nat.ne_of_lt shorter)], ?_⟩
      have first : magnitude 16 [d] ≠ 0 := by
        simpa [magnitude] using digitValue_sixteen_ne_zero digit nonzero
      have positive : magnitude 16 (d :: rest.takeWhile (isDigit 16)) ≠ 0 :=
        magnitude_append_ne_zero (by decide) first _
      simp only [saturate, if_true]
      omega
  · left
    have read := strtoll_none (s := b :: bytes) fun d rest tail => by
      by_contra digit
      exact found ⟨d, rest, tail, by simpa using digit⟩
    simp [StringToInt64, read]

section Size

variable {parser : Parser} {future : Bytes}

theorem parseChunkSize_wait (wf : WF parser) (here : parser.theStep = .psChunkSize)
    (digits : ∀ b ∈ parser.theIn, isDigit 16 b = true) :
    Follows parser { parser with doNeedMoreData := true } := by
  have decoded : decode { parser with doNeedMoreData := true : Parser }.decoder parser.theIn =
      (.size parser.theIn, []) := by
    simp only [Parser.decoder, here]
    simpa using decode_size_digits digits []
  refine follows_wait wf ⟨?_, ?_, ?_⟩ <;> simp [decoded, Decoder.Undecided]

/-- The parser goes on to the extensions of a chunk with a body. -/
theorem stepAdvances_sized (wf : WF parser) (here : parser.theStep = .psChunkSize)
    (waiting : parser.doNeedMoreData = false) {size : ℕ} (positive : size ≠ 0)
    (concluded : ∀ emitted,
      conclude emitted (decode (.extension size {}) (parser.theIn ++ future)) =
      conclude emitted (decode (.size []) (parser.theIn ++ future)))
    (sizes : ∀ holds, AtSizes holds (.size []) (parser.theIn ++ future) →
      AtSizes holds (.extension size {}) (parser.theIn ++ future))
    (atSize : (decode (.size []) (parser.theIn ++ future)).1 = .size [] →
      (decode (.extension size {}) (parser.theIn ++ future)).1 = .size []) :
    StepAdvances future parser (.ok { parser with
      theChunkSize := size
      theLeftBodySize := size
      theStep := .psUnusedChunkExtension }) := by
  have unquoted := wf.unquoted (by simp [here])
  refine ⟨⟨?_, ?_, ?_, ?_, le_rfl, rfl⟩, ?_, ?_⟩
  · constructor <;> simp [positive, Nat.pos_of_ne_zero]
  · intro emitted
    simpa [Parser.decoder, here, unquoted] using concluded (emitted ++ parser.theOut)
  · simpa [Parser.decoder, here, unquoted] using sizes
  · simpa [Parser.decoder, here, unquoted] using atSize
  · simp [Parser.steps, here]
  · simp [waiting]

variable {p : Bytes}

/-- The parser goes on to the extensions of the last chunk. -/
theorem stepAdvances_last (wf : WF parser) (here : parser.theStep = .psChunkSize)
    (waiting : parser.doNeedMoreData = false) (shorter : p.length < parser.theIn.length)
    (decoded : decode (.size []) (parser.theIn ++ future) =
      decode (.lastExtension {}) (p ++ future)) :
    StepAdvances future parser (.ok { parser with
      theChunkSize := 0
      theLeftBodySize := 0
      theIn := p
      theStep := .psLastChunkExtension }) := by
  have unquoted := wf.unquoted (by simp [here])
  refine ⟨⟨?_, ?_, ?_, ?_, ?_, rfl⟩, ?_, ?_⟩
  · constructor <;> simp [unquoted]
  · intro emitted
    simp [Parser.decoder, here, decoded]
  · intro holds _
    exact atSizes_last (show Decoder.Last (.lastExtension {}) from trivial) _
  · simp [Parser.decoder, here, decoded]
  · simp only
    omega
  · intro _
    simp only [Parser.steps, here, reduceCtorEq, if_false, if_true]
    omega
  · simp [waiting]

variable {b : UInt8} {digits : Bytes}

/-- The decoder after digits and another byte. -/
theorem decode_size_number (ne : digits ≠ []) (all : ∀ b ∈ digits, isDigit 16 b = true)
    (other : isDigit 16 b = false) (rest : Bytes) :
    decode (.size []) (digits ++ b :: rest) =
      if chunkSize digits = 0 then decode (.lastExtension {}) (b :: rest)
      else decode (.extension (chunkSize digits) {}) (b :: rest) := by
  rw [decode_append, decode_size_digits all, List.nil_append, before_nil, decode_cons, decode_cons,
    decode_cons]
  simp only [Decoder.feed, other, Bool.false_eq_true, if_false, ne]
  split <;> rfl

variable {rest : Bytes}

theorem atSizes_size_number {holds : Bytes → Prop} (ne : digits ≠ [])
    (all : ∀ b ∈ digits, isDigit 16 b = true) (other : isDigit 16 b = false)
    (positive : chunkSize digits ≠ 0) (atSizes : AtSizes holds (.size []) (digits ++ b :: rest)) :
    AtSizes holds (.extension (chunkSize digits) {}) (digits ++ b :: rest) := by
  have plain := decode_extension_plain (fun d member => feed_digit (all d member))
    (chunkSize digits)
  rw [atSizes_append] at atSizes ⊢
  refine ⟨atSizes_extension (by rw [plain]), ?_⟩
  have after := atSizes.2.2
  rw [decode_size_digits all] at after
  rw [plain]
  refine ⟨nofun, ?_⟩
  simpa [Decoder.feed, other, ne, positive] using after

theorem chunkSize_eq (digits : Bytes) :
    (saturate false (magnitude 16 digits)).toNat = chunkSize digits := by
  simp only [saturate, Bool.false_eq_true, if_false, chunkSize]
  omega

variable {value : ℕ}

/-- The number read by `StringToInt64` decides on the next step. -/
theorem parseChunkSize_read (wf : WF parser) (here : parser.theStep = .psChunkSize)
    (arrived : parser.theIn.dropWhile (isDigit 16) ≠ [])
    (read : strtoll 16 parser.theIn = (saturate false value, p))
    (shorter : p.length < parser.theIn.length) :
    parseChunkSize parser =
      if value = 0 then
        .ok { parser with
          theChunkSize := 0
          theLeftBodySize := 0
          theIn := p
          theStep := .psLastChunkExtension }
      else
        .ok { parser with
          theChunkSize := (saturate false value).toNat
          theLeftBodySize := (saturate false value).toNat
          theStep := .psUnusedChunkExtension } := by
  have nonneg := saturate_false_nonneg value
  rw [parseChunkSize, if_neg (by simp [wf.size here]), if_neg arrived, StringToInt64, read,
    if_pos (Nat.ne_of_lt shorter)]
  dsimp only
  rw [if_neg (by omega)]
  by_cases zero : value = 0
  · rw [if_neg (by simp [saturate_false_eq_zero, zero]), if_pos zero]
  · rw [if_pos (by simp [saturate_false_eq_zero, zero]), if_neg zero]

theorem saturate_toNat_ne_zero (ne : value ≠ 0) : (saturate false value).toNat ≠ 0 := by
  simp only [saturate, Bool.false_eq_true, if_false]
  omega

/-- Digits without a `0x` are read as the decoder does. -/
theorem parseChunkSize_unmarked (wf : WF parser) (here : parser.theStep = .psChunkSize)
    (waiting : parser.doNeedMoreData = false) (whole : parser.theIn = digits ++ b :: rest)
    (ne : digits ≠ []) (all : ∀ d ∈ digits, isDigit 16 d = true) (other : isDigit 16 b = false)
    (unmarked : skipHexMark 16 (digits ++ b :: rest) = digits ++ b :: rest) :
    StepAdvances future parser (parseChunkSize parser) := by
  have arrived : parser.theIn.dropWhile (isDigit 16) ≠ [] := by
    rw [whole, dropWhile_append_of_pos all]
    simp [other]
  have read : strtoll 16 parser.theIn = (saturate false (magnitude 16 digits), b :: rest) := by
    rw [whole]
    exact strtoll_hex ne all (by simp [other]) unmarked
  have shorter : (b :: rest).length < parser.theIn.length := by
    have := length_pos_iff.mpr ne
    simp only [whole, length_append]
    omega
  have longer : parser.theIn ++ future = digits ++ b :: (rest ++ future) := by simp [whole]
  have decoded := decode_size_number ne all other (rest ++ future)
  have same : chunkSize digits = 0 ↔ magnitude 16 digits = 0 := by
    simp only [chunkSize]
    omega
  rw [parseChunkSize_read wf here arrived read shorter]
  by_cases zero : magnitude 16 digits = 0
  · rw [if_pos zero]
    refine stepAdvances_last wf here waiting shorter ?_
    rw [longer, decoded, if_pos (same.mpr zero), cons_append]
  · rw [if_neg zero]
    have sized : decode (.extension (saturate false (magnitude 16 digits)).toNat {})
        (parser.theIn ++ future) = decode (.size []) (parser.theIn ++ future) := by
      rw [longer, decoded, if_neg (by simpa [same] using zero), chunkSize_eq, decode_append,
        decode_extension_plain fun d member => feed_digit (all d member), before_nil]
    refine stepAdvances_sized wf here waiting (saturate_toNat_ne_zero zero) (fun _ => by rw [sized])
      ?_ (by rw [sized]; exact id)
    intro holds atSizes
    rw [longer] at atSizes ⊢
    rw [chunkSize_eq]
    exact atSizes_size_number ne all other (by simpa [same] using zero) atSizes

variable {x : UInt8}

section

variable (mark : x = 120 ∨ x = 88)
include mark

/-- A chunk size that the decoder takes for zero makes no difference when nothing but the rest of
its line follows. -/
theorem conclude_marked {tail : Bytes} (all : ∀ d ∈ digits, isDigit 16 d = true)
    (nonzero : magnitude 16 digits ≠ 0) (unambiguous : ¬ MarkedSize (48 :: x :: (digits ++ tail)))
    (size : ℕ) :
    (decode (.extension size {}) tail).2 = [] ∧
      ∀ emitted, conclude emitted (decode (.extension size {}) tail) =
        conclude emitted (decode (.lastExtension {}) tail) := by
  have sized := findCrlf_spec (isLine_extension size) {} tail
  have last := findCrlf_spec isLine_lastExtension {} tail
  cases found : findCrlf tail false false with
  | mk place quote =>
      dsimp only at sized last
      rw [found] at sized last
      cases place with
      | none =>
          obtain ⟨_, sized⟩ := sized
          obtain ⟨_, last⟩ := last
          rw [sized, last]
          exact ⟨rfl, fun _ => rfl⟩
      | some crlf =>
          obtain ⟨crlfBeg, crlfEnd⟩ := crlf
          obtain ⟨-, high, sized⟩ := sized
          obtain ⟨-, -, last⟩ := last
          have line := (findCrlfFrom_take (congrArg Prod.fst found)).2
          have length : (tail.take crlfEnd).length = crlfEnd := by
            rw [length_take]
            omega
          rw [Nat.sub_zero] at sized last line
          have nothing : tail.drop crlfEnd = [] := by
            by_contra more
            obtain ⟨b, rest, split⟩ := exists_cons_of_ne_nil more
            refine unambiguous ⟨x, digits, tail.take crlfEnd, b, rest, ?_, mark, all, nonzero,
              crlfBeg, by rw [length]; exact line⟩
            rw [← split, take_append_drop]
          have whole : tail = tail.take crlfEnd := by
            nth_rewrite 1 [← take_append_drop crlfEnd tail]
            rw [nothing, List.append_nil]
          rw [whole, sized, last]
          exact ⟨rfl, fun _ => rfl⟩

theorem mark_spec : isDigit 16 x = false ∧ ({} : Quote).feed x = some {} := by
  rcases mark with rfl | rfl <;> decide

/-- A `0x` with its digits is no special part of a line. -/
theorem feed_marked (all : ∀ d ∈ digits, isDigit 16 d = true) :
    ∀ c ∈ 48 :: x :: digits, ({} : Quote).feed c = some {} := by
  intro c member
  rcases mem_cons.mp member with rfl | member
  · rfl
  · rcases mem_cons.mp member with rfl | digit
    · exact (mark_spec mark).2
    · exact feed_digit (all c digit)

/-- The decoder takes the zero of a `0x` for the size. -/
theorem decode_mark (bytes : Bytes) :
    decode (.size []) (48 :: x :: bytes) = decode (.lastExtension {}) (x :: bytes) :=
  decode_size_number (cons_ne_nil 48 []) (forall_mem_singleton.2 (by decide))
    (mark_spec mark).1 bytes

end

theorem parseChunkSize_mark (wf : WF parser) (here : parser.theStep = .psChunkSize)
    (waiting : parser.doNeedMoreData = false) (mark : x = 120 ∨ x = 88)
    (whole : parser.theIn = 48 :: x :: rest) (arrived : parser.theIn.dropWhile (isDigit 16) ≠ [])
    (none : rest.takeWhile (isDigit 16) = []) :
    StepAdvances future parser (parseChunkSize parser) := by
  have read : strtoll 16 parser.theIn = (saturate false 0, x :: rest) := by
    rw [whole, strtoll_marked mark, if_pos none]
    rfl
  rw [parseChunkSize_read wf here arrived read (by simp [whole]), if_pos rfl]
  refine stepAdvances_last wf here waiting (by simp [whole]) ?_
  rw [whole]
  exact decode_mark mark (rest ++ future)

/-- After a `0x` the step may depart from the decoder, but not so that it can be seen. -/
theorem parseChunkSize_marked (wf : WF parser) (here : parser.theStep = .psChunkSize)
    (waiting : parser.doNeedMoreData = false) (mark : x = 120 ∨ x = 88) {tail : Bytes}
    (whole : parser.theIn = 48 :: x :: (digits ++ tail))
    (arrived : parser.theIn.dropWhile (isDigit 16) ≠ [])
    (read : strtoll 16 parser.theIn = (saturate false (magnitude 16 digits), tail))
    (all : ∀ d ∈ digits, isDigit 16 d = true) (unambiguous : ¬ Ambiguous (parser.theIn ++ future)) :
    StepAdvances future parser (parseChunkSize parser) := by
  have plain := feed_marked mark all
  have longer : parser.theIn ++ future = 48 :: x :: (digits ++ (tail ++ future)) := by
    simp [whole]
  have last : decode (.size []) (parser.theIn ++ future) =
      decode (.lastExtension {}) (tail ++ future) := by
    rw [longer, decode_mark mark, ← cons_append, decode_append,
      decode_lastExtension_plain fun c member => plain c (List.mem_cons_of_mem _ member),
      before_nil]
  have shorter : tail.length < parser.theIn.length := by
    simp only [whole, length_cons, length_append]
    omega
  rw [parseChunkSize_read wf here arrived read shorter]
  by_cases zero : magnitude 16 digits = 0
  · rw [if_pos zero]
    exact stepAdvances_last wf here waiting shorter last
  · rw [if_neg zero]
    rw [longer] at unambiguous
    have unseen := conclude_marked mark all zero (fun marked => unambiguous (.inr marked))
      (saturate false (magnitude 16 digits)).toNat
    have sized : decode (.extension (saturate false (magnitude 16 digits)).toNat {})
        (parser.theIn ++ future) =
          decode (.extension (saturate false (magnitude 16 digits)).toNat {}) (tail ++ future) := by
      rw [longer, ← cons_append, ← cons_append, decode_append,
        decode_extension_plain plain, before_nil]
    refine stepAdvances_sized wf here waiting (saturate_toNat_ne_zero zero) ?_ ?_ ?_
    · intro emitted
      rw [sized, last]
      exact unseen.2 emitted
    · intro holds _
      exact atSizes_extension (by rw [sized]; exact unseen.1)
    · intro starts
      have stays := decode_last (show Decoder.Last (.lastExtension {}) from trivial)
        (tail ++ future)
      rw [← last, starts] at stays
      exact stays.elim

theorem skipHexMark_eq (ne : digits ≠ []) (all : ∀ d ∈ digits, isDigit 16 d = true)
    (unmarked : digits = [48] → ¬ (b = 120 ∨ b = 88)) :
    skipHexMark 16 (digits ++ b :: rest) = digits ++ b :: rest := by
  rcases digits with - | ⟨d, - | ⟨e, digits⟩⟩
  · exact absurd rfl ne
  · by_cases zero : d = 48
    · subst zero
      have := unmarked rfl
      simp [skipHexMark, this]
    · exact skipHexMark_of_head zero _
  · have digit := all e (by simp)
    have : ¬ (e = 120 ∨ e = 88) := fun mark => by simp [(mark_spec mark).1] at digit
    by_cases zero : d = 48
    · subst zero
      simp [skipHexMark, this]
    · exact skipHexMark_of_head zero _

/-- Without a digit in the first place the step throws, as the decoder fails. -/
theorem parseChunkSize_unread (wf : WF parser) (here : parser.theStep = .psChunkSize)
    (whole : parser.theIn = b :: rest) (other : isDigit 16 b = false)
    (unambiguous : ¬ Ambiguous (parser.theIn ++ future)) :
    StepAdvances future parser (parseChunkSize parser) := by
  have failed : (decode parser.decoder (parser.theIn ++ future)).1 = .failed := by
    simp [Parser.decoder, here, whole, decode_cons, Decoder.feed, other, before]
  have unsigned : ¬ SignedSize (b :: rest) := by
    intro signed
    rw [whole] at unambiguous
    exact unambiguous (Ambiguous.append (.inl signed) future)
  rw [parseChunkSize, if_neg (by simp [wf.size here]), if_neg (by simp [whole, other]), whole]
  obtain unread | ⟨size, p, read, negative⟩ := stringToInt64_unread other unsigned
  · rw [unread]
    exact failed
  · rw [read]
    dsimp only
    rw [if_pos negative]
    exact failed

/-- Where the size is not ambiguous, the step for it advances. -/
theorem parseChunkSize_advances (wf : WF parser) (here : parser.theStep = .psChunkSize)
    (waiting : parser.doNeedMoreData = false)
    (unambiguous : ¬ Ambiguous (parser.theIn ++ future)) :
    StepAdvances future parser (parseChunkSize parser) := by
  have split := takeWhile_append_dropWhile (p := isDigit 16) (l := parser.theIn)
  have all : ∀ d ∈ parser.theIn.takeWhile (isDigit 16), isDigit 16 d = true :=
    fun d member => mem_takeWhile_imp member
  by_cases arrived : parser.theIn.dropWhile (isDigit 16) = []
  · rw [arrived, List.append_nil] at split
    rw [split] at all
    rw [parseChunkSize, if_neg (by simp [wf.size here]), if_pos arrived]
    have follows : StepFollows parser (.ok { parser with doNeedMoreData := true }) :=
      parseChunkSize_wait wf here all
    exact follows.advances future
  have other := head_dropWhile_not (isDigit 16) arrived
  obtain ⟨b, rest, after⟩ := exists_cons_of_ne_nil arrived
  simp only [after, head_cons] at other
  rw [after] at split
  by_cases none : parser.theIn.takeWhile (isDigit 16) = []
  · rw [none, List.nil_append] at split
    exact parseChunkSize_unread wf here split.symm other unambiguous
  by_cases marked : parser.theIn.takeWhile (isDigit 16) = [48] ∧ (b = 120 ∨ b = 88)
  · obtain ⟨zero, mark⟩ := marked
    have whole : parser.theIn = 48 :: b :: rest := by rw [← split, zero]; rfl
    by_cases empty : rest.takeWhile (isDigit 16) = []
    · exact parseChunkSize_mark wf here waiting mark whole arrived empty
    · have read := strtoll_marked mark rest
      rw [if_neg empty, ← whole] at read
      refine parseChunkSize_marked wf here waiting mark ?_ arrived read ?_ unambiguous
      · rw [takeWhile_append_dropWhile]
        exact whole
      · exact fun d member => mem_takeWhile_imp member
  · exact parseChunkSize_unmarked wf here waiting split.symm none all other
      (skipHexMark_eq none all fun zero mark => marked ⟨zero, mark⟩)

/-- Every step advances, unless it is about to read an ambiguous size. -/
theorem step_advances (wf : WF parser) (may : parser.mayContinue = true)
    (sizes : AtSizes (fun bytes => ¬ Ambiguous bytes) parser.decoder (parser.theIn ++ future)) :
    StepAdvances future parser parser.step := by
  by_cases here : parser.theStep = .psChunkSize
  · have unambiguous : ¬ Ambiguous (parser.theIn ++ future) := by
      have decoder : parser.decoder = .size [] := by simp [Parser.decoder, here]
      rw [decoder] at sizes
      cases empty : parser.theIn ++ future with
      | nil =>
          rintro (⟨blanks, sign, d, rest, signed, -⟩ | ⟨x, digits, line, b, rest, marked, -⟩)
          · simp at signed
          · simp at marked
      | cons b bytes =>
          rw [empty] at sizes
          exact sizes.1 rfl
    have step : parser.step = parseChunkSize parser := by simp [Parser.step, here]
    rw [step]
    exact parseChunkSize_advances wf here (continue_of_mayContinue may).1 unambiguous
  · exact (step_follows wf may here).advances future

end Size

end Chunked
end Squid
