import Squid.Library.Decimal
import Squid.Library.OrderedMap
import Mathlib.Data.List.Lex
import Mathlib.Order.Fin.Basic

/-!
# Messages of the certificate helper

`Ssl::CrtdMessage` composes messages to and from `ssl_crtd` and parses them as they come in, in
pieces of any length.  The state of the parser and the text of the part that is being read are kept
between the pieces.
-/

namespace Squid
namespace Ssl

open CRuntime List

/-- `CrtdMessage::ParseState`. -/
inductive ParseState
  | BEFORE_CODE
  | CODE
  | BEFORE_LENGTH
  | LENGTH
  | BEFORE_BODY
  | BODY
  | END
  deriving DecidableEq

/-- `CrtdMessage::ParseResult`. -/
inductive ParseResult
  | OK
  | INCOMPLETE
  | ERROR
  deriving DecidableEq

/-- `CrtdMessage`, as its constructor makes it. -/
structure CrtdMessage where
  body_size : UInt64 := 0
  state : ParseState := .BEFORE_CODE
  body : Bytes := []
  code : Bytes := []
  current_block : Bytes := []

/-- `xisalpha`. -/
def isAlpha (b : UInt8) : Bool := 97 ≤ toLower b && toLower b ≤ 122

/-- `xisalnum`, or an underscore. -/
def isWord (b : UInt8) : Bool := isAlpha b || isDigit 10 b || b == 95

namespace CrtdMessage

/-- The digits of a number, as `%zd` prints them. -/
def printed (n : ℕ) : Bytes := (Nat.toDigits 10 n).map fun c => UInt8.ofNat c.toNat

/-- `CrtdMessage::compose`; the buffer takes nine digits of the length. -/
def compose (msg : CrtdMessage) : Bytes :=
  if msg.code = [] then []
  else msg.code ++ 32 :: ((printed msg.body.length).take 9 ++ 32 :: msg.body)

/-- How a turn of the loop of `parse` ends. -/
inductive Turn
  /-- With a new state and what is left of the buffer. -/
  | again (msg : CrtdMessage) (rest : Bytes)
  /-- With `ERROR`. -/
  | error

/-- `body_size - current_block.length()`, of type `size_t`. -/
def missing (msg : CrtdMessage) : ℕ :=
  (msg.body_size - UInt64.ofNat msg.current_block.length).toNat

/-- The turn in `BODY`. -/
def turnBody (msg : CrtdMessage) (buffer : Bytes) : Turn :=
  let body_len := if msg.missing ≤ buffer.length then msg.missing else buffer.length
  let current_block := msg.current_block ++ buffer.take body_len
  let rest := buffer.drop body_len
  if current_block.length = msg.body_size.toNat then
    .again { msg with current_block, body := current_block, state := .END } rest
  else if current_block.length > msg.body_size.toNat then .error
  else .again { msg with current_block } rest

/-- A turn of the loop of `parse`, at the byte `c`. -/
def turn (msg : CrtdMessage) (c : UInt8) (rest : Bytes) : Turn :=
  match msg.state with
  | .BEFORE_CODE =>
      if isSpace c then .again msg rest
      else if isAlpha c then .again { msg with state := .CODE } (c :: rest)
      else .error
  | .CODE =>
      if isWord c then .again { msg with current_block := msg.current_block ++ [c] } rest
      else if isSpace c then
        .again { msg with code := msg.current_block, current_block := [], state := .BEFORE_LENGTH }
          (c :: rest)
      else .error
  | .BEFORE_LENGTH =>
      if isSpace c then .again msg rest
      else if isDigit 10 c then .again { msg with state := .LENGTH } (c :: rest)
      else .error
  | .LENGTH =>
      if isDigit 10 c then .again { msg with current_block := msg.current_block ++ [c] } rest
      else if isSpace c then
        .again { msg with
          body_size := UInt64.ofInt (int32 (strtoll 10 (cstr msg.current_block)).1)
          current_block := []
          state := .BEFORE_BODY } (c :: rest)
      else .error
  | .BEFORE_BODY =>
      if msg.body_size = 0 then .again { msg with state := .END } (c :: rest)
      else if isSpace c then .again msg rest
      else .again { msg with state := .BODY } (c :: rest)
  | .BODY => turnBody msg (c :: rest)
  | .END => .again msg (c :: rest)

/-- How many states are left. -/
def ahead : ParseState → ℕ
  | .BEFORE_CODE => 6
  | .CODE => 5
  | .BEFORE_LENGTH => 4
  | .LENGTH => 3
  | .BEFORE_BODY => 2
  | .BODY => 1
  | .END => 0

variable {msg : CrtdMessage}

theorem missing_eq (fits : msg.current_block.length ≤ msg.body_size.toNat) :
    msg.missing = msg.body_size.toNat - msg.current_block.length := by
  have size := msg.body_size.toNat_lt
  simp only [missing, UInt64.toNat_sub, UInt64.toNat_ofNat']
  omega

variable {buffer : Bytes}

/-- The turn completes the body when the buffer holds what is missing. -/
theorem turnBody_complete (fits : msg.current_block.length ≤ msg.body_size.toNat)
    (enough : msg.missing ≤ buffer.length) :
    turnBody msg buffer = .again
      { msg with
        current_block := msg.current_block ++ buffer.take msg.missing
        body := msg.current_block ++ buffer.take msg.missing
        state := .END }
      (buffer.drop msg.missing) := by
  have total : (msg.current_block ++ buffer.take msg.missing).length = msg.body_size.toNat := by
    rw [length_append, length_take, min_eq_left enough, missing_eq fits]
    omega
  simp only [turnBody, if_pos enough]
  rw [if_pos total]

/-- Otherwise it keeps all of the buffer. -/
theorem turnBody_short (fits : msg.current_block.length ≤ msg.body_size.toNat)
    (short : buffer.length < msg.missing) :
    turnBody msg buffer = .again { msg with current_block := msg.current_block ++ buffer } [] := by
  have total : (msg.current_block ++ buffer).length < msg.body_size.toNat := by
    rw [missing_eq fits] at short
    rw [length_append]
    omega
  simp only [turnBody, if_neg (Nat.not_le.mpr short), take_length, drop_length]
  rw [if_neg (Nat.ne_of_lt total), if_neg (Nat.not_lt.mpr (Nat.le_of_lt total))]

/-- A block longer than the body is an error at any buffer. -/
theorem turnBody_long (buffer : Bytes) (long : msg.body_size.toNat < msg.current_block.length) :
    turnBody msg buffer = .error := by
  have total (taken : Bytes) : msg.body_size.toNat < (msg.current_block ++ taken).length := by
    rw [length_append]
    exact Nat.lt_add_right taken.length long
  simp only [turnBody]
  rw [if_neg (Nat.ne_of_gt (total _)), if_pos (total _)]

variable {c : UInt8} {msg' : CrtdMessage} {rest : Bytes}

/-- A turn consumes a byte or goes on to another state. -/
theorem turn_decreases {rest' : Bytes} (notEnd : msg.state ≠ .END)
    (again : turn msg c rest = .again msg' rest') :
    rest'.length < rest.length + 1 ∨
      rest'.length = rest.length + 1 ∧ ahead msg'.state < ahead msg.state := by
  cases at_state : msg.state with
  | END => exact absurd at_state notEnd
  | BODY =>
      simp only [turn, at_state] at again
      rcases Nat.lt_or_ge msg.body_size.toNat msg.current_block.length with long | fits
      · cases (turnBody_long _ long).symm.trans again
      rcases Nat.lt_or_ge (c :: rest).length msg.missing with short | enough
      · cases (turnBody_short fits short).symm.trans again
        exact .inl (Nat.succ_pos _)
      · cases (turnBody_complete fits enough).symm.trans again
        simp only [length_drop, length_cons, ahead]
        omega
  | _ =>
      simp only [turn, at_state] at again
      (repeat' split at again) <;> cases again <;> simp [ahead, at_state]

/-- `CrtdMessage::parse`: the result, and the message it leaves. -/
def parse (msg : CrtdMessage) (buffer : Bytes) : ParseResult × CrtdMessage :=
  match buffer with
  | [] => (if msg.state = .END then .OK else .INCOMPLETE, msg)
  | c :: rest =>
      if _notEnd : msg.state = .END then (.OK, msg)
      else
        match _again : turn msg c rest with
        | .error => (.ERROR, {})
        | .again msg' rest' => parse msg' rest'
termination_by (buffer.length, ahead msg.state)
decreasing_by
  rcases turn_decreases _notEnd _again with shorter | ⟨same, nearer⟩
  · exact Prod.Lex.left _ _ (by simpa using shorter)
  · rw [same]
    exact Prod.Lex.right _ nearer

theorem parse_nil (msg : CrtdMessage) :
    parse msg [] = (if msg.state = .END then .OK else .INCOMPLETE, msg) := by
  rw [parse]

theorem parse_END (buffer : Bytes) (done : msg.state = .END) : parse msg buffer = (.OK, msg) := by
  cases buffer with
  | nil => rw [parse_nil, if_pos done]
  | cons c rest => rw [parse, dif_pos done]

theorem parse_of_error (notEnd : msg.state ≠ .END) (error : turn msg c rest = .error) :
    parse msg (c :: rest) = (.ERROR, {}) := by
  rw [parse, dif_neg notEnd]
  split
  · rfl
  · next again => cases error.symm.trans again

theorem parse_of_again {msg msg' : CrtdMessage} {c : UInt8} {rest rest' : Bytes}
    (notEnd : msg.state ≠ .END) (again : turn msg c rest = .again msg' rest') :
    parse msg (c :: rest) = parse msg' rest' := by
  rw [parse, dif_neg notEnd]
  split
  · next error => cases error.symm.trans again
  · next again' => cases again.symm.trans again'; rfl

/-! ## Pieces -/

/-- The turn, with more bytes behind the buffer. -/
def Turn.append : Turn → Bytes → Turn
  | .again msg rest, more => .again msg (rest ++ more)
  | .error, _ => .error

/-- Outside the body a turn looks at one byte only. -/
theorem turn_append (notBody : msg.state ≠ .BODY) (c : UInt8) (rest more : Bytes) :
    turn msg c (rest ++ more) = (turn msg c rest).append more := by
  cases at_state : msg.state with
  | BODY => exact absurd at_state notBody
  | _ =>
      simp only [turn, at_state]
      (repeat' split) <;> rfl

/-- The message with more of the current block. -/
def keep (msg : CrtdMessage) (bytes : Bytes) : CrtdMessage :=
  { msg with current_block := msg.current_block ++ bytes }

/-- The message with its body complete. -/
def finish (msg : CrtdMessage) : CrtdMessage :=
  { msg with body := msg.current_block, state := .END }

@[simp]
theorem keep_nil (msg : CrtdMessage) : msg.keep [] = msg := by
  simp only [keep, List.append_nil]

@[simp]
theorem keep_keep (msg : CrtdMessage) (first second : Bytes) :
    (msg.keep first).keep second = msg.keep (first ++ second) := by
  simp only [keep, List.append_assoc]

variable {bytes : Bytes}

theorem keep_fits (fits : msg.current_block.length ≤ msg.body_size.toNat)
    (short : bytes.length ≤ msg.missing) :
    (msg.keep bytes).current_block.length ≤ (msg.keep bytes).body_size.toNat := by
  rw [missing_eq fits] at short
  simp only [keep, length_append]
  omega

theorem keep_missing (fits : msg.current_block.length ≤ msg.body_size.toNat)
    (short : bytes.length ≤ msg.missing) :
    (msg.keep bytes).missing = msg.missing - bytes.length := by
  rw [missing_eq fits, missing_eq (keep_fits fits short)]
  simp only [keep, length_append]
  omega

/-- What `parse` makes of bytes of the body. -/
theorem parse_BODY (inBody : msg.state = .BODY)
    (fits : msg.current_block.length ≤ msg.body_size.toNat) (more : buffer ≠ []) :
    parse msg buffer =
      if msg.missing ≤ buffer.length then (.OK, (msg.keep (buffer.take msg.missing)).finish)
      else (.INCOMPLETE, msg.keep buffer) := by
  have notEnd : msg.state ≠ .END := by rw [inBody]; exact ParseState.noConfusion
  obtain ⟨c, rest, rfl⟩ := exists_cons_of_ne_nil more
  have atBody : turn msg c rest = turnBody msg (c :: rest) := by rw [turn, inBody]
  split
  · next enough =>
      rw [parse_of_again notEnd (atBody.trans (turnBody_complete fits enough)), parse_END _ rfl]
      rfl
  · next short =>
      rw [parse_of_again notEnd (atBody.trans (turnBody_short fits (Nat.not_le.mp short))),
        parse_nil, if_neg notEnd]
      rfl

/-- Bytes that do not complete the body may come in a piece of their own. -/
theorem parse_short (inBody : msg.state = .BODY)
    (fits : msg.current_block.length ≤ msg.body_size.toNat) (short : buffer.length < msg.missing)
    (more : Bytes) : parse msg (buffer ++ more) = parse (msg.keep buffer) more := by
  have notEnd : msg.state ≠ .END := by rw [inBody]; exact ParseState.noConfusion
  by_cases noBuffer : buffer = []
  · rw [noBuffer, List.nil_append, keep_nil]
  by_cases noMore : more = []
  · rw [noMore, List.append_nil, parse_BODY inBody fits noBuffer, if_neg (Nat.not_le.mpr short),
      parse_nil]
    exact congrArg (·, _) (if_neg notEnd).symm
  rw [parse_BODY inBody fits (by simp [noBuffer]),
    @parse_BODY (msg.keep buffer) _ inBody (keep_fits fits (Nat.le_of_lt short)) noMore,
    keep_missing fits (Nat.le_of_lt short)]
  simp only [keep_keep, length_append]
  rw [take_append, take_of_length_le (Nat.le_of_lt short)]
  exact if_congr (by omega) rfl rfl

variable {front : Bytes}

/-- In the body, a parser that has not come to an end goes on where it was left. -/
theorem parse_append_BODY (inBody : msg.state = .BODY) (some : front ≠ []) (back : Bytes) :
    parse msg (front ++ back) =
      if (parse msg front).1 = .INCOMPLETE then parse (parse msg front).2 back
      else parse msg front := by
  have notEnd : msg.state ≠ .END := by rw [inBody]; exact ParseState.noConfusion
  have inBody_turn (c : UInt8) (rest : Bytes) : turn msg c rest = turnBody msg (c :: rest) := by
    rw [turn, inBody]
  rcases Nat.lt_or_ge msg.body_size.toNat msg.current_block.length with long | fits
  · obtain ⟨c, rest, rfl⟩ := exists_cons_of_ne_nil some
    rw [cons_append, parse_of_error notEnd ((inBody_turn c rest).trans (turnBody_long _ long)),
      parse_of_error notEnd ((inBody_turn c _).trans (turnBody_long _ long)),
      if_neg ParseResult.noConfusion]
  rw [parse_BODY inBody fits some]
  rcases Nat.lt_or_ge front.length msg.missing with short | enough
  · rw [if_neg (Nat.not_le.mpr short), if_pos rfl, parse_short inBody fits short]
  · rw [if_pos enough, if_neg ParseResult.noConfusion, parse_BODY inBody fits (by simp [some]),
      if_pos, take_append_of_le_length enough]
    rw [length_append]
    exact Nat.le_add_right_of_le enough

/-- A parser that has not come to an end goes on where it was left. -/
theorem parse_append (msg : CrtdMessage) (front back : Bytes) :
    parse msg (front ++ back) =
      if (parse msg front).1 = .INCOMPLETE then parse (parse msg front).2 back
      else parse msg front := by
  induction msg, front using parse.induct with
  | case1 msg =>
      rw [List.nil_append, parse_nil]
      by_cases done : msg.state = .END
      · rw [if_pos done, if_neg ParseResult.noConfusion, parse_END back done]
      · rw [if_neg done, if_pos rfl]
  | case2 msg c rest done => rw [parse_END _ done, parse_END _ done, if_neg ParseResult.noConfusion]
  | case3 msg c rest notEnd error =>
      by_cases inBody : msg.state = .BODY
      · exact parse_append_BODY inBody (cons_ne_nil c rest) back
      rw [parse_of_error notEnd error, if_neg ParseResult.noConfusion, cons_append]
      refine parse_of_error notEnd ?_
      rw [turn_append inBody, error, Turn.append]
  | case4 msg c rest notEnd msg' rest' again ih =>
      by_cases inBody : msg.state = .BODY
      · exact parse_append_BODY inBody (cons_ne_nil c rest) back
      rw [parse_of_again notEnd again, ← ih, cons_append]
      refine parse_of_again notEnd ?_
      rw [turn_append inBody, again, Turn.append]

/-- The pieces one after the other: the results, and the message at the end. -/
def feed : CrtdMessage → List Bytes → List ParseResult × CrtdMessage
  | msg, [] => ([], msg)
  | msg, piece :: pieces =>
      let now := parse msg piece
      let later := feed now.2 pieces
      (now.1 :: later.1, later.2)

/-- The beginning of a buffer that the parser asks to go on with asks for more, too. -/
theorem parse_INCOMPLETE_of_append {back : Bytes}
    (whole : (parse msg (front ++ back)).1 = .INCOMPLETE) : (parse msg front).1 = .INCOMPLETE := by
  by_contra ended
  rw [parse_append, if_neg ended] at whole
  exact ended whole

variable {pieces : List Bytes}

/-- A message that ends with its last byte ends with its last piece. -/
theorem feed_of_parse (some : pieces ≠ []) (nonempty : ∀ piece ∈ pieces, piece ≠ [])
    (whole : parse msg pieces.flatten = (.OK, msg'))
    (early : (parse msg pieces.flatten.dropLast).1 = .INCOMPLETE) :
    feed msg pieces = (List.replicate (pieces.length - 1) .INCOMPLETE ++ [.OK], msg') := by
  induction pieces generalizing msg with
  | nil => exact absurd rfl some
  | cons piece pieces ih =>
      cases pieces with
      | nil =>
          rw [flatten_cons, flatten_nil, List.append_nil] at whole
          simp only [feed, whole]
          rfl
      | cons next pieces =>
          have nonempty_next : next ≠ [] := nonempty next (by simp)
          have split : (piece :: next :: pieces).flatten.dropLast =
              piece ++ (next :: pieces).flatten.dropLast := by
            rw [flatten_cons]
            exact dropLast_append_of_ne_nil (by simp [nonempty_next])
          rw [split] at early
          have first := parse_INCOMPLETE_of_append early
          rw [parse_append, if_pos first] at early
          rw [flatten_cons, parse_append, if_pos first] at whole
          have rest := ih (cons_ne_nil next pieces)
            (fun other member => nonempty other (List.mem_cons_of_mem piece member)) whole early
          rw [feed, rest, first]
          rfl

/-! ## Reading what was composed -/

variable {b : UInt8}

theorem isWord_of_isAlpha (alpha : isAlpha b = true) : isWord b = true := by
  rw [isWord, alpha, Bool.true_or, Bool.true_or]

theorem not_isSpace_of_isWord (word : isWord b = true) : isSpace b = false := by
  have bound := b.toNat_lt
  rw [isWord, Bool.or_eq_true, Bool.or_eq_true, isDigit_ten_iff] at word
  have range : 48 ≤ b.toNat := by
    rcases word with (alpha | digit) | underscore
    · have letter : 97 ≤ toLower b := of_decide_eq_true (Bool.and_eq_true_iff.mp alpha).1
      unfold toLower at letter
      split at letter
      · next upper =>
          simp only [UInt8.le_iff_toNat_le, UInt8.reduceToNat] at upper
          omega
      · simp only [UInt8.le_iff_toNat_le, UInt8.reduceToNat] at letter
        omega
    · exact digit.1
    · rw [beq_iff_eq.mp underscore]
      decide
  simp only [isSpace, UInt8.le_iff_toNat_le, ← UInt8.toNat_inj, UInt8.reduceToNat,
    Bool.or_eq_false_iff, beq_eq_false_iff_ne, Bool.and_eq_false_iff, decide_eq_false_iff_not,
    ne_eq]
  omega

variable {word : Bytes}

/-- Bytes that a state accepts are kept. -/
theorem parse_keep {state : ParseState} {accepts : UInt8 → Bool} (notEnd : state ≠ .END)
    (keeps : ∀ msg b rest, msg.state = state → accepts b = true →
      turn msg b rest = .again (msg.keep [b]) rest) (here : msg.state = state)
    (all : ∀ b ∈ word, accepts b = true) (rest : Bytes) :
    parse msg (word ++ rest) = parse (msg.keep word) rest := by
  induction word generalizing msg with
  | nil => rw [List.nil_append, keep_nil]
  | cons b word ih =>
      have step := keeps msg b (word ++ rest) here (all b List.mem_cons_self)
      rw [cons_append, parse_of_again (by rw [here]; exact notEnd) step,
        @ih (msg.keep [b]) here fun c member => all c (List.mem_cons_of_mem b member), keep_keep]
      rfl

theorem turn_CODE (msg : CrtdMessage) (b : UInt8) (rest : Bytes) (inCode : msg.state = .CODE)
    (word : isWord b = true) : turn msg b rest = .again (msg.keep [b]) rest := by
  simp only [turn, inCode, if_pos word, keep]

theorem turn_LENGTH (msg : CrtdMessage) (b : UInt8) (rest : Bytes) (inLength : msg.state = .LENGTH)
    (digit : isDigit 10 b = true) : turn msg b rest = .again (msg.keep [b]) rest := by
  simp only [turn, inLength, if_pos digit, keep]

/-- The code, a blank and digits. -/
theorem parse_head {first : UInt8} {digits : Bytes} (alpha : isAlpha first = true)
    (all : ∀ b ∈ word, isWord b = true) (some : digits ≠ [])
    (decimal : ∀ b ∈ digits, isDigit 10 b = true) (rest : Bytes) :
    parse {} ((first :: word) ++ 32 :: (digits ++ rest)) =
      parse { state := .LENGTH, code := first :: word, current_block := digits } rest := by
  obtain ⟨d, more, rfl⟩ := exists_cons_of_ne_nil some
  have all_word : ∀ b ∈ first :: word, isWord b = true :=
    forall_mem_cons.mpr ⟨isWord_of_isAlpha alpha, all⟩
  have notBlank := not_isSpace_of_isWord (isWord_of_isAlpha alpha)
  have digit := decimal d List.mem_cons_self
  have beforeCode (buffer : Bytes) : turn {} first buffer =
      .again { state := .CODE } (first :: buffer) := by
    simp only [turn, notBlank, alpha, if_true, Bool.false_eq_true, if_false]
  have afterCode (buffer : Bytes) :
      turn { state := .CODE, current_block := first :: word } 32 buffer =
        .again { state := .BEFORE_LENGTH, code := first :: word } (32 :: buffer) := rfl
  have blank (buffer : Bytes) : turn { state := .BEFORE_LENGTH, code := first :: word } 32 buffer =
      .again { state := .BEFORE_LENGTH, code := first :: word } buffer := rfl
  have beforeLength (buffer : Bytes) :
      turn { state := .BEFORE_LENGTH, code := first :: word } d buffer =
        .again { state := .LENGTH, code := first :: word } (d :: buffer) := by
    simp only [turn, (plain_of_isDigit digit).1, digit, if_true, Bool.false_eq_true, if_false]
  rw [cons_append, parse_of_again ParseState.noConfusion (beforeCode _), ← cons_append,
    parse_keep ParseState.noConfusion turn_CODE rfl all_word]
  calc parse { state := .CODE, current_block := first :: word } (32 :: (d :: more ++ rest))
      = parse { state := .BEFORE_LENGTH, code := first :: word } (d :: more ++ rest) := by
        rw [parse_of_again ParseState.noConfusion (afterCode _),
          parse_of_again ParseState.noConfusion (blank _)]
    _ = parse { state := .LENGTH, code := first :: word } (d :: more ++ rest) :=
        parse_of_again ParseState.noConfusion (beforeLength _)
    _ = parse { state := .LENGTH, code := first :: word, current_block := d :: more } rest :=
        parse_keep ParseState.noConfusion turn_LENGTH rfl decimal rest

theorem isDigit_of_printed (n : ℕ) : ∀ b ∈ printed n, isDigit 10 b = true :=
  isDigit_of_mem_digits n

theorem magnitude_printed (n : ℕ) : magnitude 10 (printed n) = n := magnitude_digits n

theorem printed_ne_nil (n : ℕ) : printed n ≠ [] := digits_ne_nil n

variable {n : ℕ}

/-- The number that was printed is the number that is read. -/
theorem strtoll_printed (small : n < 10 ^ 9) : (strtoll 10 (cstr (printed n))).1 = n := by
  have whole : cstr (printed n) = printed n := by
    refine takeWhile_eq_self_iff.mpr fun b member => ?_
    have digit := (isDigit_ten_iff b).mp (isDigit_of_printed n b member)
    simp only [bne_iff_ne, ne_eq, ← UInt8.toNat_inj, UInt8.reduceToNat]
    omega
  have read := @strtoll_digits (printed n) [] (printed_ne_nil n) (isDigit_of_printed n) rfl
  rw [List.append_nil] at read
  rw [whole, read, magnitude_printed]
  simp only [saturate, Bool.false_eq_true, if_false]
  omega

variable {body code : Bytes}

theorem compose_eq (some : code ≠ []) (small : body.length < 10 ^ 9) :
    compose { code := code, body := body } =
      code ++ 32 :: (printed body.length ++ 32 :: body) := by
  have nine : (printed body.length).length ≤ 9 := by
    rw [printed, length_map]
    exact (Nat.length_toDigits_le_iff (by decide) (by decide)).mpr small
  rw [compose, if_neg some, take_of_length_le nine]

/-- The parser behind the length. -/
def behindLength (code : Bytes) (size : ℕ) : CrtdMessage :=
  { body_size := UInt64.ofNat size, state := .BEFORE_BODY, code := code }

/-- The parser before the body. -/
def beforeBody (code : Bytes) (size : ℕ) : CrtdMessage :=
  { behindLength code size with state := .BODY }

theorem parse_size (small : n < 10 ^ 9) (rest : Bytes) :
    parse { state := .LENGTH, code := code, current_block := printed n } (32 :: rest) =
      parse (behindLength code n) (32 :: rest) := by
  have size : UInt64.ofInt (int32 (strtoll 10 (cstr (printed n))).1) = UInt64.ofNat n := by
    rw [strtoll_printed small, int32_eq (by omega) (by omega)]
    refine congrArg UInt64.ofNat ?_
    omega
  refine parse_of_again ParseState.noConfusion ?_
  rw [behindLength, ← size]
  rfl

/-- A message without a body ends with its second blank. -/
theorem parse_empty_body (code : Bytes) :
    parse (behindLength code 0) [32] = (.OK, (behindLength code 0).finish) := by
  rw [@parse_of_again _ (behindLength code 0).finish _ _ [32] ParseState.noConfusion rfl,
    parse_END _ rfl]

theorem body_size_ne_zero (small : n < 10 ^ 9) (some : 0 < n) :
    (behindLength code n).body_size ≠ 0 := by
  rw [ne_eq, ← UInt64.toNat_inj, behindLength, UInt64.toNat_ofNat']
  change ¬n % 2 ^ 64 = 0
  omega

/-- A message with a body goes on to it. -/
theorem parse_blank (small : n < 10 ^ 9) (some : 0 < n) (rest : Bytes) :
    parse (behindLength code n) (32 :: rest) = parse (behindLength code n) rest := by
  refine parse_of_again ParseState.noConfusion ?_
  rw [turn]
  exact if_neg (body_size_ne_zero small some)

theorem parse_beforeBody (small : n < 10 ^ 9) (some : 0 < n) (text : isSpace b = false)
    (rest : Bytes) :
    parse (behindLength code n) (b :: rest) = parse (beforeBody code n) (b :: rest) := by
  refine parse_of_again ParseState.noConfusion ?_
  rw [turn]
  refine (if_neg (body_size_ne_zero small some)).trans ?_
  rw [text]
  rfl

theorem beforeBody_missing (code : Bytes) (small : n < 10 ^ 9) :
    (beforeBody code n).missing = n := by
  have fits : (beforeBody code n).current_block.length ≤ (beforeBody code n).body_size.toNat :=
    Nat.zero_le _
  rw [missing_eq fits, beforeBody, behindLength, UInt64.toNat_ofNat']
  change n % 2 ^ 64 - 0 = n
  omega

/-- The body of a message. -/
structure IsBody (body : Bytes) : Prop where
  /-- Its length has at most nine digits. -/
  small : body.length < 10 ^ 9
  /-- It does not start with white space. -/
  text : ∀ b ∈ body.head?, isSpace b = false

theorem parse_body (code : Bytes) (isBody : IsBody body) :
    parse (behindLength code body.length) (32 :: body) =
      (.OK, ((behindLength code body.length).keep body).finish) := by
  cases body with
  | nil => exact parse_empty_body code
  | cons b rest =>
      have text : isSpace b = false := isBody.text b rfl
      have fits : (beforeBody code (b :: rest).length).current_block.length ≤
        (beforeBody code (b :: rest).length).body_size.toNat := Nat.zero_le _
      have missing := beforeBody_missing code isBody.small
      rw [parse_blank isBody.small (Nat.succ_pos _),
        parse_beforeBody isBody.small (Nat.succ_pos _) text,
        parse_BODY rfl fits (cons_ne_nil b rest), if_pos (Nat.le_of_eq missing), missing,
        take_length]
      rfl

/-- A body that lacks its last byte is incomplete. -/
theorem parse_body_dropLast (code : Bytes) (isBody : IsBody body) (some : body ≠ []) :
    (parse (behindLength code body.length) (32 :: body.dropLast)).1 = .INCOMPLETE := by
  have positive : 0 < body.length := length_pos_iff.mpr some
  rw [parse_blank isBody.small positive]
  cases start : body.dropLast with
  | nil => rw [parse_nil]; rfl
  | cons b rest =>
      have first : b ∈ body.head? := by
        rw [← dropLast_append_getLast some, start]
        rfl
      have short : ¬(beforeBody code body.length).missing ≤ (b :: rest).length := by
        rw [beforeBody_missing code isBody.small, ← start, length_dropLast]
        omega
      have fits : (beforeBody code body.length).current_block.length ≤
        (beforeBody code body.length).body_size.toNat := Nat.zero_le _
      rw [parse_beforeBody isBody.small positive (isBody.text b first),
        parse_BODY rfl fits (cons_ne_nil b rest), if_neg short]

/-- A code: a letter, and then letters, digits and underscores. -/
def IsCode : Bytes → Prop
  | [] => False
  | first :: word => isAlpha first = true ∧ ∀ b ∈ word, isWord b = true

theorem parse_composed (isCode : IsCode code) (isBody : IsBody body) :
    parse {} (compose { code := code, body := body }) =
      (.OK, ((behindLength code body.length).keep body).finish) := by
  cases code with
  | nil => exact isCode.elim
  | cons first word =>
      rw [compose_eq (cons_ne_nil first word) isBody.small,
        parse_head isCode.1 isCode.2 (printed_ne_nil _) (isDigit_of_printed _),
        parse_size isBody.small, parse_body (first :: word) isBody]

/-- Without its last byte a message is incomplete. -/
theorem parse_composed_dropLast (isCode : IsCode code) (isBody : IsBody body) :
    (parse {} (compose { code := code, body := body }).dropLast).1 = .INCOMPLETE := by
  cases code with
  | nil => exact isCode.elim
  | cons first word =>
      have cut : (compose { code := first :: word, body := body }).dropLast =
          (first :: word) ++ 32 :: (printed body.length ++ (32 :: body).dropLast) := by
        rw [compose_eq (cons_ne_nil first word) isBody.small,
          dropLast_append_of_ne_nil (cons_ne_nil _ _), dropLast_cons_of_ne_nil (by simp),
          dropLast_append_of_ne_nil (cons_ne_nil 32 body)]
      rw [cut, parse_head isCode.1 isCode.2 (printed_ne_nil _) (isDigit_of_printed _)]
      by_cases empty : body = []
      · rw [empty, dropLast_singleton, parse_nil]
        rfl
      · rw [dropLast_cons_of_ne_nil empty, parse_size isBody.small,
          parse_body_dropLast (first :: word) isBody empty]

/-- In any pieces, what `compose` makes is incomplete up to the last piece and then read as it
was. -/
theorem feed_composed (isCode : IsCode code) (isBody : IsBody body)
    (nonempty : ∀ piece ∈ pieces, piece ≠ [])
    (whole : pieces.flatten = compose { code := code, body := body }) :
    (feed {} pieces).1 = List.replicate (pieces.length - 1) .INCOMPLETE ++ [.OK] ∧
      (feed {} pieces).2.code = code ∧ (feed {} pieces).2.body = body := by
  have complete := parse_composed isCode isBody
  have early := parse_composed_dropLast isCode isBody
  rw [← whole] at complete early
  have some : pieces ≠ [] := by
    rintro rfl
    rw [flatten_nil, parse_nil] at complete
    exact ParseResult.noConfusion (congrArg Prod.fst complete)
  rw [feed_of_parse some nonempty complete early]
  exact ⟨rfl, rfl, List.nil_append body⟩

end CrtdMessage
end Ssl
end Squid
