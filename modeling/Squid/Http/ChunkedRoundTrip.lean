import Squid.Http.ChunkedCuts

/-!
# Well-formed chunked bodies

A well-formed body decodes to its content, however it is cut and whatever room the output buffers
have, as long as room for a byte comes up again and again.
-/

namespace Squid
namespace Chunked

open CRuntime List

/-! ## The encoding -/

/-- Nothing, or a semicolon and bytes that are neither CR nor LF nor a quotation mark. -/
def IsExtension (bytes : Bytes) : Prop :=
  bytes = [] ∨ ∃ text, bytes = 59 :: text ∧ ∀ b ∈ text, b ≠ 13 ∧ b ≠ 10 ∧ b ≠ 34

/-- A chunk with a body. -/
structure Chunk where
  digits : Bytes
  extension : Bytes
  data : Bytes
  hex : ∀ d ∈ digits, isDigit 16 d = true
  size : magnitude 16 digits = data.length
  nonempty : data ≠ []
  short : data.length < 2 ^ 63
  extended : IsExtension extension

/-- The first line of a chunk. -/
def Chunk.line (chunk : Chunk) : Bytes := chunk.extension ++ [13, 10]

def Chunk.encode (chunk : Chunk) : Bytes :=
  chunk.digits ++ (chunk.line ++ (chunk.data ++ [13, 10]))

/-- The chunks, the last chunk and an empty trailer. -/
def encode (chunks : List Chunk) (extension : Bytes) : Bytes :=
  chunks.flatMap Chunk.encode ++ 48 :: (extension ++ [13, 10] ++ [13, 10])

/-- The content of the chunks. -/
def content (chunks : List Chunk) : Bytes := chunks.flatMap Chunk.data

variable {extension : Bytes}

/-- The line after the digits of a size starts with another byte, and ends at its line feed. -/
theorem IsExtension.line (extended : IsExtension extension) :
    (∃ b rest, extension ++ [13, 10] = b :: rest ∧ (b = 59 ∨ b = 13)) ∧
      ∀ b ∈ extension ++ [13], ({} : Quote).feed b = some {} := by
  obtain rfl | ⟨text, rfl, plain⟩ := extended
  · exact ⟨⟨13, [10], rfl, .inr rfl⟩, forall_mem_singleton.2 rfl⟩
  · refine ⟨⟨59, text ++ [13, 10], rfl, .inl rfl⟩, ?_⟩
    intro b member
    rcases mem_append.mp member with member | last
    · rcases mem_cons.mp member with rfl | member
      · rfl
      · obtain ⟨-, lf, quote⟩ := plain b member
        simp [Quote.feed, lf, quote]
    · rw [mem_singleton.mp last]
      rfl

theorem IsExtension.decode_line (extended : IsExtension extension) (size : ℕ) :
    decode (.extension size {}) (extension ++ [13, 10]) = (.body size, []) := by
  rw [show extension ++ [13, 10] = extension ++ [13] ++ [10] by simp, decode_append,
    decode_extension_plain extended.line.2]
  rfl

theorem IsExtension.decode_last (extended : IsExtension extension) :
    decode (.lastExtension {}) (extension ++ [13, 10]) = (.trailer {} true, []) := by
  rw [show extension ++ [13, 10] = extension ++ [13] ++ [10] by simp, decode_append,
    decode_lastExtension_plain extended.line.2]
  rfl

/-- A digit that no `0x` follows starts a size that is not ambiguous. -/
theorem not_ambiguous {d b : UInt8} (digit : isDigit 16 d = true) (unmarked : ¬ (b = 120 ∨ b = 88))
    (rest : Bytes) : ¬ Ambiguous (d :: b :: rest) := by
  rintro (⟨blanks, sign, e, back, split, ne, spaces, -, kinds⟩ |
    ⟨x, digits, line, c, back, split, mark, -⟩)
  · obtain ⟨c, tail, whole⟩ := exists_cons_of_ne_nil ne
    rw [← List.append_assoc, whole, cons_append] at split
    obtain ⟨rfl, -⟩ := List.cons.inj split
    have other := isDigit_eq_false spaces (kinds.imp_right (Or.imp_right And.left))
      (show d ∈ blanks ++ sign by simp [whole])
    simp [digit] at other
  · obtain ⟨-, split⟩ := List.cons.inj split
    obtain ⟨rfl, -⟩ := List.cons.inj split
    exact unmarked mark

namespace Chunk

variable (chunk : Chunk)

theorem digits_ne : chunk.digits ≠ [] := by
  intro none
  have size := chunk.size
  rw [none] at size
  exact chunk.nonempty (length_eq_zero_iff.mp size.symm)

theorem chunkSize_eq_length : chunkSize chunk.digits = chunk.data.length := by
  have short := chunk.short
  rw [chunkSize, chunk.size]
  omega

theorem length_ne : chunkSize chunk.digits ≠ 0 := by
  rw [chunkSize_eq_length]
  exact fun none => chunk.nonempty (length_eq_zero_iff.mp none)

/-- The decoder gives the data of a chunk and is back at a size. -/
theorem decode_encode : decode (.size []) chunk.encode = (.size [], chunk.data) := by
  obtain ⟨⟨b, rest, start, kinds⟩, -⟩ := chunk.extended.line
  have other : isDigit 16 b = false := by rcases kinds with rfl | rfl <;> decide
  have number := decode_size_number chunk.digits_ne chunk.hex other
    (rest ++ (chunk.data ++ [13, 10]))
  rw [if_neg chunk.length_ne, ← cons_append, ← start, chunkSize_eq_length] at number
  rw [encode, line, number, decode_append, chunk.extended.decode_line, before_nil, decode_append,
    decode_body_all chunk.nonempty]
  simp [decode_cons, Decoder.feed, Quote.feed, staysBlank, before]

end Chunk

/-! ## The sizes of an encoding -/

variable {holds : Bytes → Prop}

theorem atSizes_digits {digits : Bytes} (all : ∀ d ∈ digits, isDigit 16 d = true)
    (first : holds digits) : AtSizes holds (.size []) digits := by
  rw [atSizes_iff]
  rintro front b back rfl starts
  rw [decode_size_digits fun d member => all d (by simp [member])] at starts
  have none : front = [] := by simpa using starts
  rwa [none] at first

theorem atSizes_body {left : ℕ} {data : Bytes} (short : data.length ≤ left) :
    AtSizes holds (.body left) data := by
  rw [atSizes_iff]
  rintro front b back rfl starts
  simp only [length_append, length_cons] at short
  rw [decode_body (by omega)] at starts
  simp at starts

/-- In a chunk, a size starts at the first byte only. -/
theorem Chunk.atSizes_encode (chunk : Chunk) (first : holds chunk.encode) :
    AtSizes holds (.size []) chunk.encode := by
  obtain ⟨⟨b, rest, start, kinds⟩, -⟩ := chunk.extended.line
  have other : isDigit 16 b = false := by rcases kinds with rfl | rfl <;> decide
  have after : AtSizes holds (.extension (chunkSize chunk.digits) {})
      (chunk.line ++ (chunk.data ++ [13, 10])) := by
    rw [atSizes_append, line, chunk.extended.decode_line, chunkSize_eq_length]
    refine ⟨atSizes_extension (by rw [chunk.extended.decode_line]), ?_⟩
    rw [atSizes_append, decode_body_all chunk.nonempty]
    refine ⟨atSizes_body le_rfl, ?_⟩
    simp [AtSizes, Decoder.feed, Quote.feed]
  rw [encode, atSizes_append, decode_size_digits chunk.hex]
  refine ⟨atSizes_digits chunk.hex first, ?_⟩
  rw [line, start, cons_append] at after ⊢
  refine ⟨fun none => absurd (by simpa using none) chunk.digits_ne, ?_⟩
  have later := after.2
  simpa [Decoder.feed, other, chunk.digits_ne, chunk.length_ne] using later

theorem Chunk.not_ambiguous_encode (chunk : Chunk) (back : Bytes) :
    ¬ Ambiguous (chunk.encode ++ back) := by
  obtain ⟨⟨b, rest, start, kinds⟩, -⟩ := chunk.extended.line
  have hex := chunk.hex
  rw [encode, line, start]
  rcases digits : chunk.digits with - | ⟨d, - | ⟨e, tail⟩⟩
  · exact absurd digits chunk.digits_ne
  · rw [digits] at hex
    refine not_ambiguous (hex d (by simp)) ?_ _
    rcases kinds with rfl | rfl <;> decide
  · rw [digits] at hex
    refine not_ambiguous (hex d (by simp)) ?_ _
    intro mark
    have digit := hex e (by simp)
    simp [(mark_spec mark).1] at digit

/-- What the decoder makes of an encoding. -/
theorem decode_encode (extended : IsExtension extension) (chunks : List Chunk) :
    decode (.size []) (encode chunks extension) = (.done [], content chunks) := by
  induction chunks with
  | nil =>
      obtain ⟨⟨b, rest, start, kinds⟩, -⟩ := extended.line
      have other : isDigit 16 b = false := by rcases kinds with rfl | rfl <;> decide
      have number := decode_size_number (cons_ne_nil 48 [])
        (forall_mem_singleton.2 (by decide)) other (rest ++ [13, 10])
      rw [if_pos (by decide), ← cons_append, ← start,
        decode_append (.lastExtension {}), extended.decode_last] at number
      exact number
  | cons chunk chunks ih =>
      have whole : encode (chunk :: chunks) extension =
          chunk.encode ++ encode chunks extension := by
        simp [encode]
      rw [whole, decode_append, chunk.decode_encode, ih]
      simp [before, content]

/-- No size of an encoding is ambiguous. -/
theorem plain_encode (extended : IsExtension extension) (chunks : List Chunk) :
    Plain (.size []) (encode chunks extension) := by
  induction chunks with
  | nil =>
      obtain ⟨⟨b, rest, start, kinds⟩, -⟩ := extended.line
      have unmarked : ¬ (b = 120 ∨ b = 88) := by rcases kinds with rfl | rfl <;> decide
      rw [encode, flatMap_nil, List.nil_append, start, cons_append]
      refine ⟨fun _ => not_ambiguous (by decide) unmarked _, nofun, atSizes_last ?_ _⟩
      rcases kinds with rfl | rfl <;> trivial
  | cons chunk chunks ih =>
      have whole : encode (chunk :: chunks) extension =
          chunk.encode ++ encode chunks extension := by
        simp [encode]
      rw [whole, Plain, atSizes_append, chunk.decode_encode]
      exact ⟨chunk.atSizes_encode (chunk.not_ambiguous_encode _), ih⟩

/-! ## Calls with little room for output -/

/-- The first `n` calls: one for each piece, and then calls without new data. -/
def schedule (pieces : List Bytes) (capacities : ℕ → ℕ) (n : ℕ) : List Offer :=
  (List.range n).map fun i => ⟨pieces.getD i [], capacities i⟩

/-- The calls do not throw, and one of them ends the message with all the content given. -/
def Decodes (pieces : List Bytes) (capacities : ℕ → ℕ) (output : Bytes) : Prop :=
  (∀ n, ∃ state, receive ({}, []) (schedule pieces capacities n) = .ok state) ∧
    ∃ n parser, receive ({}, []) (schedule pieces capacities n) = .ok (parser, output) ∧
      parser.theStep = .psMessageEnd

theorem receive_append (state : Parser × Bytes) (first second : List Offer) :
    receive state (first ++ second) =
      (receive state first).bind fun middle => receive middle second := by
  induction first generalizing state with
  | nil => rfl
  | cons offer first ih =>
      obtain ⟨parser, emitted⟩ := state
      rw [cons_append, receive, receive]
      cases (parser.load offer).parse with
      | error failure => rfl
      | ok next => exact ih _

theorem receive_take {state final : Parser × Bytes} {offers : List Offer}
    (received : receive state offers = .ok final) : state.2 <+: final.2 := by
  induction offers generalizing state with
  | nil =>
      rw [receive, Except.ok.injEq] at received
      exact received ▸ prefix_rfl
  | cons offer offers ih =>
      obtain ⟨parser, emitted⟩ := state
      rw [receive] at received
      cases result : (parser.load offer).parse with
      | error failure => simp [result, Except.bind] at received
      | ok next =>
          rw [result] at received
          exact (prefix_append emitted next.theOut).trans (ih received)

theorem schedule_succ (pieces : List Bytes) (capacities : ℕ → ℕ) (n : ℕ) :
    schedule pieces capacities (n + 1) =
      schedule pieces capacities n ++ [⟨pieces.getD n [], capacities n⟩] := by
  simp [schedule, range_succ]

theorem schedule_add (pieces : List Bytes) (capacities : ℕ → ℕ) (n k : ℕ) :
    ∃ more, schedule pieces capacities (n + k) = schedule pieces capacities n ++ more := by
  induction k with
  | zero => exact ⟨[], by simp⟩
  | succ k ih =>
      obtain ⟨more, split⟩ := ih
      exact ⟨_, by rw [← Nat.add_assoc, schedule_succ, split, List.append_assoc]⟩

theorem flatten_drop (pieces : List Bytes) (n : ℕ) :
    (pieces.drop n).flatten = pieces.getD n [] ++ (pieces.drop (n + 1)).flatten := by
  by_cases inside : n < pieces.length
  · rw [drop_eq_getElem_cons inside, flatten_cons, getD_eq_getElem?_getD,
      List.getElem?_eq_getElem inside, Option.getD_some]
  · rw [drop_of_length_le (by omega), drop_of_length_le (by omega),
      getD_eq_getElem?_getD, List.getElem?_eq_none (by omega)]
    rfl

/-- What is to come leads to `target`. -/
structure OnTrack (target : Outcome) (future : Bytes) (parser : Parser) (emitted : Bytes) :
    Prop where
  wf : WF parser
  plain : Plain parser.decoder (parser.theIn ++ future)
  concluded : conclude emitted (decode parser.decoder (parser.theIn ++ future)) = target

section Track

variable {target : Outcome} {future emitted : Bytes} {parser : Parser}

/-- A call stays on the track. -/
theorem OnTrack.call (offer : Offer)
    (track : OnTrack target (offer.piece ++ future) parser emitted) (returns : target ≠ .thrown) :
    ∃ next, (parser.load offer).parse = .ok next ∧
      OnTrack target future next (emitted ++ next.theOut) ∧ next.mayContinue = false ∧
      (next.doNeedMoreData = true → next.theStep = .psMessageEnd ∨ Waits next) ∧
      next.max_capacity = offer.max_capacity := by
  have whole : parser.theIn ++ (offer.piece ++ future) = (parser.load offer).theIn ++ future := by
    simp
  have plain := track.plain
  have concluded := track.concluded
  rw [whole] at plain concluded
  have call := parse_advances (track.wf.load offer) plain
  cases result : (parser.load offer).parse with
  | error failure =>
      rw [result] at call
      exact absurd (concluded.symm.trans (conclude_eq_thrown.mpr call)) returns
  | ok next =>
      rw [result] at call
      obtain ⟨advances, stopped, waits⟩ := call
      refine ⟨next, rfl, ⟨advances.wf, advances.sizes _ plain, ?_⟩, stopped, waits,
        advances.capacity⟩
      rw [advances.concluded emitted]
      simpa using concluded

variable {output suffix : Bytes}

theorem conclude_eq_complete {result : Decoder × Bytes}
    (complete : conclude emitted result = .complete output suffix) :
    result.1 = .done suffix ∧ emitted ++ result.2 = output := by
  obtain ⟨decoder, content⟩ := result
  cases decoder <;> simp_all [conclude]

/-- Where the message ends, all has been given. -/
theorem OnTrack.ended (track : OnTrack (.complete output suffix) future parser emitted)
    (ended : parser.theStep = .psMessageEnd) : emitted = output := by
  have all := (conclude_eq_complete track.concluded).2
  simpa [Parser.decoder, ended] using all

/-- With all data there and room for a byte, a call gives content unless it ends the message. -/
theorem OnTrack.progress (track : OnTrack (.complete output suffix) [] parser emitted)
    (stopped : parser.mayContinue = false)
    (waits : parser.doNeedMoreData = true → parser.theStep = .psMessageEnd ∨ Waits parser)
    (room : 2 ≤ parser.max_capacity) : parser.theStep = .psMessageEnd ∨ parser.theOut ≠ [] := by
  by_cases ended : parser.theStep = .psMessageEnd
  · exact .inl ended
  have decided := (conclude_eq_complete track.concluded).1
  rw [List.append_nil] at decided
  have fed : parser.doNeedMoreData = false := by
    by_contra more
    have undecided := ((waits (by simpa using more)).resolve_left ended).undecided
    rw [decided] at undecided
    exact undecided
  have full : parser.needsMoreSpace = true := by
    simpa [Parser.mayContinue, fed, ended] using stopped
  right
  intro nothing
  simp only [Parser.needsMoreSpace, Parser.potentialSpaceSize, nothing, Bool.and_eq_true,
    decide_eq_true_iff, length_nil] at full
  omega

end Track

section Schedule

variable {pieces : List Bytes} {capacities : ℕ → ℕ} {output suffix : Bytes}

variable {emitted : Bytes} {n : ℕ} {parser : Parser}

/-- One more call. -/
theorem OnTrack.next {target : Outcome}
    (track : OnTrack target (pieces.drop n).flatten parser emitted) (returns : target ≠ .thrown)
    (received : receive ({}, []) (schedule pieces capacities n) = .ok (parser, emitted)) :
    ∃ next, receive ({}, []) (schedule pieces capacities (n + 1)) =
        .ok (next, emitted ++ next.theOut) ∧
      OnTrack target (pieces.drop (n + 1)).flatten next (emitted ++ next.theOut) ∧
      next.mayContinue = false ∧
      (next.doNeedMoreData = true → next.theStep = .psMessageEnd ∨ Waits next) ∧
      next.max_capacity = capacities n := by
  rw [flatten_drop] at track
  obtain ⟨next, call, later⟩ :=
    OnTrack.call ⟨pieces.getD n [], capacities n⟩ track returns
  refine ⟨next, ?_, later⟩
  rw [schedule_succ, receive_append, received]
  simp only [Except.bind, receive, call]

/-- All calls stay on the track. -/
theorem onTrack_schedule (capacities : ℕ → ℕ) (plain : Plain (.size []) pieces.flatten)
    (complete : conclude [] (decode (.size []) pieces.flatten) = .complete output suffix) (n : ℕ) :
    ∃ parser emitted, receive ({}, []) (schedule pieces capacities n) = .ok (parser, emitted) ∧
      OnTrack (.complete output suffix) (pieces.drop n).flatten parser emitted := by
  induction n with
  | zero => exact ⟨{}, [], rfl, wf_initial, by simpa using plain, by simpa using complete⟩
  | succ n ih =>
      obtain ⟨parser, emitted, received, track⟩ := ih
      obtain ⟨next, call, later, -⟩ := track.next (by simp) received
      exact ⟨next, _, call, later⟩

/-- After all pieces have arrived, some later call ends the message or gives more of it. -/
theorem exists_progress (plain : Plain (.size []) pieces.flatten)
    (complete : conclude [] (decode (.size []) pieces.flatten) = .complete output suffix)
    (room : ∀ n, ∃ m, n ≤ m ∧ 2 ≤ capacities m) (arrived : pieces.length ≤ n)
    (received : receive ({}, []) (schedule pieces capacities n) = .ok (parser, emitted)) :
    ∃ m final given, n ≤ m ∧
      receive ({}, []) (schedule pieces capacities m) = .ok (final, given) ∧
      given.length ≤ output.length ∧
      (final.theStep = .psMessageEnd ∧ given = output ∨ emitted.length < given.length) := by
  obtain ⟨m, later, space⟩ := room n
  obtain ⟨middle, before, received', track⟩ := onTrack_schedule capacities plain complete m
  obtain ⟨final, call, track', stopped, waits, capacity⟩ := track.next (by simp) received'
  have longer : emitted.length ≤ before.length := by
    obtain ⟨k, rfl⟩ := Nat.exists_eq_add_of_le later
    obtain ⟨more, split⟩ := schedule_add pieces capacities n k
    rw [split, receive_append, received] at received'
    exact (receive_take received').length_le
  have bounded : (before ++ final.theOut).length ≤ output.length := by
    have all := congrArg List.length (conclude_eq_complete track'.concluded).2
    simp only [length_append] at all ⊢
    omega
  refine ⟨m + 1, final, _, by omega, call, bounded, ?_⟩
  rw [drop_of_length_le (by omega), flatten_nil] at track'
  rcases track'.progress stopped waits (by omega) with ended | gives
  · exact .inl ⟨ended, track'.ended ended⟩
  · right
    have := length_pos_iff.mpr gives
    rw [length_append]
    omega

/-- After all pieces have arrived, the message ends within as many calls with room for a byte as
there are bytes left to give, and one more. -/
theorem exists_ended (plain : Plain (.size []) pieces.flatten)
    (complete : conclude [] (decode (.size []) pieces.flatten) = .complete output suffix)
    (room : ∀ n, ∃ m, n ≤ m ∧ 2 ≤ capacities m) {left : ℕ} (arrived : pieces.length ≤ n)
    (received : receive ({}, []) (schedule pieces capacities n) = .ok (parser, emitted))
    (few : output.length ≤ emitted.length + left) :
    ∃ m final, receive ({}, []) (schedule pieces capacities m) = .ok (final, output) ∧
      final.theStep = .psMessageEnd := by
  induction left generalizing n parser emitted with
  | zero =>
      obtain ⟨m, final, given, -, call, bounded, ⟨ended, rfl⟩ | longer⟩ :=
        exists_progress plain complete room arrived received
      · exact ⟨m, final, call, ended⟩
      · omega
  | succ left ih =>
      obtain ⟨m, final, given, later, call, -, ⟨ended, rfl⟩ | longer⟩ :=
        exists_progress plain complete room arrived received
      · exact ⟨m, final, call, ended⟩
      · exact ih (by omega) call (by omega)

end Schedule

/-- A well-formed body is decoded, however it is cut, when room for a byte of output comes up again
and again. -/
theorem decodes_encode (chunks : List Chunk) {extension : Bytes} (extended : IsExtension extension)
    {pieces : List Bytes} (cut : pieces.flatten = encode chunks extension) {capacities : ℕ → ℕ}
    (room : ∀ n, ∃ m, n ≤ m ∧ 2 ≤ capacities m) :
    Decodes pieces capacities (content chunks) := by
  have plain : Plain (.size []) pieces.flatten := by
    rw [cut]
    exact plain_encode extended chunks
  have complete : conclude [] (decode (.size []) pieces.flatten) =
      .complete (content chunks) [] := by
    rw [cut, decode_encode extended]
    rfl
  constructor
  · intro n
    obtain ⟨parser, emitted, received, -⟩ := onTrack_schedule capacities plain complete n
    exact ⟨_, received⟩
  · obtain ⟨parser, emitted, received, -⟩ := onTrack_schedule capacities plain complete
      pieces.length
    exact exists_ended plain complete room le_rfl received (Nat.le_add_left _ _)

/-- The chunk `5 CRLF hello CRLF`. -/
def helloChunk : Chunk where
  digits := [53]
  extension := []
  data := [104, 101, 108, 108, 111]
  hex := forall_mem_singleton.2 (by decide)
  size := by decide
  nonempty := by decide
  short := by decide
  extended := .inl rfl

theorem decodes_helloChunk : Decodes ((encode [helloChunk] []).map fun b => [b]) (fun _ => 2)
    [104, 101, 108, 108, 111] :=
  decodes_encode [helloChunk] (.inl rfl) (by decide) fun n => ⟨n, le_rfl, le_rfl⟩

/-- The parser once it has met the body of `helloChunk` without room for it. -/
def stuckParser : Parser :=
  { theStep := .psChunkBody
    theChunkSize := 5
    theLeftBodySize := 5
    theIn := [104, 101, 108, 108, 111, 13, 10, 48, 13, 10, 13, 10]
    max_capacity := 1 }

/-- Without room for a byte the message never ends. -/
theorem not_decodes_stuckParser :
    ¬ Decodes [encode [helloChunk] []] (fun _ => 1) [104, 101, 108, 108, 111] := by
  have first : (({} : Parser).load ⟨encode [helloChunk] [], 1⟩).parse = .ok stuckParser := by
    decide
  have again : (stuckParser.load ⟨[], 1⟩).parse = .ok stuckParser := by decide
  have stuck : ∀ n, receive ({}, []) (schedule [encode [helloChunk] []] (fun _ => 1) (n + 1)) =
      .ok (stuckParser, []) := by
    intro n
    induction n with
    | zero =>
        rw [schedule_succ]
        simp only [schedule, range_zero, List.map_nil, List.nil_append, receive]
        rw [show [encode [helloChunk] []].getD 0 [] = encode [helloChunk] [] from rfl, first]
        rfl
    | succ n ih =>
        rw [schedule_succ, receive_append, ih]
        simp only [Except.bind, receive]
        rw [show [encode [helloChunk] []].getD (n + 1) [] = [] by simp, again]
        rfl
  rintro ⟨-, n, parser, received, ended⟩
  cases n with
  | zero => simp [schedule, receive] at received
  | succ n =>
      rw [stuck n, Except.ok.injEq, Prod.mk.injEq] at received
      simp at received

end Chunked
end Squid
