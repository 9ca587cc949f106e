import Squid.Library.CRuntime

/-!
# `ChunkedCodingParser`

The incremental decoder of `src/ChunkedCodingParser.cc`.  It moves content from a raw buffer to an
output buffer and keeps its state between calls.  Both buffers are `MemBuf`s; the raw one is its
content, whose terminating zero `strtoll` may read, and the output one has a largest capacity.
-/

namespace Squid
namespace Chunked

open CRuntime

/-- The exceptions a call may throw. -/
inductive Failure
  /-- "negative chunk size" -/
  | negativeChunkSize
  /-- "corrupted chunk size" -/
  | corruptedChunkSize
  /-- "found data between chunk end and CRLF" -/
  | dataAfterChunk
  /-- `Must`. -/
  | must
  deriving DecidableEq

/-- `theStep`. -/
inductive Step
  | psChunkSize
  | psUnusedChunkExtension
  | psLastChunkExtension
  | psChunkBody
  | psChunkEnd
  | psTrailer
  | psMessageEnd
  deriving DecidableEq

/-- The parser between two steps, with the buffers of the current call. -/
structure Parser where
  theStep : Step := .psChunkSize
  theChunkSize : ℕ := 0
  theLeftBodySize : ℕ := 0
  doNeedMoreData : Bool := false
  inQuoted : Bool := false
  inSlashed : Bool := false
  useOriginBody : ℤ := -1
  /-- Content of `theIn`. -/
  theIn : Bytes := []
  /-- Content of `theOut`. -/
  theOut : Bytes := []
  /-- `max_capacity` of `theOut`. -/
  max_capacity : ℕ := 0
  deriving DecidableEq

/-- `MemBuf::potentialSpaceSize` of `theOut`: one byte is kept for the terminating zero. -/
def Parser.potentialSpaceSize (parser : Parser) : ℕ :=
  parser.max_capacity - (parser.theOut.length + 1)

def Parser.needsMoreSpace (parser : Parser) : Bool :=
  parser.theStep = .psChunkBody && parser.potentialSpaceSize = 0

def Parser.mayContinue (parser : Parser) : Bool :=
  !parser.doNeedMoreData && !parser.needsMoreSpace && parser.theStep ≠ .psMessageEnd

/-- `StringToInt64`: the number and the end pointer. -/
def StringToInt64 (s : Bytes) (base : ℕ) : Option (ℤ × Bytes) :=
  let result := strtoll base s
  if result.2.length ≠ s.length then some result else none

/-- `findCrlf` from offset `i` on; the result also has the final `quoted` and `slashed`. -/
def findCrlfFrom : ℕ → Option ℕ → Bool → Bool → Bytes → Option (ℕ × ℕ) × Bool × Bool
  | _, _, quoted, slashed, [] => (none, quoted, slashed)
  | i, crOff, quoted, slashed, c :: rest =>
      if slashed then
        findCrlfFrom (i + 1) crOff quoted false rest
      else if quoted then
        if c = 92 then
          findCrlfFrom (i + 1) crOff true true rest
        else if c = 34 then
          findCrlfFrom (i + 1) crOff false false rest
        else
          findCrlfFrom (i + 1) crOff true false rest
      else if c = 34 then
        findCrlfFrom (i + 1) none true false rest
      else
        match crOff with
        | none =>
            if c = 10 then
              (some (i, i + 1), false, false)
            else if c = 13 then
              findCrlfFrom (i + 1) (some i) false false rest
            else
              findCrlfFrom (i + 1) none false false rest
        | some cr =>
            if c = 10 then
              (some (cr, i + 1), false, false)
            else if c ≠ 13 then
              findCrlfFrom (i + 1) none false false rest
            else
              findCrlfFrom (i + 1) (some cr) false false rest

/-- `findCrlf` with the state that is kept between calls. -/
def findCrlf (content : Bytes) (quoted slashed : Bool) : Option (ℕ × ℕ) × Bool × Bool :=
  findCrlfFrom 0 none quoted slashed content

def parseChunkSize (parser : Parser) : Except Failure Parser :=
  if ¬ parser.theChunkSize ≤ 0 then
    .error .must
  else if parser.theIn.dropWhile (isDigit 16) = [] then
    .ok { parser with doNeedMoreData := true }
  else
    match StringToInt64 parser.theIn 16 with
    | none => .error .corruptedChunkSize
    | some (size, p) =>
        if size < 0 then
          .error .negativeChunkSize
        else if size ≠ 0 then
          .ok { parser with
            theChunkSize := size.toNat
            theLeftBodySize := size.toNat
            theStep := .psUnusedChunkExtension }
        else
          .ok { parser with
            theChunkSize := 0
            theLeftBodySize := 0
            theIn := p
            theStep := .psLastChunkExtension }

def parseUnusedChunkExtension (parser : Parser) : Parser :=
  match findCrlf parser.theIn parser.inQuoted parser.inSlashed with
  | (some (_, crlfEnd), _, _) =>
      { parser with
        inQuoted := false
        inSlashed := false
        theIn := parser.theIn.drop crlfEnd
        theStep := if parser.theChunkSize ≠ 0 then .psChunkBody else .psTrailer }
  | (none, quoted, slashed) =>
      { parser with
        inQuoted := quoted
        inSlashed := slashed
        theIn := []
        doNeedMoreData := true }

/-- `availSize` of `parseChunkBody`. -/
def Parser.availSize (parser : Parser) : ℕ := min parser.theLeftBodySize parser.theIn.length

/-- `safeSize` of `parseChunkBody`. -/
def Parser.safeSize (parser : Parser) : ℕ := min parser.availSize parser.potentialSpaceSize

/-- What `parseChunkBody` does before it decides on the next step. -/
def Parser.moveBody (parser : Parser) : Parser :=
  { parser with
    doNeedMoreData := parser.availSize < parser.theLeftBodySize
    theOut := parser.theOut ++ parser.theIn.take parser.safeSize
    theIn := parser.theIn.drop parser.safeSize
    theLeftBodySize := parser.theLeftBodySize - parser.safeSize }

def parseChunkBody (parser : Parser) : Except Failure Parser :=
  if ¬ 0 < parser.theLeftBodySize then
    .error .must
  else if parser.moveBody.theLeftBodySize = 0 then
    .ok { parser.moveBody with theStep := .psChunkEnd }
  else if parser.moveBody.doNeedMoreData || parser.moveBody.needsMoreSpace then
    .ok parser.moveBody
  else
    .error .must

def parseChunkEnd (parser : Parser) : Except Failure Parser :=
  if parser.theLeftBodySize ≠ 0 then
    .error .must
  else
    match (findCrlf parser.theIn false false).1 with
    | some (crlfBeg, crlfEnd) =>
        if crlfBeg ≠ 0 then
          .error .dataAfterChunk
        else
          .ok { parser with
            theIn := parser.theIn.drop crlfEnd
            theChunkSize := 0
            theStep := .psChunkSize }
    | none => .ok { parser with doNeedMoreData := true }

def parseTrailerHeader (parser : Parser) : Parser :=
  match (findCrlf parser.theIn false false).1 with
  | some (crlfBeg, crlfEnd) =>
      { parser with
        theIn := parser.theIn.drop crlfEnd
        theStep := if crlfBeg = 0 then .psMessageEnd else parser.theStep }
  | none => { parser with doNeedMoreData := true }

/-- The loop of `parseTrailer`. -/
def parseTrailerHeaders : ℕ → Parser → Parser
  | 0, parser => parser
  | fuel + 1, parser =>
      if parser.mayContinue then parseTrailerHeaders fuel (parseTrailerHeader parser) else parser

/-- `parseTrailer`; every header takes at least one byte. -/
def parseTrailer (parser : Parser) : Except Failure Parser :=
  if parser.theChunkSize ≠ 0 then
    .error .must
  else
    .ok (parseTrailerHeaders (parser.theIn.length + 1) parser)

/-- `use-original-body=`. -/
def useOriginalBody : Bytes :=
  [117, 115, 101, 45, 111, 114, 105, 103, 105, 110, 97, 108, 45, 98, 111, 100, 121, 61]

/-- Offset after the spaces and tabs from offset `p` on. -/
def skipBlanks (content : Bytes) (p : ℕ) : ℕ :=
  p + ((content.drop p).takeWhile fun c => c = 32 || c = 9).length

/-- The loop over the extensions of the last chunk: the new `useOriginBody`. -/
def parseExtensions (content : Bytes) (endExt : ℕ) (useOriginBody : ℤ) : ℕ → ℕ → ℤ
  | 0, _ => useOriginBody
  | fuel + 1, p =>
      if p < endExt then
        let p := skipBlanks content p
        if content.getD p 0 ≠ 59 then
          useOriginBody
        else
          let p := skipBlanks content (p + 1)
          if endExt ≤ p then
            useOriginBody
          else if 18 < endExt - p ∧ (content.drop p).take 18 = useOriginalBody then
            match StringToInt64 (content.drop (p + 18)) 10 with
            | some (value, _) => value
            | none => useOriginBody
          else
            let rest := ((content.drop p).take (endExt - p)).takeWhile (· ≠ 59)
            parseExtensions content endExt useOriginBody fuel (p + rest.length)
      else
        useOriginBody

/-- `parseLastChunkExtension`; every extension takes at least one byte. -/
def parseLastChunkExtension (parser : Parser) : Parser :=
  match (findCrlf parser.theIn false false).1 with
  | none => { parser with doNeedMoreData := true }
  | some (crlfBeg, crlfEnd) =>
      { parser with
        useOriginBody := parseExtensions parser.theIn crlfBeg parser.useOriginBody (crlfBeg + 1) 0
        theIn := parser.theIn.drop crlfEnd
        theStep := if parser.theChunkSize ≠ 0 then .psChunkBody else .psTrailer }

/-- `(this->*theStep)()`. -/
def Parser.step (parser : Parser) : Except Failure Parser :=
  match parser.theStep with
  | .psChunkSize => parseChunkSize parser
  | .psUnusedChunkExtension => .ok (parseUnusedChunkExtension parser)
  | .psLastChunkExtension => .ok (parseLastChunkExtension parser)
  | .psChunkBody => parseChunkBody parser
  | .psChunkEnd => parseChunkEnd parser
  | .psTrailer => parseTrailer parser
  | .psMessageEnd => .error .must

/-- The loop of `parse`. -/
def Parser.run : ℕ → Parser → Except Failure Parser
  | 0, parser => .ok parser
  | fuel + 1, parser =>
      if parser.mayContinue then parser.step.bind (Parser.run fuel) else .ok parser

/-- `parse`; at most one step in two leaves the raw content as it is. -/
def Parser.parse (parser : Parser) : Except Failure Parser :=
  Parser.run (2 * parser.theIn.length + 3)
    { parser with doNeedMoreData := parser.theIn.isEmpty }

end Chunked
end Squid
