import Squid.Library.CRuntime
import Mathlib.Data.List.GetD

/-!
# `HttpParser::parseRequestFirstLine`

The request-line parser of `src/HttpParser.cc` on a buffer that starts with the request.  Offsets
are `int`s with `-1` for an unset one.  The byte after the data is the zero that terminates the
connection's buffer.
-/

namespace Squid
namespace HttpParser

open CRuntime

/-- The values of `request_parse_status` that the parser uses. -/
inductive HttpStatus
  | HTTP_STATUS_NONE
  | HTTP_OK
  | HTTP_BAD_REQUEST
  | HTTP_HTTP_VERSION_NOT_SUPPORTED

/-- `request_offsets` after `clear`. -/
structure RequestOffsets where
  start : ℤ := -1
  stop : ℤ := -1
  m_start : ℤ := -1
  m_end : ℤ := -1
  u_start : ℤ := -1
  u_end : ℤ := -1
  v_start : ℤ := -1
  v_end : ℤ := -1
  v_maj : ℤ := 0
  v_min : ℤ := 0

/-- What a call leaves behind: the returned verdict and the parser's fields. -/
structure Result where
  verdict : ℤ
  request_parse_status : HttpStatus
  req : RequestOffsets

/-- The trackers of the line scan. -/
structure Track where
  /-- The suspected URI start. -/
  second_word : ℤ := -1
  first_whitespace : ℤ := -1
  last_whitespace : ℤ := -1

/-- How the line scan ends. -/
inductive Scan
  /-- No line terminator in the buffer. -/
  | needMore
  /-- CR outside the terminator. -/
  | reject
  /-- Found the terminator; its last byte is at `stop`. -/
  | line (track : Track) (line_end stop : ℤ)

/-- The trackers after byte `b` at offset `i`. -/
def Track.see (track : Track) (start i : ℤ) (b : UInt8) : Track :=
  let track :=
    if b = 32 then
      { track with
        last_whitespace := i
        first_whitespace :=
          if track.first_whitespace < start then i else track.first_whitespace }
    else
      track
  if track.second_word < track.first_whitespace ∧ b ≠ 32 ∧ b ≠ 9 then
    { track with second_word := i }
  else
    track

/-- The loop over the buffer, from offset `i` with the bytes from there on. -/
def scanLine (relaxed : Bool) (start : ℤ) : ℤ → Track → Bytes → Scan
  | _, _, [] => .needMore
  | i, track, b :: rest =>
      let track := track.see start i b
      if b = 10 then
        .line track (i - 1) i
      else if rest ≠ [] ∧ b = 13 then
        if relaxed then
          let run := rest.takeWhile (· = 13)
          if (rest.dropWhile (· = 13)).headD 0 = 10 then
            .line track (i - 1) (i + run.length + 1)
          else
            .reject
        else if rest.headD 0 = 10 then
          .line track (i - 1) (i + 1)
        else
          .reject
      else
        scanLine relaxed start (i + 1) track rest

/-- `buf[i]`. -/
def byteAt (buf : Bytes) (i : ℤ) : UInt8 := buf.getD i.toNat 0

/-- Crop trailing white space of the URI; `count` is the number of bytes that may be cropped. -/
def cropUri (buf : Bytes) (u_end : ℤ) : ℕ → ℤ
  | 0 => u_end
  | count + 1 => if isSpace (byteAt buf u_end) then cropUri buf (u_end - 1) count else u_end

/-- A version number: up to `count` digits from offset `i` on, while the value is below `65536`. -/
def parseNumber (buf : Bytes) (i value : ℤ) : ℕ → ℤ × ℤ
  | 0 => (i, value)
  | count + 1 =>
      if isDigit 10 (byteAt buf i) ∧ value < 65536 then
        parseNumber buf (i + 1) (value * 10 + ((byteAt buf i).toNat - 48)) count
      else
        (i, value)

/-- `strncasecmp(&buf[v_start], "HTTP/", 5) == 0`. -/
def isHttpMark (buf : Bytes) (v_start : ℤ) : Bool :=
  (byteAt buf v_start = 72 || byteAt buf v_start = 104) &&
    (byteAt buf (v_start + 1) = 84 || byteAt buf (v_start + 1) = 116) &&
    (byteAt buf (v_start + 2) = 84 || byteAt buf (v_start + 2) = 116) &&
    (byteAt buf (v_start + 3) = 80 || byteAt buf (v_start + 3) = 112) &&
    byteAt buf (v_start + 4) = 47

/-- The numbers after `HTTP/`. -/
def parseVersion (buf : Bytes) (req : RequestOffsets) (line_end : ℤ) : Result :=
  let i := req.v_start + 5
  if ¬ isDigit 10 (byteAt buf i) then
    ⟨-1, .HTTP_HTTP_VERSION_NOT_SUPPORTED, req⟩
  else
    let (i, maj) := parseNumber buf i 0 (line_end - i + 1).toNat
    if maj ≥ 65536 ∨ i > line_end then
      ⟨-1, .HTTP_HTTP_VERSION_NOT_SUPPORTED, req⟩
    else
      let req := { req with v_maj := maj }
      if byteAt buf i ≠ 46 then
        ⟨-1, .HTTP_HTTP_VERSION_NOT_SUPPORTED, req⟩
      else if i + 1 > line_end then
        ⟨-1, .HTTP_HTTP_VERSION_NOT_SUPPORTED, req⟩
      else if ¬ isDigit 10 (byteAt buf (i + 1)) then
        ⟨-1, .HTTP_HTTP_VERSION_NOT_SUPPORTED, req⟩
      else
        let (i, min) := parseNumber buf (i + 1) 0 (line_end - (i + 1) + 1).toNat
        if min ≥ 65536 ∨ i < line_end then
          ⟨-1, .HTTP_HTTP_VERSION_NOT_SUPPORTED, req⟩
        else
          ⟨1, .HTTP_OK, { req with v_min := min }⟩

/-- The URI and the version of a line whose second word is known. -/
def parseUri (violations : Bool) (buf : Bytes) (req : RequestOffsets) (track : Track)
    (line_end : ℤ) : Result :=
  let req := { req with u_start := track.second_word }
  if track.last_whitespace < track.second_word ∧ track.last_whitespace ≥ req.start then
    ⟨1, .HTTP_OK, { req with v_maj := 0, v_min := 9, u_end := line_end }⟩
  else
    let req :=
      { req with
        u_end := cropUri buf track.last_whitespace
          (track.last_whitespace - req.u_start + 1).toNat }
    if req.u_end < req.u_start then
      ⟨-1, .HTTP_BAD_REQUEST, req⟩
    else if track.last_whitespace ≥ line_end then
      ⟨-1, .HTTP_BAD_REQUEST, req⟩
    else
      let req := { req with v_start := track.last_whitespace + 1, v_end := line_end }
      if req.v_end - req.v_start + 1 < 5 ∨ ¬ isHttpMark buf req.v_start then
        if violations then
          ⟨1, .HTTP_OK, { req with v_maj := 0, v_min := 9, u_end := line_end }⟩
        else
          ⟨-1, .HTTP_HTTP_VERSION_NOT_SUPPORTED, req⟩
      else
        parseVersion buf req line_end

/-- The fields of a complete line. -/
def parseFields (violations : Bool) (buf : Bytes) (req : RequestOffsets) (track : Track)
    (line_end : ℤ) : Result :=
  if req.start > line_end then
    ⟨-1, .HTTP_BAD_REQUEST, req⟩
  else
    let req := { req with m_start := req.start }
    if track.first_whitespace > line_end ∨ track.first_whitespace < req.start then
      ⟨-1, .HTTP_BAD_REQUEST, req⟩
    else
      let req := { req with m_end := track.first_whitespace - 1 }
      if req.m_end < req.m_start then
        ⟨-1, .HTTP_BAD_REQUEST, req⟩
      else if track.second_word > line_end ∨ track.second_word < req.start then
        ⟨-1, .HTTP_BAD_REQUEST, req⟩
      else
        parseUri violations buf req track line_end

/-- The offset of the method: leading spaces are skipped unless the parser is strict. -/
def methodStart (relaxed : Bool) (buf : Bytes) : ℕ :=
  if relaxed then (buf.takeWhile (· = 32)).length else 0

/-- `parseRequestFirstLine` after `reset`; `violations` is `USE_HTTP_VIOLATIONS`. -/
def parseRequestFirstLine (relaxedHeaderParser : ℤ) (violations : Bool) (buf : Bytes) : Result :=
  let relaxed : Bool := relaxedHeaderParser ≠ 0
  let start : ℤ := methodStart relaxed buf
  match scanLine relaxed start 0 {} buf with
  | .needMore => ⟨0, .HTTP_STATUS_NONE, { start }⟩
  | .reject => ⟨-1, .HTTP_BAD_REQUEST, { start }⟩
  | .line track line_end stop => parseFields violations buf { start, stop } track line_end

end HttpParser
end Squid
