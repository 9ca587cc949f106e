import Squid.Base.MemBuf
import Squid.Http.HttpHeader
import Squid.Http.MimeHeader

/-!
# Parsing reply headers

`HttpReply::parse`, as in `src/HttpMsg.cc`, `src/HttpReply.cc` and `src/HttpStatusLine.cc`.  A
pointer is an offset in the buffer, which a zero byte follows.  What `hdrCacheInit` computes from
the header entries is left out.
-/

namespace Squid

open CRuntime

/-- `AnyP::ProtocolType` of a status line. -/
inductive StatusProtocol
  | http | icy
  deriving DecidableEq

/-- `HttpStatusLine`, without the reason, which is not parsed. -/
structure HttpStatusLine where
  protocol : StatusProtocol := .http
  /-- `version.major` -/
  major : ℕ := 0
  /-- `version.minor` -/
  minor : ℕ := 0
  status : ℤ := 0

inductive HttpMsgParseState
  | readyToParseStartLine | readyToParseHeaders | parsed | error

/-- The part of `HttpReply` that parsing fills. -/
structure HttpReply where
  header : HttpHeader := .empty .reply
  hdr_sz : ℤ := 0
  pstate : HttpMsgParseState := .readyToParseStartLine
  sline : HttpStatusLine := {}
  protoPrefix : Bytes := ascii "HTTP/"

/-! ## The status line -/

/-- One `%d` of `sscanf`: the number and what follows. -/
def scanInt (s : Bytes) : Option (ℤ × Bytes) :=
  let (number, rest) := strtoll 10 s
  if rest.length = s.length then none else some (int32 number, rest)

/-- An `int` stored as `unsigned int`. -/
def asUnsigned (number : ℤ) : ℕ := (number % 2 ^ 32).toNat

/-- `sscanf(start, "%d.%d", &sline->version.major, &sline->version.minor)`. -/
def scanVersion (sline : HttpStatusLine) (start : Bytes) : HttpStatusLine :=
  match scanInt start with
  | some (major, 46 :: rest) =>
      match scanInt rest with
      | some (minor, _) => { sline with major := asUnsigned major, minor := asUnsigned minor }
      | none => { sline with major := asUnsigned major }
  | some (major, _) => { sline with major := asUnsigned major }
  | none => sline

def atoi (s : Bytes) : ℤ := int32 (strtoll 10 s).1

/-- The end of `httpStatusLineParse`: the status behind the first space. -/
def scanStatus (sline : HttpStatusLine) (start : Bytes) : HttpStatusLine × Bool :=
  match start.dropWhile (· != 32) with
  | [] => (sline, false)
  | _ :: start => ({ sline with status := atoi start }, true)

/-- `httpStatusLineParse`: the line, and whether it is one. -/
def httpStatusLineParse (sline : HttpStatusLine) (protoPrefix start : Bytes) :
    HttpStatusLine × Bool :=
  let start := cstr start
  let sline := { sline with status := 600 }
  if protoPrefix.take 3 = ascii "ICY" then
    scanStatus { sline with protocol := .icy } (start.drop protoPrefix.length)
  else if (start.take protoPrefix.length).map toLower = protoPrefix.map toLower then
    let start := start.drop protoPrefix.length
    if (start.head?.any (isDigit 10)) = false then (sline, false)
    else scanStatus (scanVersion sline start) start
  else (sline, false)

/-! ## Isolating the start line and the headers -/

/-- What stops the program. -/
inductive HttpMsgFault
  /-- an assertion of `httpMsgIsolateHeaders` -/
  | isolateHeaders
  /-- a read past the terminator or before the buffer -/
  | overread
  /-- `assert(pstate < psParsed)` -/
  | parseState
  /-- no room for the terminator -/
  | terminate
  /-- an assertion of `HttpHeader` -/
  | header (abort : Abort)

/-- `buf[i]` of a terminated buffer. -/
def charAt (buf : Bytes) (i : ℕ) : UInt8 := buf.getD i 0

/-- Neither `'\r'` nor `'\n'`. -/
def inLine (c : UInt8) : Bool := c != 13 && c != 10

/-- `while (**blk_end == '\r') ++(*blk_end);` and the line feed behind. -/
def skipLineEnd (buf : Bytes) (blk_end : ℕ) : ℕ :=
  let blk_end := blk_end + ((buf.drop blk_end).takeWhile (· == 13)).length
  if charAt buf blk_end = 10 then blk_end + 1 else blk_end

/-- `httpMsgIsolateStart`: the end of the start line, from where on the headers are parsed. -/
def httpMsgIsolateStart (buf : Bytes) (parse_start : ℕ) : Option ℕ :=
  let slen := ((cstr (buf.drop parse_start)).takeWhile inLine).length
  if charAt buf (parse_start + slen) = 0 then none
  else some (skipLineEnd buf (parse_start + slen))

/-- `while (*(*blk_end - 1) == '\r') --(*blk_end);` -/
def stripReturns (buf : Bytes) : ℕ → ℕ
  | 0 => 0
  | i + 1 => if charAt buf i = 13 then stripReturns buf i else i + 1

/-- `blk_start`, `blk_end` and the new `parse_start`. -/
structure HeaderBlock where
  blk_start : ℕ
  blk_end : ℕ
  parse_start : ℕ

/-- The bytes of the block. -/
def HeaderBlock.bytes (block : HeaderBlock) (buf : Bytes) : Bytes :=
  (buf.drop block.blk_start).take (block.blk_end - block.blk_start)

/-- `httpMsgIsolateHeaders`; `l` becomes a `size_t`. -/
def httpMsgIsolateHeaders (buf : Bytes) (parse_start : ℕ) (l : ℤ) :
    Except HttpMsgFault (Option HeaderBlock) :=
  let size := (l % 2 ^ 64).toNat
  if buf.length + 1 < parse_start + size then .error .overread
  else
    let found := headersEnd ((buf.drop parse_start).take size)
    if found ≠ 0 then
      if charAt buf (parse_start + found - 1) ≠ 10 then .error .isolateHeaders
      else
        let blk_end := stripReturns buf (parse_start + found - 1)
        if blk_end = 0 then .error .overread
        else if charAt buf (blk_end - 1) ≠ 10 then .error .isolateHeaders
        else .ok (some ⟨parse_start, blk_end, parse_start + found⟩)
    else if charAt buf parse_start ≠ 13 ∧ charAt buf parse_start ≠ 10 then .ok none
    else .ok (some ⟨parse_start, parse_start, skipLineEnd buf parse_start⟩)

/-! ## The message -/

/-- What the parser tells the log. -/
inductive HttpMsgNote
  /-- "strange, need more data near" -/
  | needMoreData
  /-- "internal HttpMsg::parse vs. headersEnd error" -/
  | headersEndError

/-- `HttpMsg::parse`: what it returns and sets, and what it writes to the log. -/
structure HttpMsgParsed where
  success : Bool
  error : ℤ
  reply : HttpReply
  notes : List HttpMsgNote := []

/-- `Config`, as far as replies are concerned. -/
structure HttpMsgConfig where
  maxReplyHeaderSize : ℕ
  relaxedHeaderParser : Bool

/-- Stop with the abort of `HttpHeader`. -/
def ofHeader {α : Type} : Except Abort α → Except HttpMsgFault α
  | .ok result => .ok result
  | .error abort => .error (.header abort)

namespace HttpReply

/-- `HttpReply::reset`, with `clean` and `init`. -/
def reset (reply : HttpReply) : Except HttpMsgFault HttpReply := do
  let header ← ofHeader reply.header.clean
  return { reply with header, sline := {}, pstate := .readyToParseStartLine }

/-- `HttpReply::httpMsgParseError`. -/
def httpMsgParseError (reply : HttpReply) : Except HttpMsgFault (ℤ × HttpReply) := do
  let reply ← reply.reset
  return (-1, { reply with sline := { reply.sline with status := 600 } })

/-- A digit or a dot of the version. -/
def inVersion (c : UInt8) : Bool := c == 46 || isDigit 10 c

/-- The end of `sanityCheckStartLine`: a digit behind the spaces at `pos`. -/
def checkStatus (reply : HttpReply) (pos : Bytes) : HttpReply × Bool × ℤ :=
  match pos.dropWhile (· == 32) with
  | c :: _ => if isDigit 10 c then (reply, true, 0) else (reply, false, 600)
  | [] => (reply, true, 0)

/-- `HttpReply::sanityCheckStartLine`: the reply, the result and the error. -/
def sanityCheckStartLine (reply : HttpReply) (buf : Bytes) (hdr_len : ℕ) :
    HttpReply × Bool × ℤ :=
  if buf.length < reply.protoPrefix.length + 4 then
    (reply, false, if 0 < hdr_len then 600 else 0)
  else if buf.take 3 = ascii "ICY" then
    { reply with protoPrefix := ascii "ICY" }.checkStatus (buf.drop 3)
  else if buf.take reply.protoPrefix.length ≠ reply.protoPrefix then (reply, false, 600)
  else
    let pos := buf.drop reply.protoPrefix.length
    if pos.takeWhile inVersion = [] then (reply, false, 600)
    else reply.checkStatus (pos.dropWhile inVersion)

/-- The part of `httpMsgParseStep` for the headers, which start at `parse_start`. -/
def parseHeadersStep (relaxed : Bool) (reply : HttpReply) (buf : Bytes) (parse_start : ℕ)
    (parse_len : ℤ) (atEnd : Bool) : Except HttpMsgFault (ℤ × HttpReply) := do
  let isolated ← httpMsgIsolateHeaders buf parse_start parse_len
  let block :=
    match isolated with
    | some block => some block
    | none =>
        if atEnd then
          some ⟨parse_start, parse_start + (cstr (buf.drop parse_start)).length, parse_start⟩
        else none
  match block with
  | none => return (0, reply)
  | some block => do
      let (header, accepted) ← ofHeader (reply.header.parse relaxed (block.bytes buf))
      let reply := { reply with header }
      if !accepted then reply.httpMsgParseError
      else return (1, { reply with hdr_sz := int32 block.parse_start, pstate := .parsed })

/-- `HttpMsg::httpMsgParseStep`: the result, and the reply. -/
def httpMsgParseStep (relaxed : Bool) (reply : HttpReply) (buf : Bytes) (len : ℤ)
    (atEnd : Bool) : Except HttpMsgFault (ℤ × HttpReply) :=
  match reply.pstate with
  | .readyToParseStartLine =>
      match httpMsgIsolateStart buf 0 with
      | none => .ok (0, reply)
      | some blk_end =>
          let (sline, accepted) := httpStatusLineParse reply.sline reply.protoPrefix buf
          let reply := { reply with sline }
          if !accepted then reply.httpMsgParseError
          else
            let hdr_sz := int32 blk_end
            parseHeadersStep relaxed { reply with hdr_sz, pstate := .readyToParseHeaders } buf
              blk_end (int32 (len - hdr_sz)) atEnd
  | .readyToParseHeaders => parseHeadersStep relaxed reply buf 0 len atEnd
  | .parsed | .error => .error .parseState

/-- The end of `HttpMsg::parse`, after `httpMsgParseStep`. -/
def parseEnd (hdr_len : ℕ) (error res : ℤ) (reply : HttpReply) : HttpMsgParsed :=
  if res < 0 then { success := false, error := 600, reply }
  else if res = 0 then { success := false, error := 600, reply, notes := [.needMoreData] }
  else if reply.hdr_sz ≠ int32 hdr_len then
    { success := true, error, reply := { reply with hdr_sz := int32 hdr_len }
      notes := [.headersEndError] }
  else { success := true, error, reply }

/-- `HttpMsg::parse` of a reply. -/
def parse (config : HttpMsgConfig) (reply : HttpReply) (buf : MemBuf) (eof : Bool) :
    Except HttpMsgFault HttpMsgParsed :=
  if buf.capacity ≤ buf.content.length then .error .terminate
  else
    let hdr_len := headersEnd buf.content
    match reply.sanityCheckStartLine buf.content hdr_len with
    | (reply, false, error) =>
        .ok { success := false, error := if eof ∧ error = 0 then 600 else error, reply }
    | (reply, true, error) =>
        if config.maxReplyHeaderSize < hdr_len ∨
            hdr_len = 0 ∧ config.maxReplyHeaderSize < buf.content.length then
          .ok { success := false, error := 601, reply }
        else if hdr_len = 0 then
          .ok { success := false, error := if eof then 600 else error, reply }
        else do
          let (res, reply) ← reply.httpMsgParseStep config.relaxedHeaderParser buf.content
            (int32 buf.content.length) eof
          return parseEnd hdr_len error res reply

end HttpReply
end Squid
