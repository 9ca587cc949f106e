import Squid.Http.ChunkedCodingParser
import Squid.Http.HttpReply
import Squid.Library.LabelledRun

/-!
# Reading the reply of a server

`HttpStateData`, as in `src/http.cc` and `src/Server.cc`, from the first read on: the reply header is
parsed, control messages in front of it are taken out, and the body goes to `addVirginReplyBody`.
The connection stays open and the store entry accepts the reply; `removeStaleWarnings`, which is
about `Warning` entries only, is left out, and so is what is done with the body.
-/

namespace Squid

open CRuntime

/-! ## What a reply says about its body and its connection -/

namespace HttpHeader

/-- `HttpHeader::getInt64`. -/
def getInt64 (h : HttpHeader) (id : HdrType) : Except Abort ℤ := do
  match (← h.findEntry id) with
  | some e => return (httpHeaderParseOffset e.value).getD (-1)
  | none => return -1

/-- `httpHeaderHasConnDir`. -/
def hasConnDir (httpViolations : Bool) (h : HttpHeader) (directive : Bytes) :
    Except Abort Bool := do
  if httpViolations && (← h.has .proxyConnection) then
    return strListIsMember (← h.getList .proxyConnection) directive 44
  else if (← h.has .connection) then
    return strListIsMember (← h.getList .connection) directive 44
  else return false

end HttpHeader

/-- What the transaction depends on. -/
structure HttpStateConfig where
  msg : HttpMsgConfig
  /-- `USE_HTTP_VIOLATIONS`. -/
  httpViolations : Bool
  /-- `request->method == METHOD_HEAD`. -/
  isHead : Bool
  /-- `Adaptation::AccessCheck::Start` has services to check. -/
  adaptation : Bool
  /-- The packed header that is made up for an HTTP/0.9 reply. -/
  gatewaying : MemBuf

namespace HttpReply

/-- `content_length`, as `hdrCacheInit` sets it. -/
def contentLength (reply : HttpReply) : Except Abort ℤ := reply.header.getInt64 .contentLength

/-- `HttpMsg::persistent`, which `hdrCacheInit` stores as `keep_alive`. -/
def persistent (config : HttpStateConfig) (reply : HttpReply) : Except Abort Bool :=
  if 1 < reply.sline.major ∨ reply.sline.major = 1 ∧ 0 < reply.sline.minor then do
    return !(← reply.header.hasConnDir config.httpViolations (ascii "close"))
  else reply.header.hasConnDir config.httpViolations (ascii "keep-alive")

/-- `HttpReply::bodySize`. -/
def bodySize (config : HttpStateConfig) (reply : HttpReply) : Except Abort ℤ :=
  if reply.sline.major < 1 then .ok (-1)
  else if config.isHead then .ok 0
  else if reply.sline.status = 200 then reply.contentLength
  else if reply.sline.status = 204 then .ok 0
  else if reply.sline.status = 304 then .ok 0
  else if reply.sline.status < 200 then .ok 0
  else reply.contentLength

/-- The first part of `HttpReply::expectingBody`. -/
def expectBody (config : HttpStateConfig) (reply : HttpReply) : Bool :=
  if config.isHead then false
  else if reply.sline.status = 204 then false
  else if reply.sline.status = 304 then false
  else if reply.sline.status < 200 then false
  else true

/-- `HttpReply::expectingBody`: the size of the body, if one is expected. -/
def expectingBody (config : HttpStateConfig) (reply : HttpReply) : Except Abort (Option ℤ) := do
  if reply.expectBody config then
    if (← reply.header.chunked) then return some (-1)
    else
      let content_length ← reply.contentLength
      if 0 ≤ content_length then return some content_length else return some (-1)
  else return none

end HttpReply

/-! ## The job -/

inductive ConnectionStatus
  | INCOMPLETE_MSG
  | COMPLETE_PERSISTENT_MSG
  | COMPLETE_NONPERSISTENT_MSG
  deriving DecidableEq

/-- What stops the program. -/
inductive HttpStateFault
  /-- in `HttpReply` -/
  | message (fault : HttpMsgFault)
  /-- an assertion of `MemBuf` -/
  | memBuf
  /-- `assert` or `Must` -/
  | assert

/-- `HttpStateData`, with its flags. -/
structure HttpStateData where
  readBuf : MemBuf
  eof : Bool := false
  lastChunk : Bool := false
  header_bytes_read : ℤ := 0
  reply_bytes_read : ℤ := 0
  body_bytes_truncated : ℤ := 0
  httpChunkDecoder : Option Chunked.Parser := none
  /-- `flags.headers_parsed` -/
  headers_parsed : Bool := false
  /-- `flags.handling1xx` -/
  handling1xx : Bool := false
  /-- `flags.do_next_read` -/
  do_next_read : Bool := false
  /-- `flags.chunked` -/
  chunked : Bool := false
  /-- `flags.keepalive` -/
  keepalive : Bool
  /-- `flags.request_sent` -/
  request_sent : Bool
  adaptationAccessCheckPending : Bool := false
  virginReply : Option HttpReply := none
  /-- The size of the read that is under way. -/
  reading : Option ℕ := none
  /-- What was passed to `addVirginReplyBody`. -/
  virginReplyBody : Bytes := []
  /-- What `persistentConnStatus` returned last. -/
  status : Option ConnectionStatus := none
  /-- The job is done with the connection. -/
  done : Bool := false

namespace HttpStateData

/-- Stop with the abort of `HttpHeader`. -/
def ofAbort {α : Type} : Except Abort α → Except HttpStateFault α
  | .ok result => .ok result
  | .error abort => .error (.message (.header abort))

/-- Stop with the fault of `HttpReply`. -/
def ofMessage {α : Type} : Except HttpMsgFault α → Except HttpStateFault α
  | .ok result => .ok result
  | .error fault => .error (.message fault)

/-- Stop with the assertion of `MemBuf`. -/
def ofMemBuf : Option MemBuf → Except HttpStateFault MemBuf
  | some mb => .ok mb
  | none => .error .memBuf

/-- `assert` and `Must`. -/
def must (holds : Bool) : Except HttpStateFault Unit :=
  if holds then .ok () else .error .assert

def replyBodySpace (readBuf : MemBuf) (minSpace : ℕ) : ℕ :=
  if readBuf.spaceSize < minSpace then min minSpace readBuf.potentialSpaceSize
  else readBuf.spaceSize

def maybeReadVirginBody (state : HttpStateData) : Except HttpStateFault HttpStateData := do
  let minRead := if state.headers_parsed then 0 else 1024
  let read_size := replyBodySpace state.readBuf minRead
  if read_size < 2 then return state
  else if state.do_next_read then
    let readBuf ← ofMemBuf (state.readBuf.space read_size)
    return { state with do_next_read := false, readBuf, reading := some read_size }
  else return state

def statusIfComplete (config : HttpStateConfig) (state : HttpStateData) (rep : HttpReply) :
    Except HttpStateFault ConnectionStatus := do
  if (← ofAbort (rep.header.hasConnDir config.httpViolations (ascii "close"))) then
    return .COMPLETE_NONPERSISTENT_MSG
  else if !state.keepalive then return .COMPLETE_NONPERSISTENT_MSG
  else if !state.request_sent then return .COMPLETE_NONPERSISTENT_MSG
  else if !(← ofAbort (rep.persistent config)) then return .COMPLETE_NONPERSISTENT_MSG
  else return .COMPLETE_PERSISTENT_MSG

def persistentConnStatus (config : HttpStateConfig) (state : HttpStateData) (vrep : HttpReply) :
    Except HttpStateFault ConnectionStatus := do
  if state.eof then return .COMPLETE_NONPERSISTENT_MSG
  else if state.lastChunk && state.chunked then statusIfComplete config state vrep
  else
    let clen ← ofAbort (vrep.bodySize config)
    if clen < 0 then return .INCOMPLETE_MSG
    else if 0 < clen then
      let body_bytes_read := state.reply_bytes_read - state.header_bytes_read
      let content_length ← ofAbort vrep.contentLength
      if body_bytes_read < content_length then return .INCOMPLETE_MSG
      else if 0 < state.body_bytes_truncated then return .COMPLETE_NONPERSISTENT_MSG
      else statusIfComplete config state vrep
    else statusIfComplete config state vrep

def truncateVirginBody (config : HttpStateConfig) (state : HttpStateData) (vrep : HttpReply) :
    Except HttpStateFault HttpStateData := do
  must state.headers_parsed
  match (← ofAbort (vrep.expectingBody config)) with
  | none => return state
  | some clen =>
      if clen < 0 then return state
      else
        let body_bytes_read := state.reply_bytes_read - state.header_bytes_read
        if body_bytes_read - state.body_bytes_truncated ≤ clen then return state
        else
          let extras := body_bytes_read - state.body_bytes_truncated - clen
          let readBuf ← ofMemBuf (state.readBuf.truncate extras.toNat)
          return { state with
            readBuf
            body_bytes_truncated := int32 (state.body_bytes_truncated + extras) }

def addVirginReplyBody (state : HttpStateData) (data : Bytes) : HttpStateData :=
  { state with virginReplyBody := state.virginReplyBody ++ data }

def writeReplyBody (config : HttpStateConfig) (state : HttpStateData) (vrep : HttpReply) :
    Except HttpStateFault HttpStateData := do
  let state ← truncateVirginBody config state vrep
  let data := state.readBuf.content
  let readBuf ← ofMemBuf (state.readBuf.consume data.length)
  return { state.addVirginReplyBody data with readBuf }

/-- `decodeAndWriteReplyBody`; an exception ends the reply. -/
def decodeAndWriteReplyBody (state : HttpStateData) (decoder : Chunked.Parser) :
    HttpStateData × Bool :=
  match { decoder with
    theIn := state.readBuf.content, theOut := [], max_capacity := memBufMaxSize }.parse with
  | .error _ => (state, false)
  | .ok decoder =>
      let state := { state.addVirginReplyBody decoder.theOut with
        readBuf := { state.readBuf with content := decoder.theIn }
        httpChunkDecoder := some decoder }
      if decoder.theStep = .psMessageEnd then
        ({ state with lastChunk := true, do_next_read := false }, true)
      else (state, true)

/-- The end of `processReplyBody`, from `persistentConnStatus` on. -/
def afterReplyBody (config : HttpStateConfig) (state : HttpStateData) (vrep : HttpReply) :
    Except HttpStateFault HttpStateData := do
  let status ← persistentConnStatus config state vrep
  let state := { state with status := some status }
  match status with
  | .INCOMPLETE_MSG => maybeReadVirginBody { state with do_next_read := true }
  | .COMPLETE_PERSISTENT_MSG => return { state with do_next_read := false, done := true }
  | .COMPLETE_NONPERSISTENT_MSG => return { state with done := true }

def processReplyBody (config : HttpStateConfig) (state : HttpStateData) :
    Except HttpStateFault HttpStateData :=
  match state.virginReply, state.headers_parsed with
  | some vrep, true =>
      if state.adaptationAccessCheckPending then .ok state
      else if state.chunked then
        match state.httpChunkDecoder with
        | none => .error .assert
        | some decoder =>
            match state.decodeAndWriteReplyBody decoder with
            | (state, false) => .ok { state with do_next_read := false, done := true }
            | (state, true) => afterReplyBody config state vrep
      else do
        let state ← writeReplyBody config state vrep
        afterReplyBody config state vrep
  | _, _ => maybeReadVirginBody { state with do_next_read := true }

/-- `handle1xx`: `proceedAfter1xx` follows at once or when the message was forwarded. -/
def handle1xx (state : HttpStateData) : Except HttpStateFault HttpStateData := do
  must !state.handling1xx
  return { state with handling1xx := true }

/-- `setVirginReply`, at the end of the headers. -/
def setVirginReply (state : HttpStateData) (rep : HttpReply) :
    Except HttpStateFault HttpStateData := do
  must state.virginReply.isNone
  return { state with virginReply := some rep, headers_parsed := true }

/-- `processReplyHeader` with a reply that was parsed. -/
def processNewReply (state : HttpStateData) (newrep : HttpReply) :
    Except HttpStateFault HttpStateData := do
  if newrep.sline.protocol = .http ∧ 100 ≤ newrep.sline.status ∧ newrep.sline.status < 200 then
    state.handle1xx
  else
    let chunked ← ofAbort newrep.header.chunked
    let chunked := newrep.sline.protocol = .http ∧ chunked
    let state := { state with
      chunked := decide chunked
      httpChunkDecoder := if chunked then some {} else state.httpChunkDecoder }
    state.setVirginReply newrep

def processReplyHeader (config : HttpStateConfig) (state : HttpStateData) :
    Except HttpStateFault HttpStateData := do
  must !state.headers_parsed
  let content := state.readBuf.content
  if content = [] then return state
  else
    let parsed ← ofMessage (HttpReply.parse config.msg {} state.readBuf state.eof)
    if !parsed.success && 5 < content.length && content.take 5 ≠ ascii "HTTP/" &&
        content.take 3 ≠ ascii "ICY" then
      let parsed ← ofMessage (HttpReply.parse config.msg parsed.reply config.gatewaying state.eof)
      state.processNewReply parsed.reply
    else if !parsed.success && 0 < parsed.error then
      let sline := { parsed.reply.sline with major := 1, minor := 1, status := parsed.error }
      state.setVirginReply { parsed.reply with sline }
    else if !parsed.success then
      must (parsed.error = 0)
      must !state.eof
      return state
    else
      let header_bytes_read := headersEnd content
      let readBuf ← ofMemBuf (state.readBuf.consume header_bytes_read)
      { state with readBuf, header_bytes_read := int32 header_bytes_read }.processNewReply
        parsed.reply

/-- `continueAfterParsingHeader`: the result, and the state; an error closes the connection. -/
def continueAfterParsingHeader (state : HttpStateData) :
    Except HttpStateFault (HttpStateData × Bool) := do
  if state.handling1xx then
    must !state.headers_parsed
    return (state, false)
  else if !state.headers_parsed && !state.eof then
    let state ← maybeReadVirginBody { state with do_next_read := true }
    return (state, false)
  else
    let failed := { state with do_next_read := false, done := true }
    if state.headers_parsed then
      match state.virginReply with
      | some vrep =>
          if vrep.sline.status = 600 ∧ ¬(vrep.sline.major = 0 ∧ vrep.sline.minor = 9) then
            return (failed, false)
          else if vrep.sline.status = 601 then return (failed, false)
          else return (state, true)
      | none => return (failed, false)
    else return (failed, false)

def processReply (config : HttpStateConfig) (state : HttpStateData) :
    Except HttpStateFault HttpStateData := do
  must (!state.handling1xx || !state.headers_parsed)
  let state := { state with handling1xx := false }
  if state.headers_parsed then processReplyBody config state
  else
    let state ← processReplyHeader config state
    let (state, continues) ← continueAfterParsingHeader state
    if continues then
      -- `adaptOrFinalizeReply`
      processReplyBody config { state with adaptationAccessCheckPending := config.adaptation }
    else return state

/-- `readReply`; there are no bytes at the end of the file. -/
def readReply (config : HttpStateConfig) (state : HttpStateData) (bytes : Bytes) :
    Except HttpStateFault HttpStateData := do
  let state := { state with do_next_read := false, reading := none }
  if bytes = [] then
    let state := { state with eof := true, do_next_read := false }
    if state.readBuf.content ≠ [] ∧ !state.headers_parsed then
      let readBuf ← ofMemBuf (state.readBuf.append [13, 10])
      processReply config { state with readBuf }
    else processReply config state
  else
    let readBuf ← ofMemBuf (state.readBuf.appended bytes)
    let reply_bytes_read : ℤ := state.reply_bytes_read + bytes.length
    processReply config { state with readBuf, reply_bytes_read }

/-- `proceedAfter1xx`, and the call that it schedules. -/
def proceedAfter1xx (config : HttpStateConfig) (state : HttpStateData) :
    Except HttpStateFault HttpStateData := do
  must state.handling1xx
  processReply config { state with header_bytes_read := 0, reply_bytes_read := 0 }

/-- `noteAdaptationAclCheckDone`, which goes on with the body. -/
def noteAdaptationAclCheckDone (config : HttpStateConfig) (state : HttpStateData) :
    Except HttpStateFault HttpStateData :=
  processReplyBody config { state with adaptationAccessCheckPending := false }

/-- What happens to the job. -/
inductive Event
  /-- Bytes of the server are read. -/
  | read (bytes : Bytes)
  /-- The server has closed the connection. -/
  | eof
  /-- The control message was ignored or forwarded. -/
  | proceedAfter1xx
  /-- The adaptation check is over. -/
  | aclCheckDone
  /-- The whole request has been sent. -/
  | requestSent
  deriving DecidableEq

/-- The event can happen. -/
def Enabled (state : HttpStateData) : Event → Bool
  | .read bytes => bytes ≠ [] && state.reading.any (bytes.length ≤ ·)
  | .eof => state.reading.isSome
  | .proceedAfter1xx => state.handling1xx
  | .aclCheckDone => state.adaptationAccessCheckPending
  | .requestSent => !state.done

/-- What the job does. -/
def handle (config : HttpStateConfig) (state : HttpStateData) :
    Event → Except HttpStateFault HttpStateData
  | .read bytes => state.readReply config bytes
  | .eof => state.readReply config []
  | .proceedAfter1xx => state.proceedAfter1xx config
  | .aclCheckDone => state.noteAdaptationAclCheckDone config
  | .requestSent => .ok { state with request_sent := true }

/-- A step of the job, unless it stops the program. -/
def next (config : HttpStateConfig) (state : HttpStateData) (event : Event) :
    Option HttpStateData :=
  if state.Enabled event then (state.handle config event).toOption else none

/-- The job at its first read. -/
def start (keepalive request_sent : Bool) : HttpStateData :=
  { readBuf := { capacity := 16 * 1024, max_capacity := 256 * 1024 }
    keepalive, request_sent
    reading := some (16 * 1024 - 1) }

end HttpStateData
end Squid
