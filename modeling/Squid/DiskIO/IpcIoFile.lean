import Squid.Library.OrderedMap
import Squid.Library.LabelledRun
import Mathlib.Algebra.Group.Nat.Defs
import Mathlib.Logic.Function.Basic
import Mathlib.Order.Nat

/-!
# Disk I/O through a disker process

Workers send read and write requests to one disker through per-worker request and response queues
and pass the data in pages of the shared page pool.  Each worker tracks its requests by a request
id in two maps, completes them with the disker's response or, from a periodic check, without one.
A completion runs the callback of the code that made the request, which may make more requests, so
the worker carries a stack of what is being executed.

A label names one atomic step: an access to a queue or to the page pool, or a call or a return
across the interface of `IpcIoFile`.
-/

namespace Squid

/-- What kind of I/O the disker needs to do or has done. -/
inductive IpcIo.Command where
  | cmdNone
  | cmdOpen
  | cmdRead
  | cmdWrite
  deriving DecidableEq

/-- An I/O request or the response to it. -/
structure IpcIoMsg where
  /-- Matches the request with its response. -/
  requestId : ℕ
  /-- Where in the file the I/O starts. -/
  offset : ℕ
  /-- Number of bytes to transfer, or transferred. -/
  len : ℕ
  /-- The shared memory page with the data. -/
  page : Option ℕ
  /-- What the disker is supposed to do or did. -/
  command : IpcIo.Command
  /-- I/O error code or zero. -/
  xerrno : ℕ
  /-- Which request of its worker the message carries or answers, counted from 1; not a field of
  the source. -/
  request : ℕ

/-- The parameters of a request while the disker is handling it. -/
structure IpcIoPendingRequest where
  /-- Number of the request among those made by its worker; not a field of the source. -/
  serial : ℕ
  /-- Whether `writeRequest` is set rather than `readRequest`. -/
  isWrite : Bool
  /-- Offset of the I/O. -/
  offset : ℕ
  /-- Length of the I/O. -/
  len : ℕ

/-- A call of `completeIo` and what it tells the requestor. -/
structure IpcIoCompletion where
  /-- The completed request. -/
  pending : IpcIoPendingRequest
  /-- The disker's response, if any. -/
  response : Option IpcIoMsg
  /-- The length reported to the callback. -/
  rlen : ℤ
  /-- `DISK_OK` or `DISK_ERROR`, as reported to the callback. -/
  errflag : ℤ

/-- The state of one `IpcIoFile`. -/
structure IpcIoFile where
  /-- Whether an I/O error was seen. -/
  error : Bool
  /-- Last request id used. -/
  lastRequestId : ℕ
  /-- Older (or newer) pending requests. -/
  requestMap1 : OrderedMap ℕ IpcIoPendingRequest
  /-- Newer (or older) pending requests. -/
  requestMap2 : OrderedMap ℕ IpcIoPendingRequest
  /-- Whether `olderRequests` points to `requestMap1`. -/
  olderIsFirst : Bool
  /-- Whether a `CheckTimeouts` call is expected. -/
  timeoutCheckScheduled : Bool
  /-- Number of requests made so far; not a field of the source. -/
  made : ℕ
  /-- The `completeIo` calls so far, latest first; not a field of the source. -/
  completed : List IpcIoCompletion

namespace IpcIoFile

/-- A file opened by its worker and not used yet. -/
def opened : IpcIoFile where
  error := false
  lastRequestId := 0
  requestMap1 := OrderedMap.empty
  requestMap2 := OrderedMap.empty
  olderIsFirst := true
  timeoutCheckScheduled := false
  made := 0
  completed := []

/-- The map with the requests that time out at the next check. -/
def olderRequests (file : IpcIoFile) : OrderedMap ℕ IpcIoPendingRequest :=
  if file.olderIsFirst then file.requestMap1 else file.requestMap2

/-- The map that new requests enter. -/
def newerRequests (file : IpcIoFile) : OrderedMap ℕ IpcIoPendingRequest :=
  if file.olderIsFirst then file.requestMap2 else file.requestMap1

/-- Number of values of an `unsigned int`. -/
def idModulus : ℕ := 2 ^ 32

/-- Advance the id counter, skipping zero. -/
def nextRequestId (lastRequestId : ℕ) : ℕ :=
  if (lastRequestId + 1) % idModulus = 0 then 1 else (lastRequestId + 1) % idModulus

/-- The constructor of `IpcIoPendingRequest`. -/
def newPendingRequest (file : IpcIoFile) (isWrite : Bool) (offset len : ℕ) :
    IpcIoFile × IpcIoPendingRequest :=
  ({ file with lastRequestId := nextRequestId file.lastRequestId, made := file.made + 1 },
    { serial := file.made + 1, isWrite, offset, len })

/-- Track a new pending request. -/
def trackPendingRequest (file : IpcIoFile) (pending : IpcIoPendingRequest) : IpcIoFile :=
  if file.olderIsFirst then
    { file with
      requestMap2 := file.requestMap2.insert file.lastRequestId pending
      timeoutCheckScheduled := true }
  else
    { file with
      requestMap1 := file.requestMap1.insert file.lastRequestId pending
      timeoutCheckScheduled := true }

/-- Return and forget the pending request with an id. -/
def dequeueRequest (file : IpcIoFile) (requestId : ℕ) : Option (IpcIoFile × IpcIoPendingRequest) :=
  match file.requestMap1.find requestId with
  | some pending =>
      some ({ file with requestMap1 := file.requestMap1.erase requestId }, pending)
  | none =>
      match file.requestMap2.find requestId with
      | some pending =>
          some ({ file with requestMap2 := file.requestMap2.erase requestId }, pending)
      | none => none

/-- Finish a read: the error state, the length and the error flag reported to the requestor. -/
def readCompleted (error : Bool) (pending : IpcIoPendingRequest) :
    Option IpcIoMsg → Bool × ℤ × ℤ
  | none => (error, -1, -1)
  | some response =>
      if response.xerrno ≠ 0 then (true, -1, -1)
      else if response.page = none then (error, -1, -1)
      else (error, pending.len, 0)

/-- Finish a write: the error state, the length and the error flag reported to the requestor. -/
def writeCompleted (error : Bool) (pending : IpcIoPendingRequest) :
    Option IpcIoMsg → Bool × ℤ × ℤ
  | none => (error, 0, -1)
  | some response =>
      if response.xerrno ≠ 0 then (true, 0, -1)
      else if response.len ≠ pending.len then (true, pending.len, 0)
      else (error, pending.len, 0)

/-- Hand a request back to its requestor, with the disker's response if there is one. -/
def completeIo (file : IpcIoFile) (pending : IpcIoPendingRequest) (response : Option IpcIoMsg) :
    IpcIoFile :=
  let outcome :=
    if pending.isWrite then writeCompleted file.error pending response
    else readCompleted file.error pending response
  { file with
    error := outcome.1
    completed :=
      { pending, response, rlen := outcome.2.1, errflag := outcome.2.2 } :: file.completed }

/-- The pages that `completeIo` puts back into the pool: a read returns the page of its response. -/
def returnedPage (pending : IpcIoPendingRequest) (response : IpcIoMsg) : List ℕ :=
  if pending.isWrite then [] else response.page.toList

/-- The end of a timeout check, after every older request was completed. -/
def finishCheck (file : IpcIoFile) : IpcIoFile :=
  let newerEmpty := file.newerRequests.entries.isEmpty
  let cleared :=
    if file.olderIsFirst then { file with requestMap1 := OrderedMap.empty }
    else { file with requestMap2 := OrderedMap.empty }
  { cleared with
    olderIsFirst := !file.olderIsFirst
    timeoutCheckScheduled := file.timeoutCheckScheduled || !newerEmpty }

end IpcIoFile

/-- What the worker's main loop has called. -/
inductive IpcIoEvent where
  /-- Nothing, or the code that uses the file. -/
  | idle
  /-- `HandleNotification`, popping responses. -/
  | notification
  /-- `checkTimeouts`, popping responses. -/
  | checkTimeouts
  /-- The loop of `checkTimeouts` over the older requests, at this request id (0 before the first). -/
  | sweep (requestId : ℕ)
  deriving DecidableEq

/-- A nested activation. -/
inductive IpcIoFrame where
  /-- The requestor's callback, run by `completeIo`. -/
  | callback
  /-- `push`, popping responses to earlier requests. -/
  | push (pending : IpcIoPendingRequest)

/-- The rest of `push` after the responses were popped. -/
inductive IpcIoSending where
  /-- A write that is about to take a page for its data. -/
  | page (pending : IpcIoPendingRequest) (requestId : ℕ)
  /-- A message that is about to enter the request queue. -/
  | queue (pending : IpcIoPendingRequest) (message : IpcIoMsg)

/-- A worker process, as far as its file is concerned. -/
structure IpcIoWorker where
  /-- The file. -/
  file : IpcIoFile
  /-- What the main loop is executing. -/
  event : IpcIoEvent
  /-- The activations above it, innermost first. -/
  stack : List IpcIoFrame
  /-- The `push` in its last part, if there is one; it is innermost. -/
  sending : Option IpcIoSending

namespace IpcIoWorker

/-- A worker with its file open. -/
def opened : IpcIoWorker := ⟨IpcIoFile.opened, .idle, [], none⟩

/-- Whether the requestor's code is running, so that it may call `read` and `write`. -/
def inRequestor (worker : IpcIoWorker) : Bool :=
  match worker.sending, worker.stack with
  | none, [] => worker.event = .idle
  | none, .callback :: _ => true
  | _, _ => false

/-- Whether the loop of `HandleResponses` is running. -/
def inHandleResponses (worker : IpcIoWorker) : Bool :=
  match worker.sending, worker.stack with
  | none, [] => worker.event = .notification || worker.event = .checkTimeouts
  | none, .push _ :: _ => true
  | _, _ => false

/-- Complete a request; the requestor's callback starts to run. -/
def complete (worker : IpcIoWorker) (pending : IpcIoPendingRequest)
    (response : Option IpcIoMsg) : IpcIoWorker :=
  { worker with
    file := worker.file.completeIo pending response
    stack := .callback :: worker.stack }

/-- The message `push` sends for a request. -/
def requestMessage (requestId : ℕ) (pending : IpcIoPendingRequest) (page : Option ℕ) :
    IpcIoMsg where
  requestId := requestId
  offset := pending.offset
  len := pending.len
  page := page
  command := if pending.isWrite then .cmdWrite else .cmdRead
  xerrno := 0
  request := pending.serial

/-- `push` after its call of `HandleResponses`, up to the first access to shared memory. -/
def prepare (pageSize : ℕ) (worker : IpcIoWorker) (pending : IpcIoPendingRequest) : IpcIoWorker :=
  if pending.isWrite then
    if pending.len ≤ pageSize then
      { worker with sending := some (.page pending worker.file.lastRequestId) }
    else worker.complete pending none
  else
    { worker with
      sending := some (.queue pending (requestMessage worker.file.lastRequestId pending none)) }

/-- One turn of the loop over the older requests. -/
def sweepOn (worker : IpcIoWorker) (requestId : ℕ) : IpcIoWorker :=
  match worker.file.olderRequests.above requestId with
  | some (next, pending) => { worker with event := .sweep next }.complete pending none
  | none => { worker with file := worker.file.finishCheck, event := .idle }

end IpcIoWorker

/-- A worker with the queues between it and the disker. -/
structure IpcIoChannel where
  /-- The worker. -/
  worker : IpcIoWorker
  /-- The queue of requests to the disker. -/
  requests : List IpcIoMsg
  /-- The queue of responses to the worker. -/
  responses : List IpcIoMsg

/-- The steps of a worker. -/
inductive IpcIoWorkerStep where
  /-- `read` or `write` is called. -/
  | call (isWrite : Bool) (offset len : ℕ)
  /-- The innermost callback returns. -/
  | callbackReturns
  /-- A notification of the disker arrives. -/
  | notification
  /-- The event `checkTimeouts` is due. -/
  | checkTimeouts
  /-- `HandleResponses` pops a response; the queue hands out index 0. -/
  | pop (index : ℕ)
  /-- `HandleResponses` finds no more responses. -/
  | popFails
  /-- The loop of `checkTimeouts` goes on. -/
  | sweep
  /-- `push` asks for a page and gets this one, if any. -/
  | getPage (page : Option ℕ)
  /-- `push` puts its message into the request queue, unless that is full. -/
  | queuePush (full : Bool)

/-- What `pread` or `pwrite` returns. -/
inductive DiskResult where
  | bytes (count : ℕ)
  | error (errno : ℕ)

/-- The steps of the disker. -/
inductive DiskerStep (W : Type*) where
  /-- Pop a request of a worker; the queue hands out index 0. -/
  | pop (worker : W) (index : ℕ)
  /-- `diskerRead`, with the page it gets and the result of `pread`. -/
  | read (page : Option ℕ) (result : DiskResult)
  /-- `diskerWrite`, with the result of `pwrite`. -/
  | write (result : DiskResult)
  /-- Put the response into the worker's queue, unless that is full. -/
  | queuePush (full : Bool)

/-- A request popped by the disker. -/
structure DiskerOperation (W : Type*) where
  /-- The worker that made the request. -/
  worker : W
  /-- The request, later the response. -/
  message : IpcIoMsg
  /-- Whether the I/O was done. -/
  served : Bool

/-- The workers, the disker and the page pool. -/
structure IpcIoSystem (W : Type*) where
  /-- Each worker with its queues. -/
  channel : W → IpcIoChannel
  /-- The request the disker is handling. -/
  disker : Option (DiskerOperation W)
  /-- The free pages of the pool. -/
  freePages : List ℕ
  /-- The pages in use by the memory cache. -/
  cachePages : List ℕ

/-- The steps of the system. -/
inductive IpcIoLabel (W : Type*) where
  | worker (worker : W) (step : IpcIoWorkerStep)
  | disker (step : DiskerStep W)
  /-- The memory cache takes a page. -/
  | cacheGet (page : ℕ)
  /-- The memory cache gives a page back. -/
  | cachePut (page : ℕ)

namespace IpcIoChannel

/-- Start a worker with empty queues. -/
def opened : IpcIoChannel := ⟨IpcIoWorker.opened, [], []⟩

/-- `read` and `write`: they require a file without error, and `write` some data. -/
def call (channel : IpcIoChannel) (isWrite : Bool) (offset len : ℕ) : Option IpcIoChannel :=
  if channel.worker.inRequestor ∧ channel.worker.file.error = false ∧ (isWrite → 0 < len) then
    let made := channel.worker.file.newPendingRequest isWrite offset len
    some { channel with
      worker := { channel.worker with
        file := made.1
        stack := .push made.2 :: channel.worker.stack } }
  else none

/-- The innermost callback returns to the code that completed the request. -/
def callbackReturns (channel : IpcIoChannel) : Option IpcIoChannel :=
  match channel.worker.sending, channel.worker.stack with
  | none, .callback :: rest =>
      some { channel with worker := { channel.worker with stack := rest } }
  | _, _ => none

/-- The main loop calls `HandleNotification`. -/
def notification (channel : IpcIoChannel) : Option IpcIoChannel :=
  match channel.worker.sending, channel.worker.stack, channel.worker.event with
  | none, [], .idle =>
      some { channel with worker := { channel.worker with event := .notification } }
  | _, _, _ => none

/-- The main loop calls `checkTimeouts`. -/
def checkTimeouts (channel : IpcIoChannel) : Option IpcIoChannel :=
  match channel.worker.sending, channel.worker.stack, channel.worker.event with
  | none, [], .idle =>
      some { channel with
        worker := { channel.worker with
          file := { channel.worker.file with timeoutCheckScheduled := false }
          event := .checkTimeouts } }
  | _, _, _ => none

/-- `handleResponse`: complete the request that the response names, or drop a late response. -/
def handleResponse (channel : IpcIoChannel) (response : IpcIoMsg) : IpcIoChannel :=
  match channel.worker.file.dequeueRequest response.requestId with
  | some (file, pending) =>
      { channel with worker := { channel.worker with file := file }.complete pending (some response) }
  | none => channel

/-- The page that `handleResponse` puts back into the pool. -/
def releasedPage (channel : IpcIoChannel) (response : IpcIoMsg) : List ℕ :=
  match channel.worker.file.dequeueRequest response.requestId with
  | some (_, pending) => IpcIoFile.returnedPage pending response
  | none => []

/-- One turn of the loop of `HandleResponses`, with the page it returns to the pool. -/
def pop (channel : IpcIoChannel) (index : ℕ) : Option (IpcIoChannel × List ℕ) :=
  if channel.worker.inHandleResponses then
    match channel.responses[index]? with
    | some response =>
        if response.requestId ≠ 0 then
          some ({ channel with responses := channel.responses.eraseIdx index }.handleResponse
            response, channel.releasedPage response)
        else none
    | none => none
  else none

/-- The loop of `HandleResponses` ends: `push` or `checkTimeouts` goes on. -/
def popFails (pageSize : ℕ) (channel : IpcIoChannel) : Option IpcIoChannel :=
  if channel.responses = [] then
    match channel.worker.sending, channel.worker.stack, channel.worker.event with
    | none, .push pending :: rest, _ =>
        some { channel with
          worker := IpcIoWorker.prepare pageSize { channel.worker with stack := rest } pending }
    | none, [], .notification =>
        some { channel with worker := { channel.worker with event := .idle } }
    | none, [], .checkTimeouts =>
        some { channel with worker := { channel.worker with event := .sweep 0 } }
    | _, _, _ => none
  else none

/-- One turn of the loop over the older requests, when no callback is running. -/
def sweep (channel : IpcIoChannel) : Option IpcIoChannel :=
  match channel.worker.sending, channel.worker.stack, channel.worker.event with
  | none, [], .sweep requestId =>
      some { channel with worker := channel.worker.sweepOn requestId }
  | _, _, _ => none

/-- `push` gets a page for the data to write, or gives up. -/
def getPage (channel : IpcIoChannel) (page : Option ℕ) : Option IpcIoChannel :=
  match channel.worker.sending with
  | some (.page pending requestId) =>
      match page with
      | some number =>
          let message := IpcIoWorker.requestMessage requestId pending (some number)
          some { channel with
            worker := { channel.worker with sending := some (.queue pending message) } }
      | none =>
          some { channel with
            worker := { channel.worker with sending := none }.complete pending none }
  | _ => none

/-- `push` sends its message and tracks the request; a full queue completes the request. -/
def queuePush (channel : IpcIoChannel) (full : Bool) : Option IpcIoChannel :=
  match channel.worker.sending with
  | some (.queue pending message) =>
      let worker := { channel.worker with sending := none }
      if full then some { channel with worker := worker.complete pending none }
      else
        some { channel with
          requests := channel.requests ++ [message]
          worker := { worker with file := worker.file.trackPendingRequest pending } }
  | _ => none

end IpcIoChannel

/-- `diskerRead`: read into a page of the pool. -/
def diskerRead (message : IpcIoMsg) (page : Option ℕ) (result : DiskResult) : IpcIoMsg :=
  match page with
  | none => { message with len := 0 }
  | some number =>
      match result with
      | .bytes count => { message with page := some number, xerrno := 0, len := count }
      | .error errno => { message with page := some number, xerrno := errno, len := 0 }

/-- `diskerWrite`: write from the page of the message, which goes back to the pool. -/
def diskerWrite (message : IpcIoMsg) (result : DiskResult) : IpcIoMsg :=
  match result with
  | .bytes count => { message with page := none, xerrno := 0, len := count }
  | .error errno => { message with page := none, xerrno := errno, len := 0 }

namespace IpcIoSystem

variable {W : Type*} [DecidableEq W]

/-- All workers idle, all pages free. -/
def initial (pool : List ℕ) : IpcIoSystem W := ⟨fun _ => IpcIoChannel.opened, none, pool, []⟩

/-- Replace one channel. -/
def setChannel (system : IpcIoSystem W) (w : W) (channel : IpcIoChannel) : IpcIoSystem W :=
  { system with channel := Function.update system.channel w channel }

/-- A page can be taken from the pool only while it is free. -/
def available (system : IpcIoSystem W) : Option ℕ → Bool
  | none => true
  | some page => page ∈ system.freePages

/-- The free pages after `GetPage`. -/
def take (system : IpcIoSystem W) (page : Option ℕ) : List ℕ :=
  match page with
  | none => system.freePages
  | some number => system.freePages.erase number

/-- One step of a worker. -/
def workerStep (pageSize : ℕ) (system : IpcIoSystem W) (w : W) :
    IpcIoWorkerStep → Option (IpcIoSystem W)
  | .call isWrite offset len =>
      ((system.channel w).call isWrite offset len).map (system.setChannel w)
  | .callbackReturns => (system.channel w).callbackReturns.map (system.setChannel w)
  | .notification => (system.channel w).notification.map (system.setChannel w)
  | .checkTimeouts => (system.channel w).checkTimeouts.map (system.setChannel w)
  | .pop index =>
      ((system.channel w).pop index).map fun result =>
        { system.setChannel w result.1 with freePages := result.2 ++ system.freePages }
  | .popFails => ((system.channel w).popFails pageSize).map (system.setChannel w)
  | .sweep => (system.channel w).sweep.map (system.setChannel w)
  | .getPage page =>
      if system.available page then
        ((system.channel w).getPage page).map fun channel =>
          { system.setChannel w channel with freePages := system.take page }
      else none
  | .queuePush full => ((system.channel w).queuePush full).map (system.setChannel w)

/-- One step of the disker. -/
def diskerStep (system : IpcIoSystem W) : DiskerStep W → Option (IpcIoSystem W)
  | .pop w index =>
      match system.disker, (system.channel w).requests[index]? with
      | none, some message =>
          let popped := system.setChannel w
            { system.channel w with requests := (system.channel w).requests.eraseIdx index }
          -- `DiskerHandleRequest` reports any other command and forgets the message
          if message.command ≠ .cmdRead ∧ message.command ≠ .cmdWrite then some popped
          else some { popped with disker := some ⟨w, message, false⟩ }
      | _, _ => none
  | .read page result =>
      match system.disker with
      | some ⟨w, message, false⟩ =>
          if message.command = .cmdRead ∧ system.available page then
            some { system with
              disker := some ⟨w, diskerRead message page result, true⟩
              freePages := system.take page }
          else none
      | _ => none
  | .write result =>
      match system.disker with
      | some ⟨w, message, false⟩ =>
          if message.command = .cmdRead then none
          else
            some { system with
              disker := some ⟨w, diskerWrite message result, true⟩
              freePages := message.page.toList ++ system.freePages }
      | _ => none
  | .queuePush full =>
      match system.disker with
      | some ⟨w, message, true⟩ =>
          if full then some { system with disker := none }
          else
            some { system.setChannel w { system.channel w with
                responses := (system.channel w).responses ++ [message] } with
              disker := none }
      | _ => none

/-- One step of the system. -/
def next (pageSize : ℕ) (system : IpcIoSystem W) : IpcIoLabel W → Option (IpcIoSystem W)
  | .worker w step => system.workerStep pageSize w step
  | .disker step => system.diskerStep step
  | .cacheGet page =>
      if page ∈ system.freePages then
        some { system with
          freePages := system.freePages.erase page
          cachePages := page :: system.cachePages }
      else none
  | .cachePut page =>
      if page ∈ system.cachePages then
        some { system with
          freePages := page :: system.freePages
          cachePages := system.cachePages.erase page }
      else none

end IpcIoSystem

end Squid
