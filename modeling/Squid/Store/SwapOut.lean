import Squid.Library.LabelledRun
import Squid.Store.MemHdrFree

/-!
# Swapping out

An object that is being received, as in `src/store_swapout.cc` and `src/MemObject.cc`: its bytes are
appended in memory, handed over to a swap file, and trimmed from memory.  Neither the file nor the
rest of the process is modelled: what they answer is part of a call, and completed writes, progress
on disk and the end of the file are events of their own.  The store assigns the file number when it
creates the file.  The entry is not aborted, and its configuration does not change.
-/

namespace Squid
namespace Swap

open CRuntime
open Mem (MemHdr SM_PAGE_SIZE)

/-- Where the process dies. -/
inductive Fault where
  /-- In `mem_hdr`, outside the functions below. -/
  | memHdr
  | freeDataUpto
  | nodeGet
  | trimUnSwappable
  | doPages
  | swapOut
  | storeSwapOutFileClosed
  deriving DecidableEq

/-- What the configuration says. -/
structure Config where
  /-- `Config.cacheSwap.n_configured`. -/
  n_configured : ℕ
  /-- `Config.Store.maxInMemObjSize`. -/
  maxInMemObjSize : ℤ
  /-- `Config.onoff.memory_cache_first`. -/
  memory_cache_first : Bool
  store_maxobjsize : ℤ

/-- What `swapOut` is told by the rest of the process. -/
structure Call where
  /-- The memory cache wants the whole object. -/
  keepInLocalMemory : Bool := false
  /-- `mem_status == IN_MEMORY`. -/
  inMemory : Bool := false
  /-- The flag `ENTRY_SPECIAL`. -/
  special : Bool := false
  checkCachable : Bool := true
  /-- The size that the reply promises, or -1. -/
  promisedSize : ℤ := -1
  /-- `storeTooManyDiskFilesOpen() && !checkDeferRead(-1)`. -/
  waitForFiles : Bool := false
  /-- The size of the metadata. -/
  swap_hdr_sz : ℕ := 0
  /-- `storeCreate` gives a file. -/
  created : Bool := true
  /-- The `errflag` with which the file is closed while a write to it is being started. -/
  closes : ℕ → Option ℤ := fun _ => none

/-- `MemObject::SwapOut::Decision`. -/
inductive Decision where
  | swNeedsCheck
  | swImpossible
  | swPossible
  deriving DecidableEq

structure MemObject where
  data_hdr : MemHdr := {}
  /-- The flags `write_pending` of the pages. -/
  write_pending : ℕ → Bool := fun _ => false
  inmem_lo : ℤ := 0
  object_sz : ℤ := -1
  swap_hdr_sz : ℕ := 0
  /-- `copyInto.offset` of the clients of type `STORE_MEM_CLIENT`. -/
  clients : List ℤ := []
  /-- `swapout.queue_offset`. -/
  queue_offset : ℤ := 0
  /-- `swapout.sio->offset()`, unless `swapout.sio` is `NULL`. -/
  sio : Option ℤ := none
  /-- `swapout.decision`. -/
  decision : Decision := .swNeedsCheck

/-- `store_status`. -/
inductive StoreStatus where
  | STORE_OK
  | STORE_PENDING
  deriving DecidableEq

/-- `swap_status`. -/
inductive SwapStatus where
  | SWAPOUT_NONE
  | SWAPOUT_WRITING
  | SWAPOUT_DONE
  deriving DecidableEq

structure StoreEntry where
  mem_obj : MemObject := {}
  store_status : StoreStatus := .STORE_PENDING
  swap_status : SwapStatus := .SWAPOUT_NONE
  /-- The bytes that have been appended; not a field of the source. -/
  object : Bytes := []
  /-- The bytes handed over to the latest file after the metadata; not a field of the source. -/
  handed : Bytes := []
  /-- A file has been closed with `wroteAll`; not a field of the source. -/
  wroteAll : Bool := false

namespace MemObject

def endOffset (mem : MemObject) : Except Fault ℤ := mem.data_hdr.endOffset.mapError fun _ => .memHdr

/-- `LowestMemReader`. -/
def lowestMemReader (clients : List ℤ) (seed : ℤ) : ℤ :=
  clients.foldl (fun current offset => if offset < current then offset else current) seed

def lowestMemReaderOffset (mem : MemObject) : Except Fault ℤ :=
  mem.endOffset.map fun endOffset => lowestMemReader mem.clients (int64 (endOffset + 1))

def objectBytesOnDisk (mem : MemObject) : ℤ :=
  match mem.sio with
  | none => 0
  | some nwritten => if nwritten ≤ mem.swap_hdr_sz then 0 else nwritten - mem.swap_hdr_sz

def policyLowestOffsetToKeep (config : Config) (mem : MemObject) (swap : Bool) : Except Fault ℤ :=
  mem.lowestMemReaderOffset.bind fun lowest_offset =>
    mem.endOffset.map fun endOffset =>
      if endOffset < lowest_offset ∨ endOffset - mem.inmem_lo > config.maxInMemObjSize ∨
          (swap ∧ ¬ config.memory_cache_first) then
        lowest_offset
      else
        mem.inmem_lo

/-- `freeDataUpto`, followed by the assignment of `inmem_lo`. -/
def trimUpto (mem : MemObject) (new_mem_lo : ℤ) : Except Fault MemObject :=
  match mem.data_hdr.freeDataUpto mem.write_pending new_mem_lo with
  | .ok data_hdr => .ok { mem with data_hdr, inmem_lo := new_mem_lo }
  | .error _ => .error .freeDataUpto

/-- How far `trimSwappable` may free: what is on disk, less one byte. -/
def swappableLimit (mem : MemObject) (new_mem_lo : ℤ) : ℤ :=
  let on_disk := mem.objectBytesOnDisk
  let new_mem_lo := if on_disk - 1 < new_mem_lo then on_disk - 1 else new_mem_lo
  if new_mem_lo = -1 then 0 else new_mem_lo

def trimSwappable (config : Config) (mem : MemObject) : Except Fault MemObject :=
  (mem.policyLowestOffsetToKeep config true).bind fun new_mem_lo =>
    mem.trimUpto (mem.swappableLimit new_mem_lo)

def trimUnSwappable (config : Config) (mem : MemObject) : Except Fault MemObject :=
  (mem.policyLowestOffsetToKeep config false).bind fun new_mem_lo =>
    if 0 < new_mem_lo then mem.trimUpto new_mem_lo else .error .trimUnSwappable

/-- The loop of `hasContigousContentRange`; every round moves on. -/
def contiguousLoop : ℕ → MemHdr → ℤ → ℤ → Bool × MemHdr
  | 0, hdr, _, _ => (false, hdr)
  | fuel + 1, hdr, currentStart, stop =>
      match hdr.getBlockContainingLocation currentStart with
      | (none, hdr) => (false, hdr)
      | (some curr, hdr) =>
          if stop ≤ (hdr.heap curr).dataEnd then (true, hdr)
          else contiguousLoop fuel hdr (hdr.heap curr).dataEnd stop

def isContiguous (mem : MemObject) : Except Fault (Bool × MemObject) :=
  mem.endOffset.map fun endOffset =>
    match contiguousLoop ((endOffset - mem.inmem_lo).toNat + 1) mem.data_hdr mem.inmem_lo
      endOffset with
    | (result, data_hdr) => (result, { mem with data_hdr })

def expectedReplySize (mem : MemObject) (promisedSize : ℤ) : ℤ :=
  if 0 ≤ mem.object_sz then mem.object_sz else promisedSize

def availableForSwapOut (mem : MemObject) : Except Fault ℤ :=
  mem.endOffset.map fun endOffset => endOffset - mem.queue_offset

def NodeGet (mem : MemObject) (aNode : ℕ) : Except Fault MemObject :=
  if mem.write_pending aNode then .error .nodeGet
  else .ok { mem with write_pending := Function.update mem.write_pending aNode true }

end MemObject

namespace StoreEntry

def trimMemory (config : Config) (call : Call) (e : StoreEntry) (preserveSwappable : Bool) :
    Except Fault StoreEntry :=
  if call.inMemory then .ok e
  else if call.special then .ok e
  else if ¬ preserveSwappable then
    (e.mem_obj.policyLowestOffsetToKeep config false).bind fun lowest =>
      if lowest = 0 then .ok e
      else (e.mem_obj.trimUnSwappable config).map fun mem_obj => { e with mem_obj }
  else
    (e.mem_obj.trimSwappable config).map fun mem_obj => { e with mem_obj }

/-- `StoreController::maybeTrimMemory`. -/
def maybeTrimMemory (config : Config) (call : Call) (e : StoreEntry) (preserveSwappable : Bool) :
    Except Fault StoreEntry :=
  if call.keepInLocalMemory then .ok e else e.trimMemory config call preserveSwappable

/-- Set `swapout.decision`. -/
def decide (e : StoreEntry) (decision : Decision) : StoreEntry :=
  { e with mem_obj := { e.mem_obj with decision } }

/-- The checks of `mayStartSwapOut` against `store_maxobjsize`. -/
def checkMaxSize (config : Config) (call : Call) (e : StoreEntry) :
    Except Fault (Bool × StoreEntry) :=
  if 0 ≤ config.store_maxobjsize then
    let expectedEnd := e.mem_obj.expectedReplySize call.promisedSize
    if config.store_maxobjsize < expectedEnd then .ok (false, e.decide .swImpossible)
    else
      e.mem_obj.endOffset.map fun currentEnd =>
        if config.store_maxobjsize < currentEnd then (false, e.decide .swImpossible)
        else if expectedEnd < 0 ∧ e.store_status ≠ .STORE_OK then (true, e)
        else (true, e.decide .swPossible)
  else .ok (true, e.decide .swPossible)

def mayStartSwapOut (config : Config) (call : Call) (e : StoreEntry) :
    Except Fault (Bool × StoreEntry) :=
  if config.n_configured = 0 then .ok (false, e)
  else if e.mem_obj.decision = .swImpossible then .ok (false, e)
  else if e.mem_obj.decision = .swPossible then .ok (true, e)
  else if e.swap_status = .SWAPOUT_DONE then .ok (false, e.decide .swImpossible)
  else if ¬ call.checkCachable then .ok (false, e.decide .swImpossible)
  else if call.special then .ok (false, e.decide .swImpossible)
  else if 0 < e.mem_obj.inmem_lo then .ok (false, e.decide .swImpossible)
  else
    e.mem_obj.isContiguous.bind fun (contiguous, mem_obj) =>
      if contiguous then checkMaxSize config call { e with mem_obj }
      else .ok (false, { e with mem_obj }.decide .swImpossible)

def storeSwapOutFileClosed (e : StoreEntry) (errflag : ℤ) : Except Fault StoreEntry :=
  if e.mem_obj.sio = none then .error .storeSwapOutFileClosed
  else if e.swap_status ≠ .SWAPOUT_WRITING then .error .storeSwapOutFileClosed
  else
    .ok { e with
      swap_status := if errflag ≠ 0 ∨ e.mem_obj.object_sz < 0 then .SWAPOUT_NONE else .SWAPOUT_DONE
      mem_obj := { e.mem_obj with sio := none } }

/-- `storeIOWrite`, in which the file may be closed. -/
def storeIOWrite (e : StoreEntry) (closes : Option ℤ) : Except Fault StoreEntry :=
  match closes with
  | none => .ok e
  | some errflag => e.storeSwapOutFileClosed errflag

def storeSwapOutStart (call : Call) (e : StoreEntry) : Except Fault StoreEntry :=
  if call.created then
    storeIOWrite { e with
      swap_status := .SWAPOUT_WRITING
      mem_obj := { e.mem_obj with swap_hdr_sz := call.swap_hdr_sz, sio := some 0 }
      handed := [] } (call.closes 0)
  else
    .ok { e with
      swap_status := .SWAPOUT_NONE
      mem_obj := { e.mem_obj with swap_hdr_sz := call.swap_hdr_sz, decision := .swImpossible } }

/-- One round of `doPages`, up to the write, and whether there was a page to write. -/
def doPage (e : StoreEntry) (closes : Option ℤ) : Except Fault (Bool × StoreEntry) :=
  match e.mem_obj.data_hdr.getBlockContainingLocation e.mem_obj.queue_offset with
  | (none, data_hdr) => .ok (false, { e with mem_obj := { e.mem_obj with data_hdr } })
  | (some page, data_hdr) =>
      if (data_hdr.heap page).start ≠ e.mem_obj.queue_offset then .error .doPages
      else if ¬ 0 < (data_hdr.heap page).length then .error .doPages
      else
        (MemObject.NodeGet { e.mem_obj with
          data_hdr
          queue_offset := int64 (e.mem_obj.queue_offset + (data_hdr.heap page).length) } page).bind
          fun mem_obj =>
            (storeIOWrite { e with
              mem_obj
              handed := e.handed ++ (data_hdr.heap page).data.take (data_hdr.heap page).length }
              closes).map fun e => (true, e)

/-- The loop of `doPages`, with the number of writes before; every round moves `queue_offset`. -/
def doPages (call : Call) : ℕ → ℕ → StoreEntry → Except Fault StoreEntry
  | 0, _, e => .ok e
  | fuel + 1, writes, e =>
      (e.doPage (call.closes writes)).bind fun (wrote, e) =>
        if ¬ wrote then .ok e
        else if e.swap_status ≠ .SWAPOUT_WRITING then .ok e
        else
          e.mem_obj.availableForSwapOut.bind fun swapout_size =>
            if e.store_status = .STORE_PENDING ∧ swapout_size < SM_PAGE_SIZE then .ok e
            else if swapout_size ≤ 0 then .ok e
            else doPages call fuel (writes + 1) e

/-- `swapOutFileClose` with `wroteAll`. -/
def swapOutFileClose (e : StoreEntry) : StoreEntry :=
  if e.mem_obj.sio = none then e else { e with wroteAll := true }

/-- `swapOut` from the place where there is something to write. -/
def swapOutSome (call : Call) (swapout_maxsize : ℤ) (e : StoreEntry) : Except Fault StoreEntry :=
  (if e.swap_status = .SWAPOUT_NONE then
    if e.mem_obj.sio ≠ none then .error .swapOut
    else if e.mem_obj.inmem_lo ≠ 0 then .error .swapOut
    else storeSwapOutStart call e
  else .ok e).bind fun e =>
    if e.mem_obj.sio = none then .ok e
    else
      (doPages call (swapout_maxsize.toNat + 1) 1 e).bind fun e =>
        if e.mem_obj.sio = none then .ok e
        else if e.store_status = .STORE_OK then
          if ¬ 0 ≤ e.mem_obj.object_sz then .error .swapOut
          else
            e.mem_obj.endOffset.bind fun endOffset =>
              if endOffset ≠ e.mem_obj.queue_offset then .error .swapOut
              else .ok e.swapOutFileClose
        else .ok e

/-- `swapOut` from the decision on. -/
def swapOutPossible (call : Call) (e : StoreEntry) : Except Fault StoreEntry :=
  if e.mem_obj.decision ≠ .swPossible then .ok e
  else if e.swap_status = .SWAPOUT_WRITING ∧ ¬ e.mem_obj.inmem_lo ≤ e.mem_obj.objectBytesOnDisk then
    .error .swapOut
  else
    e.mem_obj.availableForSwapOut.bind fun swapout_maxsize =>
      if ¬ 0 ≤ swapout_maxsize then .error .swapOut
      else if swapout_maxsize = 0 then
        if e.store_status = .STORE_OK then
          if ¬ 0 ≤ e.mem_obj.object_sz then .error .swapOut else .ok e.swapOutFileClose
        else .ok e
      else if e.store_status = .STORE_PENDING ∧ swapout_maxsize < SM_PAGE_SIZE then .ok e
      else if e.store_status = .STORE_PENDING ∧ call.waitForFiles then .ok e
      else swapOutSome call swapout_maxsize e

def swapOut (config : Config) (call : Call) (e : StoreEntry) : Except Fault StoreEntry :=
  (if e.swap_status = .SWAPOUT_WRITING then .ok (true, e)
  else mayStartSwapOut config call e).bind fun (weAreOrMayBeSwappingOut, e) =>
    (e.maybeTrimMemory config call weAreOrMayBeSwappingOut).bind fun e => e.swapOutPossible call

end StoreEntry

/-- What happens to an object. -/
inductive Event where
  | append (data : Bytes)
  | complete
  | swapOut (call : Call)
  /-- The file grows on disk. -/
  | progress (offset : ℤ)
  | memNodeWriteComplete (page : ℕ)
  | storeSwapOutFileClosed (errflag : ℤ)
  /-- `storeClientListAdd`; a client that comes after the start was trimmed reads from disk. -/
  | storeClientListAdd
  /-- A client of the memory asks for what comes at an offset. -/
  | copy (client : ℕ) (offset : ℤ)
  /-- A client leaves. -/
  | storeUnregister (client : ℕ)

namespace StoreEntry

/-- `append`: a write at the end. -/
def append (e : StoreEntry) (data : Bytes) : Except Fault StoreEntry :=
  e.mem_obj.endOffset.bind fun endOffset =>
    match e.mem_obj.data_hdr.write endOffset data with
    | .ok data_hdr => .ok { e with
        mem_obj := { e.mem_obj with data_hdr }
        object := e.object ++ data }
    | .error _ => .error .memHdr

def complete (e : StoreEntry) : Except Fault StoreEntry :=
  e.mem_obj.endOffset.map fun endOffset => { e with
    mem_obj := { e.mem_obj with object_sz := endOffset }
    store_status := .STORE_OK }

/-- The handler of an event; `none` where the event cannot occur.  The clients of the memory go on
only, and offsets are of type `int64_t`. -/
def handle (config : Config) (e : StoreEntry) : Event → Option (Except Fault StoreEntry)
  | .append data =>
      if e.store_status = .STORE_PENDING ∧ e.object.length + data.length + 1 < 2 ^ 63 then
        some (e.append data)
      else none
  | .complete => if e.store_status = .STORE_PENDING then some e.complete else none
  | .swapOut call => some (e.swapOut config call)
  | .progress offset =>
      match e.mem_obj.sio with
      | none => none
      | some before =>
          if before ≤ offset ∧ offset ≤ e.mem_obj.swap_hdr_sz + e.handed.length then
            some (.ok { e with mem_obj := { e.mem_obj with sio := some offset } })
          else none
  | .memNodeWriteComplete page =>
      if e.mem_obj.write_pending page then
        some (.ok { e with mem_obj := { e.mem_obj with
          write_pending := Function.update e.mem_obj.write_pending page false } })
      else none
  | .storeSwapOutFileClosed errflag =>
      if e.mem_obj.sio = none then none else some (e.storeSwapOutFileClosed errflag)
  | .storeClientListAdd =>
      if e.mem_obj.inmem_lo = 0 then
        some (.ok { e with mem_obj := { e.mem_obj with clients := 0 :: e.mem_obj.clients } })
      else none
  | .copy client offset =>
      match e.mem_obj.clients[client]? with
      | none => none
      | some before =>
          if before ≤ offset then
            some (.ok { e with mem_obj := { e.mem_obj with
              clients := e.mem_obj.clients.set client offset } })
          else none
  | .storeUnregister client =>
      some (.ok { e with mem_obj := { e.mem_obj with
        clients := e.mem_obj.clients.eraseIdx client } })

end StoreEntry

/-- The next event of a run, which ends where the process dies. -/
def next (config : Config) (result : Except Fault StoreEntry) (event : Event) :
    Option (Except Fault StoreEntry) :=
  match result with
  | .error _ => none
  | .ok e => e.handle config event

end Swap
end Squid
