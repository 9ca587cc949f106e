import Squid.Ipc.StoreMapSafety
import Squid.Ipc.PageStack

/-!
# `MemStore`

The shared memory cache of `src/MemStore.cc`: a `StoreMap` whose extra data name a page of the page
pool.  `considerKeeping` stores an entry, `get` loads one, and `free` of the map drops one.  Each is
a sequence of map and stack operations, and every access of these operations to shared memory is one
step, so that the calls of all processes interleave in the middle of `openForWriting`, `GetPage`,
`PutPage` and `freeLocked`.

The outcome of `mem_hdr::copy` and of parsing the stored reply are chosen by the run.
-/

namespace Squid
namespace MemStore

open Ipc

/-- `MemStoreMap::Extras`. -/
structure Extras where
  /-- Shared memory page with the entry content. -/
  page : PageId := {}
  /-- Total size of the stored entry content. -/
  storedSize : ℤ := 0

/-- What the configuration fixes. -/
structure Config where
  /-- `Config.Store.maxInMemObjSize`. -/
  maxInMemObjSize : ℤ
  /-- `PageLimit(cachePage)`. -/
  pageLimit : ℤ
  /-- The page pool. -/
  pool : PageStack.Params
  /-- `EntryLimit`. -/
  entryLimit : ℕ
  /-- `init` creates a map only then. -/
  entryLimit_pos : 0 < entryLimit

/-- `Ipc::Mem::PageSize`. -/
def PageSize : ℕ := 32 * 1024

/-- What `MemStore` reads of a `StoreEntry`. -/
structure StoreEntry where
  key : CacheKey
  /-- The metadata that `StoreMapSlot::set` copies. -/
  basics : Basics := {}
  memoryCachable : Bool
  /-- `store_status == STORE_OK`. -/
  complete : Bool
  /-- `mem_obj->endOffset()`. -/
  endOffset : ℤ
  /-- `mem_obj->expectedReplySize()`; may be negative. -/
  expectedReplySize : ℤ

variable (config : Config)

/-- `MemStore::willFit`. -/
def willFit (need : ℤ) : Bool := need ≤ PageSize

/-- `MemStore::keepInLocalMemory`. -/
def keepInLocalMemory (e : StoreEntry) : Bool :=
  let ramSize := max e.endOffset e.expectedReplySize
  e.memoryCachable && ramSize ≤ config.maxInMemObjSize && willFit ramSize

/-- The tests of `MemStore::considerKeeping` before it calls `keep`. -/
def considersKeeping (e : StoreEntry) : Bool :=
  keepInLocalMemory config e && e.complete && 0 ≤ e.expectedReplySize &&
    e.endOffset == e.expectedReplySize

/-- What the `PutPage` call of `cleanReadable` does to the extra data of the slot. -/
def cleanReadable (extras : Extras) : Extras :=
  if extras.page.isSet then { extras with page := {} } else extras

/-- The shared memory of the cache. -/
structure Shared where
  /-- Index of the cached entries. -/
  map : StoreMap.Shared config.entryLimit Extras
  /-- `PagePool::pageIndex`. -/
  stack : PageStack.Shared config.pool
  /-- `PagePool::theLevels[cachePage]`. -/
  level : ℤ

/-- Position of a process inside the calls below. -/
inductive Pc
  /-- Between calls. -/
  | idle
  /-- `keep`: inside `openForWriting`. -/
  | keepOpen (e : StoreEntry)
  /-- `copyToShm`: `GetPage` before the test of `PagesAvailable`. -/
  | keepAvailable (e : StoreEntry) (index : Fin config.entryLimit)
  /-- `copyToShm`: `GetPage` before `pop`. -/
  | keepGet (e : StoreEntry) (index : Fin config.entryLimit)
  /-- `copyToShm`: `GetPage` inside `pop`. -/
  | keepPop (e : StoreEntry) (index : Fin config.entryLimit)
  /-- `copyToShm`: `GetPage` before `++theLevels`. -/
  | keepLevel (e : StoreEntry) (index : Fin config.entryLimit) (page : PageId)
  /-- `copyToShm` before the data are copied. -/
  | keepCopy (e : StoreEntry) (index : Fin config.entryLimit) (page : PageId)
  /-- `copyToShm`: inside the `PutPage` after an incomplete copy. -/
  | keepPut (index : Fin config.entryLimit)
  /-- `keep` before `set`; `copyToShm` has stored the page in the slot. -/
  | keepSet (e : StoreEntry) (index : Fin config.entryLimit) (page : PageId)
  /-- `keep` before `closeForWriting`; the page is the one in the slot. -/
  | keepClose (index : Fin config.entryLimit) (page : PageId)
  /-- `keep` before `abortIo`. -/
  | keepAbort (index : Fin config.entryLimit)
  /-- `keep`: inside `closeForWriting` or `abortIo`. -/
  | keepEnd
  /-- `get`: inside `openForReading`. -/
  | getOpen (key : CacheKey)
  /-- `get` before `copyFromShm`. -/
  | getCopy (index : Fin config.entryLimit)
  /-- `get`: inside `closeForReading`. -/
  | getClose (index : Fin config.entryLimit) (copied : Bool)
  /-- Inside `StoreMap::free`. -/
  | freeing
  /-- The `Must` of `pagePointer` has failed. -/
  | mustFailed

/-- Private state of a process. -/
structure Process where
  /-- Position inside the current call. -/
  pc : Pc config := .idle
  /-- The process as a user of the map. -/
  map : StoreMap.Process config.entryLimit := {}
  /-- The process as a user of the page pool. -/
  stack : PageStack.Process := {}
  /-- The argument of the `PutPage` that `cleanReadable` called, until `PutPage` clears it. -/
  cleaning : Option PageId := none
  /-- Currently used space as seen by the process. -/
  theCurrentSize : UInt64 := 0

/-- The steps of a process. -/
inductive Action
  | considerKeeping (e : StoreEntry)
  | get (key : CacheKey)
  | free (fileno : Fin config.entryLimit)
  /-- `mem_hdr::copy` returns. -/
  | copied (size : ℤ)
  /-- `HttpReply::parseCharBuf` returns. -/
  | parsed (success : Bool)
  /-- Proceed with the current call. -/
  | proceed

variable {config}

/-- A step of the map. -/
def mapStep (shared : Shared config) (own : Process config)
    (action : StoreMap.Action config.entryLimit Extras) :
    Option (Shared config × Process config) :=
  (StoreMap.localStep config.entryLimit_pos (some cleanReadable) shared.map own.map action).map
    fun result => ({ shared with map := result.1 }, { own with map := result.2 })

/-- A step of the page stack. -/
def stackStep (shared : Shared config) (own : Process config) (action : PageStack.Action) :
    Option (Shared config × Process config) :=
  (PageStack.localStep shared.stack own.stack action).map
    fun result => ({ shared with stack := result.1 }, { own with stack := result.2 })

/-- `PagePool::put`: what it does before and with the first test of `push`. -/
def putPage (shared : Shared config) (own : Process config) (page : PageId) :
    Option (Shared config × Process config) :=
  if page.isSet then
    stackStep { shared with level := shared.level - 1 }
      { own with stack := { own.stack with held := page :: own.stack.held } } (.push page)
  else
    some (shared, own)

/-- The next step of a map operation.  On a `Readable` slot `freeLocked` calls `cleanReadable`,
which returns the page to the pool before the map goes on. -/
def proceedMap (shared : Shared config) (own : Process config) (i : Fin config.entryLimit) :
    StoreMap.Pc → Option (Shared config × Process config)
  | .freeLocked _ .clean =>
      match own.cleaning with
      | none =>
          if (shared.map.slots i).state = .Readable then
            let page := (shared.map.slots i).extras.page
            putPage shared { own with cleaning := some page } page
          else
            mapStep shared own .proceed
      | some _ =>
          match own.stack.pc with
          | .idle =>
              mapStep shared
                { own with
                  cleaning := none
                  theCurrentSize := own.theCurrentSize - UInt64.ofNat PageSize }
                .proceed
          | _ => stackStep shared own .proceed
  | _ => mapStep shared own .proceed

/-- The next step of a call that is not inside a map operation. -/
def proceedCall (shared : Shared config) (own : Process config) :
    Option (Shared config × Process config) :=
  match own.pc with
  | .idle | .mustFailed | .keepCopy _ _ _ | .getCopy _ => none
  | .keepOpen e =>
      let index := StoreMap.slotIndexByKey config.entryLimit_pos e.key
      some (shared,
        { own with pc := if own.map.writing index then .keepAvailable e index else .idle })
  | .keepAvailable e index =>
      -- the difference is unsigned, so it is positive unless the two are equal
      some (shared,
        { own with
          pc := if config.pageLimit ≠ shared.level then .keepGet e index else .keepAbort index })
  | .keepGet e index => stackStep shared { own with pc := .keepPop e index } .pop
  | .keepPop e index =>
      match own.stack.pc with
      | .idle =>
          match own.stack.held with
          | page :: rest =>
              some (shared,
                { own with
                  pc := .keepLevel e index page
                  stack := { own.stack with held := rest } })
          | [] => some (shared, { own with pc := .keepAbort index })
      | _ => stackStep shared own .proceed
  | .keepLevel e index page =>
      some ({ shared with level := shared.level + 1 }, { own with pc := .keepCopy e index page })
  | .keepPut index =>
      match own.stack.pc with
      | .idle => some (shared, { own with pc := .keepAbort index })
      | _ => stackStep shared own .proceed
  | .keepSet e index page =>
      mapStep shared { own with pc := .keepClose index page } (.set index e.key e.basics)
  | .keepClose index _ =>
      mapStep shared { own with pc := .keepEnd } (.closeForWriting index false)
  | .keepAbort index => mapStep shared { own with pc := .keepEnd } (.abortIo index)
  | .keepEnd | .freeing => some (shared, { own with pc := .idle })
  | .getOpen key =>
      let index := StoreMap.slotIndexByKey config.entryLimit_pos key
      some (shared,
        { own with pc := if 0 < own.map.reading index then .getCopy index else .idle })
  | .getClose index copied =>
      if copied then
        some (shared, { own with pc := .idle })
      else
        mapStep shared { own with pc := .freeing } (.free index)

/-- One step of one process. -/
def localStep (shared : Shared config) (own : Process config) :
    Action config → Option (Shared config × Process config)
  | .considerKeeping e =>
      match own.pc with
      | .idle =>
          if considersKeeping config e then
            mapStep shared { own with pc := .keepOpen e } (.openForWriting e.key)
          else
            some (shared, own)
      | _ => none
  | .get key =>
      match own.pc with
      | .idle => mapStep shared { own with pc := .getOpen key } (.openForReading key)
      | _ => none
  | .free fileno =>
      match own.pc with
      | .idle => mapStep shared { own with pc := .freeing } (.free fileno)
      | _ => none
  | .copied size =>
      match own.pc with
      | .keepCopy e index page =>
          if !PageStack.pageIdIsValid config.pool page then
            some (shared, { own with pc := .mustFailed })
          else if e.endOffset ≠ size then
            putPage shared { own with pc := .keepPut index } page
          else
            mapStep shared
              { own with
                pc := .keepSet e index page
                theCurrentSize := own.theCurrentSize + UInt64.ofNat PageSize }
              (.setExtras index { page, storedSize := size })
      | _ => none
  | .parsed success =>
      match own.pc with
      | .getCopy index =>
          if !PageStack.pageIdIsValid config.pool (shared.map.slots index).extras.page then
            some (shared, { own with pc := .mustFailed })
          else
            mapStep shared { own with pc := .getClose index success } (.closeForReading index)
      | _ => none
  | .proceed =>
      match own.map.pc with
      | some (i, pc) => proceedMap shared own i pc
      | none => proceedCall shared own

/-- The cache in shared memory and the processes that use it. -/
abbrev System (config : Config) (P : Type*) :=
  Interleaving.State P (Shared config) (Process config)

/-- An empty cache with all pages free, and processes that have done nothing. -/
def initial (config : Config) (P : Type*) : System config P where
  memory :=
    { map := { count := 0, slots := fun _ => { extras := {} } }
      stack := PageStack.construct config.pool
      level := 0 }
  process _ := {}

/-- One step of one of the processes. -/
def step {P : Type*} [DecidableEq P] (system : System config P) (label : P × Action config) :
    Option (System config P) :=
  Interleaving.interleave localStep system label

end MemStore
end Squid
