import Squid.Library.Table
import Squid.Store.SwapOut

/-!
# The index of a UFS `cache_dir`

Entries of one `cache_dir` from their creation to their release, the swap log that records what is on
disk, and the rebuilding of the index from a log, as in `src/fs/ufs/UFSSwapDir.cc`,
`src/fs/ufs/RebuildState.cc` and `src/store.cc`.  An entry stays under a number in `store_table`; a
private key is one that nobody asks for.  `mapBitAllocate` gives some file number that is not in use.
The counters of the rebuild, which only end up in messages, are left out.
-/

namespace Squid
namespace Ufs

open CRuntime
open Swap (StoreStatus SwapStatus)

/-- The bits of `flags` that matter here, and the others. -/
structure EntryFlags where
  ENTRY_SPECIAL : Bool := false
  RELEASE_REQUEST : Bool := false
  ENTRY_CACHABLE : Bool := false
  KEY_PRIVATE : Bool := false
  ENTRY_VALIDATED : Bool := false
  others : ℕ := 0
  deriving DecidableEq

/-- `swap_log_op`; the values from `SWAP_LOG_MAX` on are treated like `SWAP_LOG_NOP`. -/
inductive SwapLogOp where
  | SWAP_LOG_NOP
  | SWAP_LOG_ADD
  | SWAP_LOG_DEL
  | SWAP_LOG_VERSION
  deriving DecidableEq

structure StoreSwapLogData (K : Type) where
  op : SwapLogOp
  swap_filen : ℤ
  timestamp : ℤ
  lastref : ℤ
  expires : ℤ
  lastmod : ℤ
  swap_file_sz : ℕ
  refcount : ℕ
  flags : EntryFlags
  key : K
  checksum : ℕ

/-- The loop of `SwapChecksum24::set`; the sum of three 32-bit integers takes three rounds at
most. -/
def foldSum : ℕ → ℕ → ℕ
  | 0, sum => sum
  | fuel + 1, sum =>
      if sum / 2 ^ 24 = 0 then sum else foldSum fuel (sum % 2 ^ 24 + sum / 2 ^ 24)

/-- `SwapChecksum24::set`. -/
def swapChecksum24 (f1 : ℤ) (f2 : ℕ) : ℕ :=
  2 ^ 24 - 1 - foldSum 4 ((f1 % 2 ^ 32).toNat + f2 / 2 ^ 32 % 2 ^ 32 + f2 % 2 ^ 32)

def StoreSwapLogData.sane {K : Type} (swapData : StoreSwapLogData K) : Bool :=
  swapData.checksum = swapChecksum24 swapData.swap_filen swapData.swap_file_sz &&
    swapData.op ≠ .SWAP_LOG_NOP && 0 ≤ swapData.swap_filen && -2 ≤ swapData.timestamp &&
    -2 ≤ swapData.lastref && -2 ≤ swapData.expires && -2 ≤ swapData.lastmod &&
    0 < swapData.swap_file_sz

structure StoreEntry (K : Type) where
  /-- The key while it is public. -/
  key : K
  flags : EntryFlags
  lock_count : ℕ
  store_status : StoreStatus
  swap_status : SwapStatus
  /-- `swap_filen` in this `cache_dir`, or `none` for -1. -/
  swap_filen : Option ℕ
  swap_file_sz : ℕ
  timestamp : ℤ
  lastref : ℤ
  expires : ℤ
  lastmod : ℤ
  refcount : ℕ
  /-- The last record of `SWAP_LOG_ADD` written for the entry; not a field of the source. -/
  logged : Option (StoreSwapLogData K)

namespace StoreEntry

variable {K : Type}

def locked (e : StoreEntry K) : Bool :=
  e.lock_count ≠ 0 || e.swap_status = .SWAPOUT_WRITING || e.store_status = .STORE_PENDING ||
    (e.flags.ENTRY_SPECIAL && !e.flags.KEY_PRIVATE)

/-- The record that `logEntry` writes, after `finalize`. -/
def record (e : StoreEntry K) (op : SwapLogOp) : StoreSwapLogData K where
  op
  swap_filen := e.swap_filen.elim (-1) fun filn => filn
  timestamp := e.timestamp
  lastref := e.lastref
  expires := e.expires
  lastmod := e.lastmod
  swap_file_sz := e.swap_file_sz
  refcount := e.refcount
  flags := e.flags
  key := e.key
  checksum := swapChecksum24 (e.swap_filen.elim (-1) fun filn => filn) e.swap_file_sz

end StoreEntry

/-- `fs.blksize * sizeInBlocks(swap_file_sz)`. -/
def diskSize (blksize swap_file_sz : ℕ) : ℤ :=
  blksize * (int64 (int64 swap_file_sz + blksize - 1)).tdiv blksize

/-- The `cache_dir` with the table of entries. -/
structure Store (K : Type) where
  store_table : Table ℕ (StoreEntry K) := Table.empty
  /-- The number of the next entry. -/
  fresh : ℕ := 0
  /-- The bits of the file map. -/
  map : ℕ → Bool := fun _ => false
  cur_size : ℤ := 0
  n_disk_objects : ℤ := 0
  squid_curtime : ℕ := 0
  store_dirs_rebuilding : Bool := false
  /-- `LateReleaseStack`. -/
  lateReleaseStack : List ℕ := []
  /-- The records of the swap log, in the order in which they were written. -/
  log : List (StoreSwapLogData K) := []

namespace Store

variable {K : Type} [DecidableEq K] (blksize : ℕ)

/-- The entry with a number. -/
def find (s : Store K) (i : ℕ) : Option (StoreEntry K) := s.store_table.find i

/-- Change an entry in place. -/
def put (s : Store K) (i : ℕ) (e : StoreEntry K) : Store K :=
  { s with store_table := s.store_table.set i e }

/-- `Store::Root().get`. -/
def get (s : Store K) (key : K) : Option (ℕ × StoreEntry K) :=
  s.store_table.search fun e => !e.flags.KEY_PRIVATE && e.key = key

/-- Count a file with `cur_size` and `n_disk_objects`. -/
def account (s : Store K) (size count : ℤ) : Store K :=
  { s with
    cur_size := (s.cur_size + size) % 2 ^ 64
    n_disk_objects := (s.n_disk_objects + count) % 2 ^ 64 }

def mapBitSet (s : Store K) (filn : ℕ) : Store K :=
  { s with map := Function.update s.map filn true }

def mapBitReset (s : Store K) (filn : ℕ) : Store K :=
  { s with map := Function.update s.map filn false }

def storeDirSwapLog (s : Store K) (e : StoreEntry K) (op : SwapLogOp) : Store K :=
  if e.flags.ENTRY_SPECIAL then s else { s with log := s.log ++ [e.record op] }

def setPrivateKey (s : Store K) (i : ℕ) : Store K :=
  match s.find i with
  | none => s
  | some e =>
      if e.flags.KEY_PRIVATE then s
      else
        (if e.swap_filen = none then s else s.storeDirSwapLog e .SWAP_LOG_DEL).put i
          { e with flags := { e.flags with KEY_PRIVATE := true } }

def setReleaseFlag (s : Store K) (i : ℕ) : Store K :=
  match s.find i with
  | none => s
  | some e => s.put i { e with flags := { e.flags with RELEASE_REQUEST := true } }

def releaseRequest (s : Store K) (i : ℕ) : Store K :=
  match s.find i with
  | none => s
  | some e =>
      if e.flags.RELEASE_REQUEST then s
      else
        (s.put i { e with
          flags :=
            { e.flags with RELEASE_REQUEST := true, ENTRY_CACHABLE := false } }).setPrivateKey
          i

def expireNow (s : Store K) (i : ℕ) : Store K :=
  match s.find i with
  | none => s
  | some e => s.put i { e with expires := s.squid_curtime }

def lock (s : Store K) (i : ℕ) : Store K :=
  match s.find i with
  | none => s
  | some e => s.put i { e with lock_count := e.lock_count + 1, lastref := s.squid_curtime }

/-- `StoreEntry::unlink`, with `UFSSwapDir::unlink`. -/
def unlink (s : Store K) (i : ℕ) : Store K :=
  match s.find i with
  | none => s
  | some e =>
      match e.swap_filen with
      | none => s
      | some filn =>
          ((if e.swap_status = .SWAPOUT_DONE then s.account (-diskSize blksize e.swap_file_sz) (-1)
            else s).mapBitReset filn).put i
            { e with swap_filen := none, swap_status := .SWAPOUT_NONE }

def destroyStoreEntry (s : Store K) (i : ℕ) : Store K :=
  { s with store_table := s.store_table.erase i }

/-- The late release of `release`: a lock that is given up when the rebuild is done. -/
def releaseLater (s : Store K) (i : ℕ) : Store K :=
  match s.find i with
  | none => s
  | some e =>
      { s.put i { e with
          lock_count := e.lock_count + 1
          flags := { e.flags with RELEASE_REQUEST := true } } with
        lateReleaseStack := i :: s.lateReleaseStack }

def release (s : Store K) (i : ℕ) : Store K :=
  match s.find i with
  | none => s
  | some e =>
      if e.locked then (s.expireNow i).releaseRequest i
      else if s.store_dirs_rebuilding && e.swap_filen ≠ none then (s.setPrivateKey i).releaseLater i
      else if e.swap_filen = none then s.destroyStoreEntry i
      else
        ((if e.flags.KEY_PRIVATE then s else s.storeDirSwapLog e .SWAP_LOG_DEL).unlink blksize
          i).destroyStoreEntry i

/-- `unlock`, with `handleIdleEntry`, which may keep the object in memory. -/
def unlock (s : Store K) (i : ℕ) (keepInLocalMemory : Bool) : Store K :=
  match s.find i with
  | none => s
  | some e =>
      let s := s.put i { e with lock_count := e.lock_count - 1 }
      if e.lock_count - 1 ≠ 0 then s
      else if e.store_status = .STORE_PENDING then (s.setReleaseFlag i).release blksize i
      else if e.flags.RELEASE_REQUEST then s.release blksize i
      else if keepInLocalMemory || e.swap_status = .SWAPOUT_DONE then s
      else s.release blksize i

/-- `setPublicKey` makes an old entry private and releases it. -/
def setPublicKey (s : Store K) (newkey : K) : Store K :=
  match s.get newkey with
  | none => s
  | some (i, _) => (s.setPrivateKey i).release blksize i

/-- `storeCreateEntry`, under a public key. -/
def storeCreateEntry (s : Store K) (key : K) (cachable special : Bool) (others : ℕ) : Store K :=
  let s := s.setPublicKey blksize key
  let e : StoreEntry K :=
    { key
      flags := { ENTRY_SPECIAL := special, ENTRY_CACHABLE := true, ENTRY_VALIDATED := true, others }
      lock_count := 1
      store_status := .STORE_PENDING
      swap_status := .SWAPOUT_NONE
      swap_filen := none
      swap_file_sz := 0
      timestamp := -1
      lastref := s.squid_curtime
      expires := -1
      lastmod := -1
      refcount := 0
      logged := none }
  let created : Store K :=
    { s with store_table := s.store_table.insert s.fresh e, fresh := s.fresh + 1 }
  if cachable then created else created.releaseRequest s.fresh

/-! ## Swapping out -/

/-- `storeSwapOutStart`, once the file has been created. -/
def swapOutStart (s : Store K) (i filn : ℕ) : Store K :=
  match s.find i with
  | none => s
  | some e =>
      ((s.mapBitSet filn).put i
        { e with swap_status := .SWAPOUT_WRITING, swap_filen := some filn }).lock i

/-- `storeSwapOutFileClosed` without an error, up to the check whether the entry can be cached. -/
def swappedOut (s : Store K) (i swap_file_sz : ℕ) : Store K :=
  match s.find i with
  | none => s
  | some e =>
      (s.put i { e with swap_file_sz, swap_status := .SWAPOUT_DONE }).account
        (diskSize blksize swap_file_sz) 1

/-- Log a file that has been completed. -/
def logAdd (s : Store K) (i : ℕ) : Store K :=
  match s.find i with
  | none => s
  | some e =>
      (s.storeDirSwapLog e .SWAP_LOG_ADD).put i { e with logged := some (e.record .SWAP_LOG_ADD) }

/-- `storeSwapOutFileClosed` without an error.  An entry that must not be cached is not, and another
one may have become too large or too small. -/
def swapOutDone (s : Store K) (i swap_file_sz : ℕ) (cachable keepInLocalMemory : Bool) : Store K :=
  match s.find i with
  | none => s
  | some e =>
      let s := s.swappedOut blksize i swap_file_sz
      (if cachable && e.flags.ENTRY_CACHABLE && !e.flags.KEY_PRIVATE then s.logAdd i
        else s.releaseRequest i).unlock blksize i keepInLocalMemory

/-- `storeSwapOutFileClosed` with an error. -/
def swapOutFailed (s : Store K) (i : ℕ) (keepInLocalMemory : Bool) : Store K :=
  ((s.unlink blksize i).releaseRequest i).unlock blksize i keepInLocalMemory

/-! ## Rebuilding -/

def undoAddDiskRestore (s : Store K) (i : ℕ) : Store K :=
  match s.find i with
  | none => s
  | some e =>
      match e.swap_filen with
      | none => s
      | some filn =>
          ((s.mapBitReset filn).put i { e with swap_filen := none }).account
            (-diskSize blksize e.swap_file_sz) (-1)

def undoAdd (s : Store K) (i : ℕ) : Store K :=
  ((((s.expireNow i).releaseRequest i).undoAddDiskRestore blksize i).release blksize i)

/-- The entry that `addDiskRestore` creates. -/
def restored (swapData : StoreSwapLogData K) : StoreEntry K where
  key := swapData.key
  flags := { swapData.flags with
    ENTRY_CACHABLE := true
    RELEASE_REQUEST := false
    KEY_PRIVATE := false
    ENTRY_VALIDATED := false }
  lock_count := 0
  store_status := .STORE_OK
  swap_status := .SWAPOUT_DONE
  swap_filen := some (swapData.swap_filen.toNat % 2 ^ 24)
  swap_file_sz := swapData.swap_file_sz
  timestamp := swapData.timestamp
  lastref := swapData.lastref
  expires := swapData.expires
  lastmod := swapData.lastmod
  refcount := swapData.refcount
  logged := none

/-- `addDiskRestore`, followed by the entry's record in the new log. -/
def addDiskRestore (s : Store K) (swapData : StoreSwapLogData K) : Store K :=
  let e := restored swapData
  let s := ({ s with
    store_table := s.store_table.insert s.fresh e
    fresh := s.fresh + 1 }.mapBitSet (swapData.swap_filen.toNat % 2 ^ 24)).account
      (diskSize blksize swapData.swap_file_sz) 1
  s.storeDirSwapLog e .SWAP_LOG_ADD

/-- What a newer record of the same file changes in an entry. -/
def updated (e : StoreEntry K) (swapData : StoreSwapLogData K) : StoreEntry K :=
  { e with
    lastref := swapData.timestamp
    timestamp := swapData.timestamp
    expires := swapData.expires
    lastmod := swapData.lastmod
    flags := swapData.flags
    refcount := (e.refcount + swapData.refcount) % 2 ^ 16 }

/-- `rebuildFromSwapLog`; `none` if an assertion fails. -/
def rebuildFromSwapLog (s : Store K) (need_to_validate : Bool) (swapData : StoreSwapLogData K) :
    Option (Store K) :=
  if ¬ swapData.sane then some s
  else
    let filn := swapData.swap_filen.toNat % 2 ^ 24
    match swapData.op with
    | .SWAP_LOG_DEL =>
        match s.get swapData.key with
        | none => some s
        | some (i, e) =>
            if e.lastref ≤ swapData.lastref then some (s.undoAdd blksize i) else some s
    | .SWAP_LOG_ADD =>
        if swapData.flags.KEY_PRIVATE then some s
        else
          match s.get swapData.key with
          | none => if s.map filn then some s else some (s.addDiskRestore blksize swapData)
          | some (i, e) =>
              let disk_entry_newer := e.lastref < swapData.lastref
              if s.map filn ∧ ¬ disk_entry_newer then some s
              else if s.map filn ∧ e.swap_filen = some filn then
                if e.store_status = .STORE_OK then some (s.put i (updated e swapData)) else some s
              else if s.map filn then
                if need_to_validate then some s else none
              else if ¬ disk_entry_newer then some s
              else some ((s.undoAdd blksize i).addDiskRestore blksize swapData)
    | _ => some s

end Store

/-! ## Runs -/

/-- What happens to the entries. -/
inductive Event (K : Type) where
  | storeCreateEntry (key : K) (cachable special : Bool) (others : ℕ)
  /-- `timestampsSet`, when the reply is received or a 304 has confirmed the entry. -/
  | timestampsSet (i : ℕ) (timestamp expires lastmod : ℤ)
  /-- A client is added. -/
  | reference (i : ℕ)
  | lock (i : ℕ)
  | unlock (i : ℕ) (keepInLocalMemory : Bool)
  | complete (i : ℕ)
  /-- `storeSwapOutStart`; the file may fail to be created. -/
  | storeSwapOutStart (i : ℕ) (filn : Option ℕ)
  /-- `storeSwapOutFileClosed` without an error. -/
  | swapOutDone (i swap_file_sz : ℕ) (cachable keepInLocalMemory : Bool)
  /-- `storeSwapOutFileClosed` with an error. -/
  | swapOutFailed (i : ℕ) (keepInLocalMemory : Bool)
  | releaseRequest (i : ℕ)
  | release (i : ℕ)
  /-- `storeLateRelease`, one entry. -/
  | storeLateRelease (keepInLocalMemory : Bool)
  /-- A rebuild begins or ends. -/
  | rebuilding (on : Bool)
  | rebuildFromSwapLog (need_to_validate : Bool) (swapData : StoreSwapLogData K)
  /-- The clock goes on. -/
  | tick (seconds : ℕ)

namespace Store

variable {K : Type} [DecidableEq K] (blksize : ℕ)

/-- The next event; `none` if it cannot occur or kills the process.  Metadata take space in every
file, file numbers have 24 bits, and icons are never swapped out. -/
def next (s : Store K) : Event K → Option (Store K)
  | .storeCreateEntry key cachable special others =>
      some (s.storeCreateEntry blksize key cachable special others)
  | .timestampsSet i timestamp expires lastmod =>
      (s.find i).map fun e => s.put i { e with timestamp, expires, lastmod }
  | .reference i =>
      (s.find i).map fun e => s.put i { e with refcount := (e.refcount + 1) % 2 ^ 16 }
  | .lock i => (s.find i).map fun _ => s.lock i
  | .unlock i keep =>
      (s.find i).bind fun e => if e.lock_count = 0 then none else some (s.unlock blksize i keep)
  | .complete i => (s.find i).map fun e => s.put i { e with store_status := .STORE_OK }
  | .storeSwapOutStart i filn =>
      (s.find i).bind fun e =>
        if e.swap_status ≠ .SWAPOUT_NONE ∨ e.flags.ENTRY_SPECIAL then none
        else
          match filn with
          | none => some s
          | some filn => if filn < 2 ^ 24 ∧
            s.map filn = false then some (s.swapOutStart i filn) else none
  | .swapOutDone i swap_file_sz cachable keep =>
      (s.find i).bind fun e =>
        if e.swap_status = .SWAPOUT_WRITING ∧ e.swap_filen ≠ none ∧ e.store_status = .STORE_OK ∧
            0 < swap_file_sz then
          some (s.swapOutDone blksize i swap_file_sz cachable keep)
        else none
  | .swapOutFailed i keep =>
      (s.find i).bind fun e =>
        if e.swap_status = .SWAPOUT_WRITING ∧ e.swap_filen ≠ none then
          some (s.swapOutFailed blksize i keep)
        else none
  | .releaseRequest i => (s.find i).map fun _ => s.releaseRequest i
  | .release i => (s.find i).map fun _ => s.release blksize i
  | .storeLateRelease keep =>
      match s.lateReleaseStack with
      | [] => none
      | i :: stack =>
          if s.store_dirs_rebuilding then none
          else some ({ s with lateReleaseStack := stack }.unlock blksize i keep)
  | .rebuilding on => some { s with store_dirs_rebuilding := on }
  | .rebuildFromSwapLog need_to_validate swapData =>
      s.rebuildFromSwapLog blksize need_to_validate swapData
  | .tick seconds => some { s with squid_curtime := s.squid_curtime + seconds }

end Store

end Ufs
end Squid
