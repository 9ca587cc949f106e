import Squid.Base.Splay
import Squid.Library.LinkedList

/-!
# Chunked memory pools

`lib/MemPoolChunked.cc` cuts chunks of memory into objects.  A free object is linked through its
first word into the list `freeCache` of the pool or into the list of its chunk.  Memory is checked:
an access fails at a chunk that was deleted and outside the arenas that `xcalloc` returned.
-/

namespace Squid.Base

open Function

variable {ρ : Type}

/-- `MemPoolChunked`, with the memory of its chunks, at their addresses, and of the objects, of
which only the first words matter.  `alloc`, `idle` and `inuse` are the levels of the meter. -/
structure MemPoolChunked (ρ : Type) where
  obj_size : ℕ
  chunk_size : ℕ
  chunk_capacity : ℕ
  freeCache : Option ℕ
  nextFreeChunk : Option ρ
  Chunks : Option ρ
  chunkCount : ℤ
  alloc : ℤ
  idle : ℤ
  inuse : ℤ
  allChunks : Splay ρ
  /-- Which chunks exist. -/
  live : ρ → Bool
  freeList : ρ → Option ℕ
  objCache : ρ → ℕ
  inuse_count : ρ → ℤ
  /-- The member `nextFreeChunk` of a chunk. -/
  nextFree : ρ → Option ρ
  next : ρ → Option ρ
  lastref : ρ → ℤ
  /-- Where the arenas in use begin. -/
  arenas : List ℕ
  /-- The first words of the objects. -/
  word : ℕ → Option ℕ

namespace MemPoolChunked

/-- `setChunkSize`; no object is so large that the sizes would overflow. -/
def setChunkSize (pool : MemPoolChunked ρ) (chunksize : ℕ) : MemPoolChunked ρ :=
  match pool.Chunks with
  | some _ => pool
  | none =>
      let csize := (chunksize + 4096 - 1) / 4096 * 4096
      let cap := csize / pool.obj_size
      let cap := if cap < 32 then 32 else cap
      let cap := if 256 * 1024 < cap * pool.obj_size then 256 * 1024 / pool.obj_size else cap
      let cap := if 65535 < cap then 65535 else cap
      let cap := if cap < 1 then 1 else cap
      let csize := (cap * pool.obj_size + 4096 - 1) / 4096 * 4096
      { pool with chunk_capacity := csize / pool.obj_size, chunk_size := csize }

/-- `MemPoolChunked::MemPoolChunked`; the memory holds anything. -/
def create (obj_size : ℕ) (freeList : ρ → Option ℕ) (objCache : ρ → ℕ) (inuse_count : ρ → ℤ)
    (nextFree next : ρ → Option ρ) (lastref : ρ → ℤ) (word : ℕ → Option ℕ) : MemPoolChunked ρ :=
  { obj_size := obj_size
    chunk_size := 0
    chunk_capacity := 0
    freeCache := none
    nextFreeChunk := none
    Chunks := none
    chunkCount := 0
    alloc := 0
    idle := 0
    inuse := 0
    allChunks := {}
    live := fun _ => false
    freeList := freeList
    objCache := objCache
    inuse_count := inuse_count
    nextFree := nextFree
    next := next
    lastref := lastref
    arenas := []
    word := word : MemPoolChunked ρ }.setChunkSize (4096 * 4)

/-- Whether an address lies in an arena. -/
def mapped (pool : MemPoolChunked ρ) (obj : ℕ) : Bool :=
  pool.arenas.any fun base => decide (base ≤ obj ∧ obj < base + pool.chunk_size)

/-- Read the first word of an object. -/
def read (pool : MemPoolChunked ρ) (obj : ℕ) : Option (Option ℕ) :=
  if pool.mapped obj then some (pool.word obj) else none

/-- Write the first word of an object. -/
def write (pool : MemPoolChunked ρ) (obj : ℕ) (value : Option ℕ) : Option (MemPoolChunked ρ) :=
  if pool.mapped obj then some { pool with word := update pool.word obj value } else none

/-- Follow a pointer to a chunk. -/
def deref (pool : MemPoolChunked ρ) (chunk : Option ρ) : Option ρ :=
  chunk.bind fun c => if pool.live c then some c else none

def memCompChunks (pool : MemPoolChunked ρ) (chunkA chunkB : ρ) : ℤ :=
  if pool.objCache chunkB < pool.objCache chunkA then 1
  else if pool.objCache chunkA < pool.objCache chunkB then -1
  else 0

def memCompObjChunks (pool : MemPoolChunked ρ) (obj : ℕ) (chunk : ρ) : ℤ :=
  if obj < pool.objCache chunk then -1
  else if obj < pool.objCache chunk + pool.chunk_size then 0
  else 1

/-- The tree `allChunks`, to be compared with: its chunks must exist. -/
def tree (pool : MemPoolChunked ρ) : Option (Splay ρ) :=
  if pool.allChunks.toList.all pool.live then some pool.allChunks else none

variable [DecidableEq ρ]

/-- The loop of `MemChunk::MemChunk` that links the objects. -/
def thread (obj_size : ℕ) : ℕ → ℕ → (ℕ → Option ℕ) → ℕ → Option ℕ
  | 0, _, word => word
  | n + 1, free, word =>
      thread obj_size n (free + obj_size) (update word free (some (free + obj_size)))

/-- `MemChunk::MemChunk` up to the entry in the tree, where `chunk` is the address of the chunk and
`base` what `xcalloc` returns. -/
def initChunk (pool : MemPoolChunked ρ) (squid_curtime : ℤ) (chunk : ρ) (base : ℕ) :
    MemPoolChunked ρ :=
  let cleared := fun obj => if base ≤ obj ∧ obj < base + pool.chunk_size then none else pool.word obj
  { pool with
    live := update pool.live chunk true
    inuse_count := update pool.inuse_count chunk 0
    next := update pool.next chunk none
    objCache := update pool.objCache chunk base
    freeList := update pool.freeList chunk (some base)
    arenas := base :: pool.arenas
    word := thread pool.obj_size (pool.chunk_capacity - 1) base cleared
    nextFree := update pool.nextFree chunk pool.nextFreeChunk
    nextFreeChunk := some chunk
    alloc := pool.alloc + pool.chunk_capacity
    idle := pool.idle + pool.chunk_capacity
    chunkCount := pool.chunkCount + 1
    lastref := update pool.lastref chunk squid_curtime }

/-- `MemChunk::MemChunk`. -/
def newMemChunk (pool : MemPoolChunked ρ) (squid_curtime : ℤ) (chunk : ρ) (base : ℕ) :
    Option (MemPoolChunked ρ) := do
  let pool := pool.initChunk squid_curtime chunk base
  let allChunks ← (← pool.tree).insert chunk (pool.memCompChunks chunk)
  some { pool with allChunks := allChunks }

/-- The loop of `createChunk`, given the number of turns that it may take. -/
def insertChunk (pool : MemPoolChunked ρ) (newChunk : ρ) :
    ℕ → ρ → Option (MemPoolChunked ρ)
  | 0, _ => none
  | turns + 1, chunk =>
      match pool.next chunk with
      | none => some { pool with next := update pool.next chunk (some newChunk) }
      | some after => do
          let after ← pool.deref (some after)
          if pool.objCache newChunk < pool.objCache after then
            let next := update pool.next newChunk (some after)
            some { pool with next := update next chunk (some newChunk) }
          else pool.insertChunk newChunk turns after

def createChunk (pool : MemPoolChunked ρ) (squid_curtime : ℤ) (newChunk : ρ) (base : ℕ) :
    Option (MemPoolChunked ρ) := do
  let pool ← pool.newMemChunk squid_curtime newChunk base
  match pool.Chunks with
  | none => some { pool with Chunks := some newChunk }
  | some chunk =>
      let chunk ← pool.deref (some chunk)
      if pool.objCache newChunk < pool.objCache chunk then
        some { pool with
          next := update pool.next newChunk (some chunk)
          Chunks := some newChunk }
      else pool.insertChunk newChunk pool.chunkCount.toNat chunk

/-- The end of `get`, with free objects in the chain of chunks. -/
def getFromChunk (pool : MemPoolChunked ρ) (squid_curtime : ℤ) : Option (ℕ × MemPoolChunked ρ) := do
  let chunk ← pool.deref pool.nextFreeChunk
  let free ← pool.freeList chunk
  let link ← pool.read free
  let pool ← { pool with freeList := update pool.freeList chunk link }.write free none
  let pool := { pool with
    inuse_count := update pool.inuse_count chunk (pool.inuse_count chunk + 1)
    lastref := update pool.lastref chunk squid_curtime }
  if link = none then some (free, { pool with nextFreeChunk := pool.nextFree chunk })
  else some (free, pool)

/-- `get`, where a chunk that has to be created comes at the address `newChunk` with the arena at
`base`. -/
def get (pool : MemPoolChunked ρ) (squid_curtime : ℤ) (newChunk : ρ) (base : ℕ) :
    Option (ℕ × MemPoolChunked ρ) :=
  match pool.freeCache with
  | some free => do
      let link ← pool.read free
      let pool ← { pool with freeCache := link }.write free none
      some (free, pool)
  | none => do
      let pool ←
        (if pool.nextFreeChunk = none then pool.createChunk squid_curtime newChunk base
        else some pool)
      pool.getFromChunk squid_curtime

def allocate (pool : MemPoolChunked ρ) (squid_curtime : ℤ) (newChunk : ρ) (base : ℕ) :
    Option (ℕ × MemPoolChunked ρ) := do
  let (p, pool) ← pool.get squid_curtime newChunk base
  if 0 < pool.idle then some (p, { pool with idle := pool.idle - 1, inuse := pool.inuse + 1 })
  else none

def push (pool : MemPoolChunked ρ) (obj : ℕ) : Option (MemPoolChunked ρ) := do
  let pool ← pool.write obj pool.freeCache
  some { pool with freeCache := some obj }

def deallocate (pool : MemPoolChunked ρ) (obj : ℕ) : Option (MemPoolChunked ρ) := do
  let pool ← pool.push obj
  if 0 < pool.inuse then some { pool with inuse := pool.inuse - 1, idle := pool.idle + 1 }
  else none

/-- A turn of the loop of `convertFreeCacheToChunkFreeCache`, with the object at the head of the
cache. -/
def returnToChunk (pool : MemPoolChunked ρ) (squid_curtime : ℤ) (free : ℕ) :
    Option (MemPoolChunked ρ) := do
  let (found, allChunks) := (← pool.tree).find (pool.memCompObjChunks free)
  let chunk ← found
  if 0 < pool.inuse_count chunk then
    let link ← pool.read free
    let pool := { pool with
      allChunks := allChunks
      inuse_count := update pool.inuse_count chunk (pool.inuse_count chunk - 1)
      freeCache := link }
    let pool ← pool.write free (pool.freeList chunk)
    some { pool with
      freeList := update pool.freeList chunk (some free)
      lastref := update pool.lastref chunk squid_curtime }
  else none

/-- `convertFreeCacheToChunkFreeCache`, given the number of turns that the loop may take. -/
def convertFreeCacheToChunkFreeCache (squid_curtime : ℤ) :
    ℕ → MemPoolChunked ρ → Option (MemPoolChunked ρ)
  | turns, pool =>
      match pool.freeCache with
      | none => some pool
      | some free =>
          match turns with
          | 0 => none
          | turns + 1 => do
              let pool ← pool.returnToChunk squid_curtime free
              pool.convertFreeCacheToChunkFreeCache squid_curtime turns

/-- `MemChunk::~MemChunk` and the return of the chunk's memory. -/
def deleteChunk (pool : MemPoolChunked ρ) (chunk : ρ) : Option (MemPoolChunked ρ) := do
  let allChunks ← (← pool.tree).remove (pool.memCompChunks chunk)
  some { pool with
    alloc := pool.alloc - pool.chunk_capacity
    idle := pool.idle - pool.chunk_capacity
    chunkCount := pool.chunkCount - 1
    allChunks := allChunks
    arenas := pool.arenas.erase (pool.objCache chunk)
    live := update pool.live chunk false }

/-- A turn of the first loop of `clean`, for the chunk behind `chunk`. -/
def releaseBehind (pool : MemPoolChunked ρ) (squid_curtime maxage : ℤ) (chunk freechunk : ρ) :
    Option (MemPoolChunked ρ) :=
  let age := squid_curtime - pool.lastref freechunk
  let pool := { pool with nextFree := update pool.nextFree freechunk none }
  if pool.inuse_count freechunk = 0 ∧ maxage ≤ age then
    { pool with next := update pool.next chunk (pool.next freechunk) }.deleteChunk
      freechunk
  else some pool

/-- The first loop of `clean`, given the number of turns that it may take. -/
def releaseLoop (squid_curtime maxage : ℤ) :
    ℕ → MemPoolChunked ρ → ρ → Option (MemPoolChunked ρ)
  | 0, _, _ => none
  | turns + 1, pool, chunk =>
      match pool.next chunk with
      | none => some pool
      | some freechunk => do
          let freechunk ← pool.deref (some freechunk)
          let pool ← pool.releaseBehind squid_curtime maxage chunk freechunk
          match pool.next chunk with
          | none => some pool
          | some chunk => do
              let chunk ← pool.deref (some chunk)
              pool.releaseLoop squid_curtime maxage turns chunk

/-- The inner loop of the rebuilding: the chunk behind which `chunk` comes. -/
def findTail (pool : MemPoolChunked ρ) (chunk : ρ) : ℕ → ρ → Option ρ
  | 0, _ => none
  | turns + 1, listTail =>
      match pool.nextFree listTail with
      | none => some listTail
      | some after => do
          let after ← pool.deref (some after)
          if pool.inuse_count after < pool.inuse_count chunk then some listTail
          else if pool.inuse_count chunk = pool.inuse_count after ∧
            pool.objCache chunk < pool.objCache after then some listTail
          else pool.findTail chunk turns after

/-- A turn of the second loop of `clean`, for the chunk `after`; `first` is the chunk on top of the
chain. -/
def enterChain (pool : MemPoolChunked ρ) (first after : ρ) : Option (MemPoolChunked ρ) :=
  let pool := { pool with nextFree := update pool.nextFree after none }
  if pool.inuse_count after < pool.chunk_capacity then do
    let listTail ← pool.findTail after pool.chunkCount.toNat first
    let nextFree := update pool.nextFree after (pool.nextFree listTail)
    some { pool with nextFree := update nextFree listTail (some after) }
  else some pool

/-- The second loop of `clean`, given the number of turns that it may take. -/
def rebuildLoop (first : ρ) : ℕ → MemPoolChunked ρ → ρ → Option (MemPoolChunked ρ)
  | 0, _, _ => none
  | turns + 1, pool, chunk =>
      match pool.next chunk with
      | none => some pool
      | some after => do
          let after ← pool.deref (some after)
          let pool ← pool.enterChain first after
          pool.rebuildLoop first turns after

/-- The rebuilding of the chain in `clean`. -/
def rebuild (pool : MemPoolChunked ρ) (first : ρ) : Option (MemPoolChunked ρ) := do
  let pool := { pool with
    nextFreeChunk := some first
    nextFree := update pool.nextFree first none }
  let pool ← pool.rebuildLoop first pool.chunkCount.toNat first
  if pool.inuse_count first = pool.chunk_capacity then
    some { pool with nextFreeChunk := pool.nextFree first }
  else some pool

def clean (pool : MemPoolChunked ρ) (squid_curtime maxage : ℤ) : Option (MemPoolChunked ρ) :=
  match pool.Chunks with
  | none => some pool
  | some chunk => do
      let chunk ← pool.deref (some chunk)
      let pool ← pool.convertFreeCacheToChunkFreeCache squid_curtime pool.idle.toNat
      let pool ← pool.releaseLoop squid_curtime maxage pool.chunkCount.toNat chunk
      pool.rebuild chunk

end MemPoolChunked

end Squid.Base
