import Squid.Base.MemBuf
import Squid.Store.SwapDir

/-!
# Rock cells

A Rock `cache_dir`, as in `src/fs/rock/RockSwapDir.cc` and `src/fs/rock/RockIoState.cc`: a file of
cells of one size.  An entry is written to one cell, after a header that tells the size of what
follows.  A new cell is created with the size that the reply is expected to have.
-/

namespace Squid
namespace Rock

open CRuntime
open Dirs (Answers)

/-- `SwapDir::HeaderSize`. -/
def HeaderSize : ℤ := 16 * 1024

/-- `sizeof(DbCellHeader)`. -/
def cellHeaderSize : ℕ := 16

/-- A number of type `int64_t` in memory. -/
def bytesOf (x : ℤ) : Bytes :=
  (List.range 8).map fun i => UInt8.ofNat ((x % 2 ^ 64).toNat / 256 ^ i)

/-- `DbCellHeader`: `payloadSize` and `reserved`. -/
def cellHeader (payloadSize : ℤ) : Bytes := bytesOf payloadSize ++ bytesOf 0

@[simp]
theorem length_cellHeader (payloadSize : ℤ) : (cellHeader payloadSize).length = cellHeaderSize := by
  simp [cellHeader, bytesOf, cellHeaderSize]

/-- `Rock::SwapDir` with the limit of its map, as `parseSize`, `validateOptions` and
`StoreMap::Init` leave it. -/
structure SwapDir extends Dirs.SwapDir where
  /-- `map->entryLimit()`. -/
  entryLimit : ℕ
  nonneg : 0 ≤ max_objsize
  positive : 0 < entryLimit
  usable : HeaderSize + max_objsize * entryLimit ≤ max_size
  /-- A number of type `int` in megabytes. -/
  bounded : max_size < 2 ^ 51

/-- An assertion fails. -/
inductive Fault where
  | createStoreIo
  | write
  | memBuf
  | startWriting

/-- `Rock::IoState` of an entry that is being written. -/
structure IoState where
  /-- `maxObjectSize()` of the directory. -/
  slotSize : ℤ
  diskOffset : ℤ
  payloadEnd : ℤ
  offset_ : ℤ := 0
  theBuf : Option MemBuf := none

/-- `WriteRequest`: the bytes and where they go. -/
structure WriteRequest where
  buf : Bytes
  offset : ℤ

namespace SwapDir

/-- `canStore`: the load. -/
def loadToStore (dir : SwapDir) (answers : Answers) (special : Bool) (diskSpaceNeeded : ℤ) :
    Option ℤ :=
  if ¬ dir.toSwapDir.canStore answers special (int64 (cellHeaderSize + diskSpaceNeeded)) then none
  else if ¬ answers.ready then none
  else if answers.shedLoad then none
  else some answers.load

def diskOffset (dir : SwapDir) (filen : ℕ) : ℤ := int64 (HeaderSize + dir.max_objsize * filen)

def diskOffsetLimit (dir : SwapDir) : ℤ := dir.diskOffset dir.entryLimit

/-- What `createStoreIo` sets in a new `IoState`. -/
def cell (dir : SwapDir) (filen : ℕ) (payloadEnd : ℤ) : IoState where
  slotSize := dir.max_objsize
  diskOffset := dir.diskOffset filen
  payloadEnd := payloadEnd

/-- `createStoreIo`.  The last two arguments tell whether there is a file without errors, and which
slot `openForWriting` gives. -/
def createStoreIo (dir : SwapDir) (expectedReplySize : ℤ) (swap_hdr_sz : ℕ) (theFile : Bool)
    (openForWriting : Option (Fin dir.entryLimit)) : Except Fault (Option IoState) :=
  if ¬ theFile then .ok none
  else if ¬ 0 ≤ expectedReplySize then .error .createStoreIo
  else if ¬ 0 < swap_hdr_sz then .error .createStoreIo
  else
    let payloadSize := int64 (swap_hdr_sz + expectedReplySize)
    let payloadEnd := int64 (cellHeaderSize + payloadSize)
    if ¬ payloadEnd ≤ dir.max_objsize then .error .createStoreIo
    else
      match openForWriting with
      | none => .ok none
      | some filen =>
          if ¬ int64 (dir.diskOffset filen + payloadEnd) ≤ dir.diskOffsetLimit then
            .error .createStoreIo
          else .ok (some (dir.cell filen payloadEnd))

end SwapDir

namespace IoState

/-- An operation on the buffer, in which assertions may fail. -/
def orDie (result : Option MemBuf) : Except Fault MemBuf :=
  match result with
  | some theBuf => .ok theBuf
  | none => .error .memBuf

/-- The buffer that `write` appends to. -/
def bufferFor (io : IoState) (coreOff : ℤ) : Except Fault MemBuf :=
  if coreOff = 0 then
    if io.theBuf ≠ none then .error .write
    else if ¬ io.payloadEnd ≤ io.slotSize then .error .write
    else
      (orDie (MemBuf.init (min io.payloadEnd io.slotSize) io.slotSize)).bind fun theBuf =>
        if ¬ cellHeaderSize ≤ io.payloadEnd then .error .write
        else orDie (theBuf.append (cellHeader (io.payloadEnd - cellHeaderSize)))
  else if coreOff ≠ -1 then .error .write
  else
    match io.theBuf with
    | none => .error .write
    | some theBuf => .ok theBuf

def write (io : IoState) (buf : Bytes) (coreOff : ℤ) : Except Fault IoState :=
  (io.bufferFor coreOff).bind fun theBuf =>
    (orDie (theBuf.append buf)).map fun theBuf =>
      { io with theBuf := some theBuf, offset_ := int64 (io.offset_ + buf.length) }

def startWriting (io : IoState) : Except Fault WriteRequest :=
  match io.theBuf with
  | none => .error .startWriting
  | some theBuf =>
      if ¬ theBuf.content.length ≤ io.slotSize then .error .startWriting
      else .ok ⟨theBuf.content, io.diskOffset⟩

/-- The next page of a reply is written. -/
def writePage (io : IoState) (page : Bytes) : Except Fault IoState := io.write page (-1)

/-- The metadata of an entry is written, then pages of its reply, and then the cell is closed with
`wroteAll`. -/
def writeEntry (io : IoState) (metaData : Bytes) (pages : List Bytes) :
    Except Fault WriteRequest :=
  (io.write metaData 0).bind fun io =>
    (pages.foldlM writePage io).bind startWriting

end IoState

/-! ## A cell that is large enough -/

namespace IoState

/-- Between the writes: the header of the cell and what has been written. -/
structure Filled (io : IoState) (written : Bytes) : Prop where
  buffer : ∃ theBuf, io.theBuf = some theBuf ∧
    theBuf.content = cellHeader (io.payloadEnd - cellHeaderSize) ++ written ∧
    theBuf.max_capacity = io.slotSize.toNat ∧ theBuf.Terminated

variable {io : IoState}

theorem append_filled {written more : Bytes} {theBuf : MemBuf}
    (content : theBuf.content = cellHeader (io.payloadEnd - cellHeaderSize) ++ written)
    (limit : theBuf.max_capacity = io.slotSize.toNat) (terminated : theBuf.Terminated)
    (room : ((cellHeaderSize + written.length + more.length : ℕ) : ℤ) < io.slotSize) :
    ∃ after, theBuf.append more = some after ∧
      after.content = cellHeader (io.payloadEnd - cellHeaderSize) ++ (written ++ more) ∧
      after.max_capacity = io.slotSize.toNat ∧ after.Terminated := by
  have fits : theBuf.content.length + more.length < theBuf.max_capacity := by
    rw [content, limit, List.length_append, length_cellHeader]
    omega
  obtain ⟨after, appended, contains, same, ends⟩ := MemBuf.append_some terminated fits
  refine ⟨after, appended, ?_, same.trans limit, ends⟩
  rw [contains, content, List.append_assoc]

/-- The first write puts the header of the cell before the metadata. -/
theorem write_first (fresh : io.theBuf = none) (cell : cellHeaderSize ≤ io.payloadEnd)
    {metaData : Bytes} (room : ((cellHeaderSize + metaData.length : ℕ) : ℤ) ≤ io.payloadEnd)
    (below : io.payloadEnd < io.slotSize) :
    ∃ after, io.write metaData 0 = .ok after ∧ after.Filled metaData ∧
      after.payloadEnd = io.payloadEnd ∧ after.slotSize = io.slotSize := by
  have positive : 0 < io.payloadEnd := by
    unfold cellHeaderSize at cell
    omega
  obtain ⟨started, init, empty, limit, ends⟩ :=
    MemBuf.init_some positive below.le
  have headerRoom : started.content.length + (cellHeader (io.payloadEnd - cellHeaderSize)).length <
      started.max_capacity := by
    rw [empty, limit, length_cellHeader, List.length_nil]
    omega
  have header := MemBuf.append_some ends headerRoom
  obtain ⟨headed, appended, content, same, terminated⟩ := header
  rw [empty, List.nil_append] at content
  obtain ⟨after, written, contains, capacity, ended⟩ :=
    @append_filled io [] metaData headed (content.trans (by simp)) (same.trans limit) terminated
      (by rw [List.length_nil]; omega)
  refine ⟨{ io with
    theBuf := some after
    offset_ := int64 (io.offset_ + metaData.length) }, ?_, ⟨after, rfl, contains, capacity, ended⟩,
    rfl, rfl⟩
  have buffer : io.bufferFor 0 = .ok headed := by
    unfold bufferFor
    rw [if_pos rfl, if_neg (by simp [fresh]), if_neg (by omega), min_eq_left below.le, init]
    change (if ¬ (cellHeaderSize : ℤ) ≤ io.payloadEnd then _ else _) = _
    rw [if_neg (by omega), appended]
    rfl
  unfold write
  rw [buffer]
  change (orDie (headed.append metaData)).map _ = _
  rw [written]
  rfl

/-- A later write appends. -/
theorem write_more {written page : Bytes} (filled : io.Filled written)
    (room : ((cellHeaderSize + written.length + page.length : ℕ) : ℤ) < io.slotSize) :
    ∃ after, io.write page (-1) = .ok after ∧ after.Filled (written ++ page) ∧
      after.payloadEnd = io.payloadEnd ∧ after.slotSize = io.slotSize := by
  obtain ⟨theBuf, holds, content, limit, terminated⟩ := filled.buffer
  obtain ⟨after, appended, contains, capacity, ends⟩ :=
    append_filled content limit terminated room
  refine ⟨{ io with
    theBuf := some after
    offset_ := int64 (io.offset_ + page.length) }, ?_, ⟨after, rfl, contains, capacity, ends⟩,
    rfl, rfl⟩
  unfold write bufferFor
  rw [if_neg (by decide), if_neg (by decide), holds]
  change (orDie (theBuf.append page)).map _ = _
  rw [appended]
  rfl

theorem write_pages {pages : List Bytes} {written : Bytes} (filled : io.Filled written)
    (room : ((cellHeaderSize + written.length + pages.flatten.length : ℕ) : ℤ) < io.slotSize) :
    ∃ after, pages.foldlM writePage io = .ok after ∧
      after.Filled (written ++ pages.flatten) ∧ after.slotSize = io.slotSize := by
  induction pages generalizing io written with
  | nil => exact ⟨io, rfl, by simpa using filled, rfl⟩
  | cons page pages ih =>
      rw [List.flatten_cons, List.length_append] at room
      have fits : ((cellHeaderSize + written.length + page.length : ℕ) : ℤ) < io.slotSize := by
        omega
      obtain ⟨middle, wrote, some, -, slot⟩ := write_more filled fits
      obtain ⟨after, rest, all, last⟩ :=
        ih some (by rw [slot, List.length_append]; omega)
      refine ⟨after, ?_, ?_, last.trans slot⟩
      · rw [List.foldlM_cons, writePage, wrote]
        exact rest
      · rw [List.flatten_cons, ← List.append_assoc]
        exact all

/-- An entry that ends before the end of its cell is written. -/
theorem writeEntry_ok (fresh : io.theBuf = none) (below : io.payloadEnd < io.slotSize)
    {metaData : Bytes} {pages : List Bytes}
    (room : ((cellHeaderSize + metaData.length + pages.flatten.length : ℕ) : ℤ) ≤ io.payloadEnd) :
    ∃ request, io.writeEntry metaData pages = .ok request := by
  obtain ⟨first, wrote, filled, -, slot⟩ :=
    @write_first io fresh (by omega) metaData (by omega) below
  obtain ⟨last, rest, all, same⟩ := @write_pages first pages metaData filled (by omega)
  obtain ⟨theBuf, holds, content, -, -⟩ := all.buffer
  have short : (theBuf.content.length : ℤ) ≤ last.slotSize := by
    rw [content, List.length_append, List.length_append, length_cellHeader]
    omega
  refine ⟨⟨theBuf.content, last.diskOffset⟩, ?_⟩
  unfold writeEntry
  rw [wrote]
  change (pages.foldlM writePage first).bind startWriting = _
  rw [rest]
  change startWriting last = _
  unfold startWriting
  rw [holds]
  exact if_neg (by simpa using short)

/-- A cell that ends before its header dies with the first write. -/
theorem writeEntry_error (short : io.payloadEnd < cellHeaderSize) (metaData : Bytes)
    (pages : List Bytes) : ∃ fault, io.writeEntry metaData pages = .error fault := by
  have buffer : ∃ fault, io.bufferFor 0 = .error fault := by
    unfold bufferFor
    rw [if_pos rfl]
    split
    · exact ⟨_, rfl⟩
    · split
      · exact ⟨_, rfl⟩
      · cases MemBuf.init (min io.payloadEnd io.slotSize) io.slotSize with
        | none => exact ⟨_, rfl⟩
        | some theBuf => exact ⟨_, if_pos (by omega)⟩
  obtain ⟨fault, dies⟩ := buffer
  refine ⟨fault, ?_⟩
  unfold writeEntry write
  rw [dies]
  rfl

end IoState

/-! ## A slot inside the database -/

namespace SwapDir

theorem diskOffset_eq (dir : SwapDir) {filen : ℕ} (inside : filen ≤ dir.entryLimit) :
    dir.diskOffset filen = HeaderSize + dir.max_objsize * filen ∧
      HeaderSize + dir.max_objsize * filen ≤ dir.max_size := by
  have grows : dir.max_objsize * filen ≤ dir.max_objsize * dir.entryLimit :=
    mul_le_mul_of_nonneg_left (by exact_mod_cast inside) dir.nonneg
  have nonneg : 0 ≤ dir.max_objsize * (filen : ℤ) := mul_nonneg dir.nonneg (by omega)
  have usable := dir.usable
  have bounded : (dir.max_size : ℤ) < 2 ^ 51 := by exact_mod_cast dir.bounded
  unfold diskOffset
  unfold HeaderSize at *
  exact ⟨int64_eq (by omega) (by omega), by omega⟩

/-- A cell that is no larger than its slot ends inside the database. -/
theorem slot_inside (dir : SwapDir) (filen : Fin dir.entryLimit) {payloadEnd : ℤ}
    (low : -2 ^ 63 ≤ payloadEnd) (small : payloadEnd ≤ dir.max_objsize) :
    int64 (dir.diskOffset filen + payloadEnd) ≤ dir.diskOffsetLimit := by
  obtain ⟨here, -⟩ := dir.diskOffset_eq filen.isLt.le
  obtain ⟨limit, within⟩ := dir.diskOffset_eq (le_refl dir.entryLimit)
  have next : dir.max_objsize * ((filen : ℕ) : ℤ) + dir.max_objsize ≤
      dir.max_objsize * dir.entryLimit := by
    have step : (((filen : ℕ) + 1 : ℕ) : ℤ) ≤ dir.entryLimit := by exact_mod_cast filen.isLt
    have grown := mul_le_mul_of_nonneg_left step dir.nonneg
    rw [Nat.cast_add, Nat.cast_one, mul_add, mul_one] at grown
    exact grown
  have nonneg : 0 ≤ dir.max_objsize * ((filen : ℕ) : ℤ) := mul_nonneg dir.nonneg (by omega)
  have bounded : (dir.max_size : ℤ) < 2 ^ 51 := by exact_mod_cast dir.bounded
  unfold diskOffsetLimit
  rw [here, limit, int64_eq]
  · omega
  · unfold HeaderSize
    omega
  · omega

end SwapDir

end Rock
end Squid
