import Squid.Library.CRuntime
import Squid.Library.Traced
import Squid.Library.Walk

/-!
# Swap meta data

What `storeRebuildParseEntry` makes of the first bytes of a cache file: `StoreMetaUnpacker`, the
`StoreMeta` classes and the visitor `InitStoreEntry`.  Offsets into the buffer are `int`s and
may leave it; every read of the buffer, every copy of a field and every assertion is logged.
Integers are stored with the lowest byte first, `time_t` and `size_t` have eight bytes.
-/

namespace Squid
namespace StoreMeta

open CRuntime

/-- The memory around the pointer to the buffer. -/
abbrev Memory := ℤ → UInt8

/-- What the functions do. -/
inductive Access
  /-- Bytes of the buffer are read. -/
  | read (first : ℤ) (count : ℕ)
  /-- A field is copied by a visitor that assumes a length. -/
  | copy (length assumed : ℤ)
  /-- An assertion is checked. -/
  | assertion (holds : Bool)

/-- Every index is inside the buffer, the lengths agree, and the assertion holds. -/
def Access.Safe (buflen : ℕ) : Access → Prop
  | .read first count => ∀ index, first ≤ index → index < first + count → 0 ≤ index ∧ index < buflen
  | .copy length assumed => length = assumed
  | .assertion holds => holds = true

/-- The bytes from an offset on. -/
def load (buf : Memory) (first : ℤ) (count : ℕ) : Bytes :=
  (List.range count).map fun k => buf (first + k)

@[simp] theorem length_load (buf : Memory) (first : ℤ) (count : ℕ) :
    (load buf first count).length = count := by
  simp [load]

/-- The number that bytes stand for. -/
def little (bytes : Bytes) : ℕ := bytes.foldr (fun b number => b.toNat + 256 * number) 0

/-- A `char` of the buffer. -/
def charAt (buf : Memory) (position : ℤ) : ℤ :=
  if (buf position).toNat < 128 then (buf position).toNat else (buf position).toNat - 256

/-- An `int` of the buffer. -/
def intAt (buf : Memory) (position : ℤ) : ℤ := int32 (little (load buf position 4))

/-! ## Fields -/

/-- The classes of fields. -/
inductive Kind
  | md5 | url | std | stdLfs | objSize | vary
  deriving DecidableEq

/-- `STORE_META_OK`. -/
def metaOk : UInt8 := 3

/-- `STORE_META_VOID`. -/
def metaVoid : ℤ := 0

/-- `STORE_META_KEY_URL`. -/
def metaKeyUrl : ℤ := 1

/-- `STORE_META_KEY_SHA`. -/
def metaKeySha : ℤ := 2

/-- `STORE_META_KEY_MD5`, also named `STORE_META_KEY`. -/
def metaKeyMd5 : ℤ := 3

/-- `STORE_META_URL`. -/
def metaUrl : ℤ := 4

/-- `STORE_META_STD`. -/
def metaStd : ℤ := 5

/-- `STORE_META_HITMETERING`. -/
def metaHitMetering : ℤ := 6

/-- `STORE_META_VALID`. -/
def metaValid : ℤ := 7

/-- `STORE_META_VARY_HEADERS`. -/
def metaVaryHeaders : ℤ := 8

/-- `STORE_META_STD_LFS`. -/
def metaStdLfs : ℤ := 9

/-- `STORE_META_OBJSIZE`. -/
def metaObjSize : ℤ := 10

/-- `STORE_META_STOREURL`. -/
def metaStoreUrl : ℤ := 11

/-- `STORE_META_VARY_ID`. -/
def metaVaryId : ℤ := 12

/-- `STORE_META_END`. -/
def metaEnd : ℤ := 13

/-- `StoreMeta::validType`. -/
def validType (type : ℤ) : Bool :=
  if type ≤ metaVoid ∨ metaEnd + 10 ≤ type then false
  else if metaEnd ≤ type ∨ type = metaStoreUrl ∨ type = metaVaryId then false
  else if type = metaKeyUrl ∨ type = metaKeySha ∨ type = metaHitMetering ∨ type = metaValid then
    false
  else true

/-- The class that `StoreMeta::Factory` chooses for a type. -/
def kindOf (type : ℤ) : Option Kind :=
  if type = metaKeyMd5 then some .md5
  else if type = metaUrl then some .url
  else if type = metaStd then some .std
  else if type = metaStdLfs then some .stdLfs
  else if type = metaObjSize then some .objSize
  else if type = metaVaryHeaders then some .vary
  else none

/-- `SQUID_MD5_DIGEST_LENGTH`. -/
def md5DigestLength : ℤ := 16

/-- `STORE_HDR_METASIZE`. -/
def hdrMetaSize : ℤ := 4 * 8 + 2 * 2 + 8

/-- `STORE_HDR_METASIZE_OLD`. -/
def hdrMetaSizeOld : ℤ := 4 * 8 + 2 * 2 + 8

/-- `StoreMeta::MaximumTLVLength`. -/
def maximumTlvLength : ℤ := 2 ^ 16

/-- `validLength` of the classes. -/
def Kind.validLength (kind : Kind) (length : ℤ) : Bool :=
  match kind with
  | .md5 => length = md5DigestLength
  | .std => length = hdrMetaSizeOld
  | .stdLfs => length = hdrMetaSize
  | .url | .objSize | .vary => 0 ≤ length ∧ length ≤ maximumTlvLength

theorem Kind.validLength_bounds {kind : Kind} {length : ℤ}
    (valid : kind.validLength length = true) : 0 ≤ length ∧ length ≤ 2 ^ 16 := by
  unfold validLength at valid
  split at valid
  · obtain rfl : length = md5DigestLength := of_decide_eq_true valid
    decide
  · obtain rfl : length = hdrMetaSizeOld := of_decide_eq_true valid
    decide
  · obtain rfl : length = hdrMetaSize := of_decide_eq_true valid
    decide
  all_goals exact of_decide_eq_true valid

/-- A field that was read. -/
structure Field where
  /-- The class. -/
  kind : Kind
  /-- The bytes. -/
  value : Bytes
  /-- The class accepts the length. -/
  valid : kind.validLength value.length = true

/-- The number of bytes. -/
def Field.length (x : Field) : ℤ := x.value.length

/-- The class of a field that `StoreMeta::Factory` accepts. -/
def accepts (type length : ℤ) : Option Kind :=
  if validType type then (kindOf type).filter (·.validLength length) else none

theorem accepts_valid {type length : ℤ} {kind : Kind} (accepted : accepts type length = some kind) :
    kind.validLength length = true := by
  unfold accepts at accepted
  split at accepted
  · exact (Option.filter_eq_some_iff.1 accepted).2
  · cases accepted

/-- `StoreMeta::Factory`. -/
def factory (type length : ℤ) (buf : Memory) (position : ℤ) : Traced Access (Option Field) :=
  match accepted : accepts type length with
  | none => return none
  | some kind => do
      .emit (.read position length.toNat)
      return some
        { kind := kind
          value := load buf position length.toNat
          valid := by
            have valid := accepts_valid accepted
            rw [length_load, Int.toNat_of_nonneg (Kind.validLength_bounds valid).1]
            exact valid }

/-! ## `StoreMetaUnpacker` -/

/-- The loop of `isBufferZero`. -/
def zeros (buf : Memory) : ℕ → ℤ → Traced Access Bool
  | 0, _ => return true
  | count + 1, i => do
      .emit (.read i 1)
      if buf i ≠ 0 then return false else zeros buf count (i + 1)

/-- `StoreMetaUnpacker::isBufferZero`. -/
def isBufferZero (buf : Memory) (buflen : ℕ) : Traced Access Bool :=
  if buflen < 10 then return false else zeros buf 10 0

/-- The length that `getBufferLength` finds. -/
def hdrLen (buf : Memory) : ℤ := intAt buf 1

/-- `StoreMetaUnpacker::MinimumBufferLength`. -/
def minimumBufferLength : ℤ := 5

/-- `StoreMetaUnpacker::isBufferSane`. -/
def isBufferSane (buf : Memory) (buflen : ℕ) : Traced Access Bool := do
  .emit (.read 0 1)
  if buf 0 ≠ metaOk then return false
  else
    .emit (.read 1 4)
    return minimumBufferLength ≤ hdrLen buf ∧ hdrLen buf ≤ buflen

/-- `StoreMetaUnpacker::moreToProcess`. -/
def moreToProcess (hdrLen position : ℤ) : Bool :=
  0 ≤ int32 (int32 (hdrLen - position) - minimumBufferLength)

/-- The length of the field at a position, behind its type. -/
def fieldLength (buf : Memory) (position : ℤ) : ℤ := intAt buf (int32 (position + 1))

/-- The position behind the type and the length of a field. -/
def fieldStart (position : ℤ) : ℤ := int32 (int32 (position + 1) + 4)

/-- The position behind a field. -/
def fieldEnd (buf : Memory) (position : ℤ) : ℤ :=
  int32 (fieldStart position + fieldLength buf position)

/-- `StoreMetaUnpacker::doOneEntry`: the field, unless it is ignored, and the next position. -/
def doOneEntry (buf : Memory) (hdrLen position : ℤ) :
    Traced Access (Option (Option Field × ℤ)) := do
  .emit (.read position 1)
  .emit (.read (int32 (position + 1)) 4)
  if hdrLen < fieldEnd buf position then
    return none
  else
    let newNode ← factory (charAt buf position) (fieldLength buf position) buf (fieldStart position)
    return some (newNode, fieldEnd buf position)

/-- One turn of the loop of `createStoreMeta`, before the others. -/
def unpackTurn (entry : Option (Option Field × ℤ))
    (others : ℤ → Traced Access (Option (List Field))) :
    Traced Access (Option (List Field)) :=
  match entry with
  | none => return some []
  | some (newNode, next) => do
      let rest ← others next
      return rest.map (newNode.toList ++ ·)

/-- The loop of `createStoreMeta`, for some turns; `none` if there are more. -/
def unpack (buf : Memory) (hdrLen : ℤ) : ℕ → ℤ → Traced Access (Option (List Field))
  | 0, _ => return none
  | turns + 1, position =>
      if moreToProcess hdrLen position then do
        unpackTurn (← doOneEntry buf hdrLen position) (unpack buf hdrLen turns)
      else
        return some []

/--
`StoreMetaUnpacker::createStoreMeta`.  Nodes come from a pool of zeroed memory, so the pointer at
the tail of the list is null whenever a node is added.
-/
def createStoreMeta (turns : ℕ) (buf : Memory) (buflen : ℕ) (position : ℤ) :
    Traced Access (Option (List Field)) := do
  let sane ← isBufferSane buf buflen
  if !sane then
    return some []
  else
    .emit (.read 1 4)
    .emit (.assertion (position = 1 + 4))
    unpack buf (hdrLen buf) turns position

/-! ## Rebuilding an entry -/

/-- The part of a `StoreEntry` that is stored. -/
structure EntryData where
  /-- When the object was made. -/
  timestamp : ℤ
  /-- When it was last used. -/
  lastref : ℤ
  /-- When it expires. -/
  expires : ℤ
  /-- When it was changed. -/
  lastmod : ℤ
  /-- The size of the file. -/
  swapFileSz : ℕ
  /-- How often it was used. -/
  refcount : ℕ
  /-- The bits of `StoreEntry::flags`. -/
  flags : ℕ

/-- The layout of both kinds of standard data. -/
def entryData (value : Bytes) : EntryData where
  timestamp := int64 (little (value.take 8))
  lastref := int64 (little ((value.drop 8).take 8))
  expires := int64 (little ((value.drop 16).take 8))
  lastmod := int64 (little ((value.drop 24).take 8))
  swapFileSz := little ((value.drop 32).take 8)
  refcount := little ((value.drop 40).take 2)
  flags := little ((value.drop 42).take 2)

/-- `InitStoreEntry`: the entry and the key after a field. -/
def initStoreEntry (what : EntryData × Bytes) (x : Field) : Traced Access (EntryData × Bytes) :=
  match x.kind with
  | .md5 => do
      .emit (.assertion (x.length = md5DigestLength))
      .emit (.copy x.length md5DigestLength)
      return (what.1, x.value)
  | .std => do
      .emit (.assertion (x.length = hdrMetaSizeOld))
      .emit (.copy x.length hdrMetaSizeOld)
      return (entryData x.value, what.2)
  | .stdLfs => do
      .emit (.assertion (x.length = hdrMetaSize))
      .emit (.copy x.length hdrMetaSize)
      return (entryData x.value, what.2)
  | .url | .objSize | .vary => return what

/-- The bit `KEY_PRIVATE`. -/
def keyPrivate : ℕ := 7

/-- What `storeRebuildParseEntry` returns and leaves in its arguments. -/
structure Parsed where
  /-- Whether the entry is accepted. -/
  loaded : Bool
  /-- `tmpe`. -/
  entry : EntryData
  key : Bytes
  /-- `counts.badflags`. -/
  badflags : ℕ

/-- The end of `storeRebuildParseEntry`: the checks of the entry. -/
def checkEntry (hdrLen : ℤ) (tmpe : EntryData) (key : Bytes) (badflags expectedSize : ℕ) : Parsed :=
  let size : Option ℕ :=
    if 0 < expectedSize then
      if tmpe.swapFileSz = 0 then some expectedSize
      else if (tmpe.swapFileSz : ℤ) = (expectedSize - hdrLen) % 2 ^ 64 then some expectedSize
      else if tmpe.swapFileSz ≠ expectedSize then none
      else some tmpe.swapFileSz
    else if tmpe.swapFileSz = 0 then none
    else some tmpe.swapFileSz
  if key.all (· == 0) then
    ⟨false, tmpe, key, badflags⟩
  else
    match size with
    | none => ⟨false, tmpe, key, badflags⟩
    | some size =>
        if tmpe.flags.testBit keyPrivate then
          ⟨false, { tmpe with swapFileSz := size }, key, badflags + 1⟩
        else
          ⟨true, { tmpe with swapFileSz := size }, key, badflags⟩

/-- `storeRebuildParseEntry`, for some turns of the loop; `none` if there are more. -/
def storeRebuildParseEntry (turns : ℕ) (buf : Memory) (buflen : ℕ) (tmpe : EntryData) (key : Bytes)
    (badflags expectedSize : ℕ) : Traced Access (Option Parsed) := do
  let zero ← isBufferZero buf buflen
  if zero then
    return some ⟨false, tmpe, key, badflags⟩
  else
    let sane ← isBufferSane buf buflen
    if !sane then
      return some ⟨false, tmpe, key, badflags⟩
    else
      match (← createStoreMeta turns buf buflen (1 + 4)) with
      | none => return none
      | some [] => return some ⟨false, tmpe, key, badflags⟩
      | some (x :: list) =>
          let (tmpe, key) ← (x :: list).foldlM initStoreEntry (tmpe, List.replicate 16 0)
          return some (checkEntry (hdrLen buf) tmpe key badflags expectedSize)

end StoreMeta
end Squid
