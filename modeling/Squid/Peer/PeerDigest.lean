import Squid.Http.MimeHeader
import Mathlib.Algebra.BigOperators.Group.List.Basic

/-!
# Fetching the cache digest of a peer

The stages of `src/peer_digest.cc` that take a digest reply out of the store, and what they use of
`src/CacheDigest.cc`.  Only the valid bytes of `fetch->buf` are kept, so
that `fetch->bufofs` is their number.  A failed assertion and a copy past the end of the mask end
the run.
-/

namespace Squid
namespace PeerDigest

open CRuntime

/-! ## The digest -/

/-- `CacheDigest`; `mask_size` is the length of the mask. -/
structure CacheDigest where
  mask : Bytes
  capacity : ℤ
  bits_per_entry : ℤ
  count : ℤ := 0
  del_count : ℤ := 0
  sized : 0 < mask.length

/-- `cd->mask_size`. -/
def CacheDigest.mask_size (cd : CacheDigest) : ℕ := cd.mask.length

/-- What stops the program or corrupts its memory. -/
inductive Fault where
  | assertion | overrun

/-- `cacheDigestCalcMaskSize`: a `size_t` made of an `int`. -/
def cacheDigestCalcMaskSize (cap bpe : ℤ) : ℕ :=
  (int32 (int32 (cap * bpe) + 7) % 2 ^ 64).toNat / 8

def cacheDigestCreate (capacity bpe : ℤ) : Except Fault CacheDigest :=
  if _ : 0 < capacity ∧ 0 < bpe then
    if sized : 0 < cacheDigestCalcMaskSize capacity bpe then
      .ok { mask := List.replicate (cacheDigestCalcMaskSize capacity bpe) 0, capacity,
            bits_per_entry := bpe, sized := by rwa [List.length_replicate] }
    else .error .assertion
  else .error .assertion

/-- `bit_count` of `cacheDigestHashKey`. -/
def CacheDigest.bit_count (cd : CacheDigest) : ℕ := (int32 (cd.mask_size * 8) % 2 ^ 32).toNat

/-- `cacheDigestHashKey`, where the four words of the key are as `htonl` leaves them; `none` for a
division by zero. -/
def cacheDigestHashKey (cd : CacheDigest) (tmp_keys : List ℕ) : Option (List ℕ) :=
  if cd.bit_count = 0 then none else some (tmp_keys.map (· % cd.bit_count))

/-- The bits of a byte that are on. -/
def bitsOn (b : UInt8) : ℕ := (List.range 8).countP fun i => b.toNat.testBit i

/-- `peerDigestUseful`: at most 65 percent of the bits, rounded, are on. -/
def peerDigestUseful (cd : CacheDigest) : Bool :=
  200 * (cd.mask.map bitsOn).sum < 131 * (cd.mask_size * 8)

/-! ## The control block -/

/-- `StoreDigestCBlock`, without what is reserved. -/
structure StoreDigestCBlock where
  current : ℤ
  required : ℤ
  capacity : ℤ
  count : ℤ
  del_count : ℤ
  mask_size : ℤ
  bits_per_entry : ℕ
  hash_func_count : ℕ

/-- `sizeof(StoreDigestCBlock)`. -/
def StoreDigestCBlockSize : ℕ := 128

/-- The number that a field in network order holds. -/
def ntoh (buf : Bytes) (off size : ℕ) : ℕ :=
  ((buf.drop off).take size).foldl (fun value b => 256 * value + b.toNat) 0

/-- `memcpy` of a block and the conversions of `peerDigestSetCBlock`. -/
def StoreDigestCBlock.read (buf : Bytes) : StoreDigestCBlock where
  current := int16 (ntoh buf 0 2)
  required := int16 (ntoh buf 2 2)
  capacity := int32 (ntoh buf 4 4)
  count := int32 (ntoh buf 8 4)
  del_count := int32 (ntoh buf 12 4)
  mask_size := int32 (ntoh buf 16 4)
  bits_per_entry := ntoh buf 20 1
  hash_func_count := ntoh buf 21 1

def CacheDigestVer : ℤ × ℤ := (5, 3)

def CacheDigestHashFuncCount : ℕ := 4

/-- The checks of `peerDigestSetCBlock`. -/
def StoreDigestCBlock.Accepted (cblock : StoreDigestCBlock) : Prop :=
  ¬ CacheDigestVer.1 < cblock.required ∧ ¬ cblock.current < CacheDigestVer.2 ∧
    ¬ (cblock.current < cblock.required ∨ cblock.mask_size ≤ 0 ∨ cblock.capacity ≤ 0 ∨
      cblock.bits_per_entry ≤ 0 ∨ cblock.hash_func_count ≤ 0) ∧
    (cblock.mask_size % 2 ^ 64).toNat =
      cacheDigestCalcMaskSize cblock.capacity cblock.bits_per_entry ∧
    cblock.hash_func_count = CacheDigestHashFuncCount

instance (cblock : StoreDigestCBlock) : Decidable cblock.Accepted :=
  inferInstanceAs (Decidable (_ ∧ _))

/-- `pd->cd` once `peerDigestSetCBlock` has adapted it to an accepted block. -/
def StoreDigestCBlock.digest (cblock : StoreDigestCBlock) (cd : Option CacheDigest) :
    Except Fault CacheDigest :=
  match cd.filter fun cd => cblock.mask_size = cd.mask_size with
  | some cd => .ok cd
  | none => cacheDigestCreate cblock.capacity cblock.bits_per_entry

/-- The last assignments of `peerDigestSetCBlock`. -/
def CacheDigest.counted (cd : CacheDigest) (cblock : StoreDigestCBlock) : CacheDigest :=
  { cd with count := cblock.count, del_count := cblock.del_count }

/-- `peerDigestSetCBlock` with `pd->cd` at first; `none` if the block is refused. -/
def peerDigestSetCBlock (cd : Option CacheDigest) (buf : Bytes) :
    Except Fault (Option CacheDigest) :=
  let cblock := StoreDigestCBlock.read buf
  if cblock.Accepted then
    (cblock.digest cd).map fun cd => some (cd.counted cblock)
  else .ok none

/-! ## The stages -/

/-- `digest_read_state_t`; a fetch that is not over is in one of these states. -/
inductive ReadState where
  /-- `DIGEST_READ_REPLY` -/
  | reply
  /-- `DIGEST_READ_HEADERS` -/
  | headers
  /-- `DIGEST_READ_CBLOCK` -/
  | cblock
  /-- `DIGEST_READ_MASK` -/
  | mask
  deriving DecidableEq

/-- Why a fetch is over: the `reason` of `peerDigestReqFinish`. -/
inductive Reason where
  /-- "peer disappeared" or "swap aborted" -/
  | gone
  /-- "null digest?!" -/
  | nullDigest
  /-- "premature end of digest?!" -/
  | prematureEnd
  /-- "useless digest" -/
  | useless
  /-- "success" -/
  | success
  /-- the reason phrase of a reply that is neither `HTTP_OK` nor `HTTP_NOT_MODIFIED` -/
  | badStatus
  /-- "reply header too big" -/
  | replyTooBig
  /-- "Not modified" -/
  | notModified
  /-- "stored header too big" -/
  | headerTooBig
  /-- "internal status error" -/
  | statusError
  /-- "invalid digest cblock" -/
  | invalidCBlock
  /-- "digest cblock too big" -/
  | cblockTooBig
  deriving DecidableEq

/-- `DigestFetchState`, with `pd->cd` and the status codes of its entries. -/
structure Fetch where
  cd : Option CacheDigest
  /-- The status of the reply of `entry`. -/
  status : ℕ
  /-- The status of the reply of `old_entry`, if there is one. -/
  old_status : Option ℕ
  offset : ℕ := 0
  mask_offset : ℕ := 0
  buf : Bytes := []
  state : ReadState := .reply

/-- What a call of the store hands over. -/
structure Delivery where
  data : Bytes
  /-- The peer has disappeared, or the entry has been aborted. -/
  gone : Bool := false

def SM_PAGE_SIZE : ℕ := 4096

/-- The `memcpy` of `peerDigestSwapInMask`, within the mask. -/
def CacheDigest.memcpy (cd : CacheDigest) {off : ℕ} {buf : Bytes}
    (fits : off + buf.length ≤ cd.mask_size) : CacheDigest :=
  { cd with
    mask := cd.mask.take off ++ buf ++ cd.mask.drop (off + buf.length)
    sized := by
      have sized := cd.sized
      rw [mask_size] at fits
      simp only [List.length_append, List.length_take, List.length_drop]
      omega }

namespace Fetch

/-- `peerDigestFetchedEnough`: the reason, if the fetch is over. -/
def FetchedEnough (fetch : Fetch) (gone : Bool) (size : ℕ) : Option Reason :=
  if gone then some .gone
  else if size = 0 then
    match fetch.cd with
    | none => some .nullDigest
    | some cd =>
        if fetch.mask_offset ≠ cd.mask_size then some .prematureEnd
        else if ¬ peerDigestUseful cd then some .useless
        else some .success
  else none

/-- What a stage returns. -/
inductive Stage where
  /-- How much of the buffer has been read. -/
  | read (retsize : ℕ) (fetch : Fetch)
  /-- The fetch is over, with what it was like when `peerDigestReqFinish` was called. -/
  | finish (reason : Reason) (fetch : Fetch)

/-- `peerDigestFetchReply`. -/
def FetchReply (fetch : Fetch) (gone : Bool) : Except Fault Stage :=
  if fetch.offset ≠ 0 then .error .assertion
  else match fetch.FetchedEnough gone fetch.buf.length with
  | some reason => .ok (.finish reason fetch)
  | none =>
      if headersEnd fetch.buf ≠ 0 then
        if fetch.status = 0 then .error .assertion
        else if fetch.status = 304 then
          match fetch.old_status with
          | none => .error .assertion
          | some status =>
              if fetch.cd.isSome then
                .ok (.finish .notModified { fetch with status, old_status := none })
              else .ok (.read 0 { fetch with status, old_status := none, state := .headers })
        else if fetch.status = 200 then
          .ok (.read 0 { fetch with old_status := none, state := .headers })
        else .ok (.finish .badStatus fetch)
      else if SM_PAGE_SIZE ≤ fetch.buf.length then .ok (.finish .replyTooBig fetch)
      else .ok (.read 0 fetch)

/-- `peerDigestSwapInHeaders`. -/
def SwapInHeaders (fetch : Fetch) (gone : Bool) : Except Fault Stage :=
  match fetch.FetchedEnough gone fetch.buf.length with
  | some reason => .ok (.finish reason fetch)
  | none =>
      if fetch.offset ≠ 0 then .error .assertion
      else if headersEnd fetch.buf ≠ 0 then
        if fetch.status = 0 then .error .assertion
        else if fetch.status ≠ 200 then .ok (.finish .statusError fetch)
        else .ok (.read (headersEnd fetch.buf) { fetch with state := .cblock })
      else if SM_PAGE_SIZE ≤ fetch.buf.length then .ok (.finish .headerTooBig fetch)
      else .ok (.read 0 fetch)

/-- `peerDigestSwapInCBlock`. -/
def SwapInCBlock (fetch : Fetch) (gone : Bool) : Except Fault Stage :=
  match fetch.FetchedEnough gone fetch.buf.length with
  | some reason => .ok (.finish reason fetch)
  | none =>
      if StoreDigestCBlockSize ≤ fetch.buf.length then
        (peerDigestSetCBlock fetch.cd fetch.buf).map fun
          | some cd => .read StoreDigestCBlockSize { fetch with cd := some cd, state := .mask }
          | none => .finish .invalidCBlock fetch
      else if SM_PAGE_SIZE ≤ fetch.buf.length then .ok (.finish .cblockTooBig fetch)
      else .ok (.read 0 fetch)

/-- `peerDigestSwapInMask`. -/
def SwapInMask (fetch : Fetch) (gone : Bool) : Except Fault Stage :=
  match fetch.cd with
  | none => .error .assertion
  | some cd =>
      if fits : fetch.mask_offset + fetch.buf.length ≤ cd.mask_size then
        let fetch := { fetch with cd := some (cd.memcpy fits) }
        match fetch.FetchedEnough gone fetch.buf.length with
        | some reason => .ok (.finish reason fetch)
        | none =>
            let fetch := { fetch with mask_offset := fetch.mask_offset + fetch.buf.length }
            if cd.mask_size ≤ fetch.mask_offset then
              if fetch.mask_offset ≠ cd.mask_size then .error .assertion
              else match fetch.FetchedEnough gone 0 with
                | some reason => .ok (.finish reason fetch)
                | none => .error .assertion
            else .ok (.read fetch.buf.length fetch)
      else .error .overrun

/-- The `switch` of `peerDigestHandleReply`. -/
def stage (fetch : Fetch) : Bool → Except Fault Stage :=
  match fetch.state with
  | .reply => fetch.FetchReply
  | .headers => fetch.SwapInHeaders
  | .cblock => fetch.SwapInCBlock
  | .mask => fetch.SwapInMask

/-- The valid bytes of the buffer after the `memmove` of `peerDigestHandleReply`, which moves
`retsize` bytes and not those that are left. -/
def moved (buf : Bytes) (retsize : ℕ) : Bytes :=
  ((buf.drop retsize).take retsize ++ buf.drop retsize).take (buf.length - retsize)

/-- What a call of `peerDigestHandleReply` comes to. -/
inductive Call where
  /-- More is asked of the store. -/
  | more (fetch : Fetch)
  /-- The fetch is over, with what it was like when `peerDigestReqFinish` was called. -/
  | finish (reason : Reason) (fetch : Fetch)

/-- The loop of `peerDigestHandleReply`, for that many rounds at most. -/
def loop : ℕ → Fetch → Bool → Except Fault Call
  | 0, fetch, _ => .ok (.more fetch)
  | rounds + 1, fetch, gone => do
      match ← fetch.stage gone with
      | .finish reason fetch => return .finish reason fetch
      | .read retsize next =>
          if fetch.state ≠ next.state ∧ moved next.buf retsize ≠ [] then
            loop rounds { next with buf := moved next.buf retsize } gone
          else return .more { next with buf := moved next.buf retsize }

/-- `peerDigestHandleReply`.  The four states are passed in order, so that there are no more than
four rounds. -/
def HandleReply (fetch : Fetch) (delivery : Delivery) : Except Fault Call := do
  let fetch := { fetch with buf := fetch.buf ++ delivery.data }
  if SM_PAGE_SIZE < fetch.buf.length then throw .assertion
  match fetch.FetchedEnough delivery.gone fetch.buf.length with
  | some reason => return .finish reason fetch
  | none =>
      match ← loop 4 fetch delivery.gone with
      | .more fetch => return .more { fetch with offset := fetch.offset + delivery.data.length }
      | .finish reason fetch => return .finish reason fetch

/-- The fetch after a call, if it goes on. -/
def next (fetch : Fetch) (delivery : Delivery) : Option Fetch :=
  match fetch.HandleReply delivery with
  | .ok (.more fetch) => some fetch
  | _ => none

end Fetch

/-- The fetch that `peerDigestRequest` begins. -/
def peerDigestRequest (cd : Option CacheDigest) (status : ℕ) (old_status : Option ℕ) : Fetch :=
  { cd, status, old_status }

end PeerDigest
end Squid
