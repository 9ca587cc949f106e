import Squid.Peer.Datagram

/-!
# ICP datagrams

`icpHandleIcpV2`, as in `src/icp_v2.cc`, up to the request or the peer that a message is for.
`icpHandleUdp` puts a zero behind the datagram.
-/

namespace Squid
namespace Icp

open CRuntime Datagram Traced

/-- `sizeof(icp_common_t)`. -/
def headerSize : ℕ := 20

/-- `icp_opcode`, as far as received messages are concerned. -/
inductive IcpKind
  /-- `ICP_QUERY` -/
  | query
  /-- `ICP_HIT`, `ICP_DECHO`, `ICP_MISS`, `ICP_DENIED`, `ICP_MISS_NOFETCH` -/
  | reply
  /-- `ICP_INVALID`, `ICP_ERR` -/
  | ignored
  /-- any other opcode -/
  | unknown
  deriving DecidableEq

/-- The cases of the `switch` in `icpHandleIcpV2`. -/
def kind (opcode : ℕ) : IcpKind :=
  if opcode = 1 then .query
  else if opcode = 2 ∨ opcode = 11 ∨ opcode = 3 ∨ opcode = 22 ∨ opcode = 21 then .reply
  else if opcode = 0 ∨ opcode = 4 then .ignored
  else .unknown

/-- `icp_common_t`. -/
structure IcpCommon where
  opcode : ℕ
  version : ℕ
  length : ℕ
  reqnum : ℕ
  flags : ℕ
  pad : ℕ
  shostid : ℕ

/-- `_icp_common_t::_icp_common_t`. -/
def icpCommon (buf : Bytes) (len : ℕ) : Traced Access IcpCommon :=
  if len < headerSize then
    -- marked as invalid
    return { opcode := 0, version := 0, length := (len + 1) % 2 ^ 16, reqnum := 0, flags := 0
             pad := 0, shostid := 0 }
  else
    readBytes 0 headerSize
      { opcode := (octetAt buf 0).toNat, version := (octetAt buf 1).toNat, length := word buf 2
        reqnum := long buf 4, flags := long buf 8, pad := long buf 12, shostid := long buf 16 }

/-- What becomes of a message. -/
inductive IcpDecision
  /-- "ICP message is too small" -/
  | tooSmall
  /-- `doV2Query`, for a URL -/
  | query (header : IcpCommon) (url : Bytes)
  /-- `handleReply`, for a URL -/
  | reply (header : IcpCommon) (url : Bytes)
  | ignored (header : IcpCommon)
  | unknown (header : IcpCommon)

/-- The C string at a position. -/
def readString (buf : Bytes) (i : ℕ) : Traced Access Bytes :=
  readBytes i ((stringAt buf i).length + 1) (stringAt buf i)

/-- `doV2Query`: the URL stands behind the number of the requester's host. -/
def doV2Query (buf : Bytes) (header : IcpCommon) : Traced Access IcpDecision := do
  let url ← readString buf (headerSize + 4)
  return .query header url

/-- `_icp_common_t::handleReply`. -/
def handleReply (buf : Bytes) (header : IcpCommon) : Traced Access IcpDecision := do
  let url ← readString buf headerSize
  return .reply header url

def icpHandleIcpV2 (buf : Bytes) (len : ℕ) : Traced Access IcpDecision :=
  if len = 0 then return .tooSmall
  else do
    let header ← icpCommon buf len
    if len ≠ header.length then return .tooSmall
    else
      match kind header.opcode with
      | .query => doV2Query buf header
      | .reply => handleReply buf header
      | .ignored => return .ignored header
      | .unknown => return .unknown header

/-- The end of `icpHandleUdp`: `buf[len] = '\0'`, and the message. -/
def icpReceive (len : ℕ) (buf : Bytes) : Traced Access IcpDecision := do
  let buf ← terminate buf len
  icpHandleIcpV2 buf len

/-- `SQUID_UDP_SO_RCVBUF`. -/
def bufSize : ℕ := 16384

/-! ## Which datagrams are judged alone -/

/-- A query that ends before its URL starts. -/
def ShortQuery (d : Bytes) : Prop :=
  headerSize ≤ d.length ∧ d.length < headerSize + 4 ∧ d.length = word d 2 ∧
    kind (octetAt d 0).toNat = .query

section Judged

variable {d rest : Bytes}

/-- The buffer when the message is handled. -/
theorem icpReceive_eq (d : Bytes) {b : UInt8} (rest : Bytes) :
    icpReceive d.length (d ++ b :: rest) =
    (Traced.emit (.write d.length) >>= fun _ => icpHandleIcpV2 (d ++ 0 :: rest) d.length) := by
  have set : (d ++ b :: rest).set d.length 0 = d ++ 0 :: rest := by simp
  unfold icpReceive terminate
  rw [set]
  rfl

/-- The header of a datagram is made of its own bytes. -/
theorem icpCommon_append (d rest : Bytes) :
    icpCommon (d ++ rest) d.length = icpCommon d d.length := by
  have agree := agree_append d rest []
  rw [List.append_nil] at agree
  unfold icpCommon headerSize
  split
  next => rfl
  next large =>
    rw [agree 0 (by omega), agree 1 (by omega), agree.word (by omega), agree.long (by omega),
      agree.long (by omega), agree.long (by omega), agree.long (by omega)]

theorem icpCommon_small (small : d.length < headerSize) :
    d.length ≠ (icpCommon d d.length).result.length := by
  unfold headerSize at small
  rw [icpCommon, if_pos (by exact small)]
  exact (show d.length ≠ (d.length + 1) % 2 ^ 16 by omega)

theorem icpCommon_within (large : headerSize ≤ d.length) :
    (icpCommon d d.length).All (Access.Within d.length) := by
  rw [icpCommon, if_neg (by omega), all_readBytes]
  exact (show 0 + headerSize ≤ d.length + 1 by omega)

/-- A string of a terminated datagram. -/
theorem stringAt_terminated {i : ℕ} (inside : i ≤ d.length) (rest rest' : Bytes) :
    stringAt (d ++ 0 :: rest) i = stringAt (d ++ 0 :: rest') i ∧
      i + (stringAt (d ++ 0 :: rest) i).length ≤ d.length := by
  have zero (tail : Bytes) : octetAt (d ++ 0 :: tail) d.length = 0 := by simp [octetAt]
  refine stringAt_congr (fun k le => ?_) (zero rest) inside
  rcases Nat.lt_or_eq_of_le le with front | rfl
  · exact agree_append d _ _ k front
  · rw [zero, zero]

theorem readString_terminated {i : ℕ} (inside : i ≤ d.length) (rest rest' : Bytes) :
    (readString (d ++ 0 :: rest) i).result = (readString (d ++ 0 :: rest') i).result ∧
      (readString (d ++ 0 :: rest) i).All (Access.Within d.length) := by
  obtain ⟨same, short⟩ := stringAt_terminated inside rest rest'
  refine ⟨same, ?_⟩
  rw [readString, all_readBytes]
  exact (show i + (_ + 1) ≤ d.length + 1 by omega)

/-- Every message but a short query. -/
theorem icpHandleIcpV2_alone (alone : ¬ShortQuery d) (rest rest' : Bytes) :
    (icpHandleIcpV2 (d ++ 0 :: rest) d.length).result =
        (icpHandleIcpV2 (d ++ 0 :: rest') d.length).result ∧
      (icpHandleIcpV2 (d ++ 0 :: rest) d.length).All (Access.Within d.length) := by
  unfold icpHandleIcpV2
  by_cases empty : d.length = 0
  · rw [if_pos empty, if_pos empty]
    exact ⟨rfl, all_pure _ _⟩
  rw [if_neg empty, if_neg empty, icpCommon_append, icpCommon_append, Traced.all_bind]
  simp only [result_bind]
  rcases Nat.lt_or_ge d.length headerSize with small | large
  · have other := icpCommon_small small
    rw [if_pos other, if_pos other, icpCommon, if_pos small]
    exact ⟨rfl, all_pure _ _, all_pure _ _⟩
  have within := icpCommon_within large
  by_cases length : d.length ≠ (icpCommon d d.length).result.length
  · rw [if_pos length, if_pos length]
    exact ⟨rfl, within, all_pure _ _⟩
  rw [if_neg length, if_neg length]
  cases same : kind (icpCommon d d.length).result.opcode with
  | query =>
      have long : headerSize + 4 ≤ d.length := by
        by_contra short
        refine alone ⟨large, by omega, ?_, ?_⟩
        · rw [icpCommon, if_neg (by omega)] at length
          exact not_not.mp length
        · rw [icpCommon, if_neg (by omega)] at same
          exact same
      obtain ⟨url, read⟩ := readString_terminated long rest rest'
      simp only [doV2Query, result_bind, Traced.all_bind, url]
      exact ⟨trivial, within, read, all_pure _ _⟩
  | reply =>
      obtain ⟨url, read⟩ := readString_terminated large rest rest'
      simp only [handleReply, result_bind, Traced.all_bind, url]
      exact ⟨trivial, within, read, all_pure _ _⟩
  | ignored => exact ⟨rfl, within, all_pure _ _⟩
  | unknown => exact ⟨rfl, within, all_pure _ _⟩

/-- The URL of a short query is what an earlier datagram left behind the terminator. -/
theorem icpHandleIcpV2_short (short : ShortQuery d) (rest : Bytes) :
    (icpHandleIcpV2 (d ++ 0 :: rest) d.length).result =
        .query (icpCommon d d.length).result (stringAt (d ++ 0 :: rest) (headerSize + 4)) ∧
      ¬(icpHandleIcpV2 (d ++ 0 :: rest) d.length).All (Access.Within d.length) := by
  obtain ⟨large, small, length, query⟩ := short
  unfold headerSize at large small
  have header : (icpCommon d d.length).result.length = word d 2 ∧
      (icpCommon d d.length).result.opcode = (octetAt d 0).toNat := by
    rw [icpCommon, if_neg (by unfold headerSize; omega)]
    exact ⟨rfl, rfl⟩
  unfold icpHandleIcpV2
  rw [if_neg (by omega), icpCommon_append, result_bind, Traced.all_bind, header.1,
    if_neg (not_not.mpr length), header.2, query]
  simp only [doV2Query, readString, result_bind, Traced.all_bind, all_readBytes]
  refine ⟨rfl, fun within => ?_⟩
  have read : headerSize + 4 + (_ + 1) ≤ d.length + 1 := within.2.1
  unfold headerSize at read
  omega

/-- An ICP datagram is judged by its own bytes unless it is a short query. -/
theorem icp_judgedAlone_iff (fits : d.length < bufSize) :
    JudgedAlone bufSize (icpReceive d.length) d ↔ ¬ShortQuery d := by
  have terminated (rest : Bytes) (size : d.length + rest.length = bufSize) :
      ∃ b tail, rest = b :: tail := by
    refine List.exists_cons_of_ne_nil ?_
    rintro rfl
    rw [List.length_nil] at size
    omega
  constructor
  · rintro ⟨_, within⟩ short
    have size : d.length + (List.replicate (bufSize - d.length) (0 : UInt8)).length = bufSize := by
      rw [List.length_replicate]
      omega
    obtain ⟨b, tail, eq⟩ := terminated _ size
    have touched := within _ size
    rw [eq, icpReceive_eq, Traced.all_bind] at touched
    exact (icpHandleIcpV2_short short tail).2 touched.2
  · intro alone
    refine ⟨fun rest rest' size size' => ?_, fun rest size => ?_⟩
    · obtain ⟨b, tail, rfl⟩ := terminated rest size
      obtain ⟨b', tail', rfl⟩ := terminated rest' size'
      rw [icpReceive_eq, icpReceive_eq, result_bind, result_bind]
      exact (icpHandleIcpV2_alone alone tail tail').1
    · obtain ⟨b, tail, rfl⟩ := terminated rest size
      rw [icpReceive_eq, Traced.all_bind, all_emit]
      exact ⟨le_refl d.length, (icpHandleIcpV2_alone alone tail tail).2⟩

end Judged

end Icp
end Squid
