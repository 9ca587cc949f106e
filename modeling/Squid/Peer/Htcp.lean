import Squid.Library.Writes
import Squid.Peer.Datagram

/-!
# HTCP messages

The builders and the decoders of `src/htcp.cc`, for a machine that stores the low byte first.  A
builder writes to a packet of which it is told the size; the memory has no end, so that writes past
the packet can be seen.
-/

namespace Squid
namespace Htcp

open CRuntime Datagram Writes

/-! ## Messages -/

/-- A C string; none comes near the size of an `int`. -/
structure Text where
  bytes : Bytes
  plain : 0 ∉ bytes
  short : bytes.length + 2 < 2 ^ 31

/-- The strings of `htcpSpecifier`. -/
structure HtcpSpecifier where
  method : Option Text
  uri : Option Text
  version : Option Text
  req_hdrs : Option Text

/-- `htcpDetail`. -/
structure HtcpDetail where
  resp_hdrs : Option Text
  entity_hdrs : Option Text
  cache_hdrs : Option Text

/-- `htcpStuff`. -/
structure HtcpStuff where
  op : ℤ
  rr : ℤ
  f1 : ℤ
  response : ℤ
  reason : ℤ
  msg_id : UInt32
  S : HtcpSpecifier
  D : HtcpDetail

/-- `HTCP_TST`. -/
def opTst : ℕ := 1

/-- `HTCP_CLR`. -/
def opClr : ℕ := 4

/-- `HTCP_END`. -/
def opEnd : ℕ := 5

/-- `RR_REQUEST`. -/
def rrRequest : ℕ := 0

/-- `RR_RESPONSE`. -/
def rrResponse : ℕ := 1

/-! ## Building -/

/-- The part of a packet that was written. -/
abbrev Packet := ℕ → Option UInt8

/-- A difference as a `size_t`. -/
def sizeSub (buflen : ℕ) (off : ℤ) : ℕ := (((buflen : ℤ) - off) % 2 ^ 64).toNat

/-- `htons` of a `uint16_t`. -/
def net16 (x : ℕ) : Bytes := [UInt8.ofNat (x / 2 ^ 8), UInt8.ofNat x]

/-- `htonl` of a `uint32_t`. -/
def net32 (x : ℕ) : Bytes := net16 (x / 2 ^ 16) ++ net16 x

/-- The bytes of a string; a null pointer counts as an empty one. -/
def text (s : Option Text) : Bytes := (s.map Text.bytes).getD []

def htcpBuildAuth (pkt : Packet) (buf buflen : ℕ) : ℤ × Packet :=
  if buflen < 2 then (-1, pkt) else (2, write pkt buf (net16 2))

def htcpBuildCountstr (pkt : Packet) (buf buflen : ℕ) (s : Option Text) : ℤ × Packet :=
  if buflen < 2 then (-1, pkt)
  else
    let len := (text s).length
    let pkt := write pkt buf (net16 len)
    if sizeSub buflen 2 < len then (-1, pkt)
    else (int32 (2 + len), write pkt (buf + 2) (text s))

/-- Counted strings, one after the other from `off` on. -/
def buildCountstrs (buf buflen : ℕ) : Packet → ℤ → List (Option Text) → ℤ × Packet
  | pkt, off, [] => (off, pkt)
  | pkt, off, s :: strings =>
      let (size, pkt) := htcpBuildCountstr pkt (buf + off.toNat) (sizeSub buflen off) s
      if size < 0 then (size, pkt) else buildCountstrs buf buflen pkt (off + size) strings

def htcpBuildSpecifier (pkt : Packet) (buf buflen : ℕ) (stuff : HtcpStuff) : ℤ × Packet :=
  buildCountstrs buf buflen pkt 0
    [stuff.S.method, stuff.S.uri, stuff.S.version, stuff.S.req_hdrs]

def htcpBuildDetail (pkt : Packet) (buf buflen : ℕ) (stuff : HtcpStuff) : ℤ × Packet :=
  buildCountstrs buf buflen pkt 0 [stuff.D.resp_hdrs, stuff.D.entity_hdrs, stuff.D.cache_hdrs]

/-- `htcpBuildTstOpData`; `none` is fatal. -/
def htcpBuildTstOpData (pkt : Packet) (buf buflen : ℕ) (stuff : HtcpStuff) :
    Option (ℤ × Packet) :=
  if stuff.rr = rrRequest then some (htcpBuildSpecifier pkt buf buflen stuff)
  else if stuff.rr = rrResponse then
    if stuff.f1 ≠ 0 then some (0, pkt) else some (htcpBuildDetail pkt buf buflen stuff)
  else none

/-- `htcpBuildClrOpData`; `none` is fatal. -/
def htcpBuildClrOpData (pkt : Packet) (buf buflen : ℕ) (stuff : HtcpStuff) :
    Option (ℤ × Packet) :=
  if stuff.rr = rrRequest then
    let pkt := write pkt buf (net16 (stuff.reason % 2 ^ 16).toNat)
    let (size, pkt) := htcpBuildSpecifier pkt (buf + 2) (sizeSub buflen 2) stuff
    -- an error of the specifier becomes a size here
    some (size + 2, pkt)
  else if stuff.rr = rrResponse then some (0, pkt)
  else none

/-- `htcpBuildOpData`; `none` is a failed assertion. -/
def htcpBuildOpData (pkt : Packet) (buf buflen : ℕ) (stuff : HtcpStuff) : Option (ℤ × Packet) :=
  if stuff.op = opTst then htcpBuildTstOpData pkt buf buflen stuff
  else if stuff.op = opClr then htcpBuildClrOpData pkt buf buflen stuff
  else none

/-- The low bits of an `int` in a bit field. -/
def bits (width : ℕ) (x : ℤ) : ℕ := (x % 2 ^ width).toNat

/--
The `htcpDataHeader` or, in the old format, the `htcpDataHeaderSquid` that `htcpBuildData` copies
to the packet; `reserved` is what the stack holds there.
-/
def dataHeader (old_squid_format : Bool) (reserved : ℕ) (stuff : HtcpStuff) (length : ℕ) : Bytes :=
  if old_squid_format then
    -- `msg_id` is not copied
    net16 length ++ [UInt8.ofNat (bits 4 stuff.op + 16 * bits 4 stuff.response),
      UInt8.ofNat (64 * bits 1 stuff.f1 + 128 * bits 1 stuff.rr)] ++ net32 0
  else
    net16 length ++ [UInt8.ofNat (bits 4 stuff.response + 16 * bits 4 stuff.op),
      UInt8.ofNat (bits 1 stuff.rr + 2 * bits 1 stuff.f1 + 4 * (reserved % 2 ^ 6))] ++
      net32 stuff.msg_id.toNat

def htcpBuildData (old_squid_format : Bool) (reserved : ℕ) (pkt : Packet) (buf buflen : ℕ)
    (stuff : HtcpStuff) : Option (ℤ × Packet) :=
  if buflen < 8 then some (-1, pkt)
  else
    (htcpBuildOpData pkt (buf + 8) (sizeSub buflen 8) stuff).map fun (op_data_sz, pkt) =>
      if op_data_sz < 0 then (op_data_sz, pkt)
      else
        let off := 8 + op_data_sz
        (off, write pkt buf (dataHeader old_squid_format reserved stuff off.toNat))

/-- `htcpBuildPacket`: the length of the packet, and the packet. -/
def htcpBuildPacket (old_squid_format : Bool) (reserved : ℕ) (buflen : UInt64) (stuff : HtcpStuff) :
    Option (ℤ × Packet) :=
  let buflen := buflen.toNat
  if buflen < 4 then some (0, fun _ => none)
  else
    (htcpBuildData old_squid_format reserved (fun _ => none) 4 (sizeSub buflen 4) stuff).map
      fun (size, pkt) =>
        if size < 0 then (0, pkt)
        else
          let off := 4 + size
          let (size, pkt) := htcpBuildAuth pkt off.toNat (sizeSub buflen off)
          if size < 0 then (0, pkt)
          else
            let off := off + size
            (off, write pkt 0 (net16 off.toNat ++ [0, if old_squid_format then 0 else 1]))

/-! ## Decoding -/

/-- `htcpDataHeader`. -/
structure HtcpDataHeader where
  length : ℕ
  opcode : ℕ
  response : ℕ
  F1 : ℕ
  RR : ℕ
  msg_id : ℕ
  deriving DecidableEq

/-- One counted string: where the next one starts, and the bytes left. -/
def unpackCountstr (buf : Bytes) (pos : ℕ) (sz : ℤ) : Traced Access (Option (ℕ × ℤ)) := do
  let l ← readBytes pos 2 (word buf pos)
  return if sz - 2 < l then none else some (pos + 2 + l, sz - 2 - l)

/-- More counted strings, each of which ends the one before it. -/
def unpackMore (buf : Bytes) (pos : ℕ) (sz : ℤ) (starts : List ℕ) :
    ℕ → Traced Access (Bytes × Option (List ℕ))
  | 0 => do
      let buf ← terminate buf pos
      return (buf, some starts)
  | count + 1 => do
      match (← unpackCountstr buf pos sz) with
      | none => return (buf, none)
      | some (next, left) => do
          let buf ← terminate buf pos
          unpackMore buf next left (starts ++ [pos + 2]) count

/-- Counted strings in place: the buffer, and where the strings start. -/
def unpackStrings (buf : Bytes) (pos : ℕ) (sz : ℤ) (count : ℕ) :
    Traced Access (Bytes × Option (List ℕ)) := do
  match (← unpackCountstr buf pos sz) with
  | none => return (buf, none)
  | some (next, left) => unpackMore buf next left [pos + 2] (count - 1)

/-- `htcpUnpackSpecifier`, without the request that is made of its strings. -/
def htcpUnpackSpecifier (buf : Bytes) (pos : ℕ) (sz : ℤ) :
    Traced Access (Bytes × Option (List ℕ)) := unpackStrings buf pos sz 4

def htcpUnpackDetail (buf : Bytes) (pos : ℕ) (sz : ℤ) :
    Traced Access (Bytes × Option (List ℕ)) := unpackStrings buf pos sz 3

/-- Why `htcpHandleMsg` drops a message. -/
inductive HtcpReject
  /-- "msg size less than htcpHeader size" -/
  | headerSize
  /-- "sz != htcpHdr.length" -/
  | length
  /-- "Unknown major version" -/
  | major
  /-- "msg size less than htcpDataHeader size" -/
  | dataHeaderSize
  /-- "out of range" -/
  | opcode
  /-- "sz < hdr.length" -/
  | dataLength
  deriving DecidableEq

/-- The data header of a message in one of the two formats. -/
def unpackDataHeader (old_squid_format : Bool) (buf : Bytes) : HtcpDataHeader :=
  let first := (octetAt buf 6).toNat
  let second := (octetAt buf 7).toNat
  if old_squid_format then
    { length := word buf 4, opcode := first % 16, response := first / 16, F1 := second / 64 % 2
      RR := second / 128, msg_id := long buf 8 }
  else
    { length := word buf 4, opcode := first / 16, response := first % 16, F1 := second / 2 % 2
      RR := second % 2, msg_id := long buf 8 }

/-- The checks that `htcpHandleMsg` makes of the header. -/
def checkHeader (sz : ℤ) (length : ℕ) (major : UInt8) : Option HtcpReject :=
  if sz ≠ length then some .length
  else if major ≠ 0 then some .major
  else if sz - 4 < 8 then some .dataHeaderSize
  else none

/-- The checks that it makes of the data header. -/
def checkDataHeader (sz : ℤ) (hdr : HtcpDataHeader) : Except HtcpReject HtcpDataHeader :=
  if opEnd ≤ hdr.opcode then .error .opcode
  else if sz - 4 < hdr.length then .error .dataLength
  else .ok hdr

/-- `htcpHandleMsg` up to the choice of a handler; the data starts at 12. -/
def htcpUnpackMsg (buf : Bytes) (sz : ℤ) : Traced Access (Except HtcpReject HtcpDataHeader) :=
  if sz < 4 then return .error .headerSize
  else do
    let (length, major, minor) ← readBytes 0 4 (word buf 0, octetAt buf 2, octetAt buf 3)
    match checkHeader sz length major with
    | some why => return .error why
    | none => do
        let hdr ← readBytes 4 8 (unpackDataHeader (minor == 0) buf)
        return checkDataHeader sz hdr

/-- What becomes of a message. -/
inductive HtcpDecision
  | rejected (why : HtcpReject)
  /-- `HTCP_NOP`, `HTCP_MON`, `HTCP_SET` -/
  | unimplemented (hdr : HtcpDataHeader)
  /-- "nothing to do", or no response is desired -/
  | ignored (hdr : HtcpDataHeader)
  /-- "No matching query id", "Unexpected response source", "error condition" -/
  | unexpected (hdr : HtcpDataHeader)
  /-- "htcpUnpackSpecifier failed", "bad DETAIL" -/
  | malformed (hdr : HtcpDataHeader)
  /-- a request, with its method, URI, version and headers -/
  | request (hdr : HtcpDataHeader) (strings : List Bytes)
  /-- a response, with its headers -/
  | response (hdr : HtcpDataHeader) (strings : List Bytes)

/-- The decision about a message whose strings have been unpacked. -/
def judge (hdr : HtcpDataHeader) (accept : List Bytes → HtcpDecision)
    (unpacked : Bytes × Option (List ℕ)) : Traced Access HtcpDecision :=
  match unpacked.2 with
  | none => return .malformed hdr
  | some starts => do
      let strings ← readStrings unpacked.1 starts
      return accept strings

/-- `htcpHandleTstRequest`: the decision, and the buffer. -/
def htcpHandleTstRequest (hdr : HtcpDataHeader) (buf : Bytes) (pos : ℕ) (sz : ℤ) :
    Traced Access (HtcpDecision × Bytes) :=
  if sz = 0 ∨ hdr.F1 = 0 then return (.ignored hdr, buf)
  else do
    let unpacked ← htcpUnpackSpecifier buf pos sz
    return (← judge hdr (.request hdr) unpacked, unpacked.1)

/-- `htcpHandleTstResponse`; `queried` tells whether the query is known and was sent to this peer. -/
def htcpHandleTstResponse (queried : ℕ → Bool) (hdr : HtcpDataHeader) (buf : Bytes) (pos : ℕ)
    (sz : ℤ) : Traced Access (HtcpDecision × Bytes) :=
  if queried hdr.msg_id = false ∨ hdr.F1 = 1 then return (.unexpected hdr, buf)
  else do
    let unpacked ← htcpUnpackDetail buf pos sz
    return (← judge hdr (.response hdr) unpacked, unpacked.1)

/-- `htcpHandleClr`; the reason is at the second byte. -/
def htcpHandleClr (hdr : HtcpDataHeader) (buf : Bytes) (pos : ℕ) (sz : ℤ) :
    Traced Access (HtcpDecision × Bytes) := do
  readBytes (pos + 1) 1 ()
  if sz - 2 = 0 then return (.ignored hdr, buf)
  else do
    let unpacked ← htcpUnpackSpecifier buf (pos + 2) (sz - 2)
    return (← judge hdr (.request hdr) unpacked, unpacked.1)

/-- What `htcpHandleMsg` decides, and the datagram that `htcpForwardClr` sends to other peers. -/
structure HtcpHandled where
  decision : HtcpDecision
  forwarded : Option Bytes := none

def htcpHandleMsg (queried : ℕ → Bool) (buf : Bytes) (sz : ℤ) : Traced Access HtcpHandled := do
  match (← htcpUnpackMsg buf sz) with
  | .error why => return { decision := .rejected why }
  | .ok hdr =>
      let hsz : ℤ := hdr.length - 8
      if hdr.opcode = opTst then do
        let handled ← if hdr.RR = rrRequest then htcpHandleTstRequest hdr buf 12 hsz
          else htcpHandleTstResponse queried hdr buf 12 hsz
        return { decision := handled.1 }
      else if hdr.opcode = opClr then do
        let handled ← htcpHandleClr hdr buf 12 hsz
        let sent ← readBytes 0 sz.toNat ((List.range sz.toNat).map (octetAt handled.2))
        return { decision := handled.1, forwarded := some sent }
      else return { decision := .unimplemented hdr }

end Htcp
end Squid
