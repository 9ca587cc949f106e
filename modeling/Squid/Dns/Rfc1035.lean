import Squid.Library.CRuntime
import Squid.Library.Traced

/-!
# Unpacking DNS messages

The functions of `rfc1035.c` that decode a reply.  A pointer is the memory from there on, so
that a byte beyond the message can be read too; every read of the message, every write into a
buffer for a name and every assertion is logged.  Offsets are `unsigned int`, sizes are
`size_t`.  A failed function has the result of its earlier steps in the fields that the source
leaves as they are.
-/

namespace Squid
namespace Rfc1035

open CRuntime

/-- Memory from a pointer on. -/
abbrev Memory := ℕ → UInt8

/-- `RFC1035_MAXHOSTNAMESZ`. -/
def maxHostNameSz : ℕ := 256

/-- `RFC1035_MAXLABELSZ`. -/
def maxLabelSz : ℕ := 63

/-- `RFC1035_TYPE_CNAME`. -/
def typeCname : ℕ := 5

/-- `RFC1035_TYPE_PTR`. -/
def typePtr : ℕ := 12

/-- What the functions do to memory. -/
inductive Access
  /-- Bytes of the message are read. -/
  | read (first count : ℕ)
  /-- Bytes of a buffer for a name are written. -/
  | write (first count : ℕ)
  /-- An assertion is checked. -/
  | assertion (holds : Bool)

/-- Every index is inside the message or the buffer, and the assertion holds. -/
def Access.Safe (sz : ℕ) : Access → Prop
  | .read first count => ∀ index, first ≤ index → index < first + count → index < sz
  | .write first count => ∀ index, first ≤ index → index < first + count → index < maxHostNameSz
  | .assertion holds => holds = true

/-- `memcpy` to the position. -/
def store (memory : Memory) (first : ℕ) (bytes : Bytes) : Memory :=
  fun index => if first ≤ index then (bytes[index - first]?).getD (memory index) else memory index

/-- The bytes from a position on. -/
def load (memory : Memory) (first count : ℕ) : Bytes :=
  (List.range count).map fun k => memory (first + k)

/-- `memcpy` of two bytes and `ntohs`. -/
def word (buf : Memory) (off : ℕ) : ℕ := (buf off).toNat * 256 + (buf (off + 1)).toNat

/-- `memcpy` of four bytes and `ntohl`. -/
def long (buf : Memory) (off : ℕ) : ℕ := word buf off * 2 ^ 16 + word buf (off + 2)

/-! ## Names -/

/-- What `rfc1035NameUnpack` returns and leaves behind its pointers. -/
structure NameResult where
  /-- Whether 1 is returned. -/
  failed : Bool
  /-- `*off`. -/
  off : ℕ
  /-- `*rdlength`, unless the pointer is null. -/
  rdlength : Option ℕ
  /-- The buffer for the name. -/
  name : Memory

/-- What follows the loop of `rfc1035NameUnpack`. -/
def nameEnd (off : ℕ) (rdlength : Option ℕ) (name : Memory) (base ns no : ℕ) :
    Traced Access NameResult := do
  let last := if no ≠ 0 then base + no - 1 else base
  .emit (.write last 1)
  .emit (.assertion (no ≤ ns))
  return ⟨false, off, rdlength, store name last [0]⟩

/--
The loop of `rfc1035NameUnpack`, with the recursive call in its place.  `name + no` of the source
is the position `base + no` of the caller's buffer.
-/
def nameLoop (buf : Memory) (sz off : ℕ) (rdlength : Option ℕ) (name : Memory)
    (base ns no rdepth : ℕ) : Traced Access NameResult :=
  if sz ≤ off then
    return ⟨true, off, rdlength, name⟩
  else do
    .emit (.read off 1)
    let c := (buf off).toNat
    if 191 < c then
      if 64 < rdepth then
        return ⟨true, off, rdlength, name⟩
      else
        .emit (.read off 2)
        if sz < uint32 (off + 2) then
          return ⟨true, uint32 (off + 2), rdlength, name⟩
        else
          let ptr := word buf off % 2 ^ 14
          if sz ≤ ptr then
            return ⟨true, uint32 (off + 2), rdlength, name⟩
          else
            .emit (.assertion (0 < ns - no))
            let inner ← nameLoop buf sz ptr rdlength name (base + no) (ns - no) 0 (rdepth + 1)
            return { inner with off := uint32 (off + 2) }
    else if maxLabelSz < c then
      return ⟨true, off, rdlength, name⟩
    else
      let start := uint32 (off + 1)
      if c = 0 then
        nameEnd start rdlength name base ns no
      else if ns - no - 1 < c then
        return ⟨true, start, rdlength, name⟩
      else if sz ≤ start + c then
        return ⟨true, start, rdlength, name⟩
      else
        .emit (.read start c)
        .emit (.write (base + no) c)
        .emit (.write (base + no + c) 1)
        let name := store name (base + no) (load buf start c ++ [46])
        let rdlength := rdlength.map fun length => uint16 (length + c + 1)
        if no + c + 1 < ns then
          nameLoop buf sz (uint32 (start + c)) rdlength name base ns (no + c + 1) rdepth
        else
          nameEnd (uint32 (start + c)) rdlength name base ns (no + c + 1)
  -- The two loops together: a label takes room, a compression pointer takes depth.
  termination_by 65 - rdepth + (ns - no)

/-- `rfc1035NameUnpack`, from the start of the caller's buffer. -/
def nameUnpack (buf : Memory) (sz off : ℕ) (rdlength : Option ℕ) (name : Memory) (ns rdepth : ℕ) :
    Traced Access NameResult := do
  .emit (.assertion (0 < ns))
  nameLoop buf sz off rdlength name 0 ns 0 rdepth

/-! ## The header and the query -/

/-- The header fields of `rfc1035_message`. -/
structure Header where
  /-- Identifier of the query. -/
  id : ℕ
  /-- Set in a reply. -/
  qr : ℕ
  /-- Kind of query. -/
  opcode : ℕ
  /-- Authoritative answer. -/
  aa : ℕ
  /-- Truncated. -/
  tc : ℕ
  /-- Recursion desired. -/
  rd : ℕ
  /-- Recursion available. -/
  ra : ℕ
  /-- Response code. -/
  rcode : ℕ
  /-- Number of queries. -/
  qdcount : ℕ
  /-- Number of answers. -/
  ancount : ℕ
  /-- Number of name server records. -/
  nscount : ℕ
  /-- Number of additional records. -/
  arcount : ℕ

/-- The header fields of the message at `buf`. -/
def header (buf : Memory) : Header :=
  let t := word buf 2
  { id := word buf 0
    qr := t / 2 ^ 15 % 2
    opcode := t / 2 ^ 11 % 16
    aa := t / 2 ^ 10 % 2
    tc := t / 2 ^ 9 % 2
    rd := t / 2 ^ 8 % 2
    ra := t / 2 ^ 7 % 2
    rcode := t % 16
    qdcount := word buf 4
    ancount := word buf 6
    nscount := word buf 8
    arcount := word buf 10 }

/-- `rfc1035HeaderUnpack`, called with the offset 0: the header and the offset behind it. -/
def headerUnpack (buf : Memory) (sz : ℕ) : Traced Access (Option (Header × ℕ)) :=
  if sz < 12 then do
    .emit (.assertion true)
    return none
  else do
    .emit (.assertion true)
    .emit (.read 0 2)
    .emit (.read 2 2)
    .emit (.read 4 2)
    .emit (.read 6 2)
    .emit (.read 8 2)
    .emit (.read 10 2)
    .emit (.assertion (2 + 2 + 2 + 2 + 2 + 2 == 12))
    return some (header buf, 12)

/-- `rfc1035_query`. -/
structure Query where
  /-- The name asked for. -/
  name : Memory
  /-- Type of the records asked for. -/
  qtype : ℕ
  /-- Their class. -/
  qclass : ℕ

/-- `rfc1035QueryUnpack`: the query, unless it fails, and the offset behind it. -/
def queryUnpack (buf : Memory) (sz off : ℕ) : Traced Access (Option Query × ℕ) := do
  let name ← nameUnpack buf sz off none (fun _ => 0) maxHostNameSz 0
  let off := name.off
  if name.failed then
    return (none, off)
  else if sz < uint32 (off + 4) then
    return (none, off)
  else
    .emit (.read off 2)
    .emit (.read (uint32 (off + 2)) 2)
    return (some
        { name := name.name, qtype := word buf off, qclass := word buf (uint32 (off + 2)) },
      uint32 (off + 4))

/-! ## Resource records -/

/-- `rfc1035_rr`. -/
structure Record where
  /-- The name the record is about. -/
  name : Memory
  /-- Type of the record. -/
  type : ℕ
  /-- Its class. -/
  cls : ℕ
  /-- Time to live. -/
  ttl : ℕ
  /-- Length of the data. -/
  rdlength : ℕ
  /-- The data: for a name the whole buffer. -/
  rdata : Bytes

/-- The record types whose data is a name; `DNS_CNAME` is a build option. -/
def holdsName (dnsCname : Bool) (type : ℕ) : Prop := type = typePtr ∨ dnsCname ∧ type = typeCname

instance (dnsCname : Bool) (type : ℕ) : Decidable (holdsName dnsCname type) :=
  inferInstanceAs (Decidable (type = typePtr ∨ dnsCname ∧ type = typeCname))

/-- The part of `rfc1035RRUnpack` behind the fixed fields: `off` is the start of the data. -/
def rdataUnpack (dnsCname : Bool) (fresh buf : Memory) (sz off rdlength : ℕ)
    (fields : ℕ → Bytes → Record) (type : ℕ) : Traced Access (Option Record × ℕ) :=
  if holdsName dnsCname type then do
    let data ← nameUnpack buf sz off (some 0) fresh maxHostNameSz 0
    if data.failed then
      return (none, off)
    else if uint32 (off + rdlength) < data.off then
      return (none, off)
    else
      .emit (.assertion (uint32 (off + rdlength) ≤ sz))
      return (some (fields (data.rdlength.getD 0) (load data.name 0 maxHostNameSz)),
        uint32 (off + rdlength))
  else do
    .emit (.read off rdlength)
    .emit (.assertion (uint32 (off + rdlength) ≤ sz))
    return (some (fields rdlength (load buf off rdlength)), uint32 (off + rdlength))

/--
`rfc1035RRUnpack`: the record, unless it fails, and the offset behind it.  `fresh` is what the
memory of a new buffer holds.
-/
def rrUnpack (dnsCname : Bool) (fresh buf : Memory) (sz off : ℕ) :
    Traced Access (Option Record × ℕ) := do
  let name ← nameUnpack buf sz off none (fun _ => 0) maxHostNameSz 0
  let off := name.off
  if name.failed then
    return (none, off)
  else if sz < uint32 (off + 10) then
    return (none, off)
  else
    .emit (.read off 2)
    .emit (.read (uint32 (off + 2)) 2)
    .emit (.read (uint32 (off + 4)) 4)
    .emit (.read (uint32 (off + 8)) 2)
    let type := word buf off
    let rdlength := word buf (uint32 (off + 8))
    let data := uint32 (off + 10)
    if sz < uint32 (data + rdlength) then
      return (none, data)
    else
      rdataUnpack dnsCname fresh buf sz data rdlength
        (fun length rdata =>
          { name := name.name, type := type, cls := word buf (uint32 (off + 2)),
            ttl := long buf (uint32 (off + 4)), rdlength := length, rdata := rdata })
        type

/-! ## Messages -/

/-- `rfc1035_message`, with the records that were unpacked. -/
structure Message where
  /-- The header fields. -/
  header : Header
  /-- The query. -/
  query : Query
  /-- The answers. -/
  answer : List Record

/-- `rfc1035_unpack_error`. -/
def unpackError : ℤ := 15

/-- The loop of `rfc1035MessageUnpack` over the answers that are left. -/
def answersUnpack (dnsCname : Bool) (fresh buf : Memory) (sz : ℕ) :
    ℕ → ℕ → Traced Access (List Record)
  | 0, _ => return []
  | left + 1, off =>
    if sz ≤ off then
      return []
    else do
      let record ← rrUnpack dnsCname fresh buf sz off
      match record.1 with
      | none => return []
      | some rr => do
        let rest ← answersUnpack dnsCname fresh buf sz left record.2
        return rr :: rest

/-- `rfc1035MessageUnpack`: the number returned and what `*answer`, which held `before`, is then. -/
def messageUnpack (dnsCname : Bool) (fresh buf : Memory) (sz : ℕ) (before : Option Message) :
    Traced Access (ℤ × Option Message) := do
  match (← headerUnpack buf sz) with
  | none => return (-unpackError, before)
  | some (header, off) =>
    if header.qdcount ≠ 1 then
      return (-unpackError, before)
    else
      let query ← queryUnpack buf sz off
      match query.1 with
      | none => return (-unpackError, before)
      | some question =>
        if header.rcode ≠ 0 then
          return (-(header.rcode : ℤ), some ⟨header, question, []⟩)
        else if header.ancount = 0 then
          return (0, some ⟨header, question, []⟩)
        else
          let records ← answersUnpack dnsCname fresh buf sz header.ancount query.2
          if records.length = 0 then
            return (-unpackError, none)
          else
            return ((records.length : ℤ), some ⟨header, question, records⟩)

end Rfc1035
end Squid
