import Squid.Http.HdrType
import Squid.Http.HttpHdrRange
import Mathlib.Data.List.DropRight
import Mathlib.Data.List.ReduceOption

/-!
# HTTP header fields

`HttpHeader` and `HttpHeaderEntry`.  A deleted entry leaves a gap among the entries.  A failed
assertion stops the program: such an operation has no next state.
-/

namespace Squid

open CRuntime

/-- Why the program stops. -/
inductive Abort
  /-- The caller breaks what a function asserts about its arguments. -/
  | contract
  /-- `findEntry`, `findLastEntry` or `delById` does not find what the mask promises. -/
  | missing
  /-- `delAt` makes `len` negative. -/
  | negativeLen
  /-- A `String` would have 64 KB or more. -/
  | stringSize
  deriving DecidableEq

/-- The longest text of a `String`. -/
def stringLimit : ℕ := 65534

/-! ## Entries -/

structure HttpHeaderEntry where
  /-- The field. -/
  id : HdrType
  /-- Its name. -/
  name : Bytes
  /-- Its value. -/
  value : Bytes
  /-- Known fields are named by the table. -/
  named : id ≠ .other → name = id.name

namespace HttpHeaderEntry

/-- `HttpHeaderEntry::HttpHeaderEntry`. -/
def create (id : HdrType) (aName aValue : Bytes) : Except Abort HttpHeaderEntry :=
  if stringLimit < (cstr aName).length ∨ stringLimit < (cstr aValue).length then
    .error .stringSize
  else
    .ok { id := id
          name := if id = .other then cstr aName else id.name
          value := cstr aValue
          named := fun known => if_neg known }

/-- What `addEntry` and `delAt` count: the name, the value, `": "` and the line end. -/
def size (e : HttpHeaderEntry) : ℕ := e.name.length + 2 + e.value.length + 2

/-- `HttpHeaderEntry::packInto`. -/
def packInto (e : HttpHeaderEntry) : Bytes := e.name ++ [58, 32] ++ e.value ++ [13, 10]

/-- `HttpHeaderEntry::parse`, for the bytes of a field. -/
def parse (relaxed : Bool) (field : Bytes) : Option HttpHeaderEntry :=
  let found := field.takeWhile (· != 58)
  let name := if relaxed then found.rdropWhile isSpace else found
  let id := (HdrType.idByName name).getD .other
  let value := ((field.drop (found.length + 1)).dropWhile isSpace).rdropWhile isSpace
  if 58 ∉ field ∨ found = [] ∨ stringLimit < found.length ∨ name = [] ∨
      stringLimit < value.length then
    none
  else
    some { id := id
           name := if id = .other then name else id.name
           value := value
           named := fun known => if_neg known }

end HttpHeaderEntry

/-! ## Headers -/

/-- `http_hdr_owner_type`. -/
inductive Owner
  | none | htcpReply | request | reply | errorDetail
  deriving DecidableEq

structure HttpHeader where
  /-- The entries, and the gaps that deleted ones leave. -/
  entries : List (Option HttpHeaderEntry)
  /-- Bit set where an entry is present. -/
  mask : HdrType → Bool
  /-- Kind of message. -/
  owner : Owner
  /-- Length when packed, an `int`. -/
  len : ℤ

namespace HttpHeader

/-- `HttpHeader::HttpHeader`. -/
def empty (owner : Owner) : HttpHeader := ⟨[], fun _ => false, owner, 0⟩

/-- The entries that iterating with `getEntry` returns. -/
def live (h : HttpHeader) : List HttpHeaderEntry := h.entries.reduceOption

/-- `CBIT_SET`. -/
def setBit (mask : HdrType → Bool) (id : HdrType) : HdrType → Bool :=
  fun bit => if bit = id then true else mask bit

/-- `CBIT_CLR`. -/
def clearBit (mask : HdrType → Bool) (id : HdrType) : HdrType → Bool :=
  fun bit => if bit = id then false else mask bit

/-- `HttpHeader::packInto`, without masking of sensitive fields. -/
def packInto (h : HttpHeader) : Bytes := h.live.flatMap HttpHeaderEntry.packInto

/-- `HttpHeader::clean`. -/
def clean (h : HttpHeader) : Except Abort HttpHeader :=
  if h.owner = .none then .error .contract else .ok (empty h.owner)

/-- `HttpHeader::addEntry`. -/
def addEntry (h : HttpHeader) (e : HttpHeaderEntry) : Except Abort HttpHeader :=
  if e.name = [] then
    .error .contract
  else
    .ok { h with
      entries := h.entries ++ [some e]
      mask := setBit h.mask e.id
      len := int32 (h.len + e.size) }

/-- `HttpHeader::insertEntry`. -/
def insertEntry (h : HttpHeader) (e : HttpHeaderEntry) : HttpHeader :=
  { h with
    entries := some e :: h.entries
    mask := setBit h.mask e.id
    len := int32 (h.len + e.size) }

/-- `HttpHeader::refreshMask`. -/
def refreshMask (h : HttpHeader) : HttpHeader :=
  { h with mask := h.live.foldl (fun mask e => setBit mask e.id) fun _ => false }

/-! ## Lookups -/

/-- `HttpHeader::has`. -/
def has (h : HttpHeader) (id : HdrType) : Except Abort Bool :=
  if id = .other then .error .contract else .ok (h.mask id)

/-- `HttpHeader::findEntry`. -/
def findEntry (h : HttpHeader) (id : HdrType) : Except Abort (Option HttpHeaderEntry) :=
  if id ∈ HdrType.listHeaders then
    .error .contract
  else if !h.mask id then
    .ok none
  else
    match h.live.find? (·.id = id) with
    | some e => .ok (some e)
    | none => .error .missing

/-- `HttpHeader::findLastEntry`. -/
def findLastEntry (h : HttpHeader) (id : HdrType) : Except Abort (Option HttpHeaderEntry) :=
  if id ∈ HdrType.listHeaders then
    .error .contract
  else if !h.mask id then
    .ok none
  else
    match (h.live.filter (·.id = id)).getLast? with
    | some e => .ok (some e)
    | none => .error .missing

def strListAdd (str item : Bytes) (del : UInt8) : Except Abort Bytes :=
  let joined := if str = [] then item else str ++ [del, 32] ++ item
  if stringLimit < joined.length then .error .stringSize else .ok joined

/-- `HttpHeader::getList`. -/
def getList (h : HttpHeader) (id : HdrType) : Except Abort Bytes :=
  if id ∉ HdrType.listHeaders then
    .error .contract
  else if !h.mask id then
    .ok []
  else
    (h.live.filter (·.id = id)).foldlM (fun s e => strListAdd s e.value 44) []

/-- `HttpHeader::getStrOrList`. -/
def getStrOrList (h : HttpHeader) (id : HdrType) : Except Abort Bytes :=
  if id ∈ HdrType.listHeaders then
    h.getList id
  else do
    match (← h.findEntry id) with
    | some e => return e.value
    | none => return []

def strListIsMember (list m : Bytes) (del : UInt8) : Bool :=
  (strListItems del (list.length + 1) list).any fun item =>
    (item.1.take item.2).map toLower == m.map toLower

/-- `HttpHeader::hasListMember`. -/
def hasListMember (h : HttpHeader) (id : HdrType) (member : Bytes) (separator : UInt8) :
    Except Abort Bool := do
  let header ← h.getStrOrList id
  return (strListItems separator (header.length + 1) header).any fun item =>
    (item.1.take member.length).map toLower == member.map toLower &&
      [61, separator, 59, 0].contains (item.1.getD member.length 0)

/-- `HttpHeader::chunked`. -/
def chunked (h : HttpHeader) : Except Abort Bool := do
  if (← h.has .transferEncoding) then h.hasListMember .transferEncoding (ascii "chunked") 44
  else return false

/-! ## Deleting -/

/-- `HttpHeader::delAt`. -/
def delAt (h : HttpHeader) (pos : ℕ) : Except Abort HttpHeader :=
  match h.entries[pos]? with
  | some (some e) =>
      if int32 (h.len - e.size) < 0 then .error .negativeLen
      else .ok { h with entries := h.entries.set pos none, len := int32 (h.len - e.size) }
  | _ => .error .contract

/--
A loop that deletes some of the entries, from a position on.  The bits of the mask are changed
for every entry that is met, `gone` for a deleted one and `kept` for the others.
-/
def delLoop (del : HttpHeaderEntry → Bool)
    (gone kept : (HdrType → Bool) → HdrType → HdrType → Bool) :
    List (Option HttpHeaderEntry) → ℕ → HttpHeader → ℕ → Except Abort (HttpHeader × ℕ)
  | [], _, h, count => .ok (h, count)
  | none :: rest, pos, h, count => delLoop del gone kept rest (pos + 1) h count
  | some e :: rest, pos, h, count =>
      if del e then do
        let h ← h.delAt pos
        delLoop del gone kept rest (pos + 1) { h with mask := gone h.mask e.id } (count + 1)
      else
        delLoop del gone kept rest (pos + 1) { h with mask := kept h.mask e.id } count

/-- The mask is not changed. -/
def sameBits (mask : HdrType → Bool) (_ : HdrType) : HdrType → Bool := mask

/-- `HttpHeader::delById`. -/
def delById (h : HttpHeader) (id : HdrType) : Except Abort (HttpHeader × ℕ) :=
  if id = .other then
    .error .contract
  else if !h.mask id then
    .ok (h, 0)
  else do
    let (h, count) ← delLoop (·.id = id) sameBits sameBits h.entries 0 h 0
    if count = 0 then .error .missing else .ok ({ h with mask := clearBit h.mask id }, count)

/-- `HttpHeader::delByName`. -/
def delByName (h : HttpHeader) (name : Bytes) : Except Abort (HttpHeader × ℕ) :=
  delLoop (fun e => e.name.map toLower = name.map toLower) sameBits setBit h.entries 0
    { h with mask := fun _ => false } 0

/-- `HttpHeader::removeConnectionHeaderEntries`. -/
def removeConnectionHeaderEntries (h : HttpHeader) : Except Abort HttpHeader := do
  if (← h.has .connection) then
    let strConnection ← h.getList .connection
    let (h, deleted) ← delLoop (fun e => strListIsMember strConnection e.name 44) sameBits sameBits
      h.entries 0 h 0
    return if deleted = 0 then h else h.refreshMask
  else
    return h

/-- `HttpHeader::removeHopByHopEntries`. -/
def removeHopByHopEntries (h : HttpHeader) : Except Abort HttpHeader := do
  let h ← h.removeConnectionHeaderEntries
  let (h, _) ← delLoop (fun e => HdrType.hopByHopHeaders.contains e.id) clearBit sameBits
    h.entries 0 h 0
  return h

/-- What the anonymizer tables say about an entry. -/
inductive Mangling
  /-- The entry stays as it is. -/
  | allow
  /-- The entry is removed. -/
  | deny
  /-- The entry gets another value. -/
  | replace (replacement : Bytes)

/-- The loop of `httpHdrMangleList`; the decisions depend on the position and the entry. -/
def mangleLoop (mangle : ℕ → HttpHeaderEntry → Mangling) :
    List (Option HttpHeaderEntry) → ℕ → HttpHeader → ℕ → Except Abort (HttpHeader × ℕ)
  | [], _, h, count => .ok (h, count)
  | none :: rest, pos, h, count => mangleLoop mangle rest (pos + 1) h count
  | some e :: rest, pos, h, count =>
      match mangle pos e with
      | .allow => mangleLoop mangle rest (pos + 1) h count
      | .deny => do mangleLoop mangle rest (pos + 1) (← h.delAt pos) (count + 1)
      | .replace replacement =>
          if stringLimit < (cstr replacement).length then
            .error .stringSize
          else
            mangleLoop mangle rest (pos + 1)
              { h with entries := h.entries.set pos (some { e with value := cstr replacement }) }
              count

/-- `httpHdrMangleList`. -/
def mangleList (h : HttpHeader) (mangle : ℕ → HttpHeaderEntry → Mangling) :
    Except Abort HttpHeader := do
  let (h, deleted) ← mangleLoop mangle h.entries 0 h 0
  return if deleted = 0 then h else h.refreshMask

/-! ## Putting fields -/

/-- The body of the functions that put a field of a type. -/
def putField (type : FieldType) (h : HttpHeader) (id : HdrType) (text : Bytes) :
    Except Abort HttpHeader :=
  if id.type ≠ type then .error .contract
  else do h.addEntry (← HttpHeaderEntry.create id [] text)

/-- `HttpHeader::putInt`. -/
def putInt (h : HttpHeader) (id : HdrType) (number : ℤ) : Except Abort HttpHeader :=
  if number < 0 then .error .contract else putField .int h id (ascii (toString number))

/-- `HttpHeader::putInt64`. -/
def putInt64 (h : HttpHeader) (id : HdrType) (number : ℤ) : Except Abort HttpHeader :=
  if number < 0 then .error .contract else putField .int64 h id (ascii (toString number))

/-- `HttpHeader::putTime`; `text` is the date that `mkrfc1123` writes. -/
def putTime (h : HttpHeader) (id : HdrType) (htime : ℤ) (text : Bytes) : Except Abort HttpHeader :=
  if htime < 0 then .error .contract else putField .date1123 h id text

/-- `HttpHeader::insertTime`; `text` is the date that `mkrfc1123` writes. -/
def insertTime (h : HttpHeader) (id : HdrType) (htime : ℤ) (text : Bytes) :
    Except Abort HttpHeader :=
  if htime < 0 ∨ id.type ≠ .date1123 then .error .contract
  else do return h.insertEntry (← HttpHeaderEntry.create id [] text)

/-- `HttpHeader::putStr`. -/
def putStr (h : HttpHeader) (id : HdrType) (str : Bytes) : Except Abort HttpHeader :=
  putField .str h id str

/-- `HttpHeader::putAuth`. -/
def putAuth (h : HttpHeader) (authScheme realm : Bytes) : Except Abort HttpHeader :=
  h.putStr .wwwAuthenticate (cstr authScheme ++ ascii " realm=\"" ++ cstr realm ++ ascii "\"")

/-- `HttpHeader::putWarning`. -/
def putWarning (h : HttpHeader) (visibleAppname : Bytes) (code : ℤ) (text : Bytes) :
    Except Abort HttpHeader :=
  h.putStr .warning ((ascii (toString code) ++ ascii " " ++ cstr visibleAppname ++ ascii " \"" ++
    cstr text ++ ascii "\"").take 511)

/-- `HttpHeader::putExt`. -/
def putExt (h : HttpHeader) (name value : Bytes) : Except Abort HttpHeader := do
  h.addEntry (← HttpHeaderEntry.create .other name value)

/-- The body of the functions that replace a field by what an object packs. -/
def putPacked (id : HdrType) (h : HttpHeader) (packed : Bytes) : Except Abort HttpHeader := do
  let (h, _) ← h.delById id
  h.addEntry (← HttpHeaderEntry.create id [] packed)

/-- `HttpHeader::putCc`; `packed` is what `HttpHdrCc::packInto` writes. -/
def putCc (h : HttpHeader) (packed : Bytes) : Except Abort HttpHeader :=
  putPacked .cacheControl h packed

/-- `HttpHeader::putContRange`; `packed` is what `httpHdrContRangePackInto` writes. -/
def putContRange (h : HttpHeader) (packed : Bytes) : Except Abort HttpHeader :=
  putPacked .contentRange h packed

/-- `HttpHeader::putRange`; `packed` is what `HttpHdrRange::packInto` writes. -/
def putRange (h : HttpHeader) (packed : Bytes) : Except Abort HttpHeader :=
  putPacked .range h packed

/-- `HttpHeader::putSc`; `packed` is what `HttpHdrSc::packInto` writes. -/
def putSc (h : HttpHeader) (packed : Bytes) : Except Abort HttpHeader :=
  putPacked .surrogateControl h packed

/-! ## Copying -/

/-- The second loop of `update`, and that of `append`: copies of the entries are added. -/
def addAll (h : HttpHeader) (entries : List HttpHeaderEntry) : Except Abort HttpHeader :=
  entries.foldlM addEntry h

/-- `HttpHeader::append`. -/
def append (h src : HttpHeader) : Except Abort HttpHeader := h.addAll src.live

/-- One turn of the first loop of `update`. -/
def delLike (h : HttpHeader) (e : HttpHeaderEntry) : Except Abort HttpHeader := do
  if e.id ≠ .other then return (← h.delById e.id).1
  else return (← h.delByName e.name).1

/-- `HttpHeader::update`. -/
def update (h fresh : HttpHeader) (denied : HdrType → Bool) : Except Abort HttpHeader := do
  let entries := fresh.live.filter fun e => !denied e.id
  let h ← entries.foldlM delLike h
  h.addAll entries

/-- The copy constructor. -/
def copy (source : HttpHeader) : Except Abort HttpHeader :=
  update { empty source.owner with len := source.len } source fun _ => false

/-- `HttpHeader::operator =`, for two different objects. -/
def assign (h source : HttpHeader) : Except Abort HttpHeader :=
  if h.owner ≠ source.owner then
    .error .contract
  else do
    let h ← (← h.clean).update source fun _ => false
    return { h with len := source.len }

/-! ## Parsing -/

/-- The bytes before the first line end, if there is one, and the bytes behind it. -/
def splitLines : Bytes → List Bytes × Bytes
  | [] => ([], [])
  | b :: rest =>
      let (lines, tail) := splitLines rest
      if b = 10 then ([] :: lines, tail)
      else
        match lines with
        | [] => ([], b :: tail)
        | line :: lines => ((b :: line) :: lines, tail)

/--
The checks of `HttpHeader::parse` on a line: the line without its line end and with blanks for
stray carriage returns, and the carriage return before the line feed.
-/
def scanLine (relaxed : Bool) (owner : Owner) (first : Bool) (line : Bytes) :
    Option (Bytes × Bytes) :=
  let (body, cr) := if line.getLast? = some 13 then (line.dropLast, [13]) else (line, [])
  if cr ≠ [] ∧ owner = .request ∧ body ≠ [] ∧ body.all (· == 13) then
    none
  else if 13 ∈ body ∧ !relaxed then
    none
  else if body.length = 1 ∧ !first then
    none
  else
    some (body.map fun b => if b = 13 then 32 else b, cr)

/-- Whether the next line continues a field. -/
def continues : List Bytes → Bytes → Bool
  | [], tail => tail.head? == some 32 || tail.head? == some 9
  | line :: _, _ => line.head? == some 32 || line.head? == some 9

/-- Whether a later `Content-Length` takes the place of an earlier one with another value. -/
def overrides (e e2 : HttpHeaderEntry) : Bool :=
  match httpHeaderParseOffset e.value, httpHeaderParseOffset e2.value with
  | none, _ => false
  | some _, none => true
  | some l1, some l2 => l2 < l1

/-- The entry that another `Content-Length` is compared with. -/
def earlierLength (h : HttpHeader) (e : HttpHeaderEntry) : Except Abort (Option HttpHeaderEntry) :=
  if e.id = .contentLength then h.findEntry e.id else .ok none

/-- The end of the loop of `HttpHeader::parse`, for an entry; `none` resets the header. -/
def addParsed (relaxed : Bool) (h : HttpHeader) (e : HttpHeaderEntry) :
    Except Abort (Option HttpHeader) := do
  match (← h.earlierLength e) with
  | some e2 =>
      if !relaxed then
        return none
      else if e.value ≠ e2.value ∧ overrides e e2 then
        return some (← (← h.delById e2.id).1.addEntry e)
      else
        return some h
  | none =>
      if e.id = .other ∧ e.name.any (ascii " \t\n\r").contains ∧ !relaxed then
        return none
      else
        return some (← h.addEntry e)

/--
The loops of `HttpHeader::parse`, one turn for each line.  `field` is the text from the start of
the field on, where the line continues one; `none` resets the header.
-/
def parseLines (relaxed : Bool) (tail : Bytes) :
    List Bytes → Option Bytes → HttpHeader → Except Abort (Option HttpHeader)
  | [], none, h => return if tail = [] then some h else none
  | [], some _, _ => return none
  | line :: lines, field, h =>
      match scanLine relaxed h.owner field.isNone line with
      | none => return none
      | some (body, cr) =>
          let text := field.getD [] ++ body
          if continues lines tail then
            parseLines relaxed tail lines (some (text ++ cr ++ [10])) h
          else if text = [] then
            return if lines = [] ∧ tail = [] then some h else none
          else
            match HttpHeaderEntry.parse relaxed text with
            | none => if relaxed then parseLines relaxed tail lines none h else return none
            | some e => do
                match (← addParsed relaxed h e) with
                | none => return none
                | some h => parseLines relaxed tail lines none h

/-- `HttpHeader::parse` up to the end of its loop; `none` resets the header. -/
def parseBlock (relaxed : Bool) (h : HttpHeader) (block : Bytes) :
    Except Abort (Option HttpHeader) :=
  if 0 ∈ block then .ok none
  else parseLines relaxed (splitLines block).2 (splitLines block).1 none h

/-- `HttpHeader::parse`: the header and whether it is accepted. -/
def parse (relaxed : Bool) (h : HttpHeader) (block : Bytes) :
    Except Abort (HttpHeader × Bool) := do
  match (← h.parseBlock relaxed block) with
  | none => return (← h.clean, false)
  | some h =>
      if (← h.chunked) then return ((← h.delById .contentLength).1, true)
      else return (h, true)

end HttpHeader
end Squid
