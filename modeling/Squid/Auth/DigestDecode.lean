import Squid.Http.StrList
import Squid.Http.HdrType
import Squid.Library.Traced

/-!
# Decoding a Digest header

The directives of an `Authorization: Digest` header, as in `Auth::Digest::Config::decode` of
`src/auth/digest/auth_digest.cc` and `httpHeaderParseQuotedString` of `src/HttpHeaderTools.cc`.  What
is copied is logged with its length.  Of behaviour that is undefined nothing is modelled but that it
is reached.
-/

namespace Squid
namespace Digest

open CRuntime

/-- A copy, a slice, or a loop that has not ended. -/
inductive Access where
  /-- The length that is passed to a copy. -/
  | copy (len : ℤ)
  /-- The length of a `StringArea`, before it is taken as a `size_t`. -/
  | slice (len : ℤ)
  /-- How many bytes are written to `nc[9]`. -/
  | nc (size : ℕ)
  | endless
  deriving DecidableEq

/-- Lengths are not negative, `nc` is not overrun, and loops end. -/
def Access.InBounds : Access → Prop
  | .copy len => 0 ≤ len
  | .slice len => 0 ≤ len
  | .nc size => size ≤ 9
  | .endless => False

instance : DecidablePred Access.InBounds
  | .copy _ => inferInstanceAs (Decidable (_ ≤ _))
  | .slice _ => inferInstanceAs (Decidable (_ ≤ _))
  | .nc _ => inferInstanceAs (Decidable (_ ≤ _))
  | .endless => inferInstanceAs (Decidable False)

/-- What has become of the value of a directive. -/
inductive DirectiveValue where
  /-- A `String`, which may be undefined. -/
  | parsed (value : Option Bytes)
  | failed
  /-- The behaviour is undefined. -/
  | undefined

/-! ## Quoted strings -/

/-- `String::limitInit`. -/
def limitInit (str : Bytes) (len : ℤ) : Traced Access DirectiveValue := do
  Traced.emit (.copy len)
  return if len < 0 then .undefined else .parsed (some (str.take len.toNat))

/-- A byte that is copied without looking closer. -/
def isPlain (b : UInt8) : Bool := b ≠ 92 && b ≠ 34 && 31 < b && b ≠ 127

/-- A byte that a quoted string must not hold. -/
def isControl (b : UInt8) : Bool := (b ≤ 31 && b ≠ 13 && b ≠ 10) || b = 127

/-- How many bytes from `pos` on are copied. -/
def plainSpan (start : Bytes) (len pos : ℕ) : ℕ :=
  (((start.drop pos).take (len - pos)).takeWhile isPlain).length

/-- The copying part of an iteration: what is appended, and the next position. -/
def quotedCopy (start : Bytes) (len pos : ℕ) : Traced Access (Option (Bytes × ℕ)) := do
  let span := plainSpan start len pos
  if isControl (start.getD (pos + span) 0) then
    return none
  Traced.emit (.copy span)
  return some ((start.drop pos).take span, pos + span)

/-- A line that is folded at `pos`, where `'\n'` stands. -/
def quotedFold (start : Bytes) (len pos : ℕ) : Traced Access (Option (Bytes × ℕ)) := do
  let blank := start.getD (pos + 1) 0
  if len < pos + 1 ∨ (blank ≠ 32 ∧ blank ≠ 9) then
    return none
  Traced.emit (.copy 1)
  return some ([32], pos + 2)

/-- An iteration of `httpHeaderParseQuotedString`. -/
def quotedStep (start : Bytes) (len pos : ℕ) : Traced Access (Option (Bytes × ℕ)) :=
  let b := start.getD pos 0
  if b = 13 then
    if len < pos + 1 ∨ start.getD (pos + 1) 0 ≠ 10 then return none
    else quotedFold start len (pos + 1)
  else if b = 10 then quotedFold start len pos
  else if b = 92 then
    if start.getD (pos + 1) 0 = 0 ∨ len < pos + 1 then return none
    else quotedCopy start len (pos + 1)
  else quotedCopy start len pos

/-- The loop of `httpHeaderParseQuotedString`. -/
def quotedLoop (start : Bytes) (len : ℕ) : ℕ → ℕ → Bytes → Traced Access (Option (Bytes × ℕ))
  | fuel, pos, val =>
      if start.getD pos 0 ≠ 34 ∧ pos < len then
        match fuel with
        | 0 => do
            Traced.emit .endless
            return none
        | fuel + 1 => do
            match ← quotedStep start len pos with
            | none => return none
            | some (more, pos) => quotedLoop start len fuel pos (val ++ more)
      else return some (val, pos)

def httpHeaderParseQuotedString (start : Bytes) (len : ℕ) : Traced Access DirectiveValue := do
  if start.headD 0 ≠ 34 then
    return .failed
  match ← quotedLoop start len len 1 [] with
  | none => return .failed
  | some (val, pos) => return if start.getD pos 0 ≠ 34 then .failed else .parsed (some val)

/-! ## Directives -/

/-- `http_digest_attr_type`. -/
inductive DigestAttr where
  | username | realm | qop | algorithm | uri | nonce | nc | cnonce | response

/-- `DigestAttrs`. -/
def DigestAttr.name : DigestAttr → Bytes
  | username => ascii "username"
  | realm => ascii "realm"
  | qop => ascii "qop"
  | algorithm => ascii "algorithm"
  | uri => ascii "uri"
  | nonce => ascii "nonce"
  | nc => ascii "nc"
  | cnonce => ascii "cnonce"
  | response => ascii "response"

/-- `httpHeaderIdByName` in `DigestFieldsInfo`. -/
def DigestAttr.idByName (name : Bytes) : Option DigestAttr :=
  [username, realm, qop, algorithm, uri, nonce, nc, cnonce, response].find? fun attr =>
    name.map toLower == attr.name.map toLower

/-- What the directives leave in the `UserRequest`, and the user name. -/
structure Fields where
  username : Option Bytes := none
  realm : Option Bytes := none
  qop : Option Bytes := none
  algorithm : Option Bytes := none
  uri : Option Bytes := none
  nonceb64 : Option Bytes := none
  nc : Bytes := []
  cnonce : Option Bytes := none
  response : Option Bytes := none

/-- The length of the name of a directive: up to `'='`, or all of it. -/
def nlen (item : Bytes) (ilen : ℕ) : ℕ := ((item.take ilen).takeWhile (· ≠ 61)).length

/-- The length of its value. -/
def vlen (item : Bytes) (ilen : ℕ) : ℕ := ilen - (nlen item ilen + 1)

/-- `keyName == StringArea(key)`, where `keyName` is one byte shorter than the name. -/
def keyIs (item : Bytes) (ilen : ℕ) (key : Bytes) : Bool :=
  (nlen item ilen : ℤ) - 1 = key.length ∧ item.take key.length = key

/-- The value of a directive, which is not empty. -/
def directiveValue (item : Bytes) (ilen : ℕ) : Traced Access DirectiveValue :=
  let p := item.drop (nlen item ilen + 1)
  let vlen := vlen item ilen
  let wrapped := p.headD 0 = 34 ∧ p.getD (vlen - 1) 0 = 34
  if keyIs item ilen (ascii "domain") ∨ keyIs item ilen (ascii "uri") then
    if wrapped then limitInit p.tail (vlen - 2) else return .parsed none
  else if keyIs item ilen (ascii "qop") then
    if wrapped then limitInit p.tail (vlen - 2) else limitInit p vlen
  else if p.headD 0 = 34 then httpHeaderParseQuotedString p vlen
  else limitInit p vlen

/-- `xstrndup(value.rawBuf(), value.size() + 1)`, which exits if there is no value. -/
def xstrndup (value : Option Bytes) : Traced Access (Option Bytes) :=
  match value with
  | none => return none
  | some value => do
      Traced.emit (.copy (value.length + 1))
      return some value

/-- `xstrncpy(digest_request->nc, value.rawBuf(), value.size() + 1)`. -/
def copyNc (value : Option Bytes) : Traced Access (Option Bytes) := do
  let nc := value.getD []
  Traced.emit (.nc (nc.length + 1))
  return if nc.length + 1 ≤ 9 then some nc else none

/-- Store the value of a directive; `none` if it cannot be stored. -/
def storeValue (fields : Fields) (attr : Option DigestAttr) (value : Option Bytes) :
    Traced Access (Option Fields) :=
  match attr with
  | none => return some fields
  | some .username => do return (← xstrndup value).map fun v => { fields with username := some v }
  | some .realm => do return (← xstrndup value).map fun v => { fields with realm := some v }
  | some .qop => do return (← xstrndup value).map fun v => { fields with qop := some v }
  | some .algorithm => do return (← xstrndup value).map fun v => { fields with algorithm := some v }
  | some .uri => do return (← xstrndup value).map fun v => { fields with uri := some v }
  | some .nonce => do return (← xstrndup value).map fun v => { fields with nonceb64 := some v }
  -- a length other than 8 is reported, and the value is copied all the same
  | some .nc => do return (← copyNc value).map fun nc => { fields with nc }
  | some .cnonce => do return (← xstrndup value).map fun v => { fields with cnonce := some v }
  | some .response => do return (← xstrndup value).map fun v => { fields with response := some v }

/-- The attribute that a directive names. -/
def attrOf (item : Bytes) (ilen : ℕ) : Option DigestAttr :=
  DigestAttr.idByName (item.take (nlen item ilen))

/-- One directive; `none` if the decoder does not go on. -/
def decodeDirective (fields : Fields) (item : Bytes) (ilen : ℕ) :
    Traced Access (Option Fields) := do
  Traced.emit (.slice (nlen item ilen - 1))
  if 0 < vlen item ilen then
    match ← directiveValue item ilen with
    | .parsed value => storeValue fields (attrOf item ilen) value
    | .failed => return some fields
    | .undefined => return none
  else return some fields

/-- The loop over the directives. -/
def decodeDirectives : ℕ → Bytes → Fields → Traced Access (Option Fields)
  | fuel, pos, fields =>
      match strListGetItem 44 pos with
      | none => return some fields
      | some (item, ilen, after) =>
          match fuel with
          | 0 => do
              Traced.emit .endless
              return none
          | fuel + 1 => do
              match ← decodeDirective fields item ilen with
              | none => return none
              | some fields => decodeDirectives fuel after fields

/-- `xisgraph`. -/
def isGraph (b : UInt8) : Bool := 33 ≤ b && b ≤ 126

/-- `temp`: the header without the name of the scheme. -/
def directives (proxy_auth : Bytes) : Bytes :=
  ((cstr proxy_auth).dropWhile isGraph).dropWhile isSpace

/-- The part of `decode` that reads the header; `none` if it does not go on.  A `String` of 64 KB
fails an assertion. -/
def decodeFields (proxy_auth : Bytes) : Traced Access (Option Fields) := do
  let temp := directives proxy_auth
  if temp.length + 1 < 65536 then
    Traced.emit (.copy temp.length)
    decodeDirectives temp.length temp {}
  else return none

end Digest
end Squid
