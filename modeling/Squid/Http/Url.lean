import Squid.Library.CaseCompare
import Squid.Library.Decimal
import Squid.Http.HttpReply
import Squid.Ip.Address

/-!
# URLs

`urlParse` and `urlCanonical` of `src/url.cc`, with the parts of `HttpRequest` and `Ip::Address` that
store the host.  The buffers are C strings: the `url` has no zero byte.  `getaddrinfo` and
`inet_ntop` belong to the system.
-/

namespace Squid

open CRuntime

/-- The values of `AnyP::ProtocolType` that `urlParseProtocol` returns. -/
inductive ProtocolType
  | PROTO_NONE
  | PROTO_HTTP
  | PROTO_FTP
  | PROTO_HTTPS
  | PROTO_COAP
  | PROTO_COAPS
  | PROTO_GOPHER
  | PROTO_WAIS
  | PROTO_CACHE_OBJECT
  | PROTO_URN
  | PROTO_WHOIS
  | PROTO_INTERNAL
  deriving DecidableEq

/-- The methods that `urlParse` and `urlCanonical` distinguish. -/
inductive UrlMethod
  | METHOD_CONNECT
  | METHOD_OPTIONS
  | METHOD_TRACE
  | other
  deriving DecidableEq

/-- `uri_whitespace`. -/
inductive UriWhitespace
  | URI_WHITESPACE_STRIP
  | URI_WHITESPACE_ALLOW
  | URI_WHITESPACE_ENCODE
  | URI_WHITESPACE_CHOP
  | URI_WHITESPACE_DENY
  deriving DecidableEq

/-- The configuration of `urlParse`. -/
structure UrlConfig where
  /-- `append_domain`, if it is set. -/
  appendDomain : Option Bytes
  check_hostnames : Bool
  allow_underscore : Bool
  uri_whitespace : UriWhitespace
  /-- `append_domain` must begin with a dot. -/
  dotted : ∀ domain ∈ appendDomain, domain.head? = some 46

/-- The system functions for addresses. -/
structure AddressText where
  /-- `getaddrinfo` for numeric hosts. -/
  getaddrinfo : Bytes → Option Ip.Address
  /-- `inet_ntop` for `AF_INET6`. -/
  inet_ntop : Ip.Address → Bytes

/-- What `urlParse` stores in a request. -/
structure UrlRequest where
  protocol : ProtocolType
  login : Bytes
  host : Bytes
  port : ℕ
  urlpath : Bytes

def MAX_URL : ℕ := 8192

def MAX_LOGIN_SZ : ℕ := 128

def SQUIDHOSTNAMELEN : ℕ := 256

namespace Url

/-! ## Schemes -/

/-- The names that `urlParseProtocol` compares with, in its order. -/
def protocolNames : List (Bytes × ProtocolType) :=
  [(ascii "http", .PROTO_HTTP), (ascii "ftp", .PROTO_FTP), (ascii "https", .PROTO_HTTPS),
    (ascii "file", .PROTO_FTP), (ascii "coap", .PROTO_COAP), (ascii "coaps", .PROTO_COAPS),
    (ascii "gopher", .PROTO_GOPHER), (ascii "wais", .PROTO_WAIS),
    (ascii "cache_object", .PROTO_CACHE_OBJECT), (ascii "urn", .PROTO_URN),
    (ascii "whois", .PROTO_WHOIS), (ascii "internal", .PROTO_INTERNAL)]

/-- `urlParseProtocol`, up to the first colon. -/
def urlParseProtocol (b : Bytes) : ProtocolType :=
  let len := (b.takeWhile (· != 58)).length
  ((protocolNames.find? fun name => strncasecmp len b name.1 = 0).map Prod.snd).getD .PROTO_NONE

def urlDefaultPort : ProtocolType → ℕ
  | .PROTO_HTTP => 80
  | .PROTO_HTTPS => 443
  | .PROTO_FTP => 21
  | .PROTO_COAP | .PROTO_COAPS => 5683
  | .PROTO_GOPHER => 70
  | .PROTO_WAIS => 210
  | .PROTO_CACHE_OBJECT | .PROTO_INTERNAL => 3128
  | .PROTO_WHOIS => 43
  | .PROTO_NONE | .PROTO_URN => 0

/-- `URLScheme::const_str`. -/
def const_str : ProtocolType → Bytes
  | .PROTO_NONE => []
  | .PROTO_HTTP => ascii "http"
  | .PROTO_FTP => ascii "ftp"
  | .PROTO_HTTPS => ascii "https"
  | .PROTO_COAP => ascii "coap"
  | .PROTO_COAPS => ascii "coaps"
  | .PROTO_GOPHER => ascii "gopher"
  | .PROTO_WAIS => ascii "wais"
  | .PROTO_CACHE_OBJECT => ascii "cache_object"
  | .PROTO_URN => ascii "urn"
  | .PROTO_WHOIS => ascii "whois"
  | .PROTO_INTERNAL => ascii "internal"

/-! ## Escaping -/

def rfc1738_unsafe_chars : Bytes := ascii "<>\"#\x7b\x7d|\\^~[]\x60'"

/-- Whether `rfc1738_escape_unescaped` escapes a byte; `char` is signed. -/
def escapes (src : UInt8) : Bool :=
  !(97 ≤ src && src ≤ 122 || 65 ≤ src && src ≤ 90 || 48 ≤ src && src ≤ 57) &&
    (rfc1738_unsafe_chars.contains src || src ≤ 32 || src == 127 || 128 ≤ src)

/-- A digit of `%02X`. -/
def hexDigit (n : UInt8) : UInt8 := if n < 10 then 48 + n else 55 + n

def rfc1738_escape_unescaped (url : Bytes) : Bytes :=
  url.flatMap fun src =>
    if escapes src then [37, hexDigit (src / 16), hexDigit (src % 16)] else [src]

/-! ## The host of a request -/

/-- `inet_ntop` for `AF_INET`. -/
def dottedQuad (a : ℕ) : Bytes :=
  digits (a / 2 ^ 24 % 256) ++ 46 :: (digits (a / 2 ^ 16 % 256) ++
    46 :: (digits (a / 2 ^ 8 % 256) ++ 46 :: digits (a % 256)))

/-- `Ip::Address::NtoA` into a buffer of `blen` bytes, for the family of the address. -/
def NtoA (sys : AddressText) (a : Ip.Address) (blen : ℕ) : Bytes :=
  if a.IsAnyAddr then
    if a.IsIPv4 then ascii "0.0.0.0" else ascii "::"
  else if a.IsIPv4 then
    dottedQuad a.GetInAddr
  else if (sys.inet_ntop a).length < blen then
    sys.inet_ntop a
  else
    []

/-- `Ip::Address::ToHostname`. -/
def ToHostname (sys : AddressText) (a : Ip.Address) (blen : ℕ) : Bytes :=
  if a.IsIPv4 then NtoA sys a (blen - 8) else 91 :: NtoA sys a (blen - 8) ++ [93]

/-- The address that `HttpRequest::SetHost` finds in a host, unless it is unspecified. -/
def hostAddr (sys : AddressText) (src : Bytes) : Option Ip.Address :=
  (sys.getaddrinfo src).filter fun a => !a.IsAnyAddr

/-- `HttpRequest::SetHost`: the `host`. -/
def SetHost (sys : AddressText) (src : Bytes) : Bytes :=
  match hostAddr sys src with
  | some a => ToHostname sys a SQUIDHOSTNAMELEN
  | none => src.take (SQUIDHOSTNAMELEN - 1)

def urlParseFinish (sys : AddressText) (protocol : ProtocolType) (urlpath host login : Bytes)
    (port : ℤ) : UrlRequest :=
  { protocol := protocol, login := login.take (MAX_LOGIN_SZ - 1), host := SetHost sys host
    port := (port % 2 ^ 16).toNat, urlpath := urlpath }

/-! ## Checks -/

def stringHasWhitespace (s : Bytes) : Bool := s.any (ascii " \t\n\r").contains

/-- `valid_hostname_chars_u` or `valid_hostname_chars`. -/
def isHostnameChar (underscore : Bool) (b : UInt8) : Bool :=
  65 ≤ b && b ≤ 90 || 97 ≤ b && b ≤ 122 || 48 ≤ b && b ≤ 57 || (ascii "-.[:]").contains b ||
    underscore && b == 95

/-- `strstr(host, "..")`. -/
def hasDoubleDot : Bytes → Bool
  | a :: b :: s => a == 46 && b == 46 || hasDoubleDot (b :: s)
  | _ => false

/-- The loop that strips white space. -/
def strip (s : Bytes) : Bytes := s.filter fun b => !isSpace b

/-- The host with `append_domain`, where `strncat` leaves room for 255 bytes. -/
def addDomain (config : UrlConfig) (host : Bytes) : Bytes :=
  match config.appendDomain with
  | none => host
  | some domain =>
      if 46 ∈ host ∨ 58 ∈ host then host
      else if host.length < SQUIDHOSTNAMELEN then
        host ++ domain.take (SQUIDHOSTNAMELEN - host.length - 1)
      else
        -- The room is a `size_t` below zero.
        host ++ domain

/-- White space in `urlpath`. -/
def cleanPath (config : UrlConfig) (urlpath : Bytes) : Option Bytes :=
  if stringHasWhitespace urlpath then
    match config.uri_whitespace with
    | .URI_WHITESPACE_DENY => none
    | .URI_WHITESPACE_ALLOW => some urlpath
    | .URI_WHITESPACE_ENCODE => some ((rfc1738_escape_unescaped urlpath).take (MAX_URL - 1))
    | .URI_WHITESPACE_CHOP => some (urlpath.takeWhile fun b => !(ascii " \t\n\r").contains b)
    | .URI_WHITESPACE_STRIP => some (strip urlpath)
  else
    some urlpath

/-- The end of `urlParse`, from the parts of the URL on. -/
def checkParts (config : UrlConfig) (sys : AddressText) (protocol : ProtocolType)
    (host login urlpath : Bytes) (port : ℤ) : Option UrlRequest := do
  let host := host.map toLower
  let host := if stringHasWhitespace host ∧ config.uri_whitespace = .URI_WHITESPACE_STRIP then
    strip host else host
  if config.check_hostnames ∧ !host.all (isHostnameChar config.allow_underscore) then none
  else
    let host := (addDomain config host).rdropWhile (· == 46)
    if hasDoubleDot host ∨ host.head? = some 46 then none
    else if port < 1 ∨ 65535 < port then none
    else
      let urlpath ← cleanPath config urlpath
      return urlParseFinish sys protocol urlpath host login port

/-! ## Splitting -/

/-- A byte that ends the host in a URL. -/
def endsHost (b : UInt8) : Bool := b == 47 || b == 63 || b == 35 || isSpace b

/-- The `urlpath` that starts at a position. -/
def pathFrom (src : Bytes) : Bytes :=
  let implied := match src with
    | [] => [47]
    | b :: _ => if b = 63 ∨ b = 35 then [47] else []
  let urlpath := implied ++ src.takeWhile fun b => b != 13 && b != 10
  if urlpath = [] then [47] else urlpath

/-- The login in front of the last `@` of a host, and the host behind it. -/
def splitLogin (host : Bytes) : Bytes × Bytes :=
  if 64 ∈ host then
    ((host.rdropWhile (· != 64)).dropLast, host.rtakeWhile (· != 64))
  else
    ([], host)

/-- The host without port and brackets, and what is behind the colon in front of a port. -/
def splitPort (host : Bytes) : Bytes × Option Bytes :=
  if host.head? = some 91 then
    let name := host.tail.takeWhile (· != 93)
    let t := (host.drop (name.length + 1)).dropWhile (· != 58)
    (name, if t = [] then none else some t.tail)
  else if host.count 58 = 1 then
    (host.takeWhile (· != 58), some (host.dropWhile (· != 58)).tail)
  else
    (host, none)

/-- Whether the host is missing, when a port in front of which there is no bracket still counts. -/
def hostMissing (host : Bytes) : Prop :=
  if host.head? = some 91 then (splitPort host).1 = [] else host = []

instance (host : Bytes) : Decidable (hostMissing host) :=
  inferInstanceAs (Decidable (if host.head? = some 91 then (splitPort host).1 = [] else host = []))

/-- The branch of `urlParse` for URLs that are none of the others. -/
def parseUrl (config : UrlConfig) (sys : AddressText) (url : Bytes) : Option UrlRequest :=
  let proto := url.takeWhile (· != 58)
  match url.dropWhile (· != 58) with
  | 58 :: 47 :: 47 :: src =>
      let authority := src.takeWhile fun b => !endsHost b
      let urlpath := pathFrom (src.dropWhile fun b => !endsHost b)
      let protocol := urlParseProtocol proto
      let (login, host) := splitLogin authority
      if protocol ≠ .PROTO_NONE ∧ hostMissing host then none
      else
        let (name, t) := splitPort host
        let port := match t with
          | some t => atoi t
          | none => urlDefaultPort protocol
        checkParts config sys protocol name login urlpath port
  | _ => none

/-- `%d` of `sscanf`: the number, if there is one, in place of another one. -/
def scanInt (s : Bytes) (port : ℤ) : ℤ :=
  if isDigit 10 ((skipSign (s.dropWhile isSpace)).2.headD 0) then atoi s else port

/-- The branch of `urlParse` for `CONNECT`: host and port. -/
def connectParse (url : Bytes) : Option (Bytes × ℤ) :=
  let inner := (url.drop 1).takeWhile (· != 93)
  let name := url.takeWhile (· != 58)
  if url.head? = some 91 ∧ inner ≠ [] then
    let behind := url.drop (inner.length + 1)
    some (inner, if behind.take 2 = [93, 58] then scanInt (behind.drop 2) 443 else 443)
  else if name ≠ [] then
    let behind := url.drop name.length
    some (name, if behind.take 1 = [58] then scanInt (behind.drop 1) 443 else 443)
  else
    none

def urnParse (urn : Bytes) : UrlRequest :=
  { protocol := .PROTO_URN, login := [], host := [], port := 0, urlpath := urn.drop 4 }

/-- `urlParse`, of a new request. -/
def urlParse (config : UrlConfig) (sys : AddressText) (method : UrlMethod) (url : Bytes) :
    Option UrlRequest :=
  if MAX_URL - 1 < url.length + (config.appendDomain.getD []).length then
    none
  else if method = .METHOD_CONNECT then do
    let (host, port) ← connectParse url
    checkParts config sys .PROTO_NONE host [] [] port
  else if (method = .METHOD_OPTIONS ∨ method = .METHOD_TRACE) ∧ url = [42] then
    some (urlParseFinish sys .PROTO_HTTP url [] [] (urlDefaultPort .PROTO_HTTP))
  else if url.take 4 = ascii "urn:" then
    some (urnParse url)
  else
    parseUrl config sys url

/-! ## Printing -/

/-- `urlCanonical`, for a request without a canonical URL. -/
def urlCanonical (method : UrlMethod) (request : UrlRequest) : Bytes :=
  let text :=
    if request.protocol = .PROTO_URN then
      ascii "urn:" ++ request.urlpath
    else if method = .METHOD_CONNECT then
      request.host ++ 58 :: digits request.port
    else
      const_str request.protocol ++ ascii "://" ++ request.login ++
        (if request.login ≠ [] then [64] else []) ++ request.host ++
        (if request.port ≠ urlDefaultPort request.protocol then 58 :: digits request.port else []) ++
        request.urlpath
  text.take (MAX_URL - 1)

end Url
end Squid
