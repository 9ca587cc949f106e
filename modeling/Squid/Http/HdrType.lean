import Squid.Library.CRuntime

/-!
# Known header fields

The enumeration `http_hdr_type`, the table `HeadersAttrs` and the arrays of ids of
`HttpHeader.cc`, for a build with `X_ACCELERATOR_VARY` and `USE_ADAPTATION`.
-/

namespace Squid

open CRuntime

/-- `http_hdr_type`, from `HDR_ACCEPT` to `HDR_OTHER`. -/
inductive HdrType
  | accept | acceptCharset | acceptEncoding | acceptLanguage | acceptRanges | age | allow
  | authorization | cacheControl | connection | contentBase | contentDisposition
  | contentEncoding | contentLanguage | contentLength | contentLocation | contentMd5
  | contentRange | contentType | cookie | cookie2 | date | etag | expect | expires | fromField
  | host | ifMatch | ifModifiedSince | ifNoneMatch | ifRange | keepAlive | lastModified | link
  | location | maxForwards | mimeVersion | negotiate | origin | pragma | proxyAuthenticate
  | proxyAuthenticationInfo | proxyAuthorization | proxyConnection | proxySupport | publicField
  | range | referer | requestRange | retryAfter | server | setCookie | setCookie2 | te | title
  | trailer | transferEncoding | translate | unlessModifiedSince | upgrade | userAgent | vary
  | via | warning | wwwAuthenticate | authenticationInfo | xCache | xCacheLookup | xForwardedFor
  | xRequestUri | xSquidError | xAcceleratorVary | xNextServices | surrogateCapability
  | surrogateControl | frontEndHttps | other
  deriving DecidableEq

/-- `field_type`, without its invalid value. -/
inductive FieldType
  | int | int64 | str | date1123 | etag | pcc | pContRange | pRange | psc | date1123OrEtag
  deriving DecidableEq

/-- The bytes of an ASCII text. -/
def ascii (text : String) : Bytes := text.toList.map fun c => UInt8.ofNat c.toNat

namespace HdrType

/-- `HeadersAttrs`: name and type of a field. -/
def attrs : HdrType → String × FieldType
  | .accept => ("Accept", .str)
  | .acceptCharset => ("Accept-Charset", .str)
  | .acceptEncoding => ("Accept-Encoding", .str)
  | .acceptLanguage => ("Accept-Language", .str)
  | .acceptRanges => ("Accept-Ranges", .str)
  | .age => ("Age", .int)
  | .allow => ("Allow", .str)
  | .authorization => ("Authorization", .str)
  | .cacheControl => ("Cache-Control", .pcc)
  | .connection => ("Connection", .str)
  | .contentBase => ("Content-Base", .str)
  | .contentDisposition => ("Content-Disposition", .str)
  | .contentEncoding => ("Content-Encoding", .str)
  | .contentLanguage => ("Content-Language", .str)
  | .contentLength => ("Content-Length", .int64)
  | .contentLocation => ("Content-Location", .str)
  | .contentMd5 => ("Content-MD5", .str)
  | .contentRange => ("Content-Range", .pContRange)
  | .contentType => ("Content-Type", .str)
  | .cookie => ("Cookie", .str)
  | .cookie2 => ("Cookie2", .str)
  | .date => ("Date", .date1123)
  | .etag => ("ETag", .etag)
  | .expect => ("Expect", .str)
  | .expires => ("Expires", .date1123)
  | .fromField => ("From", .str)
  | .host => ("Host", .str)
  | .ifMatch => ("If-Match", .str)
  | .ifModifiedSince => ("If-Modified-Since", .date1123)
  | .ifNoneMatch => ("If-None-Match", .str)
  | .ifRange => ("If-Range", .date1123OrEtag)
  | .keepAlive => ("Keep-Alive", .str)
  | .lastModified => ("Last-Modified", .date1123)
  | .link => ("Link", .str)
  | .location => ("Location", .str)
  | .maxForwards => ("Max-Forwards", .int64)
  | .mimeVersion => ("Mime-Version", .str)
  | .negotiate => ("Negotiate", .str)
  | .origin => ("Origin", .str)
  | .pragma => ("Pragma", .str)
  | .proxyAuthenticate => ("Proxy-Authenticate", .str)
  | .proxyAuthenticationInfo => ("Proxy-Authentication-Info", .str)
  | .proxyAuthorization => ("Proxy-Authorization", .str)
  | .proxyConnection => ("Proxy-Connection", .str)
  | .proxySupport => ("Proxy-support", .str)
  | .publicField => ("Public", .str)
  | .range => ("Range", .pRange)
  | .referer => ("Referer", .str)
  | .requestRange => ("Request-Range", .pRange)
  | .retryAfter => ("Retry-After", .str)
  | .server => ("Server", .str)
  | .setCookie => ("Set-Cookie", .str)
  | .setCookie2 => ("Set-Cookie2", .str)
  | .te => ("TE", .str)
  | .title => ("Title", .str)
  | .trailer => ("Trailer", .str)
  | .transferEncoding => ("Transfer-Encoding", .str)
  | .translate => ("Translate", .str)
  | .unlessModifiedSince => ("Unless-Modified-Since", .str)
  | .upgrade => ("Upgrade", .str)
  | .userAgent => ("User-Agent", .str)
  | .vary => ("Vary", .str)
  | .via => ("Via", .str)
  | .warning => ("Warning", .str)
  | .wwwAuthenticate => ("WWW-Authenticate", .str)
  | .authenticationInfo => ("Authentication-Info", .str)
  | .xCache => ("X-Cache", .str)
  | .xCacheLookup => ("X-Cache-Lookup", .str)
  | .xForwardedFor => ("X-Forwarded-For", .str)
  | .xRequestUri => ("X-Request-URI", .str)
  | .xSquidError => ("X-Squid-Error", .str)
  | .xAcceleratorVary => ("X-Accelerator-Vary", .str)
  | .xNextServices => ("X-Next-Services", .str)
  | .surrogateCapability => ("Surrogate-Capability", .str)
  | .surrogateControl => ("Surrogate-Control", .psc)
  | .frontEndHttps => ("Front-End-Https", .str)
  | .other => ("Other:", .str)

/-- `Headers[id].name`. -/
def name (id : HdrType) : Bytes := ascii id.attrs.1

/-- `Headers[id].type`. -/
def type (id : HdrType) : FieldType := id.attrs.2

/-- The ids in the order of the table. -/
def table : List HdrType :=
  [ .accept, .acceptCharset, .acceptEncoding, .acceptLanguage, .acceptRanges, .age, .allow,
    .authorization, .cacheControl, .connection, .contentBase, .contentDisposition,
    .contentEncoding, .contentLanguage, .contentLength, .contentLocation, .contentMd5,
    .contentRange, .contentType, .cookie, .cookie2, .date, .etag, .expect, .expires, .fromField,
    .host, .ifMatch, .ifModifiedSince, .ifNoneMatch, .ifRange, .keepAlive, .lastModified, .link,
    .location, .maxForwards, .mimeVersion, .negotiate, .origin, .pragma, .proxyAuthenticate,
    .proxyAuthenticationInfo, .proxyAuthorization, .proxyConnection, .proxySupport, .publicField,
    .range, .referer, .requestRange, .retryAfter, .server, .setCookie, .setCookie2, .te, .title,
    .trailer, .transferEncoding, .translate, .unlessModifiedSince, .upgrade, .userAgent, .vary,
    .via, .warning, .wwwAuthenticate, .authenticationInfo, .xCache, .xCacheLookup,
    .xForwardedFor, .xRequestUri, .xSquidError, .xAcceleratorVary, .xNextServices,
    .surrogateCapability, .surrogateControl, .frontEndHttps, .other]

/-- `ListHeadersArr`. -/
def listHeaders : List HdrType :=
  [ .accept, .acceptCharset, .acceptEncoding, .acceptLanguage, .acceptRanges, .allow,
    .cacheControl, .contentEncoding, .contentLanguage, .connection, .expect, .ifMatch,
    .ifNoneMatch, .link, .pragma, .proxyConnection, .proxySupport, .transferEncoding, .upgrade,
    .vary, .via, .warning, .wwwAuthenticate, .authenticationInfo, .proxyAuthenticationInfo,
    .xAcceleratorVary, .xNextServices, .surrogateCapability, .surrogateControl, .xForwardedFor]

/-- `httpHeaderIdByName`. -/
def idByName (name : Bytes) : Option HdrType :=
  table.find? fun id => name.map toLower == id.name.map toLower

theorem length_of_idByName {name : Bytes} {id : HdrType} (found : idByName name = some id) :
    id.name.length = name.length := by
  have same := List.find?_some found
  have lengths := congrArg List.length (beq_iff_eq.1 same)
  simpa using lengths.symm

/-- `HopByHopHeadersArr`. -/
def hopByHopHeaders : List HdrType :=
  [ .connection, .keepAlive, .proxyAuthorization, .te, .trailer, .transferEncoding, .upgrade,
    .proxyConnection]

end HdrType

end Squid
