import Squid.Auth.DigestDecode
import Squid.Library.LabelledRun
import Squid.Library.Table

/-!
# Digest authentication

Nonces, users and requests of the Digest scheme, as in `src/auth/digest/auth_digest.cc`,
`src/auth/digest/UserRequest.cc` and `src/auth/digest/User.cc`, with the hashing of `lib/rfc2617.c`
over some `md5`.  Objects are named by the order in which they are made.  An event that uses a freed
object or fails an assertion other than those of `authenticateDigestNonceDelete` does not take place.
-/

namespace Squid
namespace Digest

open CRuntime

/-! ## Hashing -/

/-- A digit of `CvtHex`. -/
def hexDigit (j : ℕ) : UInt8 := UInt8.ofNat (if j ≤ 9 then j + 48 else j + 97 - 10)

def CvtHex (Bin : Bytes) : Bytes :=
  Bin.flatMap fun b => [hexDigit (b.toNat / 16), hexDigit (b.toNat % 16)]

/-- `strcasecmp(a, b) == 0`. -/
def sameText (a b : Bytes) : Bool := a.map toLower == b.map toLower

/-- `DigestCalcHA1` without a user name: the new `HA1` and the session key; `none` if a null pointer
is read. -/
def DigestCalcHA1 (md5 : Bytes → Bytes) (pszAlg pszNonce : Bytes) (pszCNonce : Option Bytes)
    (HA1 : Bytes) : Option (Bytes × Bytes) :=
  if sameText pszAlg (ascii "md5-sess") then
    pszCNonce.map fun cnonce =>
      let HA1 := md5 (CvtHex HA1 ++ ascii ":" ++ pszNonce ++ ascii ":" ++ cnonce)
      (HA1, CvtHex HA1)
  else some (HA1, CvtHex HA1)

/-- `DigestCalcResponse`, where `HEntity` is empty; `none` if a null pointer is read. -/
def DigestCalcResponse (md5 : Bytes → Bytes) (HA1 pszNonce pszNonceCount : Bytes)
    (pszCNonce pszQop : Option Bytes) (pszMethod pszDigestUri : Bytes) : Option Bytes :=
  let entity := if pszQop.any fun qop => sameText qop (ascii "auth-int") then
      ascii ":" ++ List.replicate 32 0 else []
  let HA2 := CvtHex (md5 (pszMethod ++ ascii ":" ++ pszDigestUri ++ entity))
  let front := HA1 ++ ascii ":" ++ pszNonce ++ ascii ":"
  match pszQop with
  | none => some (CvtHex (md5 (front ++ HA2)))
  | some qop => pszCNonce.map fun cnonce =>
      CvtHex (md5 (front ++ pszNonceCount ++ ascii ":" ++ cnonce ++ ascii ":" ++ qop ++
        ascii ":" ++ HA2))

/-! ## Nonces, users and requests -/

/-- `digest_nonce_h`. -/
structure Nonce where
  key : Bytes
  creationtime : ℤ
  /-- Number of uses seen. -/
  nc : ℕ := 0
  references : ℤ := 0
  user : Option ℕ := none
  valid : Bool := true
  incache : Bool := false

inductive CredentialState where
  | Unchecked | Ok | Pending | Handshake | Failed
  deriving DecidableEq

/-- `Auth::Digest::User`. -/
structure User where
  username : Option Bytes
  credentials : CredentialState := .Unchecked
  /-- `HA1`, once it is created. -/
  HA1 : Option Bytes := none
  nonces : List ℕ := []
  /-- The user is in `proxy_auth_username_cache`. -/
  incache : Bool := false

/-- `Auth::Digest::UserRequest`. -/
structure UserRequest where
  fields : Fields
  user : ℕ
  nonce : Option ℕ := none
  invalid_password : Bool := false
  helper_queried : Bool := false

/-- `Auth::Digest::Config`. -/
structure Config where
  noncemaxduration : ℤ := 30 * 60
  noncemaxuses : ℕ := 50
  NonceStrictness : Bool := false
  CheckNonceCount : Bool := true
  PostWorkaround : Bool := false

/-- A call of `authenticate` that has left the credentials at `Ok`. -/
structure Acceptance where
  request : ℕ
  nonce : ℕ
  /-- The value of the `nc` of the request. -/
  nc : ℕ
  /-- `flags.valid` of the nonce when the call was made. -/
  valid : Bool
  /-- The nonce count has been checked. -/
  counted : Bool
  deriving DecidableEq

/-- The state of the scheme.  The last two fields are not in the source. -/
structure State where
  nonces : Table ℕ Nonce := Table.empty
  users : Table ℕ User := Table.empty
  requests : Table ℕ UserRequest := Table.empty
  /-- How many nonces, users and requests there have been. -/
  nonceCount : ℕ := 0
  userCount : ℕ := 0
  requestCount : ℕ := 0
  /-- `current_time.tv_sec`. -/
  current_time : ℤ := 0
  /-- The calls of `authenticate` that have accepted a request, the latest first. -/
  accepted : List Acceptance := []
  /-- An assertion of `authenticateDigestNonceDelete` has failed. -/
  deleteFailed : Bool := false

namespace State

variable (s : State)

/-! ## The life of a nonce -/

def authDigestNonceLink (name : ℕ) : Option State := do
  let nonce ← s.nonces.find name
  some { s with
    nonces := s.nonces.set name { nonce with references := int16 (nonce.references + 1) } }

def authenticateDigestNonceDelete (name : ℕ) (nonce : Nonce) : State :=
  if nonce.references = 0 ∧ nonce.incache = false then { s with nonces := s.nonces.erase name }
  else { s with deleteFailed := true }

/-- A reference is dropped, if there is one. -/
def lower (nonce : Nonce) : Nonce :=
  if 0 < nonce.references then { nonce with references := nonce.references - 1 } else nonce

/-- A nonce is deleted if there are no references to it. -/
def deleteUnused (name : ℕ) (nonce : Nonce) : State :=
  if nonce.references = 0 then s.authenticateDigestNonceDelete name nonce else s

def authDigestNonceUnlink (name : ℕ) : Option State := do
  let nonce ← s.nonces.find name
  some ({ s with nonces := s.nonces.set name (lower nonce) }.deleteUnused name (lower nonce))

def authDigestNoncePurge (name : ℕ) : Option State := do
  let nonce ← s.nonces.find name
  if nonce.incache then
    authDigestNonceUnlink { s with nonces := s.nonces.set name { nonce with incache := false } } name
  else some s

def authenticateDigestNonceFindNonce (nonceb64 : Bytes) : Option (ℕ × Nonce) :=
  s.nonces.search fun nonce => nonce.incache && nonce.key = nonceb64

/-- `authenticateDigestNonceNew`, where `tries` keys were found in the cache before `key`. -/
def authenticateDigestNonceNew (key : Bytes) (tries : ℕ) : Option State :=
  if s.authenticateDigestNonceFindNonce key = none then do
    let name := s.nonceCount
    let newnonce : Nonce := { key, creationtime := s.current_time + tries }
    let s := { s with nonces := s.nonces.insert name newnonce, nonceCount := name + 1 }
    let s ← s.authDigestNonceLink name
    let newnonce ← s.nonces.find name
    some { s with nonces := s.nonces.set name { newnonce with incache := true } }
  else none

/-- The loop of `authDigestNonceUserUnlink`: the user drops the nonce. -/
def dropFromUser (owner name : ℕ) : Option State := do
  let user ← s.users.find owner
  let rest := user.nonces.erase name
  if name ∈ user.nonces then
    authDigestNonceUnlink { s with users := s.users.set owner { user with nonces := rest } } name
  else some s

def authDigestNonceUserUnlink (name : ℕ) : Option State := do
  let nonce ← s.nonces.find name
  match nonce.user with
  | none => some s
  | some owner => do
      let s ← s.dropFromUser owner name
      let nonce ← s.nonces.find name
      some { s with nonces := s.nonces.set name { nonce with user := none } }

def authDigestUserLinkNonce (owner name : ℕ) : Option State := do
  let user ← s.users.find owner
  if name ∈ user.nonces then some s
  else do
    let user := { user with nonces := user.nonces ++ [name] }
    let s ← authDigestNonceLink { s with users := s.users.set owner user } name
    let nonce ← s.nonces.find name
    if nonce.user = none ∨ nonce.user = some owner then
      some { s with nonces := s.nonces.set name { nonce with user := some owner } }
    else none

end State

/-- `authDigestNonceIsStale`: whether the nonce is stale, and the nonce. -/
def authDigestNonceIsStale (config : Config) (current_time : ℤ) (nonce : Nonce) : Bool × Nonce :=
  if nonce.creationtime + config.noncemaxduration < current_time ∨ 99999998 < nonce.nc ∨
      config.noncemaxuses < nonce.nc then (true, { nonce with valid := false })
  else (false, nonce)

/-- The value of `nc`, an `unsigned long`. -/
def ncValue (nc : Bytes) : ℕ := ((strtoll 16 nc).1 % 2 ^ 64).toNat

/-- `authDigestNonceIsValid`: whether the nonce is valid, and the nonce. -/
def authDigestNonceIsValid (config : Config) (nonce : Nonce) (nc : Bytes) : Bool × Nonce :=
  let intnc := ncValue nc
  let expected := (nonce.nc + 1) % 2 ^ 64
  if nonce.valid = false then (false, nonce)
  else if config.CheckNonceCount = false then (true, { nonce with nc := expected })
  else if (config.NonceStrictness = true ∧ intnc ≠ expected) ∨ intnc < expected then
    (false, { nonce with valid := false })
  else (true, { nonce with nc := intnc })

/-- A request is accepted. -/
def acceptance (id : ℕ) (request : UserRequest) (name : ℕ) (nonce : Nonce) (counted : Bool) :
    Acceptance where
  request := id
  nonce := name
  nc := ncValue request.fields.nc
  valid := nonce.valid
  counted := counted

namespace State

variable (s : State)

/-- What `authenticateDigestNonceCacheCleanup` does with a nonce of the cache. -/
def cleanupNonce (config : Config) (name : ℕ) : Option State := do
  let nonce ← s.nonces.find name
  if nonce.incache then
    let aged := authDigestNonceIsStale config s.current_time nonce
    let s := { s with nonces := s.nonces.set name aged.2 }
    if aged.1 then do
      let s ← s.authDigestNonceUserUnlink name
      s.authDigestNoncePurge name
    else some s
  else some s

def authenticateDigestNonceCacheCleanup (config : Config) : Option State :=
  (s.nonces.rows.map Prod.fst).foldlM (fun s name => s.cleanupNonce config name) s

def authenticateDigestNonceShutdown : Option State :=
  (s.nonces.rows.map Prod.fst).foldlM (fun s name => s.authDigestNoncePurge name) s

/-! ## Requests -/

/-- A `UserRequest` is gone: `~UserRequest`. -/
def destroyRequest (id : ℕ) : Option State := do
  let request ← s.requests.find id
  match request.nonce with
  | none => some { s with requests := s.requests.erase id }
  | some name => authDigestNonceUnlink { s with requests := s.requests.erase id } name

/-- What `~User` does with a nonce of the user. -/
def releaseNonce (name : ℕ) : Option State := do
  let s ← s.authDigestNoncePurge name
  s.authDigestNonceUnlink name

/-- A `User` that neither the cache nor a request refers to is gone: `~User`. -/
def destroyUser (owner : ℕ) : Option State := do
  let user ← s.users.find owner
  if user.incache = false ∧ (s.requests.search fun request => request.user = owner) = none then
    user.nonces.foldlM releaseNonce { s with users := s.users.erase owner }
  else none

/-- `Auth::User::cacheCleanup` removes an expired user from the cache. -/
def expireUser (owner : ℕ) : Option State := do
  let user ← s.users.find owner
  if user.incache then some { s with users := s.users.set owner { user with incache := false } }
  else none

end State

/-- Why `decode` does not accept the fields. -/
inductive Rejection where
  | username | quotedUsername | realm | nonce | uri | response | algorithm | qop | cnonce | nc
  | missingQop

/-- Not given, or empty. -/
def missing (field : Option Bytes) : Bool := field.getD [] = []

/-- The checks of `decode` for what `qop` requires. -/
def checkQop (fields : Fields) : Option Rejection :=
  match fields.qop with
  | some qop =>
      if qop ≠ ascii "auth" then some .qop
      else if missing fields.cnonce then some .cnonce
      else if fields.nc.length ≠ 8 ∨ ¬ fields.nc.all (isDigit 16) then some .nc
      else none
  | none => if fields.cnonce.isSome ∨ fields.nc ≠ [] then some .missingQop else none

/-- The checks of `decode` before it looks for the nonce. -/
def checkFields (fields : Fields) : Option Rejection :=
  if missing fields.username then some .username
  else if fields.username.any (34 ∈ ·) then some .quotedUsername
  else if missing fields.realm then some .realm
  else if missing fields.nonceb64 then some .nonce
  else if missing fields.uri then some .uri
  else if ¬ fields.response.any (·.length = 32) then some .response
  else if fields.algorithm.any fun algorithm =>
      algorithm ≠ ascii "MD5" && algorithm ≠ ascii "MD5-sess" then some .algorithm
  else checkQop fields

namespace State

variable (s : State)

def authDigestUserFindUsername (username : Bytes) : Option (ℕ × User) :=
  s.users.search fun user => user.incache && user.username = some username

/-- A new user. -/
def newUser (user : User) : State :=
  { s with users := s.users.insert s.userCount user, userCount := s.userCount + 1 }

/-- A new request. -/
def newRequest (request : UserRequest) : State :=
  { s with
    requests := s.requests.insert s.requestCount request
    requestCount := s.requestCount + 1 }

/-- `authDigestLogUsername`: the user is of no scheme, and in no cache. -/
def authDigestLogUsername (fields : Fields) (nonce : Option ℕ) : State :=
  (s.newUser { username := fields.username }).newRequest { fields, user := s.userCount, nonce }

/-- The end of `decode`, where the nonce has been linked. -/
def findUser (fields : Fields) (username : Bytes) (name : ℕ) : Option State :=
  match s.authDigestUserFindUsername username with
  | none => do
      let t ← (s.newUser { username := some username, incache := true })
        |>.authDigestUserLinkNonce s.userCount name
      some (t.newRequest { fields, user := s.userCount, nonce := some name })
  | some (owner, user) =>
      some ({ s with users := s.users.set owner { user with credentials := .Unchecked } }.newRequest
        { fields, user := owner, nonce := some name })

/-- `decode`, where the header has been read. -/
def decode (fields : Fields) : Option State :=
  match checkFields fields with
  | some _ => some (s.authDigestLogUsername fields none)
  | none =>
      let fields := { fields with algorithm := some (fields.algorithm.getD (ascii "MD5")) }
      match s.authenticateDigestNonceFindNonce (fields.nonceb64.getD []) with
      | none => some (s.authDigestLogUsername fields none)
      | some (name, nonce) => do
          let username ← fields.username
          let s ← s.authDigestNonceLink name
          match nonce.user with
          | none => s.findUser fields username name
          | some owner => do
              let user ← s.users.find owner
              if user.username ≠ some username then some (s.authDigestLogUsername fields (some name))
              else s.findUser fields username name

/-! ## Authentication -/

/-- `credentials` of a user. -/
def setCredentials (owner : ℕ) (user : User) (credentials : CredentialState) : State :=
  { s with users := s.users.set owner { user with credentials } }

/-- The request is denied with the password being wrong. -/
def denyPassword (id : ℕ) (request : UserRequest) (owner : ℕ) (user : User) : State :=
  { s.setCredentials owner user .Failed with
    requests := s.requests.set id { request with invalid_password := true } }

/-- The credentials become `Ok`. -/
def accept (owner : ℕ) (user : User) (acceptance : Acceptance) : State :=
  { s.setCredentials owner user .Ok with accepted := acceptance :: s.accepted }

/-- The end of `authenticate` for a response that is right with the method `GET` only. -/
def workaround (config : Config) (id : ℕ) (request : UserRequest) (owner : ℕ) (user : User)
    (name : ℕ) (nonce : Nonce) : State :=
  let checked := authDigestNonceIsValid config nonce request.fields.nc
  let s := { s with nonces := s.nonces.set name checked.2 }
  if checked.1 then
    s.accept owner user (acceptance id request name nonce true)
  else s.setCredentials owner user .Failed

/-- The response of the request is the one that is calculated with `method`. -/
def responds (md5 : Bytes → Bytes) (SESSIONKEY : Bytes) (nonce : Nonce) (fields : Fields)
    (method : Bytes) : Option Bool := do
  let Response ← DigestCalcResponse md5 SESSIONKEY nonce.key fields.nc fields.cnonce fields.qop
    method (← fields.uri)
  some (sameText (← fields.response) Response)

/-- `authenticate`, where there are an `HA1` and a nonce. -/
def checkResponse (config : Config) (md5 : Bytes → Bytes) (id : ℕ) (method : Bytes)
    (request : UserRequest) (user : User) (HA1 : Bytes) (name : ℕ) (nonce : Nonce) :
    Option State := do
  let owner := request.user
  let (HA1, SESSIONKEY) ← DigestCalcHA1 md5 (← request.fields.algorithm) nonce.key
    request.fields.cnonce HA1
  let user := { user with HA1 := some HA1 }
  if ← responds md5 SESSIONKEY nonce request.fields method then
    -- the nonce is not looked at
    some (s.accept owner user (acceptance id request name nonce false))
  else if request.helper_queried = false then
    some { s.setCredentials owner user .Pending with
      requests := s.requests.set id { request with helper_queried := true } }
  else if config.PostWorkaround = true ∧ method ≠ ascii "GET" then
    if ← responds md5 SESSIONKEY nonce request.fields (ascii "GET") then
      some (s.workaround config id request owner user name nonce)
    else some (s.denyPassword id request owner user)
  else some (s.denyPassword id request owner user)

def authenticate (config : Config) (md5 : Bytes → Bytes) (id : ℕ) (method : Bytes) :
    Option State := do
  let request ← s.requests.find id
  let user ← s.users.find request.user
  if user.credentials = .Failed then some s
  else
    match user.HA1, request.nonce with
    | none, _ => some (s.setCredentials request.user user .Pending)
    | some _, none => some (s.setCredentials request.user user .Failed)
    | some HA1, some name => do
        s.checkResponse config md5 id method request user HA1 name (← s.nonces.find name)

/-- What the helper says: nothing, that the user is unknown, or what `HA1` is. -/
inductive Reply where
  | empty
  | err
  | HA1 (hash : Bytes)

def HandleReply (id : ℕ) (reply : Reply) : Option State := do
  let request ← s.requests.find id
  let user ← s.users.find request.user
  match reply with
  | .empty => some s
  | .err => some (s.denyPassword id request request.user user)
  | .HA1 hash => some { s with users := s.users.set request.user { user with HA1 := some hash } }

/-! ## Runs -/

end State

/-- What happens to the scheme. -/
inductive Event where
  /-- `fixHeader` sends a new nonce. -/
  | fixHeader (key : Bytes) (tries : ℕ)
  | decode (fields : Fields)
  | authenticate (id : ℕ) (method : Bytes)
  | handleReply (id : ℕ) (reply : State.Reply)
  | cacheCleanup
  | shutdown
  | expireUser (owner : ℕ)
  | destroyRequest (id : ℕ)
  | destroyUser (owner : ℕ)
  | tick (seconds : ℕ)

/-- The next event; `none` if it does not take place. -/
def State.next (config : Config) (md5 : Bytes → Bytes) (s : State) (event : Event) : Option State :=
  if s.deleteFailed then none
  else
    match event with
    | .fixHeader key tries => s.authenticateDigestNonceNew key tries
    | .decode fields => s.decode fields
    | .authenticate id method => s.authenticate config md5 id method
    | .handleReply id reply => s.HandleReply id reply
    | .cacheCleanup => s.authenticateDigestNonceCacheCleanup config
    | .shutdown => s.authenticateDigestNonceShutdown
    | .expireUser owner => s.expireUser owner
    | .destroyRequest id => s.destroyRequest id
    | .destroyUser owner => s.destroyUser owner
    | .tick seconds => some { s with current_time := s.current_time + seconds }

end Digest
end Squid
