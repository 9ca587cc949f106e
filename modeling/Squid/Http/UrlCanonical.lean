import Squid.Http.UrlHost

/-!
# Canonical URLs

What `urlCanonical` prints is split by `urlParse` at the same places, unless the host or the path has
bytes that are split elsewhere.
-/

namespace Squid
namespace Url

open CRuntime List Option

/-! ## The parts of a URL -/

/-- The scheme of a URL. -/
def schemePart (url : Bytes) : ProtocolType := urlParseProtocol (url.takeWhile (· != 58))

/-- The login in a URL. -/
def loginPart (url : Bytes) : Bytes := (splitLogin (authority url)).1

/-- What is behind the login of a URL. -/
def hostText (url : Bytes) : Bytes := (splitLogin (authority url)).2

/-- The port that a text means, or the one of the scheme. -/
def portOf (protocol : ProtocolType) (t : Option Bytes) : ℤ :=
  match t with
  | some t => atoi t
  | none => urlDefaultPort protocol

/-- The port in a URL. -/
def portPart (url : Bytes) : ℤ := portOf (schemePart url) (splitPort (hostText url)).2

/-- The path in a URL. -/
def pathPart (url : Bytes) : Bytes :=
  pathFrom (((url.dropWhile (· != 58)).drop 3).dropWhile fun b => !endsHost b)

/-- The host that is stored when it is no address. -/
def nameOf (config : UrlConfig) (host : Bytes) : Bytes := (fullHost config host).take 255

/-- `getaddrinfo` reads what `inet_ntop` prints, which is the text of an IPv6 address. -/
structure NumericText (sys : AddressText) : Prop where
  plain : PlainText sys
  read4 : ∀ a, a.IsIPv4 = true → sys.getaddrinfo (dottedQuad a.GetInAddr) = some a
  read6 : ∀ a, a.IsIPv4 = false → sys.getaddrinfo (sys.inet_ntop a) = some a
  letters : ∀ a, ∀ b ∈ sys.inet_ntop a, isDigit 16 b = true ∨ b = 58 ∨ b = 46
  colon : ∀ a, 58 ∈ (sys.inet_ntop a).takeWhile (· != 46)
  first : ∀ a, (sys.inet_ntop a).head? ≠ some 46
  last : ∀ a, (sys.inet_ntop a).getLast? ≠ some 46
  length : ∀ a, (sys.inet_ntop a).length ≤ 45

/-- A name without the bytes at which `urlParse` splits, and that it does not change. -/
structure NameRead (config : UrlConfig) (sys : AddressText) (name : Bytes) (standard : Bool) :
    Prop where
  plain : ∀ b ∈ name, endsHost b = false ∧ b ≠ 64 ∧ toLower b = b
  bracket : name.head? ≠ some 91
  colons : 58 ∉ name ∨ standard = true ∧ name.count 58 ≠ 1
  present : name ≠ [] ∨ standard = false
  valid : config.check_hostnames = true → name.all (isHostnameChar config.allow_underscore) = true
  last : name.getLast? ≠ some 46
  domain : ∀ b ∈ addedDomain config name, b = 46
  noAddress : hostAddr sys name = none

/-- The port of a URL, which is not printed if it is the one of the scheme. -/
def portText (standard : Bool) (port : ℕ) : Bytes :=
  if standard then [] else 58 :: digits port

/--
The domain has an `@`, behind which it gives the host and the port again; the login is cut in front of
what the domain adds to it.
-/
structure DomainLogin (config : UrlConfig) (url : Bytes) : Prop where
  cut : MAX_LOGIN_SZ - 1 ≤ (loginPart url).length
  mark : 64 ∈ nameOf config (hostPart url)
  plain : ∀ b ∈ nameOf config (hostPart url), endsHost b = false
  host : (splitPort ((nameOf config (hostPart url)).rtakeWhile (· != 64) ++
    portText (portPart url = urlDefaultPort (schemePart url)) (portPart url).toNat)).1.map toLower =
      (hostPart url).map toLower
  port : portOf (schemePart url)
    (splitPort ((nameOf config (hostPart url)).rtakeWhile (· != 64) ++
      portText (portPart url = urlDefaultPort (schemePart url)) (portPart url).toNat)).2 = portPart url

/-- White space in front of the path is kept. -/
def PathKept (config : UrlConfig) (urlpath : Bytes) : Prop :=
  urlpath.head? = some 47 ∨ stringHasWhitespace urlpath = false ∨
    match config.uri_whitespace with
    | .URI_WHITESPACE_STRIP => (strip urlpath).head? = some 47
    | .URI_WHITESPACE_ALLOW => True
    | .URI_WHITESPACE_ENCODE => False
    | .URI_WHITESPACE_CHOP => ∃ b ∈ urlpath.head?, b ∉ ascii " \t\n\r"
    | .URI_WHITESPACE_DENY => True

/-- The text of a URL with given parts. -/
def canonicalText (protocol : ProtocolType) (login host : Bytes) (port : ℕ) (urlpath : Bytes) :
    Bytes :=
  const_str protocol ++ ascii "://" ++ login ++ (if login ≠ [] then [64] else []) ++ host ++
    (if port ≠ urlDefaultPort protocol then 58 :: digits port else []) ++ urlpath

/-- The parts of a URL are found again in its canonical text. -/
structure PartsRead (config : UrlConfig) (sys : AddressText) (url : Bytes) : Prop where
  scheme : schemePart url ≠ .PROTO_URN
  host : (hostAddr sys (fullHost config (hostPart url))).isSome = true ∨
    NameRead config sys (nameOf config (hostPart url))
      (portPart url = urlDefaultPort (schemePart url)) ∨
    DomainLogin config url
  path : PathKept config (pathPart url)
  length : ∀ urlpath ∈ cleanPath config (pathPart url),
    (canonicalText (schemePart url) ((loginPart url).take (MAX_LOGIN_SZ - 1))
      (SetHost sys (fullHost config (hostPart url))) (portPart url).toNat urlpath).length +
      (config.appendDomain.getD []).length ≤ MAX_URL - 1

/-! ## Paths -/

/-- A path in front of which the host ends. -/
def StartsPath (urlpath : Bytes) : Prop := ∃ b ∈ urlpath.head?, b = 47 ∨ isSpace b = true

/-- A path on one line. -/
def OneLine (urlpath : Bytes) : Prop := ∀ b ∈ urlpath, b ≠ 13 ∧ b ≠ 10

/-- A path is the rest of the line, behind a slash if it does not have one of its own. -/
theorem pathFrom_cases (src : Bytes) :
    pathFrom src = 47 :: src.takeWhile (fun b => b != 13 && b != 10) ∨
      pathFrom src = src.takeWhile (fun b => b != 13 && b != 10) ∧
        ∃ b ∈ (pathFrom src).head?, b ∈ src.head? ∧ b ≠ 63 ∧ b ≠ 35 := by
  cases src with
  | nil => exact .inl rfl
  | cons c rest =>
      by_cases mark : c = 63 ∨ c = 35
      · exact .inl (by simp [pathFrom, mark])
      · by_cases line : (c != 13 && c != 10) = true
        · refine .inr ⟨by simp [pathFrom, mark, line], c, ?_, by simp, not_or.mp mark⟩
          simp [pathFrom, mark, line]
        · exact .inl (by simp [pathFrom, mark, line])

theorem pathFrom_oneLine (src : Bytes) : OneLine (pathFrom src) := by
  have front : OneLine (src.takeWhile fun b => b != 13 && b != 10) := by
    intro b member
    simpa using mem_takeWhile_imp member
  rcases pathFrom_cases src with path | ⟨path, -⟩
  · rw [path]
    exact forall_mem_cons.mpr ⟨by decide, front⟩
  · rwa [path]

variable {urlpath : Bytes}

/-- A path is read up to the end of the line. -/
theorem pathFrom_of_startsPath (starts : StartsPath urlpath) (line : OneLine urlpath) :
    pathFrom urlpath = urlpath := by
  obtain ⟨b, first, kind⟩ := starts
  cases urlpath with
  | nil => simp at first
  | cons c rest =>
      rw [List.head?_cons, mem_some_iff] at first
      subst first
      have mark : ¬ (c = 63 ∨ c = 35) := by
        rintro (rfl | rfl) <;> rcases kind with same | blank <;> revert ‹_› <;> decide
      have all : (c :: rest).takeWhile (fun b => b != 13 && b != 10) = c :: rest := by
        refine takeWhile_eq_self_iff.mpr fun b member => ?_
        simpa using line b member
      simp [pathFrom, mark, all]

/-- Behind the host of a URL, a path starts. -/
theorem pathPart_startsPath (url : Bytes) : StartsPath (pathPart url) := by
  unfold pathPart
  generalize ((url.dropWhile (· != 58)).drop 3) = src
  rcases pathFrom_cases (src.dropWhile fun b => !endsHost b) with path | ⟨-, b, first, start, mark⟩
  · rw [path]
    exact ⟨47, rfl, .inl rfl⟩
  · have ends : endsHost b = true := by
      have stop := List.head?_dropWhile_not (fun b => !endsHost b) src
      rw [mem_def.mp start] at stop
      simpa using stop
    refine ⟨b, first, ?_⟩
    simpa [endsHost, mark.1, mark.2] using ends

variable {config : UrlConfig}

theorem cleanPath_of_noSpace (noSpace : stringHasWhitespace urlpath = false) :
    cleanPath config urlpath = some urlpath := by
  simp [cleanPath, noSpace]

variable {s : Bytes}

theorem stringHasWhitespace_eq_false :
    stringHasWhitespace s = false ↔ ∀ b ∈ s, b ∉ ascii " \t\n\r" := by
  rw [stringHasWhitespace, List.any_eq_false]
  simp only [contains_iff_mem]

variable {b : UInt8}

theorem isSpace_of_mem (space : b ∈ ascii " \t\n\r") : isSpace b = true := by
  have kinds : b = 32 ∨ b = 9 ∨ b = 10 ∨ b = 13 := by simpa [ascii] using space
  rcases kinds with rfl | rfl | rfl | rfl <;> rfl

theorem strip_noSpace (s : Bytes) : stringHasWhitespace (strip s) = false := by
  refine stringHasWhitespace_eq_false.mpr fun b member space => ?_
  have kept := (mem_filter.mp member).2
  simp [isSpace_of_mem space] at kept

theorem le_hexDigit {n : UInt8} (small : n < 16) : 48 ≤ hexDigit n := by
  rw [UInt8.lt_iff_toNat_lt] at small
  rw [UInt8.le_iff_toNat_le]
  unfold hexDigit
  split <;> simp only [UInt8.toNat_add, UInt8.reduceToNat] at * <;> omega

/-- No byte up to the space is left as it is. -/
theorem lt_of_mem_escape : ∀ b ∈ rfc1738_escape_unescaped s, 32 < b := by
  intro b member
  obtain ⟨src, -, shown⟩ := mem_flatMap.mp member
  have digit : ∀ n : UInt8, n < 16 → 32 < hexDigit n := fun n small =>
    UInt8.lt_of_lt_of_le (by decide) (le_hexDigit small)
  split at shown
  · simp only [mem_cons, not_mem_nil, or_false] at shown
    rcases shown with rfl | rfl | rfl
    · decide
    · apply digit
      rw [UInt8.lt_iff_toNat_lt, UInt8.toNat_div]
      have bound := UInt8.toNat_lt src
      simp only [UInt8.reduceToNat]
      omega
    · apply digit
      rw [UInt8.lt_iff_toNat_lt, UInt8.toNat_mod]
      exact Nat.mod_lt _ (by decide)
  · rename_i safe
    rw [mem_singleton.mp shown]
    by_contra low
    have small : src ≤ 32 := UInt8.not_lt.mp low
    have noLetter : ∀ first : UInt8, 32 < first → ¬ first ≤ src := fun first high le =>
      absurd (UInt8.lt_of_lt_of_le high (UInt8.le_trans le small)) (by decide)
    apply safe
    simp [escapes, small, noLetter 97 (by decide), noLetter 65 (by decide), noLetter 48 (by decide)]

theorem escape_noSpace (s : Bytes) (n : ℕ) :
    stringHasWhitespace ((rfc1738_escape_unescaped s).take n) = false := by
  refine stringHasWhitespace_eq_false.mpr fun b member space => ?_
  have high := lt_of_mem_escape b (mem_of_mem_take member)
  have kinds : b = 32 ∨ b = 9 ∨ b = 10 ∨ b = 13 := by simpa [ascii] using space
  rcases kinds with rfl | rfl | rfl | rfl <;> exact absurd high (by decide)

/-- What is stored as path is a path, which is not changed any more. -/
theorem cleanPath_kept {cleaned : Bytes} (starts : StartsPath urlpath) (line : OneLine urlpath)
    (kept : PathKept config urlpath) (found : cleanPath config urlpath = some cleaned) :
    StartsPath cleaned ∧ OneLine cleaned ∧ cleanPath config cleaned = some cleaned := by
  obtain ⟨c, first, kind⟩ := starts
  have start := mem_def.mp first
  cases space : stringHasWhitespace urlpath with
  | false =>
      rw [cleanPath_of_noSpace space, some.injEq] at found
      subst found
      exact ⟨⟨c, first, kind⟩, line, cleanPath_of_noSpace space⟩
  | true =>
      have again := found
      unfold cleanPath at found
      rw [if_pos space] at found
      simp only [PathKept, space, Bool.true_eq_false, false_or] at kept
      cases policy : config.uri_whitespace with
      | URI_WHITESPACE_DENY => simp [policy] at found
      | URI_WHITESPACE_ALLOW =>
          simp only [policy, some.injEq] at found
          subst found
          exact ⟨⟨c, first, kind⟩, line, again⟩
      | URI_WHITESPACE_ENCODE =>
          simp only [policy, some.injEq] at found
          simp only [policy, or_false] at kept
          subst found
          refine ⟨⟨47, ?_, .inl rfl⟩, fun b member => ?_, cleanPath_of_noSpace (escape_noSpace _ _)⟩
          · cases urlpath with
            | nil => simp at kept
            | cons d rest =>
                rw [List.head?_cons, some.injEq] at kept
                subst kept
                rfl
          · have high := lt_of_mem_escape b (mem_of_mem_take member)
            constructor <;> rintro rfl <;> exact absurd high (by decide)
      | URI_WHITESPACE_CHOP =>
          simp only [policy, some.injEq] at found
          simp only [policy] at kept
          subst found
          have noSpace : c ∉ ascii " \t\n\r" := by
            rcases kept with slash | ⟨b, same, other⟩
            · rw [start, some.injEq] at slash
              rw [slash]
              decide
            · rw [start, mem_some_iff] at same
              rwa [same]
          have front := takeWhile_prefix (l := urlpath) fun b => !(ascii " \t\n\r").contains b
          refine ⟨⟨c, ?_, kind⟩, fun b member => line b (front.subset member),
            cleanPath_of_noSpace (stringHasWhitespace_eq_false.mpr fun b member space => ?_)⟩
          · cases urlpath with
            | nil => simp at start
            | cons d rest =>
                rw [List.head?_cons, some.injEq] at start
                subst start
                simp [noSpace]
          · have passed := mem_takeWhile_imp member
            simp only [Bool.not_eq_true'] at passed
            simp [space] at passed
      | URI_WHITESPACE_STRIP =>
          simp only [policy, some.injEq] at found
          simp only [policy] at kept
          subst found
          refine ⟨⟨47, ?_, .inl rfl⟩, fun b member => line b (mem_of_mem_filter member),
            cleanPath_of_noSpace (strip_noSpace _)⟩
          rcases kept with slash | left
          · cases urlpath with
            | nil => simp at slash
            | cons d rest =>
                rw [List.head?_cons, some.injEq] at slash
                subst slash
                rfl
          · exact left

/-! ## Hosts -/

/-- A host that is printed, with the name that is read. -/
structure HostRead (config : UrlConfig) (sys : AddressText) (host name : Bytes) (standard : Bool) :
    Prop where
  plain : ∀ b ∈ host, endsHost b = false ∧ b ≠ 64
  present : ∀ port, ¬ hostMissing (host ++ portText standard port)
  split : ∀ port, splitPort (host ++ portText standard port) =
    (name, if standard then none else some (digits port))
  lower : ∀ b ∈ name, toLower b = b
  noSpace : ∀ b ∈ name, endsHost b = false
  valid : config.check_hostnames = true → name.all (isHostnameChar config.allow_underscore) = true
  full : fullHost config name = name
  dots : hasDoubleDot name = false
  first : name.head? ≠ some 46
  stored : SetHost sys name = host

variable {name : Bytes}

/-- What is not changed by `urlParse` at the end of a host. -/
theorem fullHost_eq_self (lower : ∀ b ∈ name, toLower b = b) (last : name.getLast? ≠ some 46)
    (domain : ∀ b ∈ addedDomain config name, b = 46) : fullHost config name = name := by
  unfold fullHost
  rw [map_toLower_eq_iff.mpr lower, addDomain_eq, List.rdropWhile, reverse_append,
    dropWhile_append_of_pos]
  · refine rdropWhile_eq_self_iff.mpr fun ne dot => last ?_
    rw [List.getLast?_eq_getLast_of_ne_nil ne, beq_iff_eq.mp dot]
  · intro b member
    exact beq_iff_eq.mpr (domain b (mem_reverse.mp member))

theorem colon_notMem_digits (n : ℕ) : 58 ∉ digits n := fun member =>
  absurd (isDigit_of_mem_digits n 58 member) (by decide)

theorem head_portText {name : Bytes} (bracket : name.head? ≠ some 91) (standard : Bool)
    (port : ℕ) : (name ++ portText standard port).head? ≠ some 91 := by
  cases name with
  | nil => cases standard <;> simp [portText]
  | cons b name => exact bracket

variable {standard : Bool}

/-- A name in front of a port. -/
theorem splitPort_name (bracket : name.head? ≠ some 91)
    (colons : 58 ∉ name ∨ standard = true ∧ name.count 58 ≠ 1) (port : ℕ) :
    splitPort (name ++ portText standard port) =
      (name, if standard then none else some (digits port)) := by
  rw [splitPort, if_neg (head_portText bracket standard port)]
  cases standard with
  | true =>
      have count : name.count 58 ≠ 1 := by
        rcases colons with none | count
        · rw [count_eq_zero.mpr none]
          decide
        · exact count.2
      simp [portText, count]
  | false =>
      have none : 58 ∉ name := colons.resolve_right fun both => absurd both.1 (by decide)
      have count : (name ++ 58 :: digits port).count 58 = 1 := by
        rw [count_append, count_cons_self, count_eq_zero.mpr none,
          count_eq_zero.mpr (colon_notMem_digits port)]
      have plain : ∀ b ∈ name, (b != 58) = true := fun b member =>
        bne_iff_ne.mpr fun same => none (same ▸ member)
      have text : portText false port = 58 :: digits port := rfl
      rw [text, if_pos count, takeWhile_append_of_pos plain, dropWhile_append_of_pos plain]
      simp

theorem hostMissing_name (bracket : name.head? ≠ some 91) (present : name ≠ [] ∨ standard = false)
    (port : ℕ) : ¬ hostMissing (name ++ portText standard port) := by
  rw [hostMissing, if_neg (head_portText bracket standard port), append_eq_nil_iff]
  rintro ⟨none, noPort⟩
  have printed := present.resolve_left (not_not_intro none)
  simp [printed, portText] at noPort

/-- A name that `urlParse` does not change is read as it is. -/
theorem NameRead.hostRead {sys : AddressText} (read : NameRead config sys name standard)
    (short : name.length ≤ 255) (dots : hasDoubleDot name = false) (first : name.head? ≠ some 46) :
    HostRead config sys name name standard where
  plain b member := ⟨(read.plain b member).1, (read.plain b member).2.1⟩
  present := hostMissing_name read.bracket read.present
  split := splitPort_name read.bracket read.colons
  lower b member := (read.plain b member).2.2
  noSpace b member := (read.plain b member).1
  valid := read.valid
  full := fullHost_eq_self (fun b member => (read.plain b member).2.2) read.last read.domain
  dots := dots
  first := first
  stored := by
    rw [SetHost, read.noAddress]
    exact take_of_length_le short

/-! ## Addresses -/

/-- A byte of the text of an address. -/
def IsAddressByte (b : UInt8) : Prop := isDigit 16 b = true ∨ b = 58 ∨ b = 46

/-- The text of an address is not split, and its bytes are those of a host name. -/
theorem IsAddressByte.plain (address : IsAddressByte b) :
    endsHost b = false ∧ b ≠ 64 ∧ b ≠ 91 ∧ b ≠ 93 ∧
      ∀ underscore, isHostnameChar underscore b = true := by
  rcases address with digit | rfl | rfl
  · have range := (isDigit_sixteen_iff b).mp digit
    have other : ∀ c : UInt8, isDigit 16 c = false → b ≠ c := by
      rintro c none rfl
      simp [none] at digit
    refine ⟨?_, other _ (by decide), other _ (by decide), other _ (by decide), fun u => ?_⟩
    · simp only [endsHost, isSpace, Bool.or_eq_false_iff, beq_eq_false_iff_ne, Bool.and_eq_false_iff,
        decide_eq_false_iff_not, UInt8.le_iff_toNat_le, UInt8.reduceToNat]
      exact ⟨⟨⟨other _ (by decide), other _ (by decide)⟩, other _ (by decide)⟩,
        other _ (by decide), by omega⟩
    · simp only [isHostnameChar, Bool.or_eq_true, Bool.and_eq_true, decide_eq_true_iff,
        UInt8.le_iff_toNat_le, UInt8.reduceToNat]
      omega
  · exact ⟨by decide, by decide, by decide, by decide, fun u => by cases u <;> decide⟩
  · exact ⟨by decide, by decide, by decide, by decide, fun u => by cases u <;> decide⟩

theorem mem_dottedQuad {a : ℕ} (member : b ∈ dottedQuad a) : isDigit 10 b = true ∨ b = 46 := by
  simp only [dottedQuad, mem_append, mem_cons] at member
  rcases member with digit | rfl | digit | rfl | digit | rfl | digit
  all_goals first | exact .inr rfl | exact .inl (isDigit_of_mem_digits _ b digit)

/-- The text of an IPv4 address is read as that address. -/
theorem hostRead_dottedQuad {config : UrlConfig} {sys : AddressText} (numeric : NumericText sys)
    {a : Ip.Address} (given : a.IsAnyAddr = false) (v4 : a.IsIPv4 = true) (standard : Bool) :
    HostRead config sys (ToHostname sys a 256) (ToHostname sys a 256) standard := by
  have quad : ToHostname sys a 256 = dottedQuad a.GetInAddr := by
    simp [ToHostname, NtoA, given, v4]
  obtain ⟨ne, lower, first, last, dots⟩ := ToHostname_plain numeric.plain given
  have address : hostAddr sys (dottedQuad a.GetInAddr) = some a := by
    simp [hostAddr, numeric.read4 a v4, Option.filter, given]
  have stored : SetHost sys (ToHostname sys a 256) = ToHostname sys a 256 := by
    rw [SetHost, quad, address]
    exact quad
  rw [quad] at *
  have bytes : ∀ b ∈ dottedQuad a.GetInAddr, IsAddressByte b ∧ b ≠ 58 := by
    intro b member
    rcases mem_dottedQuad member with digit | rfl
    · have range := (isDigit_ten_iff b).mp digit
      refine ⟨.inl ((isDigit_sixteen_iff b).mpr (.inl range)), ?_⟩
      rintro rfl
      exact absurd digit (by decide)
    · exact ⟨.inr (.inr rfl), by decide⟩
  have bracket : (dottedQuad a.GetInAddr).head? ≠ some 91 := fun open_ =>
    absurd (bytes 91 (mem_of_head? open_)).1.plain.2.2.1 (not_not_intro rfl)
  refine ⟨fun b member => ?_, hostMissing_name bracket (.inl ne),
    splitPort_name bracket (.inl fun member => (bytes 58 member).2 rfl),
    map_toLower_eq_iff.mp lower, fun b member => (bytes b member).1.plain.1,
    fun _ => all_eq_true.mpr fun b member => (bytes b member).1.plain.2.2.2.2 _,
    fullHost_eq_self (map_toLower_eq_iff.mp lower) last ?_, dots, first, stored⟩
  · exact ⟨(bytes b member).1.plain.1, (bytes b member).1.plain.2.1⟩
  · have dot : 46 ∈ dottedQuad a.GetInAddr := by simp [dottedQuad]
    simp [addedDomain, dot]

/-- The text of an IPv6 address is read behind the bracket. -/
theorem hostRead_brackets {config : UrlConfig} {sys : AddressText} (numeric : NumericText sys)
    {a : Ip.Address} (given : a.IsAnyAddr = false) (v6 : a.IsIPv4 = false) (standard : Bool) :
    HostRead config sys (ToHostname sys a 256) (sys.inet_ntop a) standard := by
  have text : ToHostname sys a 256 = 91 :: (sys.inet_ntop a ++ [93]) := by
    have short := numeric.length a
    simp [ToHostname, NtoA, given, v6, show (sys.inet_ntop a).length < 248 by omega]
  have bytes : ∀ b ∈ sys.inet_ntop a, IsAddressByte b := numeric.letters a
  have lower : ∀ b ∈ sys.inet_ntop a, toLower b = b :=
    map_toLower_eq_iff.mp (numeric.plain a).1
  have split : ∀ port, splitPort (ToHostname sys a 256 ++ portText standard port) =
      (sys.inet_ntop a, if standard then none else some (digits port)) := by
    intro port
    have open_ : (ToHostname sys a 256 ++ portText standard port).head? = some 91 := by
      rw [text]
      rfl
    have inner : ∀ b ∈ sys.inet_ntop a, (b != 93) = true := fun b member =>
      bne_iff_ne.mpr (bytes b member).plain.2.2.2.1
    have name : (ToHostname sys a 256 ++ portText standard port).tail.takeWhile (· != 93) =
        sys.inet_ntop a := by
      rw [text, cons_append, tail_cons, List.append_assoc, takeWhile_append_of_pos inner]
      simp
    have behind : (ToHostname sys a 256 ++ portText standard port).drop
        ((sys.inet_ntop a).length + 1) = 93 :: portText standard port := by
      rw [text, cons_append, drop_succ_cons, List.append_assoc, drop_left]
      rfl
    rw [splitPort, if_pos open_]
    dsimp only
    rw [name, behind]
    cases standard <;> rfl
  have stored : SetHost sys (sys.inet_ntop a) = ToHostname sys a 256 := by
    have address : hostAddr sys (sys.inet_ntop a) = some a := by
      simp [hostAddr, numeric.read6 a v6, Option.filter, given]
    rw [SetHost, address]
    rfl
  refine ⟨fun b member => ?_, fun port missing => ?_, split, lower,
    fun b member => (bytes b member).plain.1,
    fun _ => all_eq_true.mpr fun b member => (bytes b member).plain.2.2.2.2 _,
    fullHost_eq_self lower (numeric.last a) ?_, (numeric.plain a).2, numeric.first a, stored⟩
  · rw [text, mem_cons, mem_append, mem_singleton] at member
    rcases member with rfl | inside | rfl
    · exact ⟨by decide, by decide⟩
    · exact ⟨(bytes b inside).plain.1, (bytes b inside).plain.2.1⟩
    · exact ⟨by decide, by decide⟩
  · rw [hostMissing, if_pos (by rw [text]; rfl), split port] at missing
    have colon := (takeWhile_subset _) (numeric.colon a)
    rw [show sys.inet_ntop a = [] from missing] at colon
    exact absurd colon not_mem_nil
  · have colon := (takeWhile_subset _) (numeric.colon a)
    simp [addedDomain, colon]

/-! ## Reading the canonical text -/

/-- What is printed behind the scheme. -/
def restText (login host : Bytes) (standard : Bool) (port : ℕ) (urlpath : Bytes) : Bytes :=
  login ++ (if login ≠ [] then [64] else []) ++ (host ++ portText standard port) ++ urlpath

/-- The login that is printed in front of a host without `@`. -/
theorem splitLogin_text {login rest : Bytes} (plain : 64 ∉ rest) :
    splitLogin (login ++ (if login ≠ [] then [64] else []) ++ rest) = (login, rest) := by
  have noAt : ∀ b ∈ rest.reverse, (b != 64) = true := fun b member =>
    bne_iff_ne.mpr fun same => plain (same ▸ mem_reverse.mp member)
  rcases eq_or_ne login [] with rfl | ne
  · simp [splitLogin, plain]
  · have member : 64 ∈ login ++ [64] ++ rest := by simp
    rw [if_pos ne, splitLogin, if_pos member, List.rdropWhile, List.rtakeWhile, reverse_append,
      dropWhile_append_of_pos noAt, takeWhile_append_of_pos noAt]
    simp

variable {n : ℕ}

theorem endsHost_digits : ∀ b ∈ digits n, endsHost b = false := by
  intro b member
  have range := (isDigit_ten_iff b).mp (isDigit_of_mem_digits n b member)
  have address : IsAddressByte b := .inl ((isDigit_sixteen_iff b).mpr (.inl range))
  exact address.plain.1

theorem atoi_digits (small : n < 2 ^ 31) : atoi (digits n) = n := by
  have read := @strtoll_decimal n (by omega) (by omega) [] rfl
  rw [List.append_nil, decimal_of_nonneg (by omega), Int.toNat_natCast] at read
  rw [atoi, read]
  exact int32_eq (by omega) (by omega)

/-- The bytes in front of the path are none at which the host ends. -/
theorem portText_plain (standard : Bool) (port : ℕ) :
    ∀ b ∈ portText standard port, endsHost b = false ∧ b ≠ 64 := by
  intro b member
  cases standard with
  | true => exact absurd member not_mem_nil
  | false =>
      rcases mem_cons.mp member with rfl | digit
      · exact ⟨by decide, by decide⟩
      · refine ⟨endsHost_digits b digit, ?_⟩
        rintro rfl
        exact absurd (isDigit_of_mem_digits port 64 digit) (by decide)

theorem urlParseProtocol_const_str {protocol : ProtocolType} (scheme : protocol ≠ .PROTO_NONE)
    (rest : Bytes) :
    (const_str protocol ++ 58 :: rest).takeWhile (· != 58) = const_str protocol ∧
      (const_str protocol ++ 58 :: rest).dropWhile (· != 58) = 58 :: rest ∧
      urlParseProtocol (const_str protocol) = protocol := by
  cases protocol
  all_goals first | exact absurd rfl scheme | exact ⟨rfl, rfl, by decide +kernel⟩

section Canonical

variable {config : UrlConfig} {sys : AddressText} {url : Bytes} {request : UrlRequest}

/-- A URL with `://` is checked by its parts. -/
theorem parseUrl_eq {src : Bytes} (found : url.dropWhile (· != 58) = 58 :: 47 :: 47 :: src) :
    parseUrl config sys url =
      if schemePart url ≠ .PROTO_NONE ∧ hostMissing (hostText url) then none
      else checkParts config sys (schemePart url) (hostPart url) (loginPart url) (pathPart url)
        (portPart url) := by
  have inside : authority url = src.takeWhile fun b => !endsHost b := by
    rw [authority, found]
    rfl
  have path : pathPart url = pathFrom (src.dropWhile fun b => !endsHost b) := by
    rw [pathPart, found]
    rfl
  unfold parseUrl
  simp only [found]
  rw [← inside, ← path]
  rfl

/-- A URL without `://` is not accepted. -/
theorem parseUrl_eq_none (missing : ∀ src, url.dropWhile (· != 58) ≠ 58 :: 47 :: 47 :: src) :
    parseUrl config sys url = none := by
  unfold parseUrl
  split
  · exact absurd ‹_› (missing _)
  · rfl

variable {protocol : ProtocolType}

/-- The canonical text is split behind its scheme. -/
theorem canonicalText_scheme (scheme : protocol ≠ .PROTO_NONE) (login host : Bytes) (port : ℕ)
    (urlpath : Bytes) :
    (canonicalText protocol login host port urlpath).dropWhile (· != 58) =
        58 :: 47 :: 47 :: restText login host (port = urlDefaultPort protocol) port urlpath ∧
      schemePart (canonicalText protocol login host port urlpath) = protocol := by
  have text : canonicalText protocol login host port urlpath = const_str protocol ++
      58 :: 47 :: 47 :: restText login host (port = urlDefaultPort protocol) port urlpath := by
    simp [canonicalText, restText, portText, ascii]
  obtain ⟨front, behind, known⟩ := urlParseProtocol_const_str scheme
    (47 :: 47 :: restText login host (port = urlDefaultPort protocol) port urlpath)
  rw [schemePart, text, front, behind]
  exact ⟨rfl, known⟩

/-- The host ends where the path starts. -/
theorem restText_split {login host urlpath : Bytes} {standard : Bool} {port : ℕ}
    (loginPlain : ∀ b ∈ login, endsHost b = false) (hostPlain : ∀ b ∈ host, endsHost b = false)
    (starts : StartsPath urlpath) :
    (restText login host standard port urlpath).takeWhile (fun b => !endsHost b) =
        login ++ (if login ≠ [] then [64] else []) ++ (host ++ portText standard port) ∧
      (restText login host standard port urlpath).dropWhile (fun b => !endsHost b) = urlpath := by
  have inside : ∀ b ∈ login ++ (if login ≠ [] then [64] else []) ++
      (host ++ portText standard port), (!endsHost b) = true := by
    intro b member
    rw [Bool.not_eq_true', ← Bool.not_eq_true]
    intro ends
    rw [mem_append, mem_append, mem_append] at member
    rcases member with (inLogin | mark) | inHost | inPort
    · simp [loginPlain b inLogin] at ends
    · split_ifs at mark
      · rw [mem_singleton.mp mark] at ends
        exact absurd ends (by decide)
      · exact absurd mark not_mem_nil
    · simp [hostPlain b inHost] at ends
    · simp [(portText_plain standard port b inPort).1] at ends
  have stop : urlpath.takeWhile (fun b => !endsHost b) = [] ∧
      urlpath.dropWhile (fun b => !endsHost b) = urlpath := by
    obtain ⟨b, first, kind⟩ := starts
    have ends : endsHost b = true := by
      rcases kind with rfl | blank
      · rfl
      · simp [endsHost, blank]
    cases urlpath with
    | nil => simp at first
    | cons c tail =>
        rw [List.head?_cons, mem_some_iff] at first
        subst first
        simp [ends]
  constructor
  · rw [restText, takeWhile_append_of_pos inside, stop.1, List.append_nil]
  · rw [restText, dropWhile_append_of_pos inside, stop.2]

/-- The parts of the canonical text. -/
theorem canonicalText_parts {protocol : ProtocolType} (scheme : protocol ≠ .PROTO_NONE)
    {login host urlpath : Bytes} {port : ℕ} (loginPlain : ∀ b ∈ login, endsHost b = false)
    (hostPlain : ∀ b ∈ host, endsHost b = false) (starts : StartsPath urlpath)
    (line : OneLine urlpath) :
    authority (canonicalText protocol login host port urlpath) =
        login ++ (if login ≠ [] then [64] else []) ++
          (host ++ portText (port = urlDefaultPort protocol) port) ∧
      pathPart (canonicalText protocol login host port urlpath) = urlpath := by
  obtain ⟨behind, -⟩ := canonicalText_scheme scheme login host port urlpath
  obtain ⟨front, path⟩ := restText_split loginPlain hostPlain starts
  rw [authority, pathPart, behind]
  change List.takeWhile _ (restText login host (port = urlDefaultPort protocol) port urlpath) = _ ∧
    pathFrom (List.dropWhile _ (restText login host (port = urlDefaultPort protocol) port urlpath)) =
      _
  rw [front, path]
  exact ⟨rfl, pathFrom_of_startsPath starts line⟩

variable {host login urlpath : Bytes} {port : ℕ}

/-- A canonical text whose host is read again is checked by the parts it was printed from. -/
theorem parseUrl_canonicalText (scheme : protocol ≠ .PROTO_NONE)
    (loginPlain : ∀ b ∈ login, endsHost b = false)
    (read : HostRead config sys host name (port = urlDefaultPort protocol))
    (starts : StartsPath urlpath) (line : OneLine urlpath) (small : port < 2 ^ 31) :
    parseUrl config sys (canonicalText protocol login host port urlpath) =
      checkParts config sys protocol name login urlpath port := by
  obtain ⟨behind, known⟩ := canonicalText_scheme scheme login host port urlpath
  obtain ⟨front, path⟩ := canonicalText_parts scheme loginPlain
    (fun b member => (read.plain b member).1) starts line
  have noAt : 64 ∉ host ++ portText (port = urlDefaultPort protocol) port := by
    rw [mem_append]
    rintro (inHost | inPort)
    · exact (read.plain 64 inHost).2 rfl
    · exact (portText_plain _ port 64 inPort).2 rfl
  have split := @splitLogin_text login _ noAt
  rw [← front] at split
  have text : hostText (canonicalText protocol login host port urlpath) =
      host ++ portText (port = urlDefaultPort protocol) port := congrArg Prod.snd split
  have inLogin : loginPart (canonicalText protocol login host port urlpath) = login :=
    congrArg Prod.fst split
  have name : hostPart (canonicalText protocol login host port urlpath) = name := by
    change (splitPort (hostText _)).1 = name
    rw [text, read.split port]
  have number : portPart (canonicalText protocol login host port urlpath) = port := by
    rw [portPart, text, read.split port, known]
    by_cases standard : port = urlDefaultPort protocol
    · simp [standard, portOf]
    · simp [standard, portOf, atoi_digits small]
  rw [parseUrl_eq behind, text, known, name, inLogin, number, path,
    if_neg fun missing => read.present port missing.2]

/-- What is read is checked and stored as it is. -/
theorem checkParts_of_hostRead (read : HostRead config sys host name standard)
    (clean : cleanPath config urlpath = some urlpath) (range : 1 ≤ port ∧ port ≤ 65535)
    (short : login.length ≤ 127) :
    checkParts config sys protocol name login urlpath port =
      some { protocol := protocol, login := login, host := host, port := port, urlpath := urlpath } := by
  have lower : name.map toLower = name := map_toLower_eq_iff.mpr read.lower
  have noSpace : stringHasWhitespace name = false := by
    refine stringHasWhitespace_eq_false.mpr fun b member space => ?_
    have inside := read.noSpace b member
    simp [endsHost, isSpace_of_mem space] at inside
  have full : (addDomain config name).rdropWhile (· == 46) = name := by
    have same := read.full
    rwa [fullHost, lower] at same
  have valid : ¬ (config.check_hostnames = true ∧
      (!name.all (isHostnameChar config.allow_underscore)) = true) := by
    rintro ⟨check, invalid⟩
    simp [read.valid check] at invalid
  have dots : ¬ (hasDoubleDot name = true ∨ name.head? = some 46) :=
    not_or.mpr ⟨by simp [read.dots], read.first⟩
  unfold checkParts
  simp only [lower, noSpace, Bool.false_eq_true, false_and, if_false]
  rw [if_neg valid, full, if_neg dots, if_neg (by omega), clean]
  simp only [bind_eq_bind, bind_some, Option.pure_def, urlParseFinish, read.stored,
    take_of_length_le (show login.length ≤ MAX_LOGIN_SZ - 1 from short)]
  congr
  omega

/-- A login is in front of the host. -/
theorem loginPart_plain (url : Bytes) : ∀ b ∈ loginPart url, endsHost b = false := by
  intro b member
  have part : b ∈ authority url := by
    unfold loginPart splitLogin at member
    split at member
    · exact (List.rdropWhile_prefix _ _).subset (dropLast_subset _ member)
    · exact absurd member not_mem_nil
  simpa using mem_takeWhile_imp part

/-- What is printed for an accepted host is read as that host. -/
theorem exists_hostRead (numeric : NumericText sys)
    (dots : hasDoubleDot (fullHost config (hostPart url)) = false)
    (first : (fullHost config (hostPart url)).head? ≠ some 46)
    (read : hostAddr sys (fullHost config (hostPart url)) = none →
      NameRead config sys (nameOf config (hostPart url)) standard) :
    ∃ name, HostRead config sys (SetHost sys (fullHost config (hostPart url))) name standard := by
  unfold SetHost
  cases found : hostAddr sys (fullHost config (hostPart url)) with
  | some a =>
      have given : a.IsAnyAddr = false := by
        have kept := (filter_eq_some_iff.mp found).2
        simpa using kept
      cases family : a.IsIPv4 with
      | true => exact ⟨_, hostRead_dottedQuad numeric given family standard⟩
      | false => exact ⟨_, hostRead_brackets numeric given family standard⟩
  | none =>
      refine ⟨_, (read found).hostRead (length_take_le _ _) ?_ ?_⟩
      · rw [← take_append_drop 255 (fullHost config (hostPart url))] at dots
        exact (hasDoubleDot_append.mp dots).1
      · rwa [nameOf, List.head?_take, if_neg (by decide)]

variable {method : UrlMethod}

/-- The canonical text of a URL is no `urn:` and no asterisk. -/
theorem urlParse_canonicalText (noConnect : method ≠ .METHOD_CONNECT)
    (scheme : protocol ≠ .PROTO_URN)
    (fits : (canonicalText protocol login host port urlpath).length +
      (config.appendDomain.getD []).length ≤ MAX_URL - 1) :
    urlParse config sys method (canonicalText protocol login host port urlpath) =
      parseUrl config sys (canonicalText protocol login host port urlpath) := by
  have text : canonicalText protocol login host port urlpath = const_str protocol ++
      58 :: 47 :: 47 :: restText login host (port = urlDefaultPort protocol) port urlpath := by
    simp [canonicalText, restText, portText, ascii]
  have colon : 58 ∈ canonicalText protocol login host port urlpath := by
    rw [text]
    simp
  have asterisk : canonicalText protocol login host port urlpath ≠ [42] := by
    intro same
    rw [same] at colon
    exact absurd colon (by decide)
  have urn : (canonicalText protocol login host port urlpath).take 4 ≠ ascii "urn:" := by
    rw [text]
    cases protocol
    all_goals first | exact absurd rfl scheme | simp [const_str, ascii]
  unfold urlParse
  rw [if_neg (by omega), if_neg noConnect, if_neg fun both => asterisk both.2, if_neg urn]

/-- What the checks require, and what is stored. -/
theorem checkParts_iff {port : ℤ} (noSpace : stringHasWhitespace (host.map toLower) = false) :
    checkParts config sys protocol host login urlpath port = some request ↔
      (config.check_hostnames = true →
        (host.map toLower).all (isHostnameChar config.allow_underscore) = true) ∧
      hasDoubleDot (fullHost config host) = false ∧ (fullHost config host).head? ≠ some 46 ∧
      (1 ≤ port ∧ port ≤ 65535) ∧
      ∃ path, cleanPath config urlpath = some path ∧
        request = urlParseFinish sys protocol path (fullHost config host) login port := by
  have full : (addDomain config (host.map toLower)).rdropWhile (· == 46) =
      fullHost config host := rfl
  unfold checkParts
  simp only [noSpace, Bool.false_eq_true, false_and, if_false, full]
  split_ifs with letters dots range
  · refine iff_of_false (by simp) fun all => ?_
    have valid := all.1 letters.1
    simp [valid] at letters
  · exact iff_of_false (by simp) fun all => dots.elim (by simp [all.2.1]) all.2.2.1
  · refine iff_of_false (by simp) fun all => ?_
    omega
  · rw [not_or] at dots
    have valid : config.check_hostnames = true →
        (host.map toLower).all (isHostnameChar config.allow_underscore) = true := by
      intro check
      by_contra invalid
      exact letters ⟨check, by simpa using invalid⟩
    rw [and_iff_right valid, and_iff_right (Bool.eq_false_of_not_eq_true dots.1),
      and_iff_right dots.2, and_iff_right (by omega)]
    cases cleanPath config urlpath with
    | none => simp
    | some path => simp [eq_comm]

/-- The canonical text of a URL that is not `urn:` fits if it is read again. -/
theorem urlCanonical_eq (noConnect : method ≠ .METHOD_CONNECT)
    (scheme : request.protocol ≠ .PROTO_URN) :
    urlCanonical method request = (canonicalText request.protocol request.login request.host
      request.port request.urlpath).take (MAX_URL - 1) := by
  unfold urlCanonical
  rw [if_neg scheme, if_neg noConnect]
  rfl

/-- What the host in a URL does not have is in the domain. -/
theorem nameOf_of_mem {c : UInt8} (other : c ∉ host.map toLower) (member : c ∈ nameOf config host) :
    nameOf config host = fullHost config host ∧ addedDomain config host ≠ [] := by
  rcases Nat.lt_or_ge 255 (fullHost config host).length with long | short
  · rw [nameOf, (take_fullHost long).2, map_take] at member
    exact absurd (mem_of_mem_take member) other
  · have same : nameOf config host = fullHost config host := take_of_length_le short
    refine ⟨same, fun none => ?_⟩
    have front := prefix_fullHost config host
    rw [none, List.append_nil] at front
    exact other (front.subset (same ▸ member))

theorem at_notMem_hostPart (url : Bytes) : 64 ∉ (hostPart url).map toLower := by
  intro member
  rw [mem_map_toLower_iff (by decide) (by decide)] at member
  have inText : 64 ∈ hostText url := (splitPort_sublist _).subset member
  unfold hostText splitLogin at inText
  split at inText
  · exact absurd (mem_rtakeWhile_imp inText) (by decide)
  · exact absurd inText ‹_›

/-- The login ends at the last `@`. -/
theorem splitLogin_mark {front host rest : Bytes} (mark : 64 ∈ host) (plain : 64 ∉ rest) :
    splitLogin (front ++ (host ++ rest)) =
      (front ++ (host.rdropWhile (· != 64)).dropLast, host.rtakeWhile (· != 64) ++ rest) := by
  have noAt : ∀ b ∈ rest.reverse, (b != 64) = true := fun b member =>
    bne_iff_ne.mpr fun same => plain (same ▸ mem_reverse.mp member)
  obtain ⟨back, tail, split⟩ := append_of_mem (mem_reverse.mpr mark)
  have taken : (host.reverse ++ front.reverse).takeWhile (· != 64) =
      host.reverse.takeWhile (· != 64) := by
    rw [split, List.append_assoc, cons_append, takeWhile_stop (p := (· != 64)) rfl,
      takeWhile_stop (p := (· != 64)) rfl]
  have left : host.reverse.dropWhile (· != 64) ≠ [] := by
    rw [ne_eq, dropWhile_eq_nil_iff]
    intro all
    simpa using all 64 (mem_reverse.mpr mark)
  have dropped : (host.reverse ++ front.reverse).dropWhile (· != 64) =
      host.reverse.dropWhile (· != 64) ++ front.reverse := by
    rw [dropWhile_append, if_neg (by simpa using left)]
  have member : 64 ∈ front ++ (host ++ rest) := by simp [mark]
  rw [splitLogin, if_pos member, List.rdropWhile, List.rtakeWhile, reverse_append,
    reverse_append, List.append_assoc, dropWhile_append_of_pos noAt,
    takeWhile_append_of_pos noAt, taken, dropped, reverse_append, reverse_reverse,
    dropLast_append_of_ne_nil (by simpa using left), reverse_append, reverse_reverse]
  rfl

theorem hostMissing_imp {text : Bytes} (missing : hostMissing text) : (splitPort text).1 = [] := by
  unfold hostMissing at missing
  split at missing
  · exact missing
  · rw [missing]
    rfl

/-- A host with a domain is not empty. -/
theorem ne_nil_of_addedDomain (first : (fullHost config host).head? ≠ some 46)
    (ne : fullHost config host ≠ []) : host ≠ [] := by
  rintro rfl
  obtain ⟨b, member, -⟩ := (fullHost_ne_nil_iff first).mp ne
  exact absurd member not_mem_nil

theorem fullHost_congr {a b : Bytes} (same : a.map toLower = b.map toLower) :
    fullHost config a = fullHost config b := by
  rw [fullHost, fullHost, same]

/-- A login that is cut in front of the domain is read again. -/
theorem parseUrl_domainLogin (corner : DomainLogin config url)
    (scheme : schemePart url ≠ .PROTO_NONE)
    (noAddress : hostAddr sys (fullHost config (hostPart url)) = none)
    (valid : config.check_hostnames = true →
      ((hostPart url).map toLower).all (isHostnameChar config.allow_underscore) = true)
    (dots : hasDoubleDot (fullHost config (hostPart url)) = false)
    (first : (fullHost config (hostPart url)).head? ≠ some 46)
    (range : 1 ≤ portPart url ∧ portPart url ≤ 65535) {path : Bytes} (starts : StartsPath path)
    (line : OneLine path) (again : cleanPath config path = some path) :
    parseUrl config sys (canonicalText (schemePart url) ((loginPart url).take (MAX_LOGIN_SZ - 1))
      (SetHost sys (fullHost config (hostPart url))) (portPart url).toNat path) =
      some (urlParseFinish sys (schemePart url) path (fullHost config (hostPart url))
        (loginPart url) (portPart url)) := by
  obtain ⟨same, domain⟩ := nameOf_of_mem (at_notMem_hostPart url) corner.mark
  have stored : SetHost sys (fullHost config (hostPart url)) = nameOf config (hostPart url) := by
    rw [SetHost, noAddress]
    rfl
  have cutLength : ((loginPart url).take (MAX_LOGIN_SZ - 1)).length = MAX_LOGIN_SZ - 1 :=
    length_take_of_le corner.cut
  have someLogin : (loginPart url).take (MAX_LOGIN_SZ - 1) ≠ [] :=
    ne_nil_of_length_pos (by rw [cutLength]; decide)
  have loginPlain : ∀ b ∈ (loginPart url).take (MAX_LOGIN_SZ - 1), endsHost b = false :=
    fun b member => loginPart_plain url b (mem_of_mem_take member)
  have standard : decide ((portPart url).toNat = urlDefaultPort (schemePart url)) =
      decide (portPart url = urlDefaultPort (schemePart url)) :=
    decide_eq_decide.mpr (by omega)
  rw [stored]
  generalize text : canonicalText (schemePart url) ((loginPart url).take (MAX_LOGIN_SZ - 1))
    (nameOf config (hostPart url)) (portPart url).toNat path = T
  obtain ⟨behind, known⟩ := canonicalText_scheme scheme ((loginPart url).take (MAX_LOGIN_SZ - 1))
    (nameOf config (hostPart url)) (portPart url).toNat path
  obtain ⟨front, inPath⟩ := @canonicalText_parts _ scheme _ _ path (portPart url).toNat loginPlain
    corner.plain starts line
  rw [text] at behind known front inPath
  rw [if_pos someLogin, standard] at front
  have split := @splitLogin_mark ((loginPart url).take (MAX_LOGIN_SZ - 1) ++ [64]) _
    (portText (portPart url = urlDefaultPort (schemePart url)) (portPart url).toNat)
    corner.mark fun member => (portText_plain _ _ 64 member).2 rfl
  rw [← front] at split
  have inText : hostText T = (nameOf config (hostPart url)).rtakeWhile (· != 64) ++
      portText (portPart url = urlDefaultPort (schemePart url)) (portPart url).toNat :=
    congrArg Prod.snd split
  have inLogin : (loginPart T).take (MAX_LOGIN_SZ - 1) =
      (loginPart url).take (MAX_LOGIN_SZ - 1) := by
    rw [loginPart, split]
    rw [List.append_assoc, take_append_of_le_length cutLength.ge, take_of_length_le cutLength.le]
  have name : (hostPart T).map toLower = (hostPart url).map toLower := by
    have read := corner.host
    rwa [← inText] at read
  have number : portPart T = portPart url := by
    have read := corner.port
    rwa [← inText, ← known] at read
  have present : ¬ (schemePart T ≠ .PROTO_NONE ∧ hostMissing (hostText T)) := by
    rintro ⟨-, missing⟩
    have none : hostPart T = [] := hostMissing_imp missing
    rw [none, List.map_nil, eq_comm, map_eq_nil_iff] at name
    exact ne_nil_of_addedDomain first (same ▸ ne_nil_of_mem corner.mark) name
  have full : fullHost config (hostPart T) = fullHost config (hostPart url) := fullHost_congr name
  rw [parseUrl_eq behind, if_neg present, checkParts_iff (hostPart_noSpace T), name, full, number,
    inPath, known]
  refine ⟨valid, dots, first, range, path, again, ?_⟩
  rw [urlParseFinish, urlParseFinish, inLogin]

/-- An accepted URL is a `urn:`, an asterisk, or is accepted by its parts. -/
theorem urlParse_eq_some (noConnect : method ≠ .METHOD_CONNECT)
    (accepted : urlParse config sys method url = some request) :
    url.length + (config.appendDomain.getD []).length ≤ MAX_URL - 1 ∧
      ((url.take 4 = ascii "urn:" ∧ request = urnParse url) ∨
        ((method = .METHOD_OPTIONS ∨ method = .METHOD_TRACE) ∧ url = [42] ∧
          request = urlParseFinish sys .PROTO_HTTP url [] [] 80) ∨
        (url.take 4 ≠ ascii "urn:" ∧
          ¬ ((method = .METHOD_OPTIONS ∨ method = .METHOD_TRACE) ∧ url = [42]) ∧
          ¬ (schemePart url ≠ .PROTO_NONE ∧ hostMissing (hostText url)) ∧
          checkParts config sys (schemePart url) (hostPart url) (loginPart url) (pathPart url)
            (portPart url) = some request)) := by
  unfold urlParse at accepted
  rw [if_neg noConnect] at accepted
  split_ifs at accepted with long asterisk urn
  · refine ⟨by omega, .inr (.inl ⟨asterisk.1, asterisk.2, ?_⟩)⟩
    exact (some.inj accepted).symm
  · exact ⟨by omega, .inl ⟨urn, (some.inj accepted).symm⟩⟩
  · refine ⟨by omega, .inr (.inr ⟨urn, asterisk, ?_⟩)⟩
    by_cases found : ∃ src, url.dropWhile (· != 58) = 58 :: 47 :: 47 :: src
    · obtain ⟨src, found⟩ := found
      rw [parseUrl_eq found] at accepted
      split_ifs at accepted with missing
      exact ⟨missing, accepted⟩
    · rw [parseUrl_eq_none fun src same => found ⟨src, same⟩] at accepted
      simp at accepted

theorem urlParseFinish_of_port {port : ℤ} (range : 0 ≤ port ∧ port < 2 ^ 16)
    (protocol : ProtocolType) (urlpath host login : Bytes) :
    urlParseFinish sys protocol urlpath host login port =
      { protocol, login := login.take (MAX_LOGIN_SZ - 1), host := SetHost sys host
        port := port.toNat, urlpath } := by
  rw [urlParseFinish, Int.emod_eq_of_lt range.1 range.2]

/-- A canonical URL is read as the request that it was printed from. -/
theorem urlParse_of_partsRead (numeric : NumericText sys) (noConnect : method ≠ .METHOD_CONNECT)
    (scheme : request.protocol ≠ .PROTO_NONE)
    (accepted : urlParse config sys method url = some request) (read : url.take 4 = ascii "urn:" ∨
      ¬ ((method = .METHOD_OPTIONS ∨ method = .METHOD_TRACE) ∧ url = [42]) ∧
        PartsRead config sys url) :
    urlParse config sys method (urlCanonical method request) = some request := by
  obtain ⟨fits, ⟨urn, rfl⟩ | ⟨options, rfl, rfl⟩ | ⟨noUrn, noAsterisk, -, checked⟩⟩ :=
    urlParse_eq_some noConnect accepted
  · have same : urlCanonical method (urnParse url) = url := by
      have text : urlCanonical method (urnParse url) =
          (url.take 4 ++ url.drop 4).take (MAX_URL - 1) := by
        rw [urn]
        rfl
      rw [text, take_append_drop, take_of_length_le (by omega)]
    rwa [same]
  · rcases read with urn | ⟨other, -⟩
    · exact absurd urn (by decide)
    · exact absurd ⟨options, rfl⟩ other
  · have parts := (read.resolve_left noUrn).2
    obtain ⟨valid, dots, first, range, path, cleaned, rfl⟩ :=
      (checkParts_iff (hostPart_noSpace url)).mp checked
    obtain ⟨starts, line, again⟩ := cleanPath_kept (pathPart_startsPath url)
      (pathFrom_oneLine _) parts.path cleaned
    have port : ((portPart url).toNat : ℤ) = portPart url := by omega
    have stored := @urlParseFinish_of_port sys (portPart url) (by omega) (schemePart url) path
      (fullHost config (hostPart url)) (loginPart url)
    have length := parts.length path cleaned
    rw [stored, urlCanonical_eq noConnect parts.scheme]
    dsimp only
    rw [take_of_length_le (by omega), urlParse_canonicalText noConnect parts.scheme length]
    by_cases corner : hostAddr sys (fullHost config (hostPart url)) = none ∧ DomainLogin config url
    · rw [parseUrl_domainLogin corner.2 scheme corner.1 valid dots first range starts line again,
        stored]
    obtain ⟨name, host⟩ := exists_hostRead numeric dots first
      fun none => (parts.host.resolve_left (by simp [none])).resolve_right fun login =>
        corner ⟨none, login⟩
    have standard : decide (portPart url = urlDefaultPort (schemePart url)) =
        decide ((portPart url).toNat = urlDefaultPort (schemePart url)) :=
      decide_eq_decide.mpr (by omega)
    rw [standard] at host
    have loginPlain : ∀ b ∈ (loginPart url).take (MAX_LOGIN_SZ - 1), endsHost b = false :=
      fun b member => loginPart_plain url b (mem_of_mem_take member)
    rw [parseUrl_canonicalText (show schemePart url ≠ .PROTO_NONE from scheme) loginPlain host starts
      line (by omega)]
    exact checkParts_of_hostRead host again (by omega) (length_take_le _ _)

end Canonical

end Url
end Squid
