import Squid.Http.UrlCanonical

/-!
# URLs that are read otherwise from their canonical form

If a canonical URL is read as the request that it was printed from, the URL was one of those whose
parts are found again.
-/

namespace Squid
namespace Url

open CRuntime List Option

/-! ## White space -/

/-- White space is allowed, or there is none. -/
def Clean (config : UrlConfig) (s : Bytes) : Prop :=
  config.uri_whitespace = .URI_WHITESPACE_ALLOW ∨ stringHasWhitespace s = false

section Reread

variable {config : UrlConfig} {sys : AddressText} {url : Bytes} {request : UrlRequest}

variable {s : Bytes}

theorem cleanPath_of_clean (clean : Clean config s) : cleanPath config s = some s := by
  rcases clean with allowed | noSpace
  · unfold cleanPath
    rw [allowed]
    exact ite_self _
  · exact cleanPath_of_noSpace noSpace

variable {cleaned urlpath : Bytes}

/-- No policy leaves white space in a path, if it is not allowed. -/
theorem clean_of_cleanPath (found : cleanPath config urlpath = some cleaned) :
    Clean config cleaned := by
  cases space : stringHasWhitespace urlpath with
  | false =>
      rw [cleanPath_of_noSpace space, some.injEq] at found
      exact .inr (found ▸ space)
  | true =>
      unfold cleanPath at found
      rw [if_pos space] at found
      cases policy : config.uri_whitespace with
      | URI_WHITESPACE_DENY => simp [policy] at found
      | URI_WHITESPACE_ALLOW => exact .inl policy
      | URI_WHITESPACE_ENCODE =>
          simp only [policy, some.injEq] at found
          exact .inr (found ▸ escape_noSpace _ _)
      | URI_WHITESPACE_CHOP =>
          simp only [policy, some.injEq] at found
          refine .inr (stringHasWhitespace_eq_false.mpr fun b member white => ?_)
          rw [← found] at member
          have passed := mem_takeWhile_imp member
          simp only [Bool.not_eq_true'] at passed
          simp [white] at passed
      | URI_WHITESPACE_STRIP =>
          simp only [policy, some.injEq] at found
          exact .inr (found ▸ strip_noSpace _)

variable {b : UInt8}

theorem le_of_isSpace (blank : isSpace b = true) : b ≤ 32 := by
  simp only [isSpace, Bool.or_eq_true, beq_iff_eq, Bool.and_eq_true, decide_eq_true_iff] at blank
  rcases blank with rfl | ⟨-, le⟩
  · exact UInt8.le_refl 32
  · exact UInt8.le_trans le (by decide)

theorem escapes_of_isSpace (blank : isSpace b = true) : escapes b = true := by
  by_contra safe
  have member : b ∈ rfc1738_escape_unescaped [b] := by simp [rfc1738_escape_unescaped, safe]
  exact absurd (lt_of_mem_escape b member) (UInt8.not_lt.mpr (le_of_isSpace blank))

theorem oneLine_of_cleanPath (line : OneLine urlpath)
    (found : cleanPath config urlpath = some cleaned) : OneLine cleaned := by
  rcases clean_of_cleanPath found with allowed | noSpace
  · unfold cleanPath at found
    rw [allowed, ite_self, some.injEq] at found
    exact found ▸ line
  · intro b member
    have other := stringHasWhitespace_eq_false.mp noSpace b member
    constructor <;> rintro rfl <;> exact other (by decide)

/-- A path starts with what it started with if white space in front of it was kept. -/
theorem pathKept_of_startsPath (starts : StartsPath urlpath)
    (found : cleanPath config urlpath = some cleaned) (kept : StartsPath cleaned) :
    PathKept config urlpath := by
  cases space : stringHasWhitespace urlpath with
  | false => exact .inr (.inl space)
  | true =>
      obtain ⟨b, first, kind⟩ := kept
      obtain ⟨c, start, front⟩ := starts
      unfold cleanPath at found
      rw [if_pos space] at found
      unfold PathKept
      cases policy : config.uri_whitespace with
      | URI_WHITESPACE_DENY => exact .inr (.inr trivial)
      | URI_WHITESPACE_ALLOW => exact .inr (.inr trivial)
      | URI_WHITESPACE_ENCODE =>
          simp only [policy, some.injEq] at found
          rw [← found] at first
          rcases front with slash | blank
          · exact .inl (slash ▸ start)
          · cases urlpath with
            | nil => simp at start
            | cons d rest =>
                rw [List.head?_cons, mem_some_iff] at start
                subst start
                have shape : rfc1738_escape_unescaped (d :: rest) =
                    37 :: ([hexDigit (d / 16), hexDigit (d % 16)] ++
                      rfc1738_escape_unescaped rest) := by
                  simp [rfc1738_escape_unescaped, escapes_of_isSpace blank]
                rw [shape, show MAX_URL - 1 = 8190 + 1 from rfl, take_succ_cons,
                  List.head?_cons, mem_some_iff] at first
                subst first
                rcases kind with same | same <;> exact absurd same (by decide)
      | URI_WHITESPACE_CHOP =>
          simp only [policy, some.injEq] at found
          rw [← found] at first
          refine .inr (.inr ⟨c, start, fun white => ?_⟩)
          cases urlpath with
          | nil => simp at start
          | cons d rest =>
              rw [List.head?_cons, mem_some_iff] at start
              subst start
              simp [white] at first
      | URI_WHITESPACE_STRIP =>
          simp only [policy, some.injEq] at found
          rw [← found] at first
          refine .inr (.inr ?_)
          rcases kind with rfl | blank
          · exact first
          · have passed := (mem_filter.mp (mem_of_mem_head? first)).2
            simp [blank] at passed

/-! ## Reading a text that starts with a scheme -/

/-- A text behind a scheme. -/
def schemeText (protocol : ProtocolType) (rest : Bytes) : Bytes :=
  const_str protocol ++ 58 :: 47 :: 47 :: rest

variable {protocol : ProtocolType}

theorem schemeText_parts (scheme : protocol ≠ .PROTO_NONE) (rest : Bytes) :
    (schemeText protocol rest).dropWhile (· != 58) = 58 :: 47 :: 47 :: rest ∧
      schemePart (schemeText protocol rest) = protocol := by
  obtain ⟨front, behind, known⟩ := urlParseProtocol_const_str scheme (47 :: 47 :: rest)
  rw [schemePart, schemeText, front, behind]
  exact ⟨rfl, known⟩

theorem schemeText_ne (scheme : protocol ≠ .PROTO_URN) (rest : Bytes) :
    schemeText protocol rest ≠ [42] ∧ (schemeText protocol rest).take 4 ≠ ascii "urn:" := by
  constructor
  · intro same
    have colon : 58 ∈ schemeText protocol rest := by simp [schemeText]
    rw [same] at colon
    exact absurd colon (by decide)
  · cases protocol
    all_goals first | exact absurd rfl scheme | simp [schemeText, const_str, ascii]

theorem canonicalText_eq (protocol : ProtocolType) (login host : Bytes) (port : ℕ)
    (urlpath : Bytes) :
    canonicalText protocol login host port urlpath =
      schemeText protocol (restText login host (port = urlDefaultPort protocol) port urlpath) := by
  simp [canonicalText, schemeText, restText, portText, ascii]

variable {rest : Bytes}

/-- The path of a text without white space is stored as it is. -/
theorem clean_pathPart (scheme : protocol ≠ .PROTO_NONE) (clean : Clean config rest) :
    Clean config (pathPart (schemeText protocol rest)) := by
  refine clean.imp_right fun noSpace => stringHasWhitespace_eq_false.mpr fun b member => ?_
  rw [pathPart, (schemeText_parts scheme rest).1] at member
  have inside : b = 47 ∨ b ∈ rest := by
    change b ∈ pathFrom (rest.dropWhile fun b => !endsHost b) at member
    rcases pathFrom_cases (rest.dropWhile fun b => !endsHost b) with path | ⟨path, -⟩
    · rw [path, mem_cons] at member
      exact member.imp_right fun line =>
        (dropWhile_suffix _).subset ((List.takeWhile_prefix _).subset line)
    · rw [path] at member
      exact .inr ((dropWhile_suffix _).subset ((List.takeWhile_prefix _).subset member))
  rcases inside with rfl | inside
  · decide
  · exact stringHasWhitespace_eq_false.mp noSpace b inside

variable {method : UrlMethod}

/-- What is stored for a text that starts with a scheme. -/
theorem urlParse_schemeText (noConnect : method ≠ .METHOD_CONNECT) (scheme : protocol ≠ .PROTO_NONE)
    (noUrn : protocol ≠ .PROTO_URN) (clean : Clean config (pathPart (schemeText protocol rest)))
    (accepted : urlParse config sys method (schemeText protocol rest) = some request) :
    (schemeText protocol rest).length + (config.appendDomain.getD []).length ≤ MAX_URL - 1 ∧
      ¬ hostMissing (hostText (schemeText protocol rest)) ∧
      (config.check_hostnames = true →
        ((hostPart (schemeText protocol rest)).map toLower).all
          (isHostnameChar config.allow_underscore) = true) ∧
      (1 ≤ portPart (schemeText protocol rest) ∧ portPart (schemeText protocol rest) ≤ 65535) ∧
      request = urlParseFinish sys protocol (pathPart (schemeText protocol rest))
        (fullHost config (hostPart (schemeText protocol rest)))
        (loginPart (schemeText protocol rest)) (portPart (schemeText protocol rest)) := by
  obtain ⟨fits, ⟨urn, -⟩ | ⟨-, asterisk, -⟩ | ⟨-, -, present, checked⟩⟩ :=
    urlParse_eq_some noConnect accepted
  · exact absurd urn (schemeText_ne noUrn rest).2
  · exact absurd asterisk (schemeText_ne noUrn rest).1
  · rw [(schemeText_parts scheme rest).2] at present checked
    obtain ⟨valid, -, -, range, path, cleaned, stored⟩ :=
      (checkParts_iff (hostPart_noSpace _)).mp checked
    rw [cleanPath_of_clean clean, some.injEq] at cleaned
    exact ⟨fits, fun missing => present ⟨scheme, missing⟩, valid, range, cleaned ▸ stored⟩

/-! ## What is in front of the path -/

/-- What is printed between the scheme and the path. -/
def frontText (login host : Bytes) (standard : Bool) (port : ℕ) : Bytes :=
  login ++ (if login ≠ [] then [64] else []) ++ (host ++ portText standard port)

theorem restText_eq (login host : Bytes) (standard : Bool) (port : ℕ) (urlpath : Bytes) :
    restText login host standard port urlpath = frontText login host standard port ++ urlpath :=
  rfl

/-- The host ends in front of the path if the path is read again. -/
theorem front_plain {front : Bytes} (line : OneLine (front ++ urlpath))
    (same : pathFrom ((front ++ urlpath).dropWhile fun b => !endsHost b) = urlpath) :
    ∀ b ∈ front, endsHost b = false := by
  by_contra found
  push Not at found
  obtain ⟨b, member, ends⟩ := found
  have stops : front.dropWhile (fun b => !endsHost b) ≠ [] := by
    rw [ne_eq, dropWhile_eq_nil_iff]
    intro all
    simpa [ends] using all b member
  rw [dropWhile_append, if_neg (by simpa using stops)] at same
  have rest : OneLine (front.dropWhile (fun b => !endsHost b) ++ urlpath) := by
    intro b inside
    apply line b
    rw [mem_append] at inside ⊢
    exact inside.imp_left fun left => (dropWhile_suffix _).subset left
  have whole : (front.dropWhile (fun b => !endsHost b) ++ urlpath).takeWhile
      (fun b => b != 13 && b != 10) = front.dropWhile (fun b => !endsHost b) ++ urlpath :=
    takeWhile_eq_self_iff.mpr fun b inside => by simpa using rest b inside
  have length := congrArg List.length same
  have positive := length_pos_iff.mpr stops
  rcases pathFrom_cases (front.dropWhile (fun b => !endsHost b) ++ urlpath) with path | ⟨path, -⟩
  all_goals
    rw [path, whole] at length
    simp only [length_cons, length_append] at length
    omega

theorem digits_short {n : ℕ} {k : ℕ} (positive : 0 < k) (small : n < 10 ^ k) :
    (digits n).length ≤ k := by
  rw [digits, length_map]
  exact (Nat.length_toDigits_le_iff (by decide) positive).mpr small

variable {a : Ip.Address}

/-- The text of an address is short. -/
theorem ToHostname_short (numeric : NumericText sys) (given : a.IsAnyAddr = false) :
    (ToHostname sys a 256).length ≤ 47 := by
  have short := numeric.length a
  have part : ∀ n, (digits (n % 256)).length ≤ 3 := fun n =>
    digits_short (by decide) (Nat.lt_of_lt_of_le (Nat.mod_lt n (by decide)) (by decide))
  have one := part (a.GetInAddr / 2 ^ 24)
  have two := part (a.GetInAddr / 2 ^ 16)
  have three := part (a.GetInAddr / 2 ^ 8)
  have four := part a.GetInAddr
  cases v4 : a.IsIPv4 with
  | true =>
      simp only [ToHostname, NtoA, given, v4, Bool.false_eq_true, if_false, if_true, dottedQuad,
        length_append, length_cons]
      omega
  | false =>
      simp only [ToHostname, NtoA, given, v4, Bool.false_eq_true, if_false,
        if_pos (show (sys.inet_ntop a).length < 256 - 8 by omega), length_append,
        length_cons, length_nil]
      omega

variable {src : Bytes}

theorem isAnyAddr_of_hostAddr (found : hostAddr sys src = some a) : a.IsAnyAddr = false := by
  have kept := (filter_eq_some_iff.mp found).2
  simpa using kept

theorem SetHost_of_some (found : hostAddr sys src = some a) :
    SetHost sys src = ToHostname sys a 256 := by
  rw [SetHost, found]
  rfl

/-- What is stored as host is short. -/
theorem SetHost_short (numeric : NumericText sys) (src : Bytes) :
    (SetHost sys src).length ≤ 255 := by
  cases found : hostAddr sys src with
  | none =>
      rw [SetHost, found]
      exact length_take_le _ _
  | some a =>
      rw [SetHost_of_some found]
      exact (ToHostname_short numeric (isAnyAddr_of_hostAddr found)).trans (by decide)

variable {host login : Bytes}

theorem frontText_plain (loginPlain : ∀ b ∈ login, endsHost b = false)
    (hostPlain : ∀ b ∈ host, endsHost b = false) (standard : Bool) (port : ℕ) :
    ∀ b ∈ frontText login host standard port, endsHost b = false := by
  intro b member
  rw [frontText, mem_append, mem_append, mem_append] at member
  rcases member with (inLogin | mark) | inHost | inPort
  · exact loginPlain b inLogin
  · split_ifs at mark
    · rw [mem_singleton.mp mark]
      rfl
    · exact absurd mark not_mem_nil
  · exact hostPlain b inHost
  · exact (portText_plain standard port b inPort).1

theorem frontText_short (loginShort : login.length ≤ 127) (hostShort : host.length ≤ 255)
    (standard : Bool) {port : ℕ} (small : port ≤ 65535) :
    (frontText login host standard port).length ≤ 400 := by
  have number := @digits_short port 5 (by decide) (by omega)
  have mark : (if login ≠ [] then [64] else [] : Bytes).length ≤ 1 := by split <;> simp
  have behind : (portText standard port).length ≤ 6 := by
    cases standard
    · change (digits port).length + 1 ≤ 6
      omega
    · exact Nat.zero_le _
  simp only [frontText, length_append]
  omega

/-- White space in front of the path would be in the domain. -/
theorem frontText_noSpace (loginPlain : ∀ b ∈ login, endsHost b = false)
    (hostClean : stringHasWhitespace host = false) (standard : Bool) (port : ℕ) :
    stringHasWhitespace (frontText login host standard port) = false := by
  have noEnd : ∀ b, endsHost b = false → b ∉ ascii " \t\n\r" := by
    intro b plain space
    simp [endsHost, isSpace_of_mem space] at plain
  refine stringHasWhitespace_eq_false.mpr fun b member => ?_
  rw [frontText, mem_append, mem_append, mem_append] at member
  rcases member with (inLogin | mark) | inHost | inPort
  · exact noEnd b (loginPlain b inLogin)
  · split_ifs at mark
    · rw [mem_singleton.mp mark]
      decide
    · exact absurd mark not_mem_nil
  · exact stringHasWhitespace_eq_false.mp hostClean b inHost
  · exact noEnd b (portText_plain standard port b inPort).1

theorem take_schemeText (protocol : ProtocolType) (rest : Bytes) :
    (schemeText protocol rest).take (MAX_URL - 1) =
        schemeText protocol (rest.take (MAX_URL - 1 - ((const_str protocol).length + 3))) ∧
      (const_str protocol).length ≤ 12 := by
  have short : (const_str protocol).length ≤ 12 := by cases protocol <;> decide
  refine ⟨?_, short⟩
  have room : MAX_URL - 1 - (const_str protocol).length =
      MAX_URL - 1 - ((const_str protocol).length + 3) + 1 + 1 + 1 := by
    unfold MAX_URL
    omega
  rw [schemeText, take_append, take_of_length_le (by unfold MAX_URL; omega), room,
    take_succ_cons, take_succ_cons, take_succ_cons]
  rfl

/-- A canonical URL that is read as what it was printed from is not cut, and splits at its path. -/
theorem fits_of_reread {method : UrlMethod} {protocol : ProtocolType} {login host urlpath : Bytes}
    {port : ℕ} (noConnect : method ≠ .METHOD_CONNECT) (scheme : protocol ≠ .PROTO_NONE)
    (noUrn : protocol ≠ .PROTO_URN) (loginPlain : ∀ b ∈ login, endsHost b = false)
    (loginShort : login.length ≤ 127) (hostClean : stringHasWhitespace host = false)
    (hostShort : host.length ≤ 255) (small : port ≤ 65535)
    (hostPlain : config.appendDomain = none → ∀ b ∈ host, endsHost b = false)
    (line : OneLine urlpath) (clean : Clean config urlpath)
    (again : urlParse config sys method ((canonicalText protocol login host port urlpath).take
      (MAX_URL - 1)) = some request) (same : request.urlpath = urlpath) :
    (canonicalText protocol login host port urlpath).length +
        (config.appendDomain.getD []).length ≤ MAX_URL - 1 ∧ StartsPath urlpath ∧
      ∀ b ∈ frontText login host (port = urlDefaultPort protocol) port, endsHost b = false := by
  have noSpace := frontText_noSpace loginPlain hostClean (port = urlDefaultPort protocol) port
  rw [canonicalText_eq, (take_schemeText protocol _).1, restText_eq] at again
  rw [canonicalText_eq, restText_eq]
  have short := (take_schemeText protocol []).2
  have frontShort := frontText_short loginShort hostShort (port = urlDefaultPort protocol) small
  have plain : config.appendDomain = none →
      ∀ b ∈ frontText login host (port = urlDefaultPort protocol) port, endsHost b = false :=
    fun none => frontText_plain loginPlain (hostPlain none) _ port
  generalize frontText login host (port = urlDefaultPort protocol) port = front at *
  have whole : Clean config (front ++ urlpath) := by
    refine clean.imp_right fun pathClean => stringHasWhitespace_eq_false.mpr fun b member => ?_
    rcases mem_append.mp member with inFront | inPath
    · exact stringHasWhitespace_eq_false.mp noSpace b inFront
    · exact stringHasWhitespace_eq_false.mp pathClean b inPath
  have cut : Clean config ((front ++ urlpath).take
      (MAX_URL - 1 - ((const_str protocol).length + 3))) := by
    refine whole.imp_right fun all => stringHasWhitespace_eq_false.mpr fun b member => ?_
    exact stringHasWhitespace_eq_false.mp all b (mem_of_mem_take member)
  obtain ⟨fits, -, -, -, stored⟩ := urlParse_schemeText noConnect scheme noUrn
    (clean_pathPart scheme cut) again
  have path := congrArg UrlRequest.urlpath stored
  rw [same] at path
  change urlpath = pathPart _ at path
  have starts : StartsPath urlpath := path ▸ pathPart_startsPath _
  have shape : urlpath = pathFrom (((front ++ urlpath).take
      (MAX_URL - 1 - ((const_str protocol).length + 3))).dropWhile fun b => !endsHost b) := by
    rw [pathPart, (schemeText_parts scheme _).1] at path
    exact path
  have length : (schemeText protocol (front ++ urlpath)).length =
      (const_str protocol).length + 3 + front.length + urlpath.length := by
    simp only [schemeText, length_append, length_cons]
    omega
  have lines : OneLine (front ++ urlpath) := by
    intro b member
    rcases mem_append.mp member with inFront | inPath
    · have other := stringHasWhitespace_eq_false.mp noSpace b inFront
      constructor <;> rintro rfl <;> exact other (by decide)
    · exact line b inPath
  rcases Nat.lt_or_ge (MAX_URL - 1) (schemeText protocol (front ++ urlpath)).length with long | fit
  · -- A text that is cut leaves no room for a domain, and its path is cut.
    exfalso
    have room : (schemeText protocol ((front ++ urlpath).take
        (MAX_URL - 1 - ((const_str protocol).length + 3)))).length = MAX_URL - 1 := by
      rw [← (take_schemeText protocol _).1, length_take_of_le long.le]
    have noDomain : config.appendDomain = none := by
      cases given : config.appendDomain with
      | none => rfl
      | some domain =>
          have dotted := config.dotted domain given
          rw [room, given, getD_some] at fits
          cases domain with
          | nil => simp at dotted
          | cons b rest =>
              rw [length_cons] at fits
              omega
    have stop := plain noDomain
    unfold MAX_URL at *
    rw [take_append, take_of_length_le (by omega),
      dropWhile_append_of_pos (fun b member => by simp [stop b member])] at shape
    generalize size : 8192 - 1 - ((const_str protocol).length + 3) - front.length = n at shape
    have cutStarts : StartsPath (urlpath.take n) := by
      obtain ⟨b, first, kind⟩ := starts
      refine ⟨b, ?_, kind⟩
      rwa [List.head?_take, if_neg (by omega)]
    have cutLine : OneLine (urlpath.take n) := fun b member => line b (mem_of_mem_take member)
    have noFront : (urlpath.take n).dropWhile (fun b => !endsHost b) = urlpath.take n :=
      (@restText_split [] [] _ true 0 (by simp) (by simp) cutStarts).2
    rw [noFront, pathFrom_of_startsPath cutStarts cutLine] at shape
    have bound := length_take_le n urlpath
    rw [← shape] at bound
    omega
  · rw [take_of_length_le (by rw [length_append]; omega)] at fits shape
    exact ⟨fits, starts, front_plain lines shape.symm⟩

/-! ## Names that are read again -/

/-- The name that is stored is that in the URL, cut, or it has a dot behind that. -/
theorem nameOf_cases (config : UrlConfig) (host : Bytes) :
    nameOf config host <+: host.map toLower ∨
      ∃ rest, nameOf config host = host.map toLower ++ 46 :: rest ∧ 46 ∉ host ∧ 58 ∉ host ∧
        nameOf config host = fullHost config host := by
  have front : nameOf config host <+: host.map toLower ++ addedDomain config host :=
    (List.take_prefix _ _).trans (prefix_fullHost config host)
  rcases Nat.lt_or_ge host.length (nameOf config host).length with long | short
  · right
    obtain ⟨behind, whole⟩ := prefix_of_prefix_length_le (prefix_append _ _) front
      (by rw [length_map]; exact long.le)
    rw [← whole, prefix_append_right_inj] at front
    rw [← whole, length_append, length_map] at long
    obtain ⟨b, rest, rfl⟩ := exists_cons_of_length_pos (show 0 < behind.length by omega)
    obtain ⟨more, domain⟩ := front
    have dot : b = 46 := by
      have start := head_addedDomain config host
      rw [← domain] at start
      simpa using start
    have named : 46 ∉ host ∧ 58 ∉ host := by
      unfold addedDomain at domain
      split_ifs at domain with marks
      · simp at domain
      all_goals exact not_or.mp marks
    refine ⟨rest, by rw [← whole, dot], named.1, named.2, ?_⟩
    by_contra cut
    have full : 255 < (fullHost config host).length := by
      by_contra short
      exact cut (take_of_length_le (by omega))
    have stored := take_fullHost full
    have length := congrArg List.length (whole.trans stored.2)
    simp only [length_append, length_map, length_cons, length_take] at length
    omega
  · left
    exact prefix_of_prefix_length_le front (prefix_append _ _) (by simpa using short)

/-- A byte that is not in the host stands behind a dot. -/
theorem nameOf_dot {c : UInt8} (other : c ∉ host.map toLower) (member : c ∈ nameOf config host) :
    ∃ rest, nameOf config host = host.map toLower ++ 46 :: rest ∧ 46 ∉ host ∧ 58 ∉ host ∧
      nameOf config host = fullHost config host :=
  (nameOf_cases config host).resolve_left fun front => other (front.subset member)

/-- What is in front of the first dot. -/
theorem takeWhile_dot {host rest : Bytes} (noDot : 46 ∉ host) :
    (host.map toLower ++ 46 :: rest).takeWhile (· != 46) = host.map toLower := by
  have plain : ∀ b ∈ host.map toLower, (b != 46) = true := by
    intro b member
    refine bne_iff_ne.mpr fun dot => noDot ?_
    rw [dot] at member
    exact (mem_map_toLower_iff (by decide) (by decide) _).mp member
  rw [takeWhile_append_of_pos plain]
  simp

/-- In brackets there is no closing one. -/
theorem hostPart_bracket (url : Bytes) (bracket : (hostPart url).head? = some 91) :
    93 ∉ hostPart url := by
  change 93 ∉ (splitPort (hostText url)).1
  change (splitPort (hostText url)).1.head? = some 91 at bracket
  unfold splitPort at bracket ⊢
  split at bracket
  · rename_i opened
    rw [if_pos opened]
    exact fun member => absurd (mem_takeWhile_imp member) (by decide)
  · rename_i closed
    exfalso
    split at bracket
    · apply closed
      have front := takeWhile_prefix (l := hostText url) (· != 58)
      obtain ⟨rest, whole⟩ := front
      rw [← whole, List.head?_append, bracket]
      rfl
    · exact closed bracket

theorem head_nameOf (bracket : (nameOf config host).head? = some 91) : host.head? = some 91 := by
  have front : nameOf config host <+: host.map toLower ++ addedDomain config host :=
    (List.take_prefix _ _).trans (prefix_fullHost config host)
  obtain ⟨rest, whole⟩ := front
  have first := congrArg List.head? whole
  rw [List.head?_append, bracket, some_or] at first
  cases host with
  | nil =>
      rcases head_addedDomain config [] with none | dot
      · rw [none] at first
        simp at first
      · rw [List.map_nil, List.nil_append, dot] at first
        simp at first
  | cons c host =>
      rw [List.map_cons, cons_append, List.head?_cons, some.injEq] at first
      rw [List.head?_cons, (toLower_eq_iff (by decide) (by decide)).mp first.symm]

/-- A name that is stored is not the text of an address. -/
theorem noAddress_of_same (numeric : NumericText sys) {name : Bytes}
    (bracket : host.head? = some 91 → 93 ∉ host)
    (noAddress : hostAddr sys (fullHost config host) = none)
    (same : SetHost sys (fullHost config name) = nameOf config host) :
    hostAddr sys (fullHost config name) = none := by
  cases found : hostAddr sys (fullHost config name) with
  | none => rfl
  | some a =>
      exfalso
      have given := isAnyAddr_of_hostAddr found
      rw [SetHost_of_some found] at same
      have short := ToHostname_short numeric given
      cases family : a.IsIPv4 with
      | true =>
          have quad : ToHostname sys a 256 = dottedQuad a.GetInAddr := by
            simp [ToHostname, NtoA, given, family]
          have full : nameOf config host = fullHost config host := by
            refine take_of_length_le ?_
            by_contra long
            have length := congrArg List.length same
            rw [nameOf, length_take_of_le (by omega)] at length
            omega
          rw [← full, ← same, quad, hostAddr, numeric.read4 a family] at noAddress
          simp [given] at noAddress
      | false =>
          have text : ToHostname sys a 256 = 91 :: (sys.inet_ntop a ++ [93]) := by
            have length := numeric.length a
            simp [ToHostname, NtoA, given, family, show (sys.inet_ntop a).length < 248 by omega]
          rw [text] at same
          have first : (nameOf config host).head? = some 91 := by
            rw [← same]
            rfl
          have closing : 93 ∈ nameOf config host := by
            rw [← same]
            simp
          have opened := bracket (head_nameOf first)
          rw [← mem_map_toLower_iff (c := 93) (by decide) (by decide)] at opened
          obtain ⟨rest, whole, noDot, noColon, -⟩ := nameOf_dot opened closing
          have front := @takeWhile_dot host rest noDot
          have inText : 58 ∈ (91 :: (sys.inet_ntop a ++ [93])).takeWhile (· != 46) := by
            rw [takeWhile_cons, if_pos (by decide), takeWhile_append]
            refine List.mem_cons_of_mem _ ?_
            split
            · exact List.mem_append_left _ ((takeWhile_subset _) (numeric.colon a))
            · exact numeric.colon a
          rw [← whole, ← same] at front
          rw [front, mem_map_toLower_iff (by decide) (by decide)] at inText
          exact noColon inText

variable {behind : Bytes}

/-- Brackets are not read again as a shorter text behind them. -/
theorem not_prefix_tail {text : Bytes} (first : text.head? = some 91)
    (stop : behind.head? ≠ some 91) : ¬ text <+: (text ++ behind).tail.map toLower := by
  induction text with
  | nil => simp at first
  | cons b text ih =>
      rw [List.head?_cons, some.injEq] at first
      subst first
      intro front
      rw [cons_append, tail_cons] at front
      cases text with
      | nil =>
          obtain ⟨rest, whole⟩ := front
          apply stop
          cases behind with
          | nil => simp at whole
          | cons c behind =>
              rw [List.nil_append, List.map_cons, cons_append, cons_eq_cons] at whole
              rw [List.head?_cons, (toLower_eq_iff (by decide) (by decide)).mp whole.1.symm]
      | cons c text =>
          rw [cons_append, List.map_cons, cons_prefix_cons] at front
          have same := (toLower_eq_iff (by decide) (by decide)).mp front.1.symm
          refine ih (same ▸ rfl) ?_
          rw [cons_append, tail_cons]
          exact front.2

/-- A name in brackets is not read as the name with its bracket. -/
theorem no_bracket (stop : behind.head? ≠ some 91) (opened : (nameOf config host).head? = some 91)
    (present : (splitPort (nameOf config host ++ behind)).1 ≠ [])
    (same : nameOf config (splitPort (nameOf config host ++ behind)).1 = nameOf config host) :
    False := by
  generalize nameOf config host = stored at *
  have name : (splitPort (stored ++ behind)).1 = (stored ++ behind).tail.takeWhile (· != 93) := by
    rw [splitPort, if_pos]
    rw [List.head?_append, opened]
    rfl
  rw [name] at present same
  have front := takeWhile_prefix (l := (stored ++ behind).tail) (· != 93)
  generalize (stored ++ behind).tail.takeWhile (· != 93) = inner at *
  rcases nameOf_cases config inner with short | ⟨rest, whole, noDot, -⟩
  · rw [same] at short
    exact not_prefix_tail opened stop (short.trans (front.map toLower))
  · -- The dot behind the name is in the name, which is one place further.
    rw [same] at whole
    obtain ⟨c, tail, rfl⟩ := exists_cons_of_ne_nil present
    rw [whole, List.map_cons, cons_append, cons_append, tail_cons, List.append_assoc] at front
    apply noDot
    obtain ⟨more, equal⟩ := front
    have place := congrArg (fun s : Bytes => s[tail.length]?) equal
    rw [List.getElem?_append_left (by simp), List.getElem?_append_right (by simp),
      length_map, Nat.sub_self] at place
    exact mem_of_getElem? place

variable {stored : Bytes}

/-- A name with one colon is not read as the name. -/
theorem no_colon (member : 58 ∈ stored)
    (same : nameOf config (stored.takeWhile (· != 58)) = stored) : False := by
  have noColon : 58 ∉ stored.takeWhile (· != 58) := fun inside =>
    absurd (mem_takeWhile_imp inside) (by decide)
  have split := takeWhile_append_dropWhile (p := (· != 58)) (l := stored)
  obtain ⟨b, behind, shape⟩ : ∃ b behind, stored.dropWhile (· != 58) = b :: behind := by
    refine exists_cons_of_ne_nil fun none => ?_
    rw [none, List.append_nil] at split
    rw [← split] at member
    exact noColon member
  have colon : b = 58 := by
    have stop := List.head?_dropWhile_not (· != 58) stored
    rw [shape] at stop
    simpa using stop
  rcases nameOf_cases config (stored.takeWhile (· != 58)) with short | ⟨rest, whole, -⟩
  · rw [same] at short
    exact noColon ((mem_map_toLower_iff (by decide) (by decide) _).mp (short.subset member))
  · rw [same] at whole
    have equal := split.trans whole
    rw [shape] at equal
    have marks := (append_inj equal (length_map _).symm).2
    rw [colon, cons_eq_cons] at marks
    exact absurd marks.1 (by decide)

/-- A name that is read as it is. -/
theorem name_kept (short : stored.length ≤ 255) (same : nameOf config stored = stored) :
    (∀ b ∈ stored, toLower b = b) ∧ fullHost config stored = stored ∧
      stored.getLast? ≠ some 46 ∧ ∀ b ∈ addedDomain config stored, b = 46 := by
  have full : fullHost config stored = stored := by
    rcases Nat.lt_or_ge 255 (fullHost config stored).length with long | fits
    · exact absurd (take_fullHost long).1 (by omega)
    · rwa [nameOf, take_of_length_le fits] at same
  obtain ⟨n, whole⟩ := fullHost_append config stored
  rw [full] at whole
  obtain ⟨lower, domain⟩ := append_inj whole (length_map _)
  refine ⟨map_toLower_eq_iff.mp lower, full, ?_, fun b member => ?_⟩
  · have last := getLast?_fullHost config stored
    rwa [full] at last
  · exact eq_of_mem_replicate (domain ▸ member)

/-! ## Hosts that are read again -/

/-- A text that is read as the request that was stored for a URL. -/
structure SameParts (config : UrlConfig) (sys : AddressText) (url text : Bytes) : Prop where
  front : authority text = frontText ((loginPart url).take (MAX_LOGIN_SZ - 1))
    (nameOf config (hostPart url)) (portPart url = urlDefaultPort (schemePart url))
    (portPart url).toNat
  scheme : schemePart text = schemePart url
  login : (loginPart text).take (MAX_LOGIN_SZ - 1) = (loginPart url).take (MAX_LOGIN_SZ - 1)
  host : SetHost sys (fullHost config (hostPart text)) = nameOf config (hostPart url)
  port : portPart text = portPart url
  present : ¬ hostMissing (hostText text)
  valid : config.check_hostnames = true →
    ((hostPart text).map toLower).all (isHostnameChar config.allow_underscore) = true

variable {text : Bytes}

/-- The name is what is stored for the host of the text too. -/
theorem SameParts.name (parts : SameParts config sys url text) (numeric : NumericText sys)
    (noAddress : hostAddr sys (fullHost config (hostPart url)) = none) :
    hostAddr sys (fullHost config (hostPart text)) = none ∧
      nameOf config (hostPart text) = nameOf config (hostPart url) := by
  have none := noAddress_of_same numeric (hostPart_bracket url) noAddress parts.host
  have same := parts.host
  rw [SetHost, none] at same
  exact ⟨none, same⟩

/-- There is something in front of the last `@`, or it is the first byte. -/
theorem dropLast_mark_ne_nil (mark : 64 ∈ s) (first : s.head? ≠ some 64) :
    (s.rdropWhile (· != 64)).dropLast ≠ [] := by
  have ne : s.rdropWhile (· != 64) ≠ [] := by
    rw [ne_eq, rdropWhile_eq_nil_iff]
    intro all
    simpa using all 64 mark
  intro none
  have last := rdropWhile_last_not (· != 64) s ne
  have single := dropLast_append_getLast ne
  obtain ⟨rest, whole⟩ := rdropWhile_prefix (· != 64) s
  rw [none, List.nil_append] at single
  rw [← single] at whole
  apply first
  rw [← whole, cons_append, List.head?_cons, some.injEq]
  simpa using last

/-- With an `@` in it, the name is read behind the login. -/
theorem SameParts.domainLogin (parts : SameParts config sys url text) (numeric : NumericText sys)
    (noAddress : hostAddr sys (fullHost config (hostPart url)) = none)
    (mark : 64 ∈ nameOf config (hostPart url))
    (plain : ∀ b ∈ nameOf config (hostPart url), endsHost b = false) :
    DomainLogin config url := by
  have same := (parts.name numeric noAddress).2
  obtain ⟨rest, whole, noDot, -⟩ := nameOf_dot (at_notMem_hostPart url) mark
  have noPort : 64 ∉ portText (portPart url = urlDefaultPort (schemePart url))
      (portPart url).toNat := fun member => (portText_plain _ _ 64 member).2 rfl
  have split := fun front => @splitLogin_mark front _ _ mark noPort
  have front := parts.front
  rw [frontText] at front
  have inText : hostText text = (nameOf config (hostPart url)).rtakeWhile (· != 64) ++
      portText (portPart url = urlDefaultPort (schemePart url)) (portPart url).toNat := by
    rw [hostText, front, split]
  have host : (hostPart text).map toLower = (hostPart url).map toLower := by
    rw [← same] at mark
    obtain ⟨other, shape, otherDot, -⟩ := nameOf_dot (at_notMem_hostPart text) mark
    rw [← @takeWhile_dot _ other otherDot, ← shape, same, whole, takeWhile_dot noDot]
  have port := parts.port
  refine ⟨?_, mark, plain, ?_, ?_⟩
  · -- What the domain adds to the login is not empty, so it would be stored.
    by_contra short
    have added : ((nameOf config (hostPart url)).rdropWhile (· != 64)).dropLast ≠ [] := by
      refine dropLast_mark_ne_nil mark fun first => at_notMem_hostPart url ?_
      rw [whole] at first
      cases shape : (hostPart url).map toLower with
      | nil => simp [shape] at first
      | cons c tail =>
          rw [shape, cons_append, List.head?_cons, some.injEq] at first
          simp [first]
    have login := parts.login
    have all : (loginPart url).take (MAX_LOGIN_SZ - 1) = loginPart url :=
      take_of_length_le (by omega)
    rw [all] at front login
    rw [loginPart, front, split] at login
    have length := congrArg List.length login
    have positive := length_pos_iff.mpr added
    simp only [length_take, length_append] at length
    rcases eq_or_ne (loginPart url) [] with none | some
    · simp only [none, length_nil, MAX_LOGIN_SZ] at length short
      omega
    · rw [if_pos some, length_singleton] at length
      omega
  · rw [← inText]
    exact host
  · rw [← inText, ← parts.scheme]
    exact port

/-- Without one, the name is read as it is. -/
theorem SameParts.nameRead (parts : SameParts config sys url text) (numeric : NumericText sys)
    (noAddress : hostAddr sys (fullHost config (hostPart url)) = none)
    (noMark : 64 ∉ nameOf config (hostPart url))
    (plain : ∀ b ∈ nameOf config (hostPart url), endsHost b = false) :
    NameRead config sys (nameOf config (hostPart url))
      (portPart url = urlDefaultPort (schemePart url)) := by
  obtain ⟨otherAddress, same⟩ := parts.name numeric noAddress
  have port := parts.port
  have present := parts.present
  have noAt : 64 ∉ nameOf config (hostPart url) ++
      portText (portPart url = urlDefaultPort (schemePart url)) (portPart url).toNat := by
    rw [mem_append]
    rintro (inName | inPort)
    · exact noMark inName
    · exact (portText_plain _ _ 64 inPort).2 rfl
  have inText : hostText text = nameOf config (hostPart url) ++
      portText (portPart url = urlDefaultPort (schemePart url)) (portPart url).toNat := by
    rw [hostText, parts.front, frontText, splitLogin_text noAt]
  have name : hostPart text = (splitPort (hostText text)).1 := rfl
  rw [portPart, parts.scheme, inText] at port
  rw [inText] at name present
  have short : (nameOf config (hostPart url)).length ≤ 255 := length_take_le _ _
  have bracket : (nameOf config (hostPart url)).head? ≠ some 91 := by
    intro opened
    have stop : (portText (portPart url = urlDefaultPort (schemePart url))
        (portPart url).toNat).head? ≠ some 91 := @head_portText [] (by simp) _ _
    refine no_bracket stop opened (fun missing => present ?_) (name ▸ same)
    rw [hostMissing, if_pos]
    · exact missing
    · rw [List.head?_append, opened]
      rfl
  generalize given : decide (portPart url = urlDefaultPort (schemePart url)) = standard at *
  generalize nameOf config (hostPart url) = stored at *
  have colons : 58 ∉ stored ∨ standard = true ∧ stored.count 58 ≠ 1 := by
    by_cases colon : 58 ∈ stored
    · right
      have some := count_pos_iff.mpr colon
      cases standard with
      | true =>
          refine ⟨rfl, fun one => @no_colon config _ colon ?_⟩
          have inner : (splitPort (stored ++ portText true (portPart url).toNat)).1 =
              stored.takeWhile (· != 58) := by
            have none : portText true (portPart url).toNat = [] := rfl
            rw [none, List.append_nil, splitPort, if_neg bracket, if_pos one]
          rw [← inner, ← name]
          exact same
      | false =>
          exfalso
          have many : (stored ++ portText false (portPart url).toNat).count 58 ≠ 1 := by
            change (stored ++ 58 :: digits (portPart url).toNat).count 58 ≠ 1
            rw [count_append, count_cons_self]
            omega
          rw [splitPort, if_neg (head_portText bracket _ _), if_neg many] at port
          exact absurd port.symm (of_decide_eq_false given)
    · exact .inl colon
  rw [splitPort_name bracket colons] at name
  rw [name] at same otherAddress
  obtain ⟨lower, full, last, domain⟩ := name_kept short same
  refine ⟨fun b member => ⟨plain b member, fun at_ => noMark (at_ ▸ member), lower b member⟩, bracket,
    colons, ?_, fun check => ?_, last, domain, full ▸ otherAddress⟩
  · cases standard with
    | false => exact .inr rfl
    | true =>
        refine .inl fun none => present ?_
        rw [none]
        exact (if_neg (show ¬ ([] : Bytes).head? = some 91 by decide)).mpr rfl
  · have valid := parts.valid check
    rwa [name, map_toLower_eq_iff.mpr lower] at valid

/-! ## URLs that are read again -/

theorem endsHost_toLower (b : UInt8) : endsHost (toLower b) = endsHost b := by
  unfold toLower
  split
  · rename_i upper
    simp only [UInt8.le_iff_toNat_le, UInt8.reduceToNat] at upper
    have other : endsHost b = false := by
      simp only [endsHost, isSpace, Bool.or_eq_false_iff, beq_eq_false_iff_ne,
        Bool.and_eq_false_iff, decide_eq_false_iff_not, UInt8.le_iff_toNat_le, ne_eq,
        ← UInt8.toNat_inj, UInt8.reduceToNat]
      omega
    rw [other]
    simp only [endsHost, isSpace, Bool.or_eq_false_iff, beq_eq_false_iff_ne,
      Bool.and_eq_false_iff, decide_eq_false_iff_not, UInt8.le_iff_toNat_le, ne_eq,
      ← UInt8.toNat_inj, UInt8.toNat_add, UInt8.reduceToNat]
    omega
  · rfl

theorem hostPart_plain (url : Bytes) : ∀ b ∈ (hostPart url).map toLower, endsHost b = false := by
  intro b member
  obtain ⟨c, inside, rfl⟩ := List.mem_map.mp member
  have part : c ∈ authority url :=
    (splitLogin_suffix _).subset ((splitPort_sublist _).subset inside)
  rw [endsHost_toLower]
  simpa using mem_takeWhile_imp part

theorem endsHost_ToHostname (numeric : NumericText sys) (given : a.IsAnyAddr = false) :
    ∀ b ∈ ToHostname sys a 256, endsHost b = false := by
  let config : UrlConfig := plainConfig
  cases family : a.IsIPv4 with
  | true =>
      have read := @hostRead_dottedQuad config sys numeric a given family true
      exact fun b member => (read.plain b member).1
  | false =>
      have read := @hostRead_brackets config sys numeric a given family true
      exact fun b member => (read.plain b member).1

/-- A byte at which the host ends, in what is stored as host, is in the domain. -/
theorem mem_SetHost (numeric : NumericText sys)
    (member : b ∈ SetHost sys (fullHost config (hostPart url))) :
    endsHost b = false ∨ ∃ domain ∈ config.appendDomain, b ∈ domain := by
  cases found : hostAddr sys (fullHost config (hostPart url)) with
  | some a =>
      rw [SetHost_of_some found] at member
      exact .inl (endsHost_ToHostname numeric (isAnyAddr_of_hostAddr found) b member)
  | none =>
      rw [SetHost, found] at member
      have inside := (prefix_fullHost config (hostPart url)).subset (mem_of_mem_take member)
      rcases mem_append.mp inside with inHost | inDomain
      · exact .inl (hostPart_plain url b inHost)
      · right
        unfold addedDomain at inDomain
        cases given : config.appendDomain with
        | none => simp [given] at inDomain
        | some domain =>
            refine ⟨domain, rfl, ?_⟩
            rw [given, getD_some] at inDomain
            split_ifs at inDomain
            · exact absurd inDomain not_mem_nil
            · exact mem_of_mem_take inDomain
            · exact inDomain

/-- What is stored as host has no white space if the domain has none. -/
theorem SetHost_noSpace (numeric : NumericText sys)
    (words : ∀ domain ∈ config.appendDomain, stringHasWhitespace domain = false) (url : Bytes) :
    stringHasWhitespace (SetHost sys (fullHost config (hostPart url))) = false := by
  refine stringHasWhitespace_eq_false.mpr fun b member space => ?_
  rcases mem_SetHost numeric member with plain | ⟨domain, given, part⟩
  · simp [endsHost, isSpace_of_mem space] at plain
  · exact stringHasWhitespace_eq_false.mp (words domain given) b part space

/-- A URL of the scheme `urn` is not read as the same request from its canonical form. -/
theorem noUrn_of_reread (noConnect : method ≠ .METHOD_CONNECT) (given : 1 ≤ request.port)
    (again : urlParse config sys method (urlCanonical method request) = some request) :
    request.protocol ≠ .PROTO_URN := by
  intro urn
  have text : (urlCanonical method request).take 4 = ascii "urn:" := by
    unfold urlCanonical
    rw [if_pos urn, take_take]
    rfl
  obtain ⟨-, ⟨-, stored⟩ | ⟨-, asterisk, -⟩ | ⟨noUrn, -⟩⟩ := urlParse_eq_some noConnect again
  · rw [stored] at given
    simp [urnParse] at given
  · rw [asterisk] at text
    exact absurd text (by decide)
  · exact noUrn text

/-- A URL that is read as the same request from its canonical form has parts that are found again. -/
theorem partsRead_of_reread (numeric : NumericText sys)
    (words : ∀ domain ∈ config.appendDomain, stringHasWhitespace domain = false)
    (noConnect : method ≠ .METHOD_CONNECT) (scheme : request.protocol ≠ .PROTO_NONE)
    (checked : checkParts config sys (schemePart url) (hostPart url) (loginPart url) (pathPart url)
      (portPart url) = some request)
    (again : urlParse config sys method (urlCanonical method request) = some request) :
    PartsRead config sys url := by
  obtain ⟨valid, dots, first, range, path, cleaned, rfl⟩ :=
    (checkParts_iff (hostPart_noSpace url)).mp checked
  have stored := @urlParseFinish_of_port sys (portPart url) (by omega) (schemePart url) path
    (fullHost config (hostPart url)) (loginPart url)
  rw [stored] at scheme again
  change schemePart url ≠ .PROTO_NONE at scheme
  have noUrn : schemePart url ≠ .PROTO_URN :=
    noUrn_of_reread noConnect (show 1 ≤ (portPart url).toNat by omega) again
  rw [urlCanonical_eq noConnect noUrn] at again
  dsimp only at again
  have loginPlain : ∀ b ∈ (loginPart url).take (MAX_LOGIN_SZ - 1), endsHost b = false :=
    fun b member => loginPart_plain url b (mem_of_mem_take member)
  have hostPlain : config.appendDomain = none →
      ∀ b ∈ SetHost sys (fullHost config (hostPart url)), endsHost b = false := by
    intro noDomain b member
    rcases mem_SetHost numeric member with plain | ⟨domain, given, -⟩
    · exact plain
    · simp [noDomain] at given
  have clean := clean_of_cleanPath cleaned
  have line := oneLine_of_cleanPath (pathFrom_oneLine _) cleaned
  have hostClean := SetHost_noSpace numeric words url
  obtain ⟨fits, starts, plain⟩ := fits_of_reread noConnect scheme noUrn loginPlain
    (length_take_le _ _) hostClean (SetHost_short numeric _)
    (by omega) hostPlain line clean again rfl
  have kept := pathKept_of_startsPath (pathPart_startsPath url) cleaned starts
  have hostEnds : ∀ b ∈ SetHost sys (fullHost config (hostPart url)), endsHost b = false := by
    intro b member
    apply plain b
    simp [frontText, member]
  refine ⟨noUrn, ?_, kept, fun urlpath other => ?_⟩
  · by_cases noAddress : hostAddr sys (fullHost config (hostPart url)) = none
    · right
      have name : SetHost sys (fullHost config (hostPart url)) = nameOf config (hostPart url) := by
        rw [SetHost, noAddress]
        rfl
      rw [name] at fits again hostEnds
      have parts : SameParts config sys url (canonicalText (schemePart url)
          ((loginPart url).take (MAX_LOGIN_SZ - 1)) (nameOf config (hostPart url))
          (portPart url).toNat path) := by
        obtain ⟨front, inPath⟩ := @canonicalText_parts _ scheme _ _ path (portPart url).toNat
          loginPlain hostEnds starts line
        have known := (canonicalText_scheme scheme ((loginPart url).take (MAX_LOGIN_SZ - 1))
          (nameOf config (hostPart url)) (portPart url).toNat path).2
        have standard : decide ((portPart url).toNat = urlDefaultPort (schemePart url)) =
            decide (portPart url = urlDefaultPort (schemePart url)) :=
          decide_eq_decide.mpr (by omega)
        rw [standard] at front
        rw [take_of_length_le (by omega)] at again
        rw [← inPath] at clean
        rw [canonicalText_eq] at again clean front known ⊢
        obtain ⟨-, present, otherValid, otherRange, other⟩ :=
          urlParse_schemeText noConnect scheme noUrn clean again
        have login := congrArg UrlRequest.login other
        have host := congrArg UrlRequest.host other
        have port := congrArg UrlRequest.port other
        simp only [urlParseFinish] at login host port
        exact ⟨front, known, login.symm, host.symm, by omega, present, otherValid⟩
      by_cases mark : 64 ∈ nameOf config (hostPart url)
      · exact .inr (parts.domainLogin numeric noAddress mark hostEnds)
      · exact .inl (parts.nameRead numeric noAddress mark hostEnds)
    · exact .inl (isSome_iff_ne_none.mpr noAddress)
  · rw [cleaned, mem_some_iff] at other
    rwa [← other]

/-- The asterisk is not read again. -/
theorem asterisk_not_reread (numeric : NumericText sys) (noConnect : method ≠ .METHOD_CONNECT)
    (again : urlParse config sys method (urlCanonical method
      (urlParseFinish sys .PROTO_HTTP [42] [] [] 80)) =
        some (urlParseFinish sys .PROTO_HTTP [42] [] [] 80)) : False := by
  have plain : ∀ b ∈ SetHost sys [], endsHost b = false := by
    cases found : hostAddr sys [] with
    | some a =>
        rw [SetHost_of_some found]
        exact endsHost_ToHostname numeric (isAnyAddr_of_hostAddr found)
    | none =>
        rw [SetHost, found]
        exact fun b member => absurd member not_mem_nil
  have clean : stringHasWhitespace (SetHost sys []) = false := by
    refine stringHasWhitespace_eq_false.mpr fun b member space => ?_
    have inside := plain b member
    simp [endsHost, isSpace_of_mem space] at inside
  rw [urlCanonical_eq noConnect (show ProtocolType.PROTO_HTTP ≠ .PROTO_URN by decide)] at again
  obtain ⟨-, ⟨b, first, kind⟩, -⟩ := @fits_of_reread config sys _ method .PROTO_HTTP [] _ [42] 80
    noConnect (by decide) (by decide) (by simp) (by simp) clean (SetHost_short numeric _)
    (by decide) (fun _ => plain) (fun b member => by simp_all) (.inr rfl) again rfl
  rw [List.head?_cons, mem_some_iff] at first
  subst first
  rcases kind with same | same <;> exact absurd same (by decide)

/--
An accepted URL is read as the same request from its canonical form if and only if it is a `urn:`, or
it is no asterisk and its parts are found again.
-/
theorem urlParse_urlCanonical_iff {method : UrlMethod} (numeric : NumericText sys)
    (words : ∀ domain ∈ config.appendDomain, stringHasWhitespace domain = false)
    (noConnect : method ≠ .METHOD_CONNECT) (scheme : request.protocol ≠ .PROTO_NONE)
    (accepted : urlParse config sys method url = some request) :
    urlParse config sys method (urlCanonical method request) = some request ↔
      url.take 4 = ascii "urn:" ∨
        ¬ ((method = .METHOD_OPTIONS ∨ method = .METHOD_TRACE) ∧ url = [42]) ∧
          PartsRead config sys url := by
  constructor
  · intro again
    obtain ⟨-, ⟨urn, -⟩ | ⟨options, rfl, rfl⟩ | ⟨-, noAsterisk, -, checked⟩⟩ :=
      urlParse_eq_some noConnect accepted
    · exact .inl urn
    · exact (asterisk_not_reread numeric noConnect again).elim
    · exact .inr ⟨noAsterisk, partsRead_of_reread numeric words noConnect scheme checked again⟩
  · exact urlParse_of_partsRead numeric noConnect scheme accepted

end Reread

/-! ## A system -/

/-- The number that the text of an IPv4 address means. -/
def readQuad (s : Bytes) : ℕ :=
  let next := fun s : Bytes => (s.dropWhile (· != 46)).tail
  let value := fun s : Bytes => magnitude 10 (s.takeWhile (· != 46))
  value s * 2 ^ 24 + value (next s) * 2 ^ 16 + value (next (next s)) * 2 ^ 8 +
    value (next (next (next s)))

/-- The text of an IPv6 address, as a number behind a colon. -/
def numberText (a : Ip.Address) : Bytes := 58 :: digits a.toNat

/-- A system that prints IPv6 addresses as numbers. -/
def numberSystem : AddressText where
  inet_ntop := numberText
  getaddrinfo := fun s =>
    let number := BitVec.ofNat 128 (magnitude 10 s.tail)
    let quad := BitVec.ofNat 128 (0xffff * 2 ^ 32 + readQuad s)
    if numberText number = s ∧ Ip.Address.IsIPv4 number = false then some number
    else if dottedQuad (Ip.Address.GetInAddr quad) = s ∧ Ip.Address.IsIPv4 quad = true then
      some quad
    else none

theorem readQuad_dottedQuad {a : ℕ} (small : a < 2 ^ 32) : readQuad (dottedQuad a) = a := by
  have plain : ∀ n, ∀ b ∈ digits n, (b != 46) = true := fun n b member =>
    bne_iff_ne.mpr fun dot => dot_notMem_digits n (dot ▸ member)
  have value : ∀ n rest, (digits n ++ 46 :: rest).takeWhile (· != 46) = digits n := by
    intro n rest
    rw [takeWhile_append_of_pos (plain n)]
    simp
  have next : ∀ n rest, ((digits n ++ 46 :: rest).dropWhile (· != 46)).tail = rest := by
    intro n rest
    rw [dropWhile_append_of_pos (plain n)]
    simp
  have last : ∀ n, (digits n).takeWhile (· != 46) = digits n := fun n =>
    takeWhile_eq_self_iff.mpr (plain n)
  simp only [readQuad, dottedQuad, value, next, last, magnitude_digits]
  omega

theorem numberSystem_numeric : NumericText numberSystem where
  plain a := by
    have bytes : ∀ b ∈ numberText a, b ≠ 46 ∧ toLower b = b := by
      intro b member
      rcases mem_cons.mp member with rfl | digit
      · decide
      · exact digit_plain (isDigit_of_mem_digits _ b digit)
    exact ⟨map_toLower_eq_iff.mpr fun b member => (bytes b member).2,
      hasDoubleDot_of_notMem fun member => (bytes 46 member).1 rfl⟩
  read4 a v4 := by
    have range : a.toNat / 2 ^ 32 = 0xffff := by simpa [Ip.Address.IsIPv4] using v4
    have noNumber : ∀ b, numberText b ≠ dottedQuad a.GetInAddr := by
      intro b same
      rcases mem_dottedQuad (same ▸ List.mem_cons_self : 58 ∈ dottedQuad a.GetInAddr) with digit | dot
      · exact absurd digit (by decide)
      · exact absurd dot (by decide)
    have back : BitVec.ofNat 128 (0xffff * 2 ^ 32 + readQuad (dottedQuad a.GetInAddr)) = a := by
      have small : a.GetInAddr < 2 ^ 32 := Nat.mod_lt _ (by decide)
      rw [readQuad_dottedQuad small]
      apply BitVec.eq_of_toNat_eq
      rw [BitVec.toNat_ofNat, Nat.mod_eq_of_lt] <;> unfold Ip.Address.GetInAddr <;> omega
    simp only [numberSystem, back, noNumber, v4, false_and, and_self, if_true, if_false]
  read6 a v6 := by
    have back : BitVec.ofNat 128 (magnitude 10 (numberText a).tail) = a := by
      rw [numberText, tail_cons, magnitude_digits, BitVec.ofNat_toNat, BitVec.setWidth_eq]
    simp only [numberSystem, back, v6, and_self, if_true]
  letters a b member := by
    rcases mem_cons.mp member with rfl | digit
    · exact .inr (.inl rfl)
    · have range := (isDigit_ten_iff b).mp (isDigit_of_mem_digits _ b digit)
      exact .inl ((isDigit_sixteen_iff b).mpr (.inl range))
  colon a := by
    simp [numberSystem, numberText]
  first a := by
    simp [numberSystem, numberText]
  last a := by
    intro dot
    rcases mem_cons.mp (mem_of_getLast? dot) with same | digit
    · exact absurd same (by decide)
    · exact dot_notMem_digits _ digit
  length a := by
    have short := @digits_short a.toNat 39 (by decide) (Nat.lt_trans a.isLt (by decide))
    change (digits a.toNat).length + 1 ≤ 45
    omega

/-- A URL with a login, a name in capitals and a port. -/
theorem urlParse_urlCanonical_www :
    ∃ request, urlParse plainConfig numberSystem .other (ascii "http://u@WWW:81/") = some request ∧
      urlParse plainConfig numberSystem .other (urlCanonical .other request) = some request := by
  have accepted : urlParse plainConfig numberSystem .other (ascii "http://u@WWW:81/") =
      some (urlParseFinish numberSystem .PROTO_HTTP [47] (ascii "www") (ascii "u") 81) := by
    change checkParts plainConfig numberSystem .PROTO_HTTP (ascii "WWW") (ascii "u") [47]
      (atoi (ascii "81")) = _
    rw [show atoi (ascii "81") = 81 by decide +kernel]
    rfl
  have read : PartsRead plainConfig numberSystem (ascii "http://u@WWW:81/") := by
    have name : nameOf plainConfig (hostPart (ascii "http://u@WWW:81/")) = ascii "www" := by rfl
    refine ⟨by decide, .inr (.inl ?_), .inl (by decide), ?_⟩
    · rw [name]
      exact ⟨by decide +kernel, by decide, by decide, by decide, by decide, by decide,
        by decide +kernel, by decide +kernel⟩
    · decide +kernel
  exact ⟨_, accepted, (urlParse_urlCanonical_iff numberSystem_numeric (by simp [plainConfig])
    (by decide) (by decide) accepted).mpr (.inr ⟨by decide, read⟩)⟩

/-- A host in front of a space and the path behind it are printed as one host. -/
theorem urlCanonical_joins_host :
    ¬ ∀ (config : UrlConfig) (sys : AddressText) (method : UrlMethod) (url : Bytes)
      (request : UrlRequest), NumericText sys → method ≠ .METHOD_CONNECT →
      request.protocol ≠ .PROTO_NONE → urlParse config sys method url = some request →
      urlParse config sys method (urlCanonical method request) = some request := by
  intro always
  have accepted : urlParse plainConfig numberSystem .other (ascii "http://www x") =
      some (urlParseFinish numberSystem .PROTO_HTTP (ascii "x") (ascii "www") [] 80) := by rfl
  have again := always plainConfig numberSystem .other _ _ numberSystem_numeric (by decide)
    (by decide) accepted
  have canonical : urlCanonical .other (urlParseFinish numberSystem .PROTO_HTTP (ascii "x")
      (ascii "www") [] 80) = ascii "http://wwwx" := by decide +kernel
  have other : urlParse plainConfig numberSystem .other (ascii "http://wwwx") =
      some (urlParseFinish numberSystem .PROTO_HTTP [47] (ascii "wwwx") [] 80) := by rfl
  rw [canonical, other, some.injEq] at again
  exact absurd (congrArg UrlRequest.urlpath again) (by decide)

end Url
end Squid
