import Squid.Http.Url

/-!
# The host of a URL

The checks of `urlParse` are made on the host before the port is cut off, and before the domain is
appended, the dots at the end are removed and the rest is stored.
-/

namespace Squid
namespace Url

open CRuntime List Option

/-! ## What is required and what is read -/

/-- The request names a host and a port. -/
structure NamesHost (request : UrlRequest) : Prop where
  ne_nil : request.host ≠ []
  lower : request.host.map toLower = request.host
  first : request.host.head? ≠ some 46
  last : request.host.getLast? ≠ some 46
  dots : hasDoubleDot request.host = false
  port : 1 ≤ request.port ∧ request.port ≤ 65535

/-- What is between `://` and the path. -/
def authority (url : Bytes) : Bytes :=
  ((url.dropWhile (· != 58)).drop 3).takeWhile fun b => !endsHost b

/-- The host in a URL, behind the login and without port and brackets. -/
def hostPart (url : Bytes) : Bytes := (splitPort (splitLogin (authority url)).2).1

/-- The host with the domain that is appended and without the dots at its end. -/
def fullHost (config : UrlConfig) (host : Bytes) : Bytes :=
  (addDomain config (host.map toLower)).rdropWhile (· == 46)

/-- `inet_ntop` writes lower case letters and no two dots behind each other. -/
def PlainText (sys : AddressText) : Prop :=
  ∀ a, (sys.inet_ntop a).map toLower = sys.inet_ntop a ∧ hasDoubleDot (sys.inet_ntop a) = false

/--
The host in the URL names a host: it is an address, or else it is not only dots, what is appended has
no capital letters, and it is not cut behind a dot.
-/
def HostKept (config : UrlConfig) (sys : AddressText) (host : Bytes) : Prop :=
  (hostAddr sys (fullHost config host)).isSome = true ∨
    (∃ b ∈ host, b ≠ 46) ∧
      (46 ∉ host → 58 ∉ host → ∀ domain ∈ config.appendDomain,
        ∀ b ∈ domain.take (SQUIDHOSTNAMELEN - host.length - 1), toLower b = b) ∧
      (host[254]? = some 46 → ∀ b ∈ host.drop 255, b = 46)

/-! ## Letters and dots -/

theorem toLower_toLower (b : UInt8) : toLower (toLower b) = toLower b := by
  unfold toLower
  split
  · rename_i upper
    rw [if_neg]
    simp only [UInt8.le_iff_toNat_le, UInt8.toNat_add, UInt8.reduceToNat] at upper ⊢
    omega
  · rfl

variable {b c : UInt8}

/-- A byte that is no letter is only made of itself. -/
theorem toLower_eq_iff (plain : ¬ (97 ≤ c ∧ c ≤ 122)) (lower : toLower c = c) :
    toLower b = c ↔ b = c := by
  constructor
  · intro same
    unfold toLower at same
    split at same
    · rename_i upper
      rw [← same] at plain
      simp only [UInt8.le_iff_toNat_le, UInt8.toNat_add, UInt8.reduceToNat] at upper plain
      omega
    · exact same
  · rintro rfl
    exact lower

theorem mem_map_toLower_iff (plain : ¬ (97 ≤ c ∧ c ≤ 122)) (lower : toLower c = c) (s : Bytes) :
    c ∈ s.map toLower ↔ c ∈ s := by
  rw [List.mem_map]
  constructor
  · rintro ⟨b, member, same⟩
    rwa [← (toLower_eq_iff plain lower).mp same]
  · exact fun member => ⟨c, member, lower⟩

variable {s : Bytes}

theorem map_toLower_eq_iff : s.map toLower = s ↔ ∀ b ∈ s, toLower b = b := by
  induction s with
  | nil => simp
  | cons b s ih => simp [ih]

theorem hasDoubleDot_cons {a : UInt8} :
    hasDoubleDot (a :: s) = false ↔ ¬ (a = 46 ∧ s.head? = some 46) ∧ hasDoubleDot s = false := by
  cases s with
  | nil => simp [hasDoubleDot]
  | cons b s => simp [hasDoubleDot]

theorem hasDoubleDot_append {front back : Bytes} :
    hasDoubleDot (front ++ back) = false ↔ hasDoubleDot front = false ∧
      ¬ (front.getLast? = some 46 ∧ back.head? = some 46) ∧ hasDoubleDot back = false := by
  induction front with
  | nil => simp [hasDoubleDot]
  | cons a front ih =>
      rw [cons_append, hasDoubleDot_cons, ih, hasDoubleDot_cons]
      cases front with
      | nil => simp [hasDoubleDot]
      | cons b front => simp [and_assoc]

theorem hasDoubleDot_of_notMem (none : 46 ∉ s) : hasDoubleDot s = false := by
  induction s with
  | nil => rfl
  | cons a s ih =>
      rw [mem_cons, not_or] at none
      exact hasDoubleDot_cons.mpr ⟨fun dots => none.1 dots.1.symm, ih none.2⟩

/-! ## Addresses -/

theorem digit_plain (digit : isDigit 10 b = true) : b ≠ 46 ∧ toLower b = b := by
  have range := (isDigit_ten_iff b).mp digit
  refine ⟨?_, if_neg ?_⟩
  · rintro rfl
    exact absurd digit (by decide)
  · simp only [UInt8.le_iff_toNat_le, UInt8.reduceToNat]
    omega

theorem dot_notMem_digits (n : ℕ) : 46 ∉ digits n := fun member =>
  (digit_plain (isDigit_of_mem_digits n 46 member)).1 rfl

theorem head_digits_ne (n : ℕ) (rest : Bytes) : (digits n ++ rest).head? ≠ some 46 := by
  obtain ⟨b, tail, split⟩ := exists_cons_of_ne_nil (digits_ne_nil n)
  have digit := isDigit_of_mem_digits n b (by rw [split]; simp)
  rw [split, cons_append, List.head?_cons, ne_eq, some.injEq]
  exact (digit_plain digit).1

/-- A number and a dot in front of a text that does not start with one. -/
theorem hasDoubleDot_digits (n : ℕ) {rest : Bytes} (first : rest.head? ≠ some 46)
    (later : hasDoubleDot rest = false) : hasDoubleDot (digits n ++ 46 :: rest) = false := by
  refine hasDoubleDot_append.mpr ⟨hasDoubleDot_of_notMem (dot_notMem_digits n), ?_, ?_⟩
  · rintro ⟨last, -⟩
    exact dot_notMem_digits n (mem_of_getLast? last)
  · exact hasDoubleDot_cons.mpr ⟨fun both => first both.2, later⟩

/-- The text of an IPv4 address. -/
theorem dottedQuad_plain (a : ℕ) :
    dottedQuad a ≠ [] ∧ (dottedQuad a).map toLower = dottedQuad a ∧
      (dottedQuad a).head? ≠ some 46 ∧ (dottedQuad a).getLast? ≠ some 46 ∧
      hasDoubleDot (dottedQuad a) = false := by
  have last : hasDoubleDot (digits (a % 256)) = false :=
    hasDoubleDot_of_notMem (dot_notMem_digits _)
  refine ⟨?_, ?_, head_digits_ne _ _, ?_, ?_⟩
  · simp [dottedQuad]
  · refine map_toLower_eq_iff.mpr fun b member => ?_
    simp only [dottedQuad, mem_append, mem_cons] at member
    rcases member with digit | rfl | digit | rfl | digit | rfl | digit
    all_goals first | exact (digit_plain (isDigit_of_mem_digits _ b digit)).2 | decide
  · have split : dottedQuad a = (digits (a / 2 ^ 24 % 256) ++ 46 :: (digits (a / 2 ^ 16 % 256) ++
        46 :: (digits (a / 2 ^ 8 % 256) ++ [46]))) ++ digits (a % 256) := by
      simp [dottedQuad]
    rw [split, List.getLast?_append_of_ne_nil _ (digits_ne_nil _)]
    exact fun dot => dot_notMem_digits _ (mem_of_getLast? dot)
  · refine hasDoubleDot_digits _ (head_digits_ne _ _) ?_
    refine hasDoubleDot_digits _ (head_digits_ne _ _) ?_
    refine hasDoubleDot_digits _ ?_ last
    have first := head_digits_ne (a % 256) []
    rwa [List.append_nil] at first

variable {sys : AddressText}

/-- What `SetHost` stores for an address. -/
theorem ToHostname_plain (text : PlainText sys) {a : Ip.Address} (given : a.IsAnyAddr = false) :
    ToHostname sys a 256 ≠ [] ∧ (ToHostname sys a 256).map toLower = ToHostname sys a 256 ∧
      (ToHostname sys a 256).head? ≠ some 46 ∧ (ToHostname sys a 256).getLast? ≠ some 46 ∧
      hasDoubleDot (ToHostname sys a 256) = false := by
  unfold ToHostname
  split
  · rename_i v4
    have quad : NtoA sys a (256 - 8) = dottedQuad a.GetInAddr := by simp [NtoA, given, v4]
    rw [quad]
    exact dottedQuad_plain _
  · rename_i v6
    have inner : (NtoA sys a (256 - 8)).map toLower = NtoA sys a (256 - 8) ∧
        hasDoubleDot (NtoA sys a (256 - 8)) = false := by
      simp only [NtoA, given, v6, Bool.false_eq_true, if_false]
      split
      · exact text a
      · exact ⟨rfl, rfl⟩
    refine ⟨by simp, ?_, by simp, by rw [List.getLast?_concat]; decide, ?_⟩
    · rw [List.map_append, List.map_cons, inner.1]
      rfl
    · rw [cons_append, hasDoubleDot_cons, hasDoubleDot_append]
      exact ⟨fun both => absurd both.1 (by decide), inner.2, fun both => absurd both.2 (by decide),
        rfl⟩

/-! ## Names -/

/-- The domain that is appended to a host. -/
def addedDomain (config : UrlConfig) (host : Bytes) : Bytes :=
  if 46 ∈ host ∨ 58 ∈ host then []
  else if host.length < SQUIDHOSTNAMELEN then
    (config.appendDomain.getD []).take (SQUIDHOSTNAMELEN - host.length - 1)
  else
    config.appendDomain.getD []

theorem addDomain_eq (config : UrlConfig) (host : Bytes) :
    addDomain config host = host ++ addedDomain config host := by
  unfold addDomain addedDomain
  cases config.appendDomain with
  | none => simp
  | some domain => split_ifs <;> simp [*]

/-- A host with a domain fits into the 255 bytes that are stored, or its own bytes fill them. -/
theorem addedDomain_short (config : UrlConfig) {host : Bytes} (short : host.length < 256) :
    (host ++ addedDomain config host).length < 256 := by
  have bound : (addedDomain config host).length ≤ 256 - host.length - 1 := by
    unfold addedDomain
    rw [if_pos (show host.length < SQUIDHOSTNAMELEN from short)]
    split
    · exact Nat.zero_le _
    · exact length_take_le _ _
  rw [length_append]
  omega

/-- What is appended starts with a dot. -/
theorem head_addedDomain (config : UrlConfig) (host : Bytes) :
    addedDomain config host = [] ∨ (addedDomain config host).head? = some 46 := by
  unfold addedDomain
  cases given : config.appendDomain with
  | none => simp
  | some domain =>
      have first := config.dotted domain given
      cases domain with
      | nil => simp at first
      | cons b domain =>
          split_ifs
          · exact .inl rfl
          · rw [getD_some]
            cases SQUIDHOSTNAMELEN - host.length - 1 with
            | zero => exact .inl rfl
            | succ n => exact .inr first
          · exact .inr first

section Name

variable {config : UrlConfig} {host : Bytes}

theorem addedDomain_map (config : UrlConfig) (host : Bytes) :
    addedDomain config (host.map toLower) = addedDomain config host := by
  unfold addedDomain
  rw [length_map]
  simp only [mem_map_toLower_iff (c := 46) (by decide) (by decide),
    mem_map_toLower_iff (c := 58) (by decide) (by decide)]

/-- Only dots are removed at the end. -/
theorem fullHost_append (config : UrlConfig) (host : Bytes) :
    ∃ n, host.map toLower ++ addedDomain config host =
      fullHost config host ++ List.replicate n 46 := by
  have dots : ∀ b ∈ (addDomain config (host.map toLower)).rtakeWhile (· == 46), b = 46 :=
    fun b member => beq_iff_eq.mp (mem_rtakeWhile_imp (p := (· == 46)) member)
  refine ⟨((addDomain config (host.map toLower)).rtakeWhile (· == 46)).length, ?_⟩
  calc host.map toLower ++ addedDomain config host
      = addDomain config (host.map toLower) := by rw [addDomain_eq, addedDomain_map]
    _ = fullHost config host ++ (addDomain config (host.map toLower)).rtakeWhile (· == 46) :=
        rdropWhile_append_rtakeWhile.symm
    _ = fullHost config host ++ List.replicate _ 46 :=
        congrArg _ (eq_replicate_length.mpr dots)

theorem prefix_fullHost (config : UrlConfig) (host : Bytes) :
    fullHost config host <+: host.map toLower ++ addedDomain config host := by
  obtain ⟨n, split⟩ := fullHost_append config host
  exact ⟨_, split.symm⟩

theorem getLast?_fullHost (config : UrlConfig) (host : Bytes) :
    (fullHost config host).getLast? ≠ some 46 := by
  intro dot
  have ne : fullHost config host ≠ [] := by
    intro none
    simp [none] at dot
  have last := rdropWhile_last_not (· == 46) (addDomain config (host.map toLower)) ne
  rw [List.getLast?_eq_getLast_of_ne_nil ne, some.injEq] at dot
  exact last (beq_iff_eq.mpr dot)

/-- Only a host of dots is nothing without the dots at its end. -/
theorem fullHost_ne_nil_iff (first : (fullHost config host).head? ≠ some 46) :
    fullHost config host ≠ [] ↔ ∃ b ∈ host, b ≠ 46 := by
  obtain ⟨n, whole⟩ := fullHost_append config host
  constructor
  · intro ne
    by_contra none
    push Not at none
    apply first
    obtain ⟨b, tail, split⟩ := exists_cons_of_ne_nil ne
    rw [split, List.head?_cons, some.injEq]
    rw [split] at whole
    cases host with
    | nil =>
        have start := head_addedDomain config []
        rw [List.map_nil, List.nil_append] at whole
        rw [whole] at start
        simpa using start
    | cons c host =>
        have dot := none c (by simp)
        rw [List.map_cons, cons_append, cons_append, cons_eq_cons, dot] at whole
        exact whole.1.symm
  · rintro ⟨b, member, other⟩ none
    have inside : toLower b ∈ host.map toLower ++ addedDomain config host :=
      List.mem_append_left _ (List.mem_map_of_mem member)
    rw [whole, none, List.nil_append] at inside
    exact other ((toLower_eq_iff (by decide) (by decide)).mp (eq_of_mem_replicate inside))

/-- A host that is longer than what is stored fills it. -/
theorem take_fullHost (long : 255 < (fullHost config host).length) :
    255 < host.length ∧ (fullHost config host).take 255 = (host.take 255).map toLower := by
  have front := prefix_fullHost config host
  have full : 255 < host.length := by
    by_contra short
    have bound := addedDomain_short config (show host.length < 256 by omega)
    have fits := front.length_le
    rw [length_append, length_map, ← length_append] at fits
    omega
  refine ⟨full, ?_⟩
  obtain ⟨rest, whole⟩ := front
  calc (fullHost config host).take 255
      = (fullHost config host ++ rest).take 255 := (take_append_of_le_length long.le).symm
    _ = (host.map toLower).take 255 := by
        rw [whole, take_append_of_le_length (by rw [length_map]; omega)]
    _ = (host.take 255).map toLower := map_take.symm

/-- Capital letters come from the domain. -/
theorem lower_fullHost_iff :
    (∀ b ∈ (fullHost config host).take 255, toLower b = b) ↔
      (46 ∉ host → 58 ∉ host → ∀ domain ∈ config.appendDomain,
        ∀ b ∈ domain.take (SQUIDHOSTNAMELEN - host.length - 1), toLower b = b) := by
  have lowered : ∀ b ∈ host.map toLower, toLower b = b := by
    intro b member
    obtain ⟨c, -, rfl⟩ := List.mem_map.mp member
    exact toLower_toLower c
  rcases Nat.lt_or_ge host.length 256 with fits | full
  · have short := (prefix_fullHost config host).length_le
    rw [length_append, length_map, ← length_append] at short
    have room := addedDomain_short config fits
    rw [take_of_length_le (by omega)]
    calc (∀ b ∈ fullHost config host, toLower b = b)
        ↔ ∀ b ∈ host.map toLower ++ addedDomain config host, toLower b = b := by
          obtain ⟨n, whole⟩ := fullHost_append config host
          rw [whole, forall_mem_append]
          refine (and_iff_left fun b member => ?_).symm
          rw [eq_of_mem_replicate member]
          rfl
      _ ↔ ∀ b ∈ addedDomain config host, toLower b = b := by
          rw [forall_mem_append]
          exact and_iff_right lowered
      _ ↔ _ := by
          unfold addedDomain
          rw [if_pos (show host.length < SQUIDHOSTNAMELEN from fits)]
          cases config.appendDomain with
          | none => simp
          | some domain =>
              split_ifs with named
              · exact iff_of_true (fun b member => absurd member not_mem_nil)
                  fun noDot noColon => (named.elim noDot noColon).elim
              · rw [not_or] at named
                simp [named]
  · obtain ⟨rest, whole⟩ := prefix_fullHost config host
    refine iff_of_true (fun b member => lowered b ?_) fun _ _ domain _ b member => ?_
    · have inside : b ∈ (fullHost config host ++ rest).take 255 :=
        take_append ▸ List.mem_append_left _ member
      rw [whole, take_append_of_le_length (by rw [length_map]; omega)] at inside
      exact mem_of_mem_take inside
    · have noRoom : SQUIDHOSTNAMELEN - host.length - 1 = 0 := by
        unfold SQUIDHOSTNAMELEN
        omega
      simp [noRoom] at member

/-- The last byte that is stored is a dot only if the host is cut behind it. -/
theorem getLast?_take_iff :
    ((fullHost config host).take 255).getLast? ≠ some 46 ↔
      (host[254]? = some 46 → ∀ b ∈ host.drop 255, b = 46) := by
  obtain ⟨n, whole⟩ := fullHost_append config host
  have alone : 46 ∈ host → host.map toLower = fullHost config host ++ List.replicate n 46 := by
    intro dot
    rwa [addedDomain, if_pos (Or.inl dot), List.append_nil] at whole
  rcases Nat.lt_or_ge 255 (fullHost config host).length with long | short
  · obtain ⟨full, stored⟩ := take_fullHost long
    have last : ((fullHost config host).take 255).getLast? = some 46 ↔ host[254]? = some 46 := by
      rw [stored, List.getLast?_map, List.getLast?_eq_getElem?, length_take_of_le full.le,
        List.getElem?_take_of_lt (by omega), map_eq_some_iff]
      simp only [toLower_eq_iff (c := 46) (by decide) (by decide), exists_eq_right]
    rw [ne_eq, last]
    refine ⟨fun other dot => absurd dot other, fun only dot => ?_⟩
    -- The last byte of the whole host is behind the dot.
    have split := alone (mem_of_getElem? dot)
    have ne : fullHost config host ≠ [] := ne_nil_of_length_pos (by omega)
    have final := getLast?_fullHost config host
    obtain ⟨back, single, shape⟩ : ∃ back c, fullHost config host = back ++ [c] :=
      ⟨_, _, (dropLast_append_getLast ne).symm⟩
    have late : 255 ≤ back.length := by
      rw [shape, length_append, length_singleton] at long
      omega
    have inside : single ∈ (host.map toLower).drop 255 := by
      rw [split, shape, List.append_assoc, drop_append_of_le_length late]
      simp
    rw [← map_drop, List.mem_map] at inside
    obtain ⟨c, member, same⟩ := inside
    apply final
    rw [shape, List.getLast?_concat, ← same, only dot c member]
    rfl
  · rw [take_of_length_le short]
    refine iff_of_true (getLast?_fullHost config host) fun dot b member => ?_
    have split := congrArg (List.drop 255) (alone (mem_of_getElem? dot))
    have inside : toLower b ∈ (host.map toLower).drop 255 := by
      rw [← map_drop]
      exact List.mem_map_of_mem member
    rw [split, drop_append, drop_eq_nil_of_le short, List.nil_append] at inside
    exact (toLower_eq_iff (by decide) (by decide)).mp
      (eq_of_mem_replicate (mem_of_mem_drop inside))

end Name

/-! ## The host that is stored -/

section Stored

variable {config : UrlConfig} {sys : AddressText} {host : Bytes}

variable {request : UrlRequest}

/-- The host is as required if it passes the checks of `urlParse` and is not changed later. -/
theorem SetHost_iff (text : PlainText sys) (dots : hasDoubleDot (fullHost config host) = false)
    (first : (fullHost config host).head? ≠ some 46)
    (stored : request.host = SetHost sys (fullHost config host))
    (port : 1 ≤ request.port ∧ request.port ≤ 65535) :
    NamesHost request ↔ HostKept config sys host := by
  unfold SetHost at stored
  unfold HostKept
  cases found : hostAddr sys (fullHost config host) with
  | some a =>
      rw [found] at stored
      have given : a.IsAnyAddr = false := by
        have kept := (filter_eq_some_iff.mp found).2
        simpa using kept
      obtain ⟨ne, lower, head, last, plain⟩ := ToHostname_plain text given
      change request.host = ToHostname sys a 256 at stored
      rw [← stored] at ne lower head last plain
      exact iff_of_true ⟨ne, lower, head, last, plain, port⟩ (.inl rfl)
  | none =>
      rw [found] at stored
      change request.host = (fullHost config host).take 255 at stored
      have prefixed : hasDoubleDot request.host = false ∧ request.host.head? ≠ some 46 := by
        rw [stored]
        refine ⟨?_, ?_⟩
        · rw [← take_append_drop 255 (fullHost config host)] at dots
          exact (hasDoubleDot_append.mp dots).1
        · rwa [List.head?_take, if_neg (by decide)]
      have ne : request.host ≠ [] ↔ ∃ b ∈ host, b ≠ 46 := by
        rw [← fullHost_ne_nil_iff first, stored, ne_eq, take_eq_nil_iff]
        simp
      have lower := map_toLower_eq_iff.trans (@lower_fullHost_iff config host)
      have last := @getLast?_take_iff config host
      rw [← stored] at lower last
      rw [isSome_none, Bool.false_eq_true, false_or, ← ne, ← lower, ← last]
      exact ⟨fun named => ⟨named.ne_nil, named.lower, named.last⟩,
        fun kept => ⟨kept.1, kept.2.1, prefixed.2, kept.2.2, prefixed.1, port⟩⟩

/-- A host without white space passes the checks as it is. -/
theorem checkParts_eq_some {protocol : ProtocolType} {login urlpath : Bytes} {port : ℤ}
    (noSpace : stringHasWhitespace (host.map toLower) = false)
    (accepted : checkParts config sys protocol host login urlpath port = some request) :
    hasDoubleDot (fullHost config host) = false ∧ (fullHost config host).head? ≠ some 46 ∧
      (1 ≤ port ∧ port ≤ 65535) ∧
      ∃ path, request = urlParseFinish sys protocol path (fullHost config host) login port := by
  unfold checkParts at accepted
  simp only [noSpace, Bool.false_eq_true, false_and, if_false] at accepted
  split_ifs at accepted with letters dots range
  rw [not_or] at dots range
  cases cleaned : cleanPath config urlpath with
  | none => simp [cleaned] at accepted
  | some path =>
      simp only [cleaned, bind_eq_bind, bind_some, Option.pure_def, some.injEq] at accepted
      exact ⟨Bool.eq_false_of_not_eq_true dots.1, dots.2, by omega, path, accepted.symm⟩

end Stored

/-! ## The host in the URL -/

theorem splitLogin_suffix (host : Bytes) : (splitLogin host).2 <:+ host := by
  unfold splitLogin
  split
  · exact rtakeWhile_suffix _ _
  · exact suffix_rfl

theorem splitPort_sublist (host : Bytes) : (splitPort host).1.Sublist host := by
  unfold splitPort
  split
  · exact (List.takeWhile_prefix _).sublist.trans (tail_sublist host)
  · split
    · exact (List.takeWhile_prefix _).sublist
    · exact List.Sublist.refl host

/-- White space ends the host. -/
theorem hostPart_noSpace (url : Bytes) :
    stringHasWhitespace ((hostPart url).map toLower) = false := by
  unfold stringHasWhitespace
  rw [List.any_eq_false]
  rintro b member space
  obtain ⟨c, inside, rfl⟩ := List.mem_map.mp member
  have part : c ∈ authority url :=
    (splitLogin_suffix _).subset ((splitPort_sublist _).subset inside)
  have inHost := mem_takeWhile_imp part
  have same : toLower c = c := by
    have kinds : toLower c = 32 ∨ toLower c = 9 ∨ toLower c = 10 ∨ toLower c = 13 := by
      simpa [ascii] using space
    rcases kinds with kind | kind | kind | kind
    all_goals rw [kind, eq_comm]; exact (toLower_eq_iff (by decide) (by decide)).mp kind
  rw [same] at space
  have blank : isSpace c = true := by
    have kinds : c = 32 ∨ c = 9 ∨ c = 10 ∨ c = 13 := by simpa [ascii] using space
    rcases kinds with rfl | rfl | rfl | rfl <;> rfl
  simp [endsHost, blank] at inHost

/-- The parts of a URL that are checked. -/
theorem parseUrl_eq_some {config : UrlConfig} {url : Bytes} {request : UrlRequest}
    (accepted : parseUrl config sys url = some request) :
    ∃ protocol login urlpath port,
      checkParts config sys protocol (hostPart url) login urlpath port = some request := by
  unfold parseUrl at accepted
  split at accepted
  · rename_i src found
    simp only at accepted
    split at accepted
    · simp at accepted
    · have same : authority url = src.takeWhile fun b => !endsHost b := by
        rw [authority, found]
        rfl
      rw [← same] at accepted
      exact ⟨_, _, _, _, accepted⟩
  · simp at accepted

/--
An accepted URL names a host exactly if what is left of its host without port, domain and dots at the
end does, and it is not cut behind a dot.
-/
theorem urlParse_namesHost_iff {config : UrlConfig} {sys : AddressText} {method : UrlMethod}
    {url : Bytes} {request : UrlRequest} (text : PlainText sys)
    (noConnect : method ≠ .METHOD_CONNECT)
    (noAsterisk : ¬ ((method = .METHOD_OPTIONS ∨ method = .METHOD_TRACE) ∧ url = [42]))
    (noUrn : url.take 4 ≠ ascii "urn:") (scheme : request.protocol ≠ .PROTO_NONE)
    (accepted : urlParse config sys method url = some request) :
    NamesHost request ↔ HostKept config sys (hostPart url) := by
  unfold urlParse at accepted
  rw [if_neg noConnect, if_neg noAsterisk, if_neg noUrn] at accepted
  split at accepted
  · simp at accepted
  · obtain ⟨protocol, login, urlpath, port, checked⟩ := parseUrl_eq_some accepted
    obtain ⟨dots, first, range, path, rfl⟩ := checkParts_eq_some (hostPart_noSpace url) checked
    refine SetHost_iff text dots first rfl ?_
    change 1 ≤ (port % 2 ^ 16).toNat ∧ (port % 2 ^ 16).toNat ≤ 65535
    omega

/-- A configuration without `append_domain`. -/
def plainConfig : UrlConfig where
  appendDomain := none
  check_hostnames := true
  allow_underscore := true
  uri_whitespace := .URI_WHITESPACE_STRIP
  dotted := by simp

/-- A system for hosts that are no addresses. -/
def noAddress : AddressText where
  getaddrinfo := fun _ => none
  inet_ntop := fun _ => []

/-- The host `WWW.`, which is lowered and loses its dot. -/
theorem urlParse_namesHost_www :
    ∃ request, urlParse plainConfig noAddress .other (ascii "http://WWW./") = some request ∧
      request.host = ascii "www" ∧ NamesHost request := by
  have accepted : urlParse plainConfig noAddress .other (ascii "http://WWW./") =
      some (urlParseFinish noAddress .PROTO_HTTP [47] (ascii "www") [] 80) := by rfl
  have kept : HostKept plainConfig noAddress (hostPart (ascii "http://WWW./")) := by
    rw [show hostPart (ascii "http://WWW./") = ascii "WWW." by rfl]
    exact .inr ⟨⟨87, by decide, by decide⟩, fun absent => absurd (by decide) absent, nofun⟩
  exact ⟨_, accepted, rfl, (urlParse_namesHost_iff (fun _ => ⟨rfl, rfl⟩) (by decide) (by decide)
    (by decide) (by decide) accepted).mpr kept⟩

/-- Nothing is left of a host that is only a port. -/
theorem urlParse_only_port :
    ¬ ∀ (config : UrlConfig) (sys : AddressText) (method : UrlMethod) (url : Bytes)
      (request : UrlRequest), PlainText sys → method ≠ .METHOD_CONNECT →
      ¬ ((method = .METHOD_OPTIONS ∨ method = .METHOD_TRACE) ∧ url = [42]) →
      url.take 4 ≠ ascii "urn:" → request.protocol ≠ .PROTO_NONE →
      urlParse config sys method url = some request → NamesHost request := by
  intro always
  have accepted : urlParse plainConfig noAddress .other (ascii "http://:80/") =
      some (urlParseFinish noAddress .PROTO_HTTP [47] [] [] 80) := by
    change checkParts plainConfig noAddress .PROTO_HTTP [] [] [47] (atoi (ascii "80")) = _
    rw [show atoi (ascii "80") = 80 by decide +kernel]
    rfl
  have named := always plainConfig noAddress .other _ _ (fun _ => ⟨rfl, rfl⟩) (by decide)
    (by decide) (by decide) (by decide) accepted
  exact named.ne_nil rfl

end Url
end Squid
