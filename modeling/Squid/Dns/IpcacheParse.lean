import Squid.Dns.IpcacheAddrs
import Squid.Dns.Rfc1035
import Mathlib.Data.List.DropRight
import Mathlib.Data.List.MinMax

/-!
# Answers for the IP cache

`ipcacheParse` of `src/ipcache.cc` stores the addresses of an answer, and lets the entry expire after
the time to live that its second loop computes.  That loop takes 0 for no time yet, and the
times for signed numbers.
-/

namespace Squid.Ipcache

open CRuntime Rfc1035 List

/-- `RFC1035_TYPE_A`. -/
def typeA : ℕ := 1

/-- `RFC1035_TYPE_AAAA`. -/
def typeAaaa : ℕ := 28

/-- `Ip::EnableIpv6` and the limits of the configuration. -/
structure DnsConfig where
  EnableIpv6 : Bool
  negativeDnsTtl : ℤ
  positiveDnsTtl : ℤ

/-- The number that bytes in network order make. -/
def networkOrder (bytes : Bytes) : ℕ := bytes.foldl (fun value b => 256 * value + b.toNat) 0

def Map4to6 (s_addr : Bytes) : Ip.Address :=
  if networkOrder s_addr = 0 then Ip.Address.v4_anyaddr
  else if networkOrder s_addr = 2 ^ 32 - 1 then Ip.Address.v4_noaddr
  else Ip.Address.v4_anyaddr ||| BitVec.ofNat 128 (networkOrder s_addr)

/-- What the first loop counts. -/
structure AnswerCounts where
  na : ℕ := 0
  rr_a : ℕ := 0
  rr_aaaa : ℕ := 0
  rr_cname : ℕ := 0
  cname_found : Bool := false

/-- The body of the first loop. -/
def countAnswer (EnableIpv6 : Bool) (counts : AnswerCounts) (answer : Record) : AnswerCounts :=
  if EnableIpv6 ∧ answer.type = typeAaaa then
    if answer.rdlength ≠ 16 then counts
    else { counts with na := counts.na + 1, rr_aaaa := counts.rr_aaaa + 1 }
  else if answer.type = typeA then
    if answer.rdlength ≠ 4 then counts
    else { counts with na := counts.na + 1, rr_a := counts.rr_a + 1 }
  else if answer.type = typeCname then
    { counts with cname_found := true, rr_cname := counts.rr_cname + 1 }
  else counts

/-- The last lines of the second loop. -/
def lowerTtl (ttl : ℤ) (answer : Record) : ℤ :=
  if ttl = 0 ∨ int32 answer.ttl < ttl then int32 answer.ttl else ttl

/-- The body of the second loop, with the addresses so far and `ttl`. -/
def storeAnswer (EnableIpv6 : Bool) (stored : List Ip.Address × ℤ) (answer : Record) :
    List Ip.Address × ℤ :=
  if answer.type = typeA then
    if answer.rdlength ≠ 4 then stored
    else (stored.1 ++ [Map4to6 (answer.rdata.take 4)], lowerTtl stored.2 answer)
  else if EnableIpv6 ∧ answer.type = typeAaaa then
    if answer.rdlength ≠ 16 then stored
    else (stored.1 ++ [BitVec.ofNat 128 (networkOrder (answer.rdata.take 16))],
      lowerTtl stored.2 answer)
  else (stored.1, lowerTtl stored.2 answer)

/-- `ttl` within the limits. -/
def limitTtl (config : DnsConfig) (ttl : ℤ) : ℤ :=
  let ttl := if config.positiveDnsTtl < ttl then int32 config.positiveDnsTtl else ttl
  if ttl < config.negativeDnsTtl then int32 config.negativeDnsTtl else ttl

/-- The entry that `ipcacheParse` starts with. -/
def parseStart (config : DnsConfig) (squid_curtime : ℤ) (i : IpcacheEntry) : IpcacheEntry where
  expires := squid_curtime + config.negativeDnsTtl
  negcached := true
  error_message := none
  addrs := { i.addrs with in_addrs := [], bad_mask := [], count := 0 }

/-- `ipcacheParse`, where `answers` is `none` for a negative `nr`: what it returns, the entry, and
the counters; `none` for a failed assertion. -/
def ipcacheParse (config : DnsConfig) (squid_curtime : ℤ) (i : IpcacheEntry)
    (answers : Option (List Record)) (error_message : String) :
    Option (ℤ × IpcacheEntry × AnswerCounts) :=
  let i := parseStart config squid_curtime i
  match answers with
  | none => some (-1, { i with error_message := some error_message }, {})
  | some [] => some (-1, { i with error_message := some "No DNS records" }, {})
  | some answers =>
      let counts := answers.foldl (countAnswer config.EnableIpv6) {}
      if counts.na = 0 then
        some (0, { i with error_message := some "No Address records" }, counts)
      else
        let stored := answers.foldl (storeAnswer config.EnableIpv6) ([], 0)
        if stored.1.length = counts.na then
          let count := if counts.na < 256 then counts.na else 255
          some (count,
            { i with
              addrs := { i.addrs with
                in_addrs := stored.1, bad_mask := List.replicate counts.na false, count }
              expires := squid_curtime + limitTtl config stored.2
              negcached := false },
            counts)
        else none

/-! ## The two loops -/

/-- A record that holds an address. -/
def isAddress (EnableIpv6 : Bool) (answer : Record) : Bool :=
  answer.type = typeA ∧ answer.rdlength = 4 ∨
    EnableIpv6 ∧ answer.type = typeAaaa ∧ answer.rdlength = 16

/-- A record for an address that does not have the size of one. -/
def isInvalid (EnableIpv6 : Bool) (answer : Record) : Bool :=
  answer.type = typeA ∧ answer.rdlength ≠ 4 ∨
    EnableIpv6 ∧ answer.type = typeAaaa ∧ answer.rdlength ≠ 16

variable {answer : Record}

theorem not_isInvalid {EnableIpv6 : Bool} (address : isAddress EnableIpv6 answer = true) :
    isInvalid EnableIpv6 answer = false := by
  simp only [isAddress, decide_eq_true_iff] at address
  simp only [isInvalid, decide_eq_false_iff_not]
  rintro (⟨v4, size⟩ | ⟨-, v6, size⟩)
  · obtain ⟨-, size'⟩ | ⟨-, v6, -⟩ := address
    · exact size size'
    · rw [v4] at v6
      cases v6
  · obtain ⟨v4, -⟩ | ⟨-, -, size'⟩ := address
    · rw [v6] at v4
      cases v4
    · exact size size'

/-- The address in a record. -/
def addressOf (answer : Record) : Ip.Address :=
  if answer.type = typeA then Map4to6 (answer.rdata.take 4)
  else BitVec.ofNat 128 (networkOrder (answer.rdata.take 16))

variable {EnableIpv6 : Bool}

theorem countAnswer_na (counts : AnswerCounts) (answer : Record) :
    (countAnswer EnableIpv6 counts answer).na =
      counts.na + if isAddress EnableIpv6 answer then 1 else 0 := by
  unfold countAnswer isAddress
  split
  · next v6 =>
      have other : answer.type ≠ typeA := by rw [v6.2]; decide
      split <;> simp_all
  · split
    · next v6 v4 => split <;> simp_all
    · split
      · simp_all
      · simp_all

theorem storeAnswer_eq (stored : List Ip.Address × ℤ) (answer : Record) :
    storeAnswer EnableIpv6 stored answer =
      (stored.1 ++ if isAddress EnableIpv6 answer then [addressOf answer] else [],
        if isInvalid EnableIpv6 answer then stored.2 else lowerTtl stored.2 answer) := by
  unfold storeAnswer isAddress isInvalid addressOf
  split
  · next v4 =>
      have other : typeA ≠ typeAaaa := by decide
      split <;> simp_all
  · split
    · split <;> simp_all
    · simp_all

theorem foldl_na (answers : List Record) (counts : AnswerCounts) :
    (answers.foldl (countAnswer EnableIpv6) counts).na =
      counts.na + (answers.filter (isAddress EnableIpv6)).length := by
  induction answers generalizing counts with
  | nil => rfl
  | cons answer answers ih =>
      rw [foldl_cons, ih, countAnswer_na, filter_cons]
      split
      · rw [length_cons]
        omega
      · rfl

/-- The second loop stores the addresses that the first one counts, and computes `ttl` from the
records that are not invalid. -/
theorem foldl_stored (answers : List Record) (stored : List Ip.Address × ℤ) :
    answers.foldl (storeAnswer EnableIpv6) stored =
      (stored.1 ++ (answers.filter (isAddress EnableIpv6)).map addressOf,
        (answers.filter fun answer => !isInvalid EnableIpv6 answer).foldl lowerTtl stored.2) := by
  induction answers generalizing stored with
  | nil => simp
  | cons answer answers ih =>
      rw [foldl_cons, ih, storeAnswer_eq, filter_cons, filter_cons]
      cases isAddress EnableIpv6 answer <;> cases isInvalid EnableIpv6 answer <;> simp

/-! ## The time to live -/

/-- The records after the last one with the time 0. -/
def afterZero (answers : List Record) : List Record :=
  answers.rtakeWhile fun answer => answer.ttl ≠ 0

theorem afterZero_append (answers : List Record) (last : Record) :
    afterZero (answers ++ [last]) = if last.ttl = 0 then [] else afterZero answers ++ [last] := by
  rw [afterZero, rtakeWhile_concat]
  split <;> simp_all [afterZero]

variable {answers : List Record}

theorem mem_of_afterZero (member : answer ∈ afterZero answers) : answer ∈ answers :=
  (rtakeWhile_suffix _ answers).subset member

theorem int32_ttl (wide : answer.ttl < 2 ^ 32) :
    int32 answer.ttl = if answer.ttl < 2 ^ 31 then (answer.ttl : ℤ) else answer.ttl - 2 ^ 32 := by
  unfold int32
  split <;> omega

/-- What `ttl` is after some records: with a time from `2 ^ 31` on, the least of these times as a
negative number, else the least time after the last 0. -/
theorem foldl_lowerTtl (answers : List Record) (wide : ∀ answer ∈ answers, answer.ttl < 2 ^ 32) :
    (∃ answer ∈ answers, 2 ^ 31 ≤ answer.ttl ∧
      answers.foldl lowerTtl 0 = (answer.ttl : ℤ) - 2 ^ 32 ∧
      ∀ other ∈ answers, 2 ^ 31 ≤ other.ttl → answer.ttl ≤ other.ttl) ∨
    (∀ answer ∈ answers, answer.ttl < 2 ^ 31) ∧
      (afterZero answers = [] ∧ answers.foldl lowerTtl 0 = 0 ∨
        ∃ answer ∈ afterZero answers, answers.foldl lowerTtl 0 = answer.ttl ∧ answer.ttl ≠ 0 ∧
          ∀ other ∈ afterZero answers, answer.ttl ≤ other.ttl) := by
  induction answers using List.reverseRecOn with
  | nil => exact Or.inr ⟨by simp, Or.inl ⟨rfl, rfl⟩⟩
  | append_singleton answers last ih =>
      obtain ⟨wide, wide_last⟩ : (∀ answer ∈ answers, answer.ttl < 2 ^ 32) ∧ last.ttl < 2 ^ 32 := by
        simpa [or_imp, forall_and] using wide
      have large : 2 ^ 31 ≤ last.ttl → int32 last.ttl = (last.ttl : ℤ) - 2 ^ 32 := fun big => by
        rw [int32_ttl wide_last, if_neg (by omega)]
      have exact : last.ttl < 2 ^ 31 → int32 last.ttl = last.ttl := fun small => by
        rw [int32_ttl wide_last, if_pos small]
      rw [foldl_append, foldl_cons, foldl_nil, lowerTtl, afterZero_append]
      obtain ⟨answer, member, big, value, least⟩ | ⟨small, ⟨nothing, value⟩ |
        ⟨answer, member, value, nonzero, least⟩⟩ := ih wide
      · -- a negative `ttl` stays, unless the last one is more negative
        rw [value]
        have negative := wide answer member
        left
        by_cases lower : 2 ^ 31 ≤ last.ttl ∧ last.ttl < answer.ttl
        · refine ⟨last, by simp, lower.1, by rw [large lower.1, if_pos (by omega)], ?_⟩
          exact forall_mem_append.mpr
            ⟨fun other before big' => lower.2.le.trans (least other before big'), by simp⟩
        · refine ⟨answer, by simp [member], big, ?_, forall_mem_append.mpr ⟨least, ?_⟩⟩
          · obtain below | above := Nat.lt_or_ge last.ttl (2 ^ 31)
            · rw [exact below, if_neg (by omega)]
            · rw [large above, if_neg (by omega)]
          · rw [forall_mem_singleton]
            omega
      all_goals
        rw [value]
        obtain below | above := Nat.lt_or_ge last.ttl (2 ^ 31)
      · right
        refine ⟨forall_mem_append.mpr ⟨small, by simpa using below⟩, ?_⟩
        rw [exact below, if_pos (Or.inl rfl), nothing]
        by_cases zero : last.ttl = 0
        · exact Or.inl ⟨if_pos zero, by rw [zero]; rfl⟩
        · exact Or.inr ⟨last, by simp [zero], rfl, zero, by simp [zero]⟩
      · left
        refine ⟨last, by simp, above, by rw [large above, if_pos (Or.inl rfl)], ?_⟩
        exact forall_mem_append.mpr
          ⟨fun other before big => absurd (small other before) (by omega), by simp⟩
      · right
        refine ⟨forall_mem_append.mpr ⟨small, by simpa using below⟩, ?_⟩
        rw [exact below]
        by_cases zero : last.ttl = 0
        · exact Or.inl ⟨if_pos zero, by rw [if_pos (by omega), zero]; rfl⟩
        · rw [if_neg zero]
          right
          by_cases lower : last.ttl < answer.ttl
          · refine ⟨last, by simp, by rw [if_pos (by omega)], zero, ?_⟩
            exact forall_mem_append.mpr
              ⟨fun other before => lower.le.trans (least other before), by simp⟩
          · refine ⟨answer, by simp [member], by rw [if_neg (by omega)], nonzero, ?_⟩
            exact forall_mem_append.mpr ⟨least, by simpa using lower⟩
      · left
        refine ⟨last, by simp, above, by rw [large above, if_pos (by omega)], ?_⟩
        exact forall_mem_append.mpr
          ⟨fun other before big => absurd (small other before) (by omega), by simp⟩

/-! ## Expiry -/

section Expiry

variable {config : DnsConfig} (limits : config.negativeDnsTtl ≤ config.positiveDnsTtl)
include limits

/-- The limits are met exactly if they fit an `int` as far as they count. -/
theorem limitTtl_eq_iff {ttl : ℤ} {least : ℕ} (low : -2 ^ 31 ≤ ttl) (high : ttl < 2 ^ 31) :
    limitTtl config ttl = max config.negativeDnsTtl (min least config.positiveDnsTtl) ↔
      (-2 ^ 31 ≤ config.positiveDnsTtl ∧ config.negativeDnsTtl < 2 ^ 31) ∧
        max config.negativeDnsTtl (min ttl config.positiveDnsTtl) =
          max config.negativeDnsTtl (min least config.positiveDnsTtl) := by
  have upper := int32_mem config.positiveDnsTtl
  have lower := int32_mem config.negativeDnsTtl
  have upper_eq := @int32_eq config.positiveDnsTtl
  have lower_eq := @int32_eq config.negativeDnsTtl
  rw [limitTtl]
  split <;> split <;> omega

/-- Two numbers end up at the same place between the limits unless the limits differ and the
smaller one is below the upper, the larger one above the lower limit. -/
theorem clamp_eq_iff {ttl least : ℤ} :
    max config.negativeDnsTtl (min ttl config.positiveDnsTtl) =
        max config.negativeDnsTtl (min least config.positiveDnsTtl) ↔
      (config.negativeDnsTtl < config.positiveDnsTtl →
        (ttl < least → ttl < config.positiveDnsTtl → least ≤ config.negativeDnsTtl) ∧
        (least < ttl → least < config.positiveDnsTtl → ttl ≤ config.negativeDnsTtl)) := by
  omega

end Expiry

/-- The condition on the records under which the least time counts: no usable record has a
time from `2 ^ 31` on, or some record has a time below the lower limit, and otherwise the records
after the last usable one with the time 0 reach down to every record. -/
structure SmallestCounts (config : DnsConfig) (answers usable : List Record) : Prop where
  large : ∀ answer ∈ usable, 2 ^ 31 ≤ answer.ttl →
    (answer.ttl : ℤ) - 2 ^ 32 < config.positiveDnsTtl →
    ∃ other ∈ answers, (other.ttl : ℤ) ≤ config.negativeDnsTtl
  zero : (∀ answer ∈ usable, answer.ttl < 2 ^ 31) → afterZero usable ≠ [] →
    ∀ answer ∈ answers, (answer.ttl : ℤ) < config.positiveDnsTtl →
    ∃ other ∈ afterZero usable, (other.ttl : ℤ) ≤ config.negativeDnsTtl ∨ other.ttl ≤ answer.ttl

variable {config : DnsConfig}

/-- The loop leaves the smallest time, or one that the limits make the same. -/
theorem clamp_foldl_iff (limits : config.negativeDnsTtl ≤ config.positiveDnsTtl)
    {usable : List Record} (wide : ∀ answer ∈ answers, answer.ttl < 2 ^ 32)
    (part : ∀ answer ∈ usable, answer ∈ answers) (nonempty : usable ≠ []) {first : Record}
    (member : first ∈ answers) (least : ∀ answer ∈ answers, first.ttl ≤ answer.ttl) :
    max config.negativeDnsTtl (min (usable.foldl lowerTtl 0) config.positiveDnsTtl) =
        max config.negativeDnsTtl (min (first.ttl : ℤ) config.positiveDnsTtl) ↔
      (config.negativeDnsTtl < config.positiveDnsTtl → SmallestCounts config answers usable) := by
  rw [clamp_eq_iff limits]
  apply forall_congr'
  intro apart
  obtain ⟨answer, used, big, value, lowest⟩ | ⟨small, ⟨nothing, value⟩ |
    ⟨answer, used, value, nonzero, lowest⟩⟩ :=
    foldl_lowerTtl usable fun answer used => wide answer (part answer used)
  · have bound := wide answer (part answer used)
    rw [value]
    constructor
    · rintro ⟨low, -⟩
      refine ⟨fun other used' big' below => ⟨first, member, ?_⟩, fun small => ?_⟩
      · have := lowest other used' big'
        omega
      · have := small answer used
        omega
    · rintro ⟨large, -⟩
      refine ⟨fun _ below => ?_, fun more => by omega⟩
      obtain ⟨other, member', under⟩ := large answer used big below
      have := least other member'
      omega
  · rw [value]
    have zero : first.ttl = 0 := by
      obtain ⟨front, last, rfl⟩ := (eq_nil_or_concat usable).resolve_left nonempty
      have lowest := least last (part last (by simp))
      by_contra positive
      rw [concat_eq_append, afterZero_append, if_neg (by omega)] at nothing
      simp at nothing
    rw [zero]
    refine ⟨fun _ => ⟨fun other used big => ?_, fun _ some_later => absurd nothing some_later⟩,
      fun _ => ⟨by simp, by simp⟩⟩
    have := small other used
    omega
  · rw [value]
    have from_first := least answer (part answer (mem_of_afterZero used))
    constructor
    · rintro ⟨-, high⟩
      refine ⟨fun other used' big => ?_, fun _ _ other member' below => ⟨answer, used, ?_⟩⟩
      · have := small other used'
        omega
      · have := least other member'
        omega
    · rintro ⟨-, reach⟩
      refine ⟨fun less => by omega, fun more below => ?_⟩
      obtain ⟨other, used', under⟩ := reach small (ne_nil_of_mem used) first member below
      have := lowest other used'
      omega

theorem foldl_lowerTtl_range (wide : ∀ answer ∈ answers, answer.ttl < 2 ^ 32) :
    -2 ^ 31 ≤ answers.foldl lowerTtl 0 ∧ answers.foldl lowerTtl 0 < 2 ^ 31 := by
  obtain ⟨answer, used, big, value, -⟩ | ⟨small, ⟨-, value⟩ | ⟨answer, used, value, -, -⟩⟩ :=
    foldl_lowerTtl answers wide
  · have := wide answer used
    omega
  · omega
  · have := small answer (mem_of_afterZero used)
    omega

/-! ## Answers -/

/-- `ipcacheParse` succeeds, and if it stores addresses, these are the ones in the records, at most
255 of them count, and they expire after the smallest time of all records, within the limits. -/
def CachedForSmallest (config : DnsConfig) (squid_curtime : ℤ) (i : IpcacheEntry)
    (answers : List Record) (error_message : String) : Prop :=
  ∃ result i' counts,
    ipcacheParse config squid_curtime i (some answers) error_message = some (result, i', counts) ∧
    (i'.addrs.count ≠ 0 →
      i'.addrs.in_addrs = (answers.filter (isAddress config.EnableIpv6)).map addressOf ∧
      i'.addrs.count = min i'.addrs.in_addrs.length 255 ∧
      ∃ least, (answers.map Record.ttl).min? = some least ∧ i'.expires - squid_curtime =
        max config.negativeDnsTtl (min (least : ℤ) config.positiveDnsTtl))

/-- The condition under which answers are cached for their smallest time. -/
def KeepsSmallest (config : DnsConfig) (answers : List Record) : Prop :=
  -2 ^ 31 ≤ config.positiveDnsTtl ∧ config.negativeDnsTtl < 2 ^ 31 ∧
    (config.negativeDnsTtl < config.positiveDnsTtl → SmallestCounts config answers
      (answers.filter fun answer => !isInvalid config.EnableIpv6 answer))

/-- An answer without addresses is not stored. -/
theorem ipcacheParse_of_no_address (nothing : answers.filter (isAddress config.EnableIpv6) = [])
    (squid_curtime : ℤ) (i : IpcacheEntry) (error_message : String) :
    ∃ result i' counts,
      ipcacheParse config squid_curtime i (some answers) error_message =
        some (result, i', counts) ∧ i'.addrs.count = 0 := by
  cases answers with
  | nil => exact ⟨_, _, _, rfl, rfl⟩
  | cons answer answers =>
      have none_counted : ((answer :: answers).foldl (countAnswer config.EnableIpv6) {}).na = 0 := by
        rw [foldl_na, nothing]
        rfl
      exact ⟨_, _, _, if_pos none_counted, rfl⟩

/-- What is stored of an answer with addresses. -/
theorem ipcacheParse_of_address (some_address : answers.filter (isAddress config.EnableIpv6) ≠ [])
    (squid_curtime : ℤ) (i : IpcacheEntry) (error_message : String) :
    ∃ result i' counts,
      ipcacheParse config squid_curtime i (some answers) error_message =
        some (result, i', counts) ∧ i'.addrs.count ≠ 0 ∧ i'.negcached = false ∧
      i'.addrs = ⟨(answers.filter (isAddress config.EnableIpv6)).map addressOf,
        List.replicate (answers.filter (isAddress config.EnableIpv6)).length false,
        min (answers.filter (isAddress config.EnableIpv6)).length 255,
        i.addrs.cur, i.addrs.badcount⟩ ∧
      i'.expires = squid_curtime + limitTtl config
        ((answers.filter fun answer => !isInvalid config.EnableIpv6 answer).foldl lowerTtl 0) := by
  have positive := length_pos_iff.mpr some_address
  cases answers with
  | nil => simp at some_address
  | cons answer answers =>
      have na : ((answer :: answers).foldl (countAnswer config.EnableIpv6) {}).na =
          ((answer :: answers).filter (isAddress config.EnableIpv6)).length := by
        rw [foldl_na]
        exact Nat.zero_add _
      have stored := @foldl_stored config.EnableIpv6 (answer :: answers) ([], 0)
      have count : (if ((answer :: answers).foldl (countAnswer config.EnableIpv6) {}).na < 256 then
          ((answer :: answers).foldl (countAnswer config.EnableIpv6) {}).na else 255) =
          min ((answer :: answers).filter (isAddress config.EnableIpv6)).length 255 := by
        rw [na]
        split <;> omega
      refine ⟨_, _, _, (if_neg (by omega)).trans (if_pos ?_), ?_, rfl, ?_, ?_⟩
      · rw [stored, na, List.nil_append, length_map]
      · dsimp only
        rw [count]
        omega
      · simp only [parseStart, count, stored, List.nil_append]
        rw [na]
      · simp only [stored]

/-- Answers are cached for their smallest time exactly under the condition. -/
theorem cachedForSmallest_iff {config : DnsConfig}
    (limits : config.negativeDnsTtl ≤ config.positiveDnsTtl) (squid_curtime : ℤ) (i : IpcacheEntry)
    (answers : List Record) (wide : ∀ answer ∈ answers, answer.ttl < 2 ^ 32)
    (error_message : String) :
    CachedForSmallest config squid_curtime i answers error_message ↔
      ((∃ answer ∈ answers, isAddress config.EnableIpv6 answer) → KeepsSmallest config answers) := by
  by_cases some_address : answers.filter (isAddress config.EnableIpv6) = []
  · obtain ⟨result, i', counts, parsed, nothing⟩ :=
      ipcacheParse_of_no_address some_address squid_curtime i error_message
    refine ⟨fun _ ⟨answer, member, address⟩ => ?_,
      fun _ => ⟨result, i', counts, parsed, absurd nothing⟩⟩
    exact absurd address (filter_eq_nil_iff.mp some_address answer member)
  · obtain ⟨address, address_used⟩ := exists_mem_of_ne_nil _ some_address
    obtain ⟨member, is_address⟩ := mem_filter.mp address_used
    obtain ⟨result, i', counts, parsed, positive, -, addrs, expires⟩ :=
      ipcacheParse_of_address some_address squid_curtime i error_message
    have usable_part : ∀ answer ∈ answers.filter (fun answer => !isInvalid config.EnableIpv6 answer),
        answer ∈ answers := fun answer used => mem_of_mem_filter used
    have usable_nonempty : answers.filter (fun answer => !isInvalid config.EnableIpv6 answer) ≠ [] :=
      ne_nil_of_mem (mem_filter.mpr ⟨member, by simp [not_isInvalid is_address]⟩)
    obtain ⟨low, high⟩ := foldl_lowerTtl_range fun answer used => wide answer (usable_part answer used)
    obtain ⟨least, smallest⟩ : ∃ least, (answers.map Record.ttl).min? = some least :=
      Option.ne_none_iff_exists'.mp fun empty => by
        simp only [List.min?_eq_none_iff, map_eq_nil_iff] at empty
        rw [empty] at member
        cases member
    obtain ⟨at_least, lowest⟩ := List.min?_eq_some_iff.mp smallest
    obtain ⟨first, first_member, rfl⟩ := List.mem_map.mp at_least
    have meets : (limitTtl config ((answers.filter fun answer =>
        !isInvalid config.EnableIpv6 answer).foldl lowerTtl 0) =
        max config.negativeDnsTtl (min (first.ttl : ℤ) config.positiveDnsTtl)) ↔
        KeepsSmallest config answers := by
      rw [limitTtl_eq_iff limits low high, clamp_foldl_iff limits wide usable_part usable_nonempty
        first_member fun answer member => lowest _ (List.mem_map_of_mem member), and_assoc]
      rfl
    constructor
    · rintro ⟨result', i'', counts', parsed', stored⟩ -
      rw [parsed] at parsed'
      cases parsed'
      obtain ⟨-, -, least', smallest', time⟩ := stored positive
      rw [smallest] at smallest'
      cases smallest'
      rw [expires] at time
      exact meets.mp (by omega)
    · intro keeps
      refine ⟨result, i', counts, parsed, fun _ => ⟨by rw [addrs], by rw [addrs, length_map],
        first.ttl, smallest, ?_⟩⟩
      rw [expires, ← meets.mpr (keeps ⟨address, member, is_address⟩)]
      omega

/-- A record with an IPv4 address. -/
def plainAnswer (ttl : ℕ) : Record where
  name := fun _ => 0
  type := typeA
  cls := 1
  ttl
  rdlength := 4
  rdata := [10, 0, 0, 1]

/-- The default limits. -/
def plainConfig : DnsConfig := ⟨true, 60, 21600⟩

/-- A new entry. -/
def newEntry : IpcacheEntry := ⟨0, false, ⟨[], [], 0, 0, 0⟩, none⟩

/-- Of the times 0 and 3600 the second one counts. -/
theorem not_cachedForSmallest :
    ¬ CachedForSmallest plainConfig 1000 newEntry [plainAnswer 0, plainAnswer 3600] "" := by
  rintro ⟨result, i', counts, parsed, stored⟩
  have computed : (ipcacheParse plainConfig 1000 newEntry
      (some [plainAnswer 0, plainAnswer 3600]) "").map
        (fun parsed => (parsed.2.1.expires, parsed.2.1.addrs.count)) = some (4600, 2) := by decide
  rw [parsed, Option.map_some, Option.some_inj, Prod.mk.injEq] at computed
  obtain ⟨-, -, least, smallest, time⟩ := stored (by rw [computed.2]; decide)
  cases smallest
  rw [computed.1] at time
  exact absurd time (by decide)

/-- The times 3600 and 300, in this order. -/
theorem cachedForSmallest_iff_sample :
    CachedForSmallest plainConfig 1000 newEntry [plainAnswer 3600, plainAnswer 300] "" := by
  refine (cachedForSmallest_iff (by decide) 1000 newEntry _ (by decide) "").mpr fun _ => ?_
  exact ⟨by decide, by decide, fun _ => ⟨by decide, by decide⟩⟩

end Squid.Ipcache
