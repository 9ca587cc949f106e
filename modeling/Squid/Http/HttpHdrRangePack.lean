import Squid.Http.StrListWords
import Squid.Http.HttpHdrRangeBytes
import Mathlib.Data.List.Forall2

/-!
# Packing the specs of a `Range` header

`packInto` writes what `parseInit` reads, except where the parser has stored what no form of a range
spec says: a length of zero, which comes from a last position whose successor is no `int64_t`, and a
first position below `-1`, whose sign was hidden behind white space.
-/

namespace Squid

open CRuntime List Option

namespace HttpHdrRangeSpec

/-- `HttpHdrRangeSpec::packInto`. -/
def packInto (spec : HttpHdrRangeSpec) : Bytes :=
  if !knownSpec spec.offset then
    45 :: decimal spec.length
  else if !knownSpec spec.length then
    decimal spec.offset ++ [45]
  else
    decimal spec.offset ++ 45 :: decimal (int64 (int64 (spec.offset + spec.length) - 1))

/-- The last position of an item, where it has one. -/
def lastPosition (item : Bytes × ℕ) : Option ℤ :=
  (strchr item.1 45).bind fun p =>
    if p + 1 < item.2 then some (strtoll 10 (item.1.drop (p + 1))).1 else none

/-- The item is a suffix, or its first position is a number of bytes and its last one, if any, is
below `INT64_MAX`.  A first position of `-1` is packed as the suffix it then is. -/
def Packable (item : Bytes × ℕ) : Prop :=
  item.1.headD 0 = 45 ∨ (strtoll 10 item.1).1 = -1 ∨
    0 ≤ (strtoll 10 item.1).1 ∧ lastPosition item ≠ some (2 ^ 63 - 1)

instance (item : Bytes × ℕ) : Decidable (Packable item) := by
  unfold Packable
  infer_instance

/-- The spec is written in a form that says the same. -/
def Faithful (spec : HttpHdrRangeSpec) : Prop :=
  spec.offset = -1 ∨ 0 ≤ spec.offset ∧ spec.length ≠ 0

/-- What the parser can have stored. -/
structure Stored (spec : HttpHdrRangeSpec) : Prop where
  /-- Canonization handles it, or both positions are negative. -/
  kind : spec.Sound ∨ spec.Negative
  /-- The length is an `int64_t`. -/
  length : -2 ^ 63 ≤ spec.length ∧ spec.length < 2 ^ 63

variable {spec : HttpHdrRangeSpec}

theorem length_mem {field : Bytes} {flen : ℕ} (parsed : parseInit field flen = some spec) :
    -2 ^ 63 ≤ spec.length ∧ spec.length < 2 ^ 63 := by
  simp only [parseInit, httpHeaderParseOffset, bind_eq_bind, bind_some] at parsed
  split at parsed
  · simp at parsed
  split at parsed
  · cases some.inj parsed
    exact strtoll_mem 10 field.tail
  split at parsed
  · simp at parsed
  split at parsed
  · split at parsed
    · split at parsed
      · simp at parsed
      · cases some.inj parsed
        exact int64_mem _
    · cases some.inj parsed
      exact ⟨by simp [UnknownPosition], by simp [UnknownPosition]⟩
  · simp at parsed

/-- What is written is read back exactly where its form says what is stored. -/
theorem parseInit_packInto {rest : Bytes} (stored : spec.Stored)
    (stop : rest.takeWhile (isDigit 10) = []) :
    parseInit (spec.packInto ++ rest) spec.packInto.length = some spec ↔ spec.Faithful := by
  obtain ⟨kind, low, high⟩ := stored
  have some_length := length_pos_iff.mpr (decimal_ne_nil spec.length)
  by_cases suffix : spec.offset < 0
  · have text : spec.packInto = 45 :: decimal spec.length := by
      simp [packInto, not_knownSpec suffix]
    rw [text, cons_append, parseInit_dash (by rw [length_cons]; omega),
      strtoll_decimal low high stop]
    obtain ⟨offset, length⟩ := spec
    simp only [some.injEq, HttpHdrRangeSpec.mk.injEq, and_true, Faithful, UnknownPosition]
    dsimp only at suffix
    omega
  · have known : 0 ≤ spec.offset := by omega
    have sound : spec.Sound := by
      rcases kind with sound | ⟨negative, -⟩
      · exact sound
      · omega
    have offset_lt : spec.offset < 2 ^ 63 := by
      rcases sound with ⟨_, _, _⟩ | ⟨_, bound, _⟩ | ⟨_, _⟩ <;> omega
    have first : saturate false (magnitude 10 (digits spec.offset.toNat)) = spec.offset := by
      rw [magnitude_digits]
      simp only [saturate, Bool.false_eq_true, if_false]
      omega
    have some_digits := digits_ne_nil spec.offset.toNat
    have all := isDigit_of_mem_digits spec.offset.toNat
    by_cases trailer : spec.length < 0
    · have text : spec.packInto = digits spec.offset.toNat ++ [45] := by
        simp [packInto, (knownSpec_iff _).mpr known, not_knownSpec trailer, decimal_of_nonneg known]
      have unknown : spec.length = UnknownPosition := by
        rcases sound with ⟨_, _, _⟩ | ⟨_, _, unknown⟩ | ⟨_, _⟩
        · omega
        · exact unknown
        · omega
      rw [text, List.append_assoc, singleton_append,
        parseInit_digits some_digits all (by simp), if_neg (by simp), first]
      refine iff_of_true ?_ (.inr ⟨known, by omega⟩)
      rw [← unknown]
    · have sum : spec.offset + spec.length < 2 ^ 63 := by
        rcases sound with ⟨_, _, sum⟩ | ⟨_, _, unknown⟩ | ⟨_, _⟩
        · exact sum
        · rw [unknown, UnknownPosition] at trailer
          omega
        · omega
      have last : int64 (int64 (spec.offset + spec.length) - 1) =
          spec.offset + spec.length - 1 := by
        rw [@int64_eq (spec.offset + spec.length) (by omega) sum, int64_eq (by omega) (by omega)]
      have text : spec.packInto = digits spec.offset.toNat ++
          45 :: decimal (spec.offset + spec.length - 1) := by
        simp [packInto, (knownSpec_iff _).mpr known,
          (knownSpec_iff _).mpr (show 0 ≤ spec.length by omega), decimal_of_nonneg known, last]
      have some_last := length_pos_iff.mpr
        (decimal_ne_nil (spec.offset + spec.length - 1))
      rw [text, List.append_assoc, cons_append, parseInit_digits some_digits all (by simp),
        if_pos (by rw [length_append, length_cons]; omega), first,
        strtoll_decimal (by omega) (by omega) stop]
      by_cases zero : spec.length = 0
      · rw [if_pos (by dsimp only; omega)]
        refine iff_of_false (by simp) ?_
        rintro (unknown | ⟨-, nonzero⟩)
        · omega
        · exact nonzero zero
      · rw [if_neg (by dsimp only; omega), rangeLength_eq (by omega) (by dsimp only; omega)
          (by dsimp only; omega), if_neg (by dsimp only; omega),
          int64_eq (by dsimp only; omega) (by dsimp only; omega)]
        refine iff_of_true ?_ (.inr ⟨known, zero⟩)
        obtain ⟨offset, length⟩ := spec
        simp only [some.injEq, HttpHdrRangeSpec.mk.injEq, true_and]
        omega

/-- An item is stored faithfully exactly where it is `Packable`. -/
theorem faithful_iff {item : Bytes × ℕ} (parsed : parseInit item.1 item.2 = some spec) :
    spec.Faithful ↔ Packable item := by
  have range := strtoll_mem 10 item.1
  by_cases suffix : item.1.headD 0 = 45
  · simp only [parseInit, suffix, if_true, httpHeaderParseOffset, bind_eq_bind,
      bind_some, ite_none_left_eq_some, some.injEq] at parsed
    obtain ⟨_, rfl⟩ := parsed
    exact iff_of_true (.inl rfl) (.inl suffix)
  · simp only [parseInit, suffix, if_false, ite_none_left_eq_some] at parsed
    obtain ⟨_, parsed⟩ := parsed
    cases dash : strchr item.1 45 with
    | none => simp [dash] at parsed
    | some p =>
        simp only [dash, httpHeaderParseOffset, bind_eq_bind, bind_some,
          ite_none_right_eq_some] at parsed
        obtain ⟨_, parsed⟩ := parsed
        simp only [Packable, suffix, false_or, lastPosition, dash, bind_some]
        by_cases long : p + 1 < item.2
        · rw [if_pos long, ite_none_left_eq_some, some.injEq] at parsed
          obtain ⟨ordered, rfl⟩ := parsed
          have last := strtoll_mem 10 (item.1.drop (p + 1))
          rw [if_pos long, ne_eq, some.injEq, rangeLength_eq range.1 (by omega) last.2, Faithful]
          dsimp only [int64]
          split <;> omega
        · rw [if_neg long] at parsed ⊢
          cases some.inj parsed
          simp [Faithful, UnknownPosition]

/-! ## The text of a spec -/

variable {b : UInt8}

theorem of_mem_packInto (member : b ∈ spec.packInto) : b = 45 ∨ isDigit 10 b = true := by
  unfold packInto at member
  split at member
  · rcases mem_cons.mp member with dash | number
    · exact .inl dash
    · exact of_mem_decimal number
  · split at member
    · rcases mem_append.mp member with number | dash
      · exact of_mem_decimal number
      · exact .inl (by simpa using dash)
    · rcases mem_append.mp member with number | rest
      · exact of_mem_decimal number
      · rcases mem_cons.mp rest with dash | number
        · exact .inl dash
        · exact of_mem_decimal number

theorem packInto_ne_nil (spec : HttpHdrRangeSpec) : spec.packInto ≠ [] := by
  unfold packInto
  split
  · simp
  · split <;> simp

/-- A byte that neither separates, nor quotes, nor is white space. -/
theorem plain_of_mem (member : b ∈ spec.packInto) :
    (b ≠ 0 ∧ b ≠ 34 ∧ b ≠ 44 ∧ b ≠ 44) ∧ isSpace b = false ∧ isListGap 44 b = false := by
  have range : b.toNat = 45 ∨ 48 ≤ b.toNat ∧ b.toNat ≤ 57 := by
    rcases of_mem_packInto member with rfl | digit
    · exact .inl rfl
    · exact .inr ((isDigit_ten_iff b).mp digit)
  simp only [isSpace, isListGap, UInt8.le_iff_toNat_le, ← UInt8.toNat_inj, UInt8.reduceToNat,
    Bool.or_eq_false_iff, beq_eq_false_iff_ne, Bool.and_eq_false_iff, decide_eq_false_iff_not, ne_eq]
  omega

/-- The text of a spec is an item of a list. -/
theorem word_packInto (spec : HttpHdrRangeSpec) :
    StrList.Word spec.packInto ∧ StrList.Closed spec.packInto := by
  have closed : StrList.Closed spec.packInto :=
    StrList.scan_of_plain fun b member => (plain_of_mem member).1
  refine ⟨⟨packInto_ne_nil spec, ?_, ?_, isSome_iff_exists.mpr ⟨.plain, closed⟩⟩, closed⟩
  · intro b head
    exact (plain_of_mem (mem_of_mem_head? head)).2.2
  · intro b last
    exact (plain_of_mem (mem_of_mem_getLast? last)).2.1

end HttpHdrRangeSpec

/-! ## The text of a header -/

namespace HttpHdrRange

open HttpHdrRangeSpec

/-- The specs behind the first one, each with a comma in front. -/
def packOthers (specs : List HttpHdrRangeSpec) : Bytes :=
  specs.flatMap fun spec => 44 :: spec.packInto

/-- `HttpHdrRange::packInto`. -/
def packInto : List HttpHdrRangeSpec → Bytes
  | [] => []
  | spec :: specs => spec.packInto ++ packOthers specs

/-- `bytes=` and the packed specs. -/
def packed (specs : List HttpHdrRangeSpec) : Bytes :=
  [98, 121, 116, 101, 115, 61] ++ packInto specs

/-- The text of a header is a list of the texts of its specs. -/
theorem packInto_eq (specs : List HttpHdrRangeSpec) :
    packInto specs = StrList.joined [44] (specs.map HttpHdrRangeSpec.packInto) := by
  cases specs with
  | nil => rfl
  | cons spec specs =>
      simp [packInto, packOthers, StrList.joined, StrList.others, flatMap_map]

theorem listed_packInto (specs : List HttpHdrRangeSpec) :
    StrList.Listed (specs.map HttpHdrRangeSpec.packInto) := by
  have listed := @StrList.listed_append (specs.map HttpHdrRangeSpec.packInto) [] ?_ trivial
  · rwa [List.append_nil] at listed
  · intro word member
    obtain ⟨spec, -, rfl⟩ := List.mem_map.mp member
    exact word_packInto spec

variable {specs : List HttpHdrRangeSpec}

/-- A list whose items all parse is parsed. -/
theorem parseItems_of_forall₂ {fuel : ℕ} {pos : Bytes}
    (items : List.Forall₂ (fun item spec => HttpHdrRangeSpec.parseInit item.1 item.2 = some spec)
      (strListItems 44 fuel pos) specs) (before : List HttpHdrRangeSpec) :
    parseItems fuel pos before = before ++ specs := by
  induction fuel generalizing pos specs before with
  | zero =>
      cases items
      simp [parseItems]
  | succ fuel ih =>
      rw [strListItems] at items
      rw [parseItems]
      cases found : strListGetItem 44 pos with
      | none =>
          rw [found] at items
          cases items
          simp
      | some result =>
          obtain ⟨item, ilen, after⟩ := result
          rw [found] at items
          cases items with
          | cons one items =>
              simp only [one, ih items]
              simp

/-- What is parsed from the text of some specs. -/
theorem parseInit_packed (ne : specs ≠ []) (stored : ∀ spec ∈ specs, spec.Stored) :
    parseInit (packed specs) = some specs ↔ ∀ spec ∈ specs, spec.Faithful := by
  have listed := listed_packInto specs
  have length := StrList.length_le_joined [44] listed
  have texts := @StrList.strListItems_joined [] (by simp) _ listed ((packed specs).length + 1) (by
      rw [packed, packInto_eq, length_append]
      omega)
  rw [← packInto_eq, forall₂_map_right_iff] at texts
  have same : List.Forall₂
        (fun item spec => HttpHdrRangeSpec.parseInit item.1 item.2 = some spec)
        (strListItems 44 ((packed specs).length + 1) (packInto specs)) specs ↔
      ∀ spec ∈ specs, spec.Faithful := by
    clear ne length listed
    generalize strListItems 44 ((packed specs).length + 1) (packInto specs) = items at texts ⊢
    induction texts with
    | nil => simp
    | @cons item spec items specs text _ ih =>
        obtain ⟨rest, rfl, behind⟩ := text
        have stop : rest.takeWhile (isDigit 10) = [] := by
          rcases behind with rfl | ⟨tail, rfl⟩ <;> rfl
        rw [forall₂_cons, forall_mem_cons, parseInit_packInto (stored spec (by simp)) stop,
          ih fun other member => stored other (by simp [member])]
  rw [← same]
  constructor
  · exact parseInit_forall₂
  · intro items
    have parsed := parseItems_of_forall₂ items []
    rw [List.nil_append] at parsed
    have dropped : (packed specs).drop 6 = packInto specs := rfl
    rw [parseInit, if_pos (by rfl), dropped, parsed, if_neg ne]

/--
A `Range` header that was parsed is packed to a text with the same specs if and only if all its
items are `Packable`.
-/
theorem packed_iff {range_spec : Bytes} {specs : List HttpHdrRangeSpec}
    (parsed : parseInit range_spec = some specs) :
    parseInit (packed specs) = some specs ↔ ∀ item ∈ rangeItems range_spec, Packable item := by
  have items := parseInit_forall₂ parsed
  have ends : ∀ item ∈ rangeItems range_spec, EndsItem 44 (item.1.getD item.2 0) :=
    fun item member => endsItem_of_mem member
  have ne : specs ≠ [] := by
    rintro rfl
    simp only [parseInit, ite_none_right_eq_some, ite_none_left_eq_some, some.injEq] at parsed
    exact parsed.2.1 parsed.2.2
  have both : (∀ spec ∈ specs, spec.Stored) ∧
      ((∀ spec ∈ specs, spec.Faithful) ↔ ∀ item ∈ rangeItems range_spec, Packable item) := by
    clear ne parsed
    generalize rangeItems range_spec = list at items ends
    induction items with
    | nil => simp
    | @cons item spec list specs one _ ih =>
        obtain ⟨stored, same⟩ := ih fun other member => ends other (by simp [member])
        have kind : spec.Sound ∨ spec.Negative := by
          rcases parseInit_cases (ends item (by simp)) one with ⟨-, negative⟩ | ⟨-, sound⟩
          · exact .inr negative
          · exact .inl sound
        rw [forall_mem_cons, forall_mem_cons, forall_mem_cons, faithful_iff one, same]
        exact ⟨⟨⟨kind, length_mem one⟩, stored⟩, Iff.rfl⟩
  rw [parseInit_packed ne both.1, both.2]

theorem packed_plainRange :
    parseInit plainRange = some [⟨0, 5⟩, ⟨-1, 5⟩] ∧
      parseInit (packed [⟨0, 5⟩, ⟨-1, 5⟩]) = some [⟨0, 5⟩, ⟨-1, 5⟩] := by
  have parsed : parseInit plainRange = some [⟨0, 5⟩, ⟨-1, 5⟩] := by decide
  exact ⟨parsed, (packed_iff parsed).mpr (by decide)⟩

/-- `bytes=5-9223372036854775807`. -/
def lastRange : Bytes := [98, 121, 116, 101, 115, 61, 53, 45] ++ digits (2 ^ 63 - 1)

/-- The length of a range up to the last `int64_t` is stored as zero, and packed as `5-4`. -/
theorem not_packed_lastRange :
    parseInit lastRange = some [⟨5, 0⟩] ∧ parseInit (packed [⟨5, 0⟩]) ≠ some [⟨5, 0⟩] := by
  decide +kernel

end HttpHdrRange
end Squid
