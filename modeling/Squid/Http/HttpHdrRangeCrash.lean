import Squid.Http.HttpHdrRange

/-!
# The `Range` headers that canonization survives

The parser stores what `strtoll` returns.  A number in a header may therefore be negative although
no form of a range spec has a negative number: the text after the dash of a suffix may carry a sign
of its own, and white space other than the list's hides the sign of a first position.  The first
kind always trips an assertion of `canonize`.  The second kind does so where the computed length
leaves `int64_t`.
-/

namespace Squid

open CRuntime Option

/-- The item makes a spec with two negative positions. -/
def NegativeItem (item : Bytes) : Prop :=
  if item.headD 0 = 45 then
    (strtoll 10 item.tail).1 < 0
  else
    -(2 ^ 63 - 1) < (strtoll 10 item).1 ∧ (strtoll 10 item).1 ≤ -2 ^ 62

instance (item : Bytes) : Decidable (NegativeItem item) := by
  unfold NegativeItem
  infer_instance

namespace HttpHdrRangeSpec

/-- The specs that canonization cannot handle. -/
def Negative (spec : HttpHdrRangeSpec) : Prop := spec.offset < 0 ∧ spec.length < 0

/-! ## What one item is parsed to -/

theorem strchr_blanks {blanks rest : Bytes} (spaces : ∀ b ∈ blanks, isSpace b = true) :
    strchr (blanks ++ 45 :: rest) 45 = some blanks.length := by
  induction blanks with
  | nil => simp [strchr]
  | cons b blanks ih =>
      have space : isSpace b = true := spaces b (by simp)
      have dash : b ≠ 45 := by
        rintro rfl
        exact absurd space (by decide)
      have zero : b ≠ 0 := by
        rintro rfl
        exact absurd space (by decide)
      rw [List.cons_append, strchr, if_neg dash, if_neg zero,
        ih fun c member => spaces c (by simp [member])]
      rfl

/-- Length of the spec `first-last`, with `last + 1` and the difference in `int64_t`. -/
theorem rangeLength_eq {first last : ℤ} (first_ge : -2 ^ 63 ≤ first) (last_ge : first ≤ last)
    (last_lt : last < 2 ^ 63) :
    int64 (HttpRange.size ⟨first, int64 (last + 1)⟩) =
      if last = 2 ^ 63 - 1 then 0 else int64 (last + 1 - first) := by
  by_cases overflow : last = 2 ^ 63 - 1
  · have wrapped : int64 (last + 1) = -2 ^ 63 := by
      rw [overflow]
      decide
    rw [if_pos overflow, wrapped, HttpRange.size, if_neg (by dsimp only; omega)]
    decide
  · have next : int64 (last + 1) = last + 1 := int64_eq (by omega) (by omega)
    rw [if_neg overflow, next, HttpRange.size, if_pos (by dsimp only; omega)]
    exact int64_emod (last + 1 - first)

variable {spec : HttpHdrRangeSpec}

variable {field : Bytes} {flen : ℕ}

theorem parseInit_suffix (suffix : field.headD 0 = 45) (parsed : parseInit field flen = some spec) :
    (NegativeItem field ∧ spec.Negative) ∨ (¬ NegativeItem field ∧ spec.Sound) := by
  have range := strtoll_mem 10 field.tail
  simp only [parseInit, suffix, if_true, httpHeaderParseOffset, bind_eq_bind,
    bind_some, ite_none_left_eq_some, some.injEq] at parsed
  obtain ⟨_, rfl⟩ := parsed
  rw [NegativeItem, if_pos suffix]
  by_cases negative : (strtoll 10 field.tail).1 < 0
  · exact .inl ⟨negative, by simp [UnknownPosition], negative⟩
  · exact .inr ⟨negative, .inr (.inr ⟨by simp [UnknownPosition], by dsimp only; omega, range.2⟩)⟩

theorem parseInit_range (range : field.headD 0 ≠ 45) (stop : isDigit 10 (field.getD flen 0) = false)
    (parsed : parseInit field flen = some spec) :
    (NegativeItem field ∧ spec.Negative) ∨ (¬ NegativeItem field ∧ spec.Sound) := by
  have bounds := strtoll_mem 10 field
  rw [NegativeItem, if_neg range]
  simp only [parseInit, range, if_false, ite_none_left_eq_some] at parsed
  obtain ⟨_, parsed⟩ := parsed
  split at parsed
  · simp at parsed
  rename_i p dash
  simp only [httpHeaderParseOffset, bind_eq_bind, bind_some, ite_none_right_eq_some] at parsed
  obtain ⟨inside, parsed⟩ := parsed
  by_cases negative : (strtoll 10 field).1 < 0
  · -- the dash is the sign, and the digits after it are read twice
    obtain ⟨blanks, digits, rest, rfl, spaces, ne, all, rest_stop, value⟩ := strtoll_neg negative
    rw [strchr_blanks spaces, some.injEq] at dash
    subst dash
    have more : blanks.length + 1 < flen := by
      by_contra short
      obtain ⟨b, tail, rfl⟩ := List.exists_cons_of_ne_nil ne
      have last : flen = blanks.length + 1 := by omega
      rw [last] at stop
      simp [all b (by simp)] at stop
    have last_pos : (strtoll 10 ((blanks ++ 45 :: (digits ++ rest)).drop (blanks.length + 1))).1 =
        saturate false (magnitude 10 digits) := by
      rw [← strtoll_digits ne all rest_stop]
      simp
    simp only [more, if_true, last_pos] at parsed
    generalize magnitude 10 digits = m at value parsed
    rw [value] at parsed bounds negative ⊢
    simp only [saturate, if_true, Bool.false_eq_true, if_false] at parsed bounds negative ⊢
    rw [rangeLength_eq (by omega) (by omega) (by omega), if_neg (by omega), some.injEq]
      at parsed
    subst parsed
    simp only [Negative, Sound, int64]
    split <;> omega
  · simp only [UnknownPosition] at parsed
    have last_bounds := strtoll_mem 10 (field.drop (p + 1))
    split at parsed
    · rw [ite_none_left_eq_some, some.injEq] at parsed
      obtain ⟨ordered, rfl⟩ := parsed
      rw [rangeLength_eq (by omega) (by omega) last_bounds.2]
      refine .inr ⟨by omega, .inl ⟨by dsimp only; omega, ?_⟩⟩
      dsimp only [int64]
      split <;> omega
    · cases some.inj parsed
      exact .inr ⟨by omega, .inr (.inl ⟨by dsimp only; omega, bounds.2, rfl⟩)⟩

theorem not_isDigit_of_endsItem {b : UInt8} (ends : EndsItem 44 b) : isDigit 10 b = false := by
  by_contra digit
  rw [Bool.not_eq_false] at digit
  have space := (plain_of_isDigit digit).1
  rw [isDigit_ten_iff] at digit
  rcases ends with rfl | rfl | rfl | is_space
  · simp at digit
  · simp at digit
  · simp at digit
  · simp [is_space] at space

/-- An item is parsed to a spec that canonization handles unless its numbers are negative. -/
theorem parseInit_cases {item : Bytes} {ilen : ℕ} (ends : EndsItem 44 (item.getD ilen 0))
    (parsed : parseInit item ilen = some spec) :
    (NegativeItem item ∧ spec.Negative) ∨ (¬ NegativeItem item ∧ spec.Sound) := by
  by_cases suffix : item.headD 0 = 45
  · exact parseInit_suffix suffix parsed
  · exact parseInit_range suffix (not_isDigit_of_endsItem ends) parsed

end HttpHdrRangeSpec

/-! ## What a header is parsed to -/

namespace HttpHdrRange

open HttpHdrRangeSpec

/-- The list items of a `Range` header. -/
def rangeItems (range_spec : Bytes) : List (Bytes × ℕ) :=
  strListItems 44 (range_spec.length + 1) (range_spec.drop 6)

variable {fuel : ℕ} {pos : Bytes}

theorem endsItem_of_mem {item : Bytes} {ilen : ℕ}
    (member : (item, ilen) ∈ strListItems 44 fuel pos) : EndsItem 44 (item.getD ilen 0) := by
  induction fuel generalizing pos with
  | zero => simp [strListItems] at member
  | succ fuel ih =>
      rw [strListItems] at member
      split at member
      · simp at member
      · rename_i found
        rcases List.mem_cons.mp member with same | later
        · cases same
          exact (strListGetItem_spec found).2.1
        · exact ih later

variable {specs : List HttpHdrRangeSpec}

/-- A header that is not ignored has all its items parsed. -/
theorem parseItems_eq {all : List HttpHdrRangeSpec} (parsed : parseItems fuel pos specs = all)
    (ne : all ≠ []) :
    ∃ more, all = specs ++ more ∧
      List.Forall₂ (fun item spec => HttpHdrRangeSpec.parseInit item.1 item.2 = some spec)
        (strListItems 44 fuel pos) more := by
  induction fuel generalizing pos specs with
  | zero => exact ⟨[], by simp [← parsed, parseItems], .nil⟩
  | succ fuel ih =>
      simp only [parseItems] at parsed
      simp only [strListItems]
      cases found : strListGetItem 44 pos with
      | none =>
          rw [found] at parsed
          exact ⟨[], by simp [← parsed], .nil⟩
      | some result =>
          obtain ⟨item, ilen, after⟩ := result
          simp only [found] at parsed
          split at parsed
          · exact absurd parsed.symm ne
          · rename_i spec one
            obtain ⟨more, rfl, items⟩ := ih parsed
            exact ⟨spec :: more, by simp, .cons one items⟩

theorem parseInit_forall₂ {range_spec : Bytes} (parsed : parseInit range_spec = some specs) :
    List.Forall₂ (fun item spec => HttpHdrRangeSpec.parseInit item.1 item.2 = some spec)
      (rangeItems range_spec) specs := by
  simp only [parseInit, ite_none_right_eq_some, ite_none_left_eq_some, some.injEq] at parsed
  obtain ⟨_, ne, same⟩ := parsed
  obtain ⟨more, rfl, items⟩ := parseItems_eq same (same ▸ ne)
  exact items

/-! ## Canonization of a header -/

/-- `canonize` trips no assertion and leaves specs that select bytes of the response. -/
def Handled (specs : List HttpHdrRangeSpec) (clen : ℤ) : Prop :=
  ∃ canonized, canonize specs clen = some canonized ∧ ∀ spec ∈ canonized, spec.Fits clen

theorem handled_of_sound {clen : ℤ} (clen_ge : -1 ≤ clen) (clen_lt : clen < 2 ^ 63)
    (sound : ∀ spec ∈ specs, spec.Sound) : Handled specs clen := by
  simp only [Handled, canonize, map_eq_some_iff, merge_eq, exists_eq_right]
  induction specs with
  | nil => exact ⟨[], rfl, by simp⟩
  | cons spec specs ih =>
      obtain ⟨copy, rest, fits⟩ := ih fun other member => sound other (by simp [member])
      obtain ⟨canonized, valid, one, one_fits⟩ :=
        canonize_sound (sound spec (by simp)) clen_ge clen_lt
      refine ⟨if valid then canonized :: copy else copy, ?_, ?_⟩
      · simp [getCanonizedSpecs, one, rest]
      · cases valid with
        | false => exact fits
        | true => simpa using ⟨one_fits rfl, fits⟩

theorem not_handled_of_negative {spec : HttpHdrRangeSpec} (member : spec ∈ specs)
    (negative : spec.Negative) (clen : ℤ) : ¬ Handled specs clen := by
  have failed : getCanonizedSpecs clen specs = none := by
    induction specs with
    | nil => simp at member
    | cons other specs ih =>
        rcases List.mem_cons.mp member with same | later
        · rw [getCanonizedSpecs, ← same, canonize_fails negative.1 negative.2]
          rfl
        · simp [getCanonizedSpecs, ih later]
  simp [Handled, canonize, failed]

/-- The items with negative numbers are the ones that give the specs canonization fails on. -/
theorem specs_cases {items : List (Bytes × ℕ)}
    (parsed : List.Forall₂ (fun item spec => HttpHdrRangeSpec.parseInit item.1 item.2 = some spec)
      items specs) (ends : ∀ item ∈ items, EndsItem 44 (item.1.getD item.2 0)) :
    ((∀ item ∈ items, ¬ NegativeItem item.1) ∧ ∀ spec ∈ specs, spec.Sound) ∨
      ((∃ item ∈ items, NegativeItem item.1) ∧ ∃ spec ∈ specs, spec.Negative) := by
  induction parsed with
  | nil => exact .inl ⟨by simp, by simp⟩
  | cons one _ ih =>
      rename_i item spec items specs _
      rcases parseInit_cases (ends item (by simp)) one with ⟨bad, negative⟩ | ⟨good, sound⟩
      · exact .inr ⟨⟨item, by simp, bad⟩, spec, by simp, negative⟩
      · rcases ih fun other member => ends other (by simp [member]) with
          ⟨all_good, all_sound⟩ | ⟨⟨other, member, bad⟩, broken, broken_member, negative⟩
        · exact .inl ⟨by simpa using ⟨good, fun a b => all_good (a, b)⟩,
            by simpa using ⟨sound, all_sound⟩⟩
        · exact .inr ⟨⟨other, by simp [member], bad⟩, broken, by simp [broken_member], negative⟩

/-- A `Range` header that parses is handled, whatever the length of the response, exactly when
none of its items has negative numbers. -/
theorem handled_iff {range_spec : Bytes} {specs : List HttpHdrRangeSpec}
    (parsed : parseInit range_spec = some specs) {clen : ℤ} (clen_ge : -1 ≤ clen)
    (clen_lt : clen < 2 ^ 63) :
    Handled specs clen ↔ ∀ item ∈ rangeItems range_spec, ¬ NegativeItem item.1 := by
  rcases specs_cases (parseInit_forall₂ parsed) fun item member => endsItem_of_mem member with
    ⟨good, sound⟩ | ⟨⟨item, member, bad⟩, spec, spec_member, negative⟩
  · exact iff_of_true (handled_of_sound clen_ge clen_lt sound) good
  · exact iff_of_false (not_handled_of_negative spec_member negative clen) fun good =>
      good item member bad

/-- `bytes=0-4,-5`. -/
def plainRange : Bytes := [98, 121, 116, 101, 115, 61, 48, 45, 52, 44, 45, 53]

theorem handled_plainRange :
    parseInit plainRange = some [⟨0, 5⟩, ⟨-1, 5⟩] ∧ Handled [⟨0, 5⟩, ⟨-1, 5⟩] 100 := by
  have parsed : parseInit plainRange = some [⟨0, 5⟩, ⟨-1, 5⟩] := by decide
  exact ⟨parsed, (handled_iff parsed (by decide) (by decide)).mpr (by decide)⟩

/-- `bytes=--5`. -/
def doubleDashRange : Bytes := [98, 121, 116, 101, 115, 61, 45, 45, 53]

theorem not_handled_doubleDashRange :
    ¬ ∀ range_spec specs, parseInit range_spec = some specs →
      ∀ clen : ℤ, -1 ≤ clen → clen < 2 ^ 63 → Handled specs clen := by
  intro handled
  have parsed : parseInit doubleDashRange = some [⟨-1, -5⟩] := by decide
  obtain ⟨canonized, done, _⟩ := handled _ _ parsed 100 (by decide) (by decide)
  exact absurd done (by simp [canonize, getCanonizedSpecs, canonize_fails])

end HttpHdrRange

end Squid
