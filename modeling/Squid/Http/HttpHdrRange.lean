import Squid.Http.StrList

/-!
# `HttpHdrRange`

The `Range` header of `src/HttpHdrRange.cc`: the specs of a header are parsed while the length of
the response is unknown, and canonized when it becomes known.  A failed `assert` is `none`.
-/

namespace Squid

open CRuntime

/-- `Range<int64_t, uint64_t>`: `[start, stop)`. -/
structure HttpRange where
  start : ℤ
  stop : ℤ

namespace HttpRange

/-- `Range::intersection`. -/
def intersection (range rhs : HttpRange) : HttpRange :=
  ⟨max range.start rhs.start, min range.stop rhs.stop⟩

/-- `Range::size`, a `uint64_t`. -/
def size (range : HttpRange) : ℤ :=
  if range.start < range.stop then int64 (range.stop - range.start) % 2 ^ 64 else 0

end HttpRange

def UnknownPosition : ℤ := -1

structure HttpHdrRangeSpec where
  offset : ℤ := UnknownPosition
  length : ℤ := UnknownPosition
  deriving DecidableEq

/-- `known_spec`. -/
def knownSpec (s : ℤ) : Bool := UnknownPosition < s

/-- `httpHeaderParseOffset`: `strtoll` does not set `EINVAL`, so every number is taken. -/
def httpHeaderParseOffset (start : Bytes) : Option ℤ := some (strtoll 10 start).1

/-- `strchr`: the offset of the first such byte before the end of the string. -/
def strchr (s : Bytes) (c : UInt8) : Option ℕ :=
  match s with
  | [] => none
  | b :: s => if b = c then some 0 else if b = 0 then none else (strchr s c).map (· + 1)

namespace HttpHdrRangeSpec

/-- `HttpHdrRangeSpec::parseInit`. -/
def parseInit (field : Bytes) (flen : ℕ) : Option HttpHdrRangeSpec :=
  if flen < 2 then
    none
  else if field.headD 0 = 45 then do
    let length ← httpHeaderParseOffset field.tail
    some { length }
  else
    match strchr field 45 with
    | none => none
    | some p =>
        if p < flen then do
          let offset ← httpHeaderParseOffset field
          if p + 1 < flen then
            let last_pos ← httpHeaderParseOffset (field.drop (p + 1))
            if last_pos < offset then
              none
            else
              let aSpec : HttpRange := ⟨offset, int64 (last_pos + 1)⟩
              some { offset, length := int64 aSpec.size }
          else
            some { offset }
        else
          none

/-- First part of `HttpHdrRangeSpec::canonize`: the absent positions are filled in. -/
def fillAbsent (spec : HttpHdrRangeSpec) (clen : ℤ) : Option HttpHdrRangeSpec :=
  let object : HttpRange := ⟨0, clen⟩
  if !knownSpec spec.offset then
    if knownSpec spec.length then
      some { spec with
        offset := (object.intersection ⟨int64 (clen - spec.length), clen⟩).start }
    else
      none
  else if !knownSpec spec.length then
    if knownSpec spec.offset then
      some { spec with length := int64 (object.intersection ⟨spec.offset, clen⟩).size }
    else
      none
  else
    some spec

/-- `HttpHdrRangeSpec::canonize`: the adjusted spec and whether it is still valid. -/
def canonize (spec : HttpHdrRangeSpec) (clen : ℤ) : Option (HttpHdrRangeSpec × Bool) := do
  let object : HttpRange := ⟨0, clen⟩
  let spec ← spec.fillAbsent clen
  if knownSpec spec.length ∧ knownSpec spec.offset then
    let newRange := object.intersection ⟨spec.offset, int64 (spec.offset + spec.length)⟩
    let length := int64 newRange.size
    some ({ spec with length }, 0 < length)
  else
    none

end HttpHdrRangeSpec

namespace HttpHdrRange

/-- The loop of `HttpHdrRange::parseInit`; one invalid item empties the list. -/
def parseItems : ℕ → Bytes → List HttpHdrRangeSpec → List HttpHdrRangeSpec
  | 0, _, specs => specs
  | fuel + 1, pos, specs =>
      match strListGetItem 44 pos with
      | none => specs
      | some (item, ilen, pos) =>
          match HttpHdrRangeSpec.parseInit item ilen with
          | none => []
          | some spec => parseItems fuel pos (specs ++ [spec])

/-- `HttpHdrRange::parseInit`: the specs of a valid header. -/
def parseInit (range_spec : Bytes) : Option (List HttpHdrRangeSpec) :=
  -- "bytes="
  if (range_spec.take 6).map toLower = [98, 121, 116, 101, 115, 61] then
    let specs := parseItems (range_spec.length + 1) (range_spec.drop 6) []
    if specs = [] then none else some specs
  else
    none

/-- `getCanonizedSpecs`: the valid specs in their order. -/
def getCanonizedSpecs (clen : ℤ) : List HttpHdrRangeSpec → Option (List HttpHdrRangeSpec)
  | [] => some []
  | spec :: specs => do
      let (canonized, valid) ← spec.canonize clen
      let copy ← getCanonizedSpecs clen specs
      some (if valid then canonized :: copy else copy)

/-- `HttpHdrRangeSpec::mergeWith`, whose body is compiled only with `MERGING_BREAKS_NOTHING`. -/
def mergeWith (_spec _donor : HttpHdrRangeSpec) : Bool := false

/-- One spec of `merge` against the specs before it, the last one first. -/
def mergeInto : List HttpHdrRangeSpec → HttpHdrRangeSpec → List HttpHdrRangeSpec
  | [], spec => [spec]
  | back :: specs, spec => if mergeWith spec back then mergeInto specs spec else spec :: back :: specs

/-- `HttpHdrRange::merge`. -/
def merge (basis : List HttpHdrRangeSpec) : List HttpHdrRangeSpec :=
  (basis.foldl mergeInto []).reverse

/-- `HttpHdrRange::canonize`. -/
def canonize (specs : List HttpHdrRangeSpec) (clen : ℤ) : Option (List HttpHdrRangeSpec) :=
  (getCanonizedSpecs clen specs).map merge

@[simp]
theorem merge_eq (basis : List HttpHdrRangeSpec) : merge basis = basis := by
  have step : ∀ specs spec, mergeInto specs spec = spec :: specs := by
    intro specs spec
    cases specs <;> simp [mergeInto, mergeWith]
  have run : ∀ specs, basis.foldl mergeInto specs = basis.reverse ++ specs := by
    induction basis with
    | nil => simp
    | cons spec basis ih => simp [step, ih]
  rw [merge, run, List.append_nil, List.reverse_reverse]

end HttpHdrRange

/-! ## Canonization of one spec -/

namespace HttpHdrRangeSpec

/-- The spec selects bytes of a response of the given length. -/
def Fits (clen : ℤ) (spec : HttpHdrRangeSpec) : Prop :=
  0 ≤ spec.offset ∧ 0 < spec.length ∧ spec.offset + spec.length ≤ clen

/-- What canonization needs of a spec: a range whose end is an `int64_t`, a trailer, or a suffix. -/
def Sound (spec : HttpHdrRangeSpec) : Prop :=
  (0 ≤ spec.offset ∧ 0 ≤ spec.length ∧ spec.offset + spec.length < 2 ^ 63) ∨
    (0 ≤ spec.offset ∧ spec.offset < 2 ^ 63 ∧ spec.length = UnknownPosition) ∨
    (spec.offset < 0 ∧ 0 ≤ spec.length ∧ spec.length < 2 ^ 63)

theorem knownSpec_iff (s : ℤ) : knownSpec s = true ↔ 0 ≤ s := by
  rw [knownSpec, decide_eq_true_iff, UnknownPosition]
  omega

theorem not_knownSpec {s : ℤ} (unknown : s < 0) : knownSpec s = false := by
  rw [Bool.eq_false_iff, ne_eq, knownSpec_iff]
  omega

theorem size_eq {start stop : ℤ} (start_ge : 0 ≤ start) (stop_lt : stop < 2 ^ 63) :
    int64 (HttpRange.size ⟨start, stop⟩) = max 0 (stop - start) := by
  simp only [HttpRange.size, int64]
  split <;> omega

theorem fillAbsent_known {spec : HttpHdrRangeSpec} {clen : ℤ} (offset : 0 ≤ spec.offset)
    (length : 0 ≤ spec.length) : spec.fillAbsent clen = some spec := by
  simp [fillAbsent, (knownSpec_iff _).mpr offset, (knownSpec_iff _).mpr length]

/-- A trailer goes up to the end of the response. -/
theorem fillAbsent_trailer {spec : HttpHdrRangeSpec} {clen : ℤ} (offset : 0 ≤ spec.offset)
    (absent : spec.length < 0) (clen_ge : -1 ≤ clen) (clen_lt : clen < 2 ^ 63) :
    spec.fillAbsent clen = some { spec with length := max 0 (clen - spec.offset) } := by
  simp only [fillAbsent, (knownSpec_iff _).mpr offset, not_knownSpec absent, HttpRange.intersection]
  rw [size_eq (by omega) (by omega), max_eq_right offset]
  simp

/-- A suffix starts as far before the end of the response as it is long. -/
theorem fillAbsent_suffix {spec : HttpHdrRangeSpec} {clen : ℤ} (absent : spec.offset < 0)
    (length : 0 ≤ spec.length) (length_lt : spec.length < 2 ^ 63) (clen_ge : -1 ≤ clen)
    (clen_lt : clen < 2 ^ 63) :
    spec.fillAbsent clen = some { spec with offset := max 0 (clen - spec.length) } := by
  simp only [fillAbsent, not_knownSpec absent, (knownSpec_iff _).mpr length, HttpRange.intersection]
  rw [int64_eq (by omega) (by omega)]
  simp

variable {clen : ℤ} {spec : HttpHdrRangeSpec}

theorem fillAbsent_sound (sound : spec.Sound) (clen_ge : -1 ≤ clen) (clen_lt : clen < 2 ^ 63) :
    ∃ filled, spec.fillAbsent clen = some filled ∧ 0 ≤ filled.offset ∧ 0 ≤ filled.length ∧
      filled.offset + filled.length < 2 ^ 63 := by
  rcases sound with ⟨low, known, high⟩ | ⟨low, high, unknown⟩ | ⟨unknown, low, high⟩
  · exact ⟨spec, fillAbsent_known low known, low, known, high⟩
  · have absent : spec.length < 0 := by
      rw [unknown]
      decide
    refine ⟨_, fillAbsent_trailer low absent clen_ge clen_lt, low, le_max_left _ _, ?_⟩
    simp only
    omega
  · refine ⟨_, fillAbsent_suffix unknown low high clen_ge clen_lt, le_max_left _ _, low, ?_⟩
    simp only
    omega

/-- A spec without absent positions is clipped to the response. -/
theorem canonize_filled {filled : HttpHdrRangeSpec} (fills : spec.fillAbsent clen = some filled)
    (offset : 0 ≤ filled.offset) (length : 0 ≤ filled.length)
    (sum : filled.offset + filled.length < 2 ^ 63) (clen_ge : -1 ≤ clen) (clen_lt : clen < 2 ^ 63) :
    spec.canonize clen =
      some ({ filled with
          length := max 0 (min clen (filled.offset + filled.length) - filled.offset) },
        decide (0 < max 0 (min clen (filled.offset + filled.length) - filled.offset))) := by
  have clipped : int64 (HttpRange.intersection ⟨0, clen⟩
      ⟨filled.offset, int64 (filled.offset + filled.length)⟩).size =
        max 0 (min clen (filled.offset + filled.length) - filled.offset) := by
    simp only [HttpRange.intersection]
    rw [size_eq (by omega) (by omega), max_eq_right offset, int64_eq (by omega) (by omega)]
  simp only [canonize, fills, Option.bind_eq_bind, Option.bind_some, (knownSpec_iff _).mpr offset,
    (knownSpec_iff _).mpr length, and_self, if_true, clipped]

/-- A sound spec passes every assertion, and selects bytes of the response where it is valid. -/
theorem canonize_sound (sound : spec.Sound) (clen_ge : -1 ≤ clen) (clen_lt : clen < 2 ^ 63) :
    ∃ canonized valid, spec.canonize clen = some (canonized, valid) ∧
      (valid = true → canonized.Fits clen) := by
  obtain ⟨filled, fills, offset, length, sum⟩ := fillAbsent_sound sound clen_ge clen_lt
  refine ⟨_, _, canonize_filled fills offset length sum clen_ge clen_lt, ?_⟩
  simp only [decide_eq_true_eq, Fits]
  omega

/-- Without a known position canonization trips its first assertion. -/
theorem canonize_fails (offset : spec.offset < 0) (length : spec.length < 0) (clen : ℤ) :
    spec.canonize clen = none := by
  simp [canonize, fillAbsent, not_knownSpec offset, not_knownSpec length]

end HttpHdrRangeSpec

end Squid
