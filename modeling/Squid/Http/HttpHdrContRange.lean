import Squid.Http.HttpHdrRangeBytes

/-!
# `HttpHdrContRange`

The `Content-Range` header of `src/HttpHdrContRange.cc`: the range of a response and the length of
the whole entity.  Each of them may be unknown, which is a `*` in the header and `-1` in the object.
A failed `assert` is `none`.
-/

namespace Squid

open CRuntime List Option

structure HttpHdrContRange where
  /-- The range of the response. -/
  spec : HttpHdrRangeSpec := {}
  /-- Length of the entity. -/
  elength : ℤ := UnknownPosition
  deriving DecidableEq

namespace HttpHdrContRange

/-- `known_spec`, which is not the one of `HttpHdrRange`. -/
def known (s : ℤ) : Bool := s ≠ UnknownPosition

/-- `size_diff`. -/
def sizeDiff (a b : ℤ) : ℤ := if a ≥ b then int64 (a - b) else 0

/-- `httpHdrRangeRespSpecParseInit`. -/
def respSpecParseInit (field : Bytes) (flen : ℕ) : Option HttpHdrRangeSpec :=
  if flen < 2 then
    none
  else if field.headD 0 = 42 then
    some {}
  else
    match strchr field 45 with
    | none => none
    | some p =>
        if p < flen then do
          let offset ← httpHeaderParseOffset field
          if offset < 0 then
            none
          else if p + 1 ≥ flen then
            none
          else
            let last_pos ← httpHeaderParseOffset (field.drop (p + 1))
            if last_pos < offset then
              none
            else
              let length := sizeDiff (int64 (last_pos + 1)) offset
              if length ≤ 0 then none else some { offset, length }
        else
          none

/-- `httpHdrRangeRespSpecPackInto`. -/
def respSpecPackInto (spec : HttpHdrRangeSpec) : Option Bytes :=
  if 0 ≤ spec.length then
    if !known spec.offset || !known spec.length then
      some [42]
    else
      -- "bytes "
      some ([98, 121, 116, 101, 115, 32] ++ decimal spec.offset ++
        45 :: decimal (int64 (int64 (spec.offset + spec.length) - 1)))
  else
    none

/-- `httpHdrContRangeParseInit`. -/
def parseInit (str : Bytes) : Option HttpHdrContRange :=
  -- "bytes "
  if (str.take 6).map toLower = [98, 121, 116, 101, 115, 32] then do
    let str := str.drop 6
    let p ← strchr str 47
    let spec ← (if str.headD 0 = 42 then some {} else respSpecParseInit str p)
    let p := str.drop (p + 1)
    if p.headD 0 = 42 then
      some { spec }
    else
      let elength ← httpHeaderParseOffset p
      if elength ≤ 0 then
        none
      else if known spec.length ∧ elength < int64 (spec.offset + spec.length) then
        none
      else
        some { spec, elength }
  else
    none

/-- `httpHdrContRangePackInto`. -/
def packInto (range : HttpHdrContRange) : Option Bytes := do
  let packed ← respSpecPackInto range.spec
  if 0 ≤ range.elength then
    if !known range.elength then
      some (packed ++ [47, 42])
    else
      some (packed ++ 47 :: decimal range.elength)
  else
    none

/-! ## What is accepted -/

/-- The known parts of a range make sense. -/
def Bounded (range : HttpHdrContRange) : Prop :=
  known range.spec.length = true → 0 ≤ range.spec.offset ∧ 0 < range.spec.length ∧
    (known range.elength = true → range.spec.offset + range.spec.length ≤ range.elength)

/-- What is behind the slash. -/
def afterSlash (str : Bytes) : Bytes :=
  match strchr (str.drop 6) 47 with
  | some p => (str.drop 6).drop (p + 1)
  | none => []

/-- A range that is given is not empty, and ends at an `int64_t`. -/
def Given (spec : HttpHdrRangeSpec) : Prop :=
  0 ≤ spec.offset ∧ 0 < spec.length ∧ spec.offset + spec.length < 2 ^ 63

theorem sizeDiff_eq {first last : ℤ} (first_ge : 0 ≤ first) (last_ge : first ≤ last)
    (last_lt : last < 2 ^ 63) :
    sizeDiff (int64 (last + 1)) first = if last = 2 ^ 63 - 1 then 0 else last + 1 - first := by
  unfold sizeDiff int64
  split <;> split <;> omega

variable {spec : HttpHdrRangeSpec}

theorem given_of_parsed {field : Bytes} {flen : ℕ} (star : field.headD 0 ≠ 42)
    (parsed : respSpecParseInit field flen = some spec) : Given spec := by
  simp only [respSpecParseInit, star, if_false, ite_none_left_eq_some] at parsed
  obtain ⟨-, parsed⟩ := parsed
  split at parsed
  · simp at parsed
  rename_i p _
  simp only [httpHeaderParseOffset, bind_eq_bind, bind_some,
    ite_none_right_eq_some, ite_none_left_eq_some, some.injEq] at parsed
  obtain ⟨-, first, -, ordered, positive, rfl⟩ := parsed
  have last := strtoll_mem 10 (field.drop (p + 1))
  rw [sizeDiff_eq (by omega) (by omega) last.2] at positive ⊢
  unfold Given
  dsimp only
  split at positive <;> rename_i extreme
  · omega
  · rw [if_neg extreme]
    omega

variable {range : HttpHdrContRange}

variable {str : Bytes}

/-- Both parts of an accepted range. -/
theorem parseInit_cases (accepted : parseInit str = some range) :
    ((str.drop 6).headD 0 = 42 ∧ range.spec = {} ∨
        (str.drop 6).headD 0 ≠ 42 ∧ Given range.spec) ∧
      ((afterSlash str).headD 0 = 42 ∧ range.elength = UnknownPosition ∨
        (afterSlash str).headD 0 ≠ 42 ∧ 0 < range.elength ∧ range.elength < 2 ^ 63 ∧
          (known range.spec.length = true →
            int64 (range.spec.offset + range.spec.length) ≤ range.elength)) := by
  simp only [parseInit, ite_none_right_eq_some, bind_eq_bind] at accepted
  obtain ⟨-, accepted⟩ := accepted
  obtain ⟨p, slash, accepted⟩ := bind_eq_some_iff.mp accepted
  obtain ⟨spec, first, accepted⟩ := bind_eq_some_iff.mp accepted
  have behind : afterSlash str = (str.drop 6).drop (p + 1) := by
    rw [afterSlash, slash]
  rw [← behind] at accepted
  have parts : (str.drop 6).headD 0 = 42 ∧ spec = {} ∨
      (str.drop 6).headD 0 ≠ 42 ∧ Given spec := by
    split at first
    · rename_i star
      exact .inl ⟨star, (some.inj first).symm⟩
    · rename_i given
      exact .inr ⟨given, given_of_parsed given first⟩
  split at accepted
  · rename_i star
    cases some.inj accepted
    exact ⟨parts, .inl ⟨star, rfl⟩⟩
  · rename_i given
    simp only [httpHeaderParseOffset, bind_some, ite_none_left_eq_some, some.injEq] at accepted
    obtain ⟨positive, inside, rfl⟩ := accepted
    refine ⟨parts, .inr ⟨given, by dsimp only; omega, (strtoll_mem _ _).2, ?_⟩⟩
    intro length
    dsimp only at length ⊢
    by_contra outside
    exact inside ⟨length, by omega⟩

theorem bounded_of_accepted (accepted : parseInit str = some range) : range.Bounded := by
  obtain ⟨⟨-, none⟩ | ⟨-, given⟩, ⟨-, unknown⟩ | ⟨-, -, -, inside⟩⟩ := parseInit_cases accepted
  · intro length
    rw [none] at length
    exact absurd length (by decide)
  · intro length
    rw [none] at length
    exact absurd length (by decide)
  · intro _
    refine ⟨given.1, given.2.1, ?_⟩
    rw [unknown]
    exact fun length => absurd length (by decide)
  · intro length
    refine ⟨given.1, given.2.1, fun _ => ?_⟩
    have bound := inside length
    rwa [int64_eq (by have := given.1; have := given.2.1; omega) given.2.2] at bound

/-! ## The text of a range -/

/-- What is written for a range that is given and an entity whose length is known. -/
def text (range : HttpHdrContRange) : Bytes :=
  [98, 121, 116, 101, 115, 32] ++
    (digits range.spec.offset.toNat ++
      45 :: (digits (range.spec.offset + range.spec.length - 1).toNat ++
        47 :: digits range.elength.toNat))

theorem known_of_nonneg {s : ℤ} (nonneg : 0 ≤ s) : known s = true := by
  rw [known, decide_eq_true_eq, UnknownPosition]
  omega

theorem packInto_eq (given : Given range.spec) (positive : 0 < range.elength) :
    packInto range = some range.text := by
  obtain ⟨offset, length, sum⟩ := given
  have last : int64 (int64 (range.spec.offset + range.spec.length) - 1) =
      range.spec.offset + range.spec.length - 1 := by
    rw [@int64_eq (range.spec.offset + range.spec.length) (by omega) sum,
      int64_eq (by omega) (by omega)]
  simp only [packInto, respSpecPackInto, if_pos length.le, known_of_nonneg offset,
    known_of_nonneg length.le, known_of_nonneg positive.le, if_pos positive.le, last, text]
  rw [decimal_of_nonneg offset, decimal_of_nonneg (show 0 ≤ _ by omega),
    decimal_of_nonneg positive.le]
  simp

theorem head_digits (n : ℕ) (rest : Bytes) : (digits n ++ rest).headD 0 ≠ 42 := by
  obtain ⟨b, tail, first⟩ := exists_cons_of_ne_nil (digits_ne_nil n)
  have digit := isDigit_of_mem_digits n b (by simp [first])
  rw [first]
  rintro rfl
  exact absurd digit (by decide)

theorem strtoll_digits_append {x : ℤ} (nonneg : 0 ≤ x) (small : x < 2 ^ 63) {rest : Bytes}
    (stop : rest.takeWhile (isDigit 10) = []) : (strtoll 10 (digits x.toNat ++ rest)).1 = x := by
  rw [← decimal_of_nonneg nonneg, strtoll_decimal (by omega) small stop]

/-- The range that was written is read. -/
theorem respSpecParseInit_text (given : Given spec) (rest : Bytes) :
    respSpecParseInit
      (digits spec.offset.toNat ++
        45 :: (digits (spec.offset + spec.length - 1).toNat ++ 47 :: rest))
      ((digits spec.offset.toNat).length + 1 +
        (digits (spec.offset + spec.length - 1).toNat).length) = some spec := by
  obtain ⟨offset, length, sum⟩ := given
  have first := length_pos_iff.mpr (digits_ne_nil spec.offset.toNat)
  have last := length_pos_iff.mpr (digits_ne_nil (spec.offset + spec.length - 1).toNat)
  have dash := HttpHdrRangeSpec.strchr_digits (isDigit_of_mem_digits spec.offset.toNat)
    (digits (spec.offset + spec.length - 1).toNat ++ 47 :: rest)
  have readFirst := strtoll_digits_append offset (by omega)
    (show (45 :: (digits (spec.offset + spec.length - 1).toNat ++ 47 :: rest)).takeWhile
      (isDigit 10) = [] from rfl)
  have readLast := strtoll_digits_append (show 0 ≤ spec.offset + spec.length - 1 by omega)
    (by omega) (show (47 :: rest).takeWhile (isDigit 10) = [] from rfl)
  have behind : (digits spec.offset.toNat ++
      45 :: (digits (spec.offset + spec.length - 1).toNat ++ 47 :: rest)).drop
        ((digits spec.offset.toNat).length + 1) =
      digits (spec.offset + spec.length - 1).toNat ++ 47 :: rest := by simp
  simp only [respSpecParseInit, dash, httpHeaderParseOffset, readFirst, behind, readLast,
    bind_eq_bind, bind_some]
  rw [if_neg (by omega), if_neg (head_digits _ _), if_pos (by omega), if_neg (by omega),
    if_neg (by omega), if_neg (by omega), sizeDiff_eq offset (by omega) (by omega),
    if_neg (by omega), if_neg (by omega)]
  obtain ⟨first, size⟩ := spec
  simp only [some.injEq, HttpHdrRangeSpec.mk.injEq, true_and]
  omega

/-- What was written is read. -/
theorem parseInit_text (given : Given range.spec) (positive : 0 < range.elength)
    (small : range.elength < 2 ^ 63)
    (inside : range.spec.offset + range.spec.length ≤ range.elength) :
    parseInit range.text = some range := by
  have front : ∀ b ∈ digits range.spec.offset.toNat ++
      45 :: digits (range.spec.offset + range.spec.length - 1).toNat, b ≠ 47 ∧ b ≠ 0 := by
    intro b member
    have kinds : b = 45 ∨ isDigit 10 b = true := by
      rcases mem_append.mp member with digit | rest
      · exact .inr (isDigit_of_mem_digits _ b digit)
      · rcases mem_cons.mp rest with dash | digit
        · exact .inl dash
        · exact .inr (isDigit_of_mem_digits _ b digit)
    rcases kinds with rfl | digit
    · decide
    · constructor <;> rintro rfl <;> exact absurd digit (by decide)
  have slash := HttpHdrRangeSpec.strchr_of_plain front (digits range.elength.toNat)
  rw [List.append_assoc, cons_append, length_append, length_cons] at slash
  have body : range.text.drop 6 = digits range.spec.offset.toNat ++
      45 :: (digits (range.spec.offset + range.spec.length - 1).toNat ++
        47 :: digits range.elength.toNat) := rfl
  have behind : (digits range.spec.offset.toNat ++
      45 :: (digits (range.spec.offset + range.spec.length - 1).toNat ++
        47 :: digits range.elength.toNat)).drop
      ((digits range.spec.offset.toNat).length +
        ((digits (range.spec.offset + range.spec.length - 1).toNat).length + 1) + 1) =
      digits range.elength.toNat := by
    rw [append_cons, ← List.append_assoc, append_cons _ 47, drop_left']
    simp only [length_append, length_singleton]
    omega
  have parsed := respSpecParseInit_text given (digits range.elength.toNat)
  rw [add_assoc, add_comm 1] at parsed
  have number := strtoll_digits_append positive.le small
    (show List.takeWhile (isDigit 10) [] = [] from rfl)
  have star := head_digits range.elength.toNat []
  rw [List.append_nil] at number star
  rw [parseInit, if_pos (by rfl), body]
  simp only [slash, behind, parsed, if_neg (head_digits _ _), httpHeaderParseOffset, number,
    bind_eq_bind, bind_some, if_neg star]
  rw [if_neg (by omega), if_neg]
  rintro ⟨-, outside⟩
  rw [int64_eq (by have := given.1; have := given.2.1; omega) given.2.2] at outside
  omega

/-! ## Packing -/

/-- Without both parts an assertion fails. -/
theorem packInto_eq_none (unknown : range.spec.length < 0 ∨ range.elength < 0) :
    packInto range = none := by
  rcases unknown with length | elength
  · rw [packInto, respSpecPackInto, if_neg (by omega)]
    rfl
  · simp only [packInto, if_neg (show ¬ 0 ≤ range.elength by omega), bind_eq_bind]
    cases respSpecPackInto range.spec <;> rfl

/--
The known parts of an accepted range make sense.  It is packed, and parsed again as what it was, if
and only if neither the range nor the length of the entity is a `*`.
-/
theorem packInto_iff {str : Bytes} {range : HttpHdrContRange}
    (accepted : parseInit str = some range) :
    range.Bounded ∧
      ((∃ text, packInto range = some text ∧ parseInit text = some range) ↔
        (str.drop 6).headD 0 ≠ 42 ∧ (afterSlash str).headD 0 ≠ 42) := by
  refine ⟨bounded_of_accepted accepted, ?_⟩
  have crash : range.spec.length < 0 ∨ range.elength < 0 →
      ¬ ∃ text, packInto range = some text ∧ parseInit text = some range := by
    rintro unknown ⟨text, packed, -⟩
    rw [packInto_eq_none unknown] at packed
    exact some_ne_none _ packed.symm
  obtain ⟨⟨star, none⟩ | ⟨plain, given⟩, length⟩ := parseInit_cases accepted
  · refine iff_of_false (crash (.inl ?_)) fun both => both.1 star
    rw [none]
    decide
  obtain ⟨star, unknown⟩ | ⟨plain', positive, small, inside⟩ := length
  · refine iff_of_false (crash (.inr ?_)) fun both => both.2 star
    rw [unknown]
    decide
  · refine iff_of_true ⟨range.text, packInto_eq given positive, ?_⟩ ⟨plain, plain'⟩
    apply parseInit_text given positive small
    have bound := inside (known_of_nonneg given.2.1.le)
    rwa [int64_eq (by have := given.1; have := given.2.1; omega) given.2.2] at bound

/-- `bytes 0-4/10`. -/
def plainContRange : Bytes := [98, 121, 116, 101, 115, 32, 48, 45, 52, 47, 49, 48]

theorem packInto_plainContRange :
    parseInit plainContRange = some ⟨⟨0, 5⟩, 10⟩ ∧
      ∃ text, packInto ⟨⟨0, 5⟩, 10⟩ = some text ∧ parseInit text = some ⟨⟨0, 5⟩, 10⟩ := by
  have parsed : parseInit plainContRange = some ⟨⟨0, 5⟩, 10⟩ := by decide
  exact ⟨parsed, (packInto_iff parsed).2.mpr (by decide)⟩

/-- `bytes */10`. -/
def unsatisfiedRange : Bytes := [98, 121, 116, 101, 115, 32, 42, 47, 49, 48]

/-- The reply to a range that cannot be satisfied trips an assertion when it is packed. -/
theorem not_packInto_unsatisfiedRange :
    parseInit unsatisfiedRange = some ⟨{}, 10⟩ ∧ packInto ⟨{}, 10⟩ = none := by
  decide

end HttpHdrContRange
end Squid
