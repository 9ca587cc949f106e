import Mathlib.Data.Int.ConditionallyCompleteOrder
import Mathlib.Order.ConditionallyCompleteLattice.Basic
import Mathlib.Order.Interval.Set.Basic
import Squid.Library.Decimal
import Squid.Http.StrListSegments
import Squid.Http.HttpHdrRangeCrash

/-!
# The bytes that a `Range` header requests

A range spec of digits requests some of the bytes of a response.  `canonize` leaves the specs that
request any, with the offset and the length of these bytes.
-/

namespace Squid

open CRuntime List

/-! ## What a range spec requests -/

/-- A byte range as RFC 2616 has it. -/
inductive ByteRange
  /-- The bytes from the first position to the last one. -/
  | range (first last : ℕ)
  /-- The bytes from the first position on. -/
  | trailer (first : ℕ)
  /-- The last bytes. -/
  | suffix (n : ℕ)

namespace ByteRange

/-- The offsets that are requested of a response with `clen` bytes. -/
def requested (clen : ℤ) : ByteRange → Set ℤ
  | range first last => {i | first ≤ i ∧ i < last + 1} ∩ Set.Ico 0 clen
  | trailer first => Set.Ico first clen
  | suffix n => Set.Ico (clen - min (n : ℤ) clen) clen

/-- A number of digits, not too big. -/
def Number (text : Bytes) : Prop :=
  text ≠ [] ∧ (∀ b ∈ text, isDigit 10 b = true) ∧ magnitude 10 text < 2 ^ 62

/-- The texts of digits and one dash that write a byte range. -/
inductive Writes : Bytes → ByteRange → Prop
  | range {first last : Bytes} : Number first → Number last →
      Writes (first ++ 45 :: last) (range (magnitude 10 first) (magnitude 10 last))
  | trailer {first : Bytes} : Number first →
      Writes (first ++ [45]) (trailer (magnitude 10 first))
  | suffix {n : Bytes} : Number n → Writes (45 :: n) (suffix (magnitude 10 n))

/-- What the parser makes of a byte range. -/
def spec : ByteRange → HttpHdrRangeSpec
  | range first last => ⟨first, last + 1 - first⟩
  | trailer first => ⟨first, UnknownPosition⟩
  | suffix n => ⟨UnknownPosition, n⟩

/-- The first position is not behind the last one. -/
def Ordered : ByteRange → Prop
  | range first last => first ≤ last
  | _ => True

/-- The numbers are small. -/
def Small : ByteRange → Prop
  | range first last => first < 2 ^ 62 ∧ last < 2 ^ 62
  | trailer first => first < 2 ^ 62
  | suffix n => n < 2 ^ 62

theorem Writes.small {text : Bytes} {r : ByteRange} (writes : Writes text r) : r.Small := by
  cases writes with
  | range first last => exact ⟨first.2.2, last.2.2⟩
  | trailer first => exact first.2.2
  | suffix n => exact n.2.2

end ByteRange

/-! ## Parsing -/

namespace HttpHdrRangeSpec

variable {first rest : Bytes} {flen : ℕ}

/-- An item that starts with a dash is a suffix. -/
theorem parseInit_dash (long : 2 ≤ flen) :
    parseInit (45 :: rest) flen = some ⟨UnknownPosition, (strtoll 10 rest).1⟩ := by
  rw [parseInit, if_neg (by omega), headD_cons, if_pos rfl]
  rfl

/-- A character is found behind bytes that are neither it nor the end of the string. -/
theorem strchr_of_plain {c : UInt8} (plain : ∀ b ∈ first, b ≠ c ∧ b ≠ 0) (rest : Bytes) :
    strchr (first ++ c :: rest) c = some first.length := by
  induction first with
  | nil => simp [strchr]
  | cons b first ih =>
      obtain ⟨other, zero⟩ := plain b (by simp)
      rw [cons_append, strchr, if_neg other, if_neg zero,
        ih fun c member => plain c (by simp [member])]
      rfl

/-- The dash behind digits is found. -/
theorem strchr_digits (all : ∀ b ∈ first, isDigit 10 b = true) (rest : Bytes) :
    strchr (first ++ 45 :: rest) 45 = some first.length := by
  refine strchr_of_plain ?_ rest
  intro b member
  have digit := all b member
  refine ⟨(plain_of_isDigit digit).2.1, ?_⟩
  rintro rfl
  exact absurd digit (by decide)

/-- An item that starts with digits and a dash has them as the first position. -/
theorem parseInit_digits (ne : first ≠ []) (all : ∀ b ∈ first, isDigit 10 b = true)
    (long : first.length < flen) :
    parseInit (first ++ 45 :: rest) flen =
      if first.length + 1 < flen then
        if (strtoll 10 rest).1 < saturate false (magnitude 10 first) then
          none
        else
          some ⟨saturate false (magnitude 10 first),
            int64 (HttpRange.size
              ⟨saturate false (magnitude 10 first), int64 ((strtoll 10 rest).1 + 1)⟩)⟩
      else
        some ⟨saturate false (magnitude 10 first), UnknownPosition⟩ := by
  have positive := length_pos_iff.mpr ne
  have head : (first ++ 45 :: rest).headD 0 ≠ 45 := by
    obtain ⟨b, tail, rfl⟩ := exists_cons_of_ne_nil ne
    exact (plain_of_isDigit (all b (by simp))).2.1
  have offset : (strtoll 10 (first ++ 45 :: rest)).1 = saturate false (magnitude 10 first) :=
    strtoll_digits ne all rfl
  have behind : (first ++ 45 :: rest).drop (first.length + 1) = rest := by simp
  rw [parseInit, if_neg (by omega), if_neg head, strchr_digits all rest]
  simp only [httpHeaderParseOffset, offset, behind, if_pos long, Option.bind_eq_bind,
    Option.bind_some]

end HttpHdrRangeSpec

namespace ByteRange

variable {text : Bytes}

theorem Number.saturate (number : Number text) :
    CRuntime.saturate false (magnitude 10 text) = magnitude 10 text := by
  have small := number.2.2
  simp only [CRuntime.saturate, Bool.false_eq_true, if_false]
  omega

theorem Number.strtoll {rest : Bytes} (number : Number text)
    (stop : rest.takeWhile (isDigit 10) = []) :
    (CRuntime.strtoll 10 (text ++ rest)).1 = magnitude 10 text := by
  rw [strtoll_digits number.1 number.2.1 stop, number.saturate]

variable {r : ByteRange}

/-- A range spec of digits is parsed to its numbers. -/
theorem parseInit_of_writes {after : Bytes} {parsed : HttpHdrRangeSpec} (writes : Writes text r)
    (stop : after.takeWhile (isDigit 10) = [])
    (accepted : HttpHdrRangeSpec.parseInit (text ++ after) text.length = some parsed) :
    parsed = r.spec ∧ r.Ordered := by
  cases writes with
  | @suffix n number =>
      have positive := length_pos_iff.mpr number.1
      rw [cons_append, HttpHdrRangeSpec.parseInit_dash (by rw [length_cons]; omega),
        number.strtoll stop] at accepted
      exact ⟨(Option.some.inj accepted).symm, trivial⟩
  | @trailer first number =>
      rw [List.append_assoc, singleton_append,
        HttpHdrRangeSpec.parseInit_digits number.1 number.2.1 (by simp), if_neg (by simp),
        number.saturate] at accepted
      exact ⟨(Option.some.inj accepted).symm, trivial⟩
  | @range first last number number' =>
      have positive := length_pos_iff.mpr number'.1
      have first_small := number.2.2
      have last_small := number'.2.2
      rw [List.append_assoc, cons_append,
        HttpHdrRangeSpec.parseInit_digits number.1 number.2.1 (by simp),
        if_pos (by rw [length_append, length_cons]; omega), number.saturate,
        number'.strtoll stop] at accepted
      simp only [Option.ite_none_left_eq_some, Option.some.injEq] at accepted
      obtain ⟨ordered, rfl⟩ := accepted
      refine ⟨?_, show magnitude 10 first ≤ magnitude 10 last by omega⟩
      rw [HttpHdrRangeSpec.rangeLength_eq (by omega) (by omega) (by omega), if_neg (by omega),
        int64_eq (by omega) (by omega), spec]

/-! ## Canonization -/

/-- A spec that fills the absent positions selects what the response has of it. -/
theorem canonize_of_fills {filled : HttpHdrRangeSpec} {clen : ℤ}
    (fills : r.spec.fillAbsent clen = some filled) (offset : 0 ≤ filled.offset)
    (length : 0 ≤ filled.length) (sum : filled.offset + filled.length < 2 ^ 63) (clen_ge : 0 ≤ clen)
    (clen_lt : clen < 2 ^ 63)
    (selects : Set.Ico filled.offset (min clen (filled.offset + filled.length)) =
      r.requested clen) :
    ∃ canonized valid, r.spec.canonize clen = some (canonized, valid) ∧
      (valid = true ↔ (r.requested clen).Nonempty) ∧
      Set.Ico canonized.offset (canonized.offset + canonized.length) = r.requested clen := by
  refine ⟨_, _, HttpHdrRangeSpec.canonize_filled fills offset length sum (by omega) clen_lt, ?_, ?_⟩
  · rw [← selects, Set.nonempty_Ico, decide_eq_true_eq]
    omega
  · rw [← selects]
    ext i
    simp only [Set.mem_Ico]
    omega

/-- The canonized spec has the offset and the length of the requested bytes. -/
theorem canonize_spec {clen : ℤ} (small : r.Small) (ordered : r.Ordered) (clen_ge : 0 ≤ clen)
    (clen_lt : clen < 2 ^ 63) :
    ∃ canonized valid, r.spec.canonize clen = some (canonized, valid) ∧
      (valid = true ↔ (r.requested clen).Nonempty) ∧
      Set.Ico canonized.offset (canonized.offset + canonized.length) = r.requested clen := by
  cases r with
  | range first last =>
      obtain ⟨first_lt, last_lt⟩ := small
      have ordered : first ≤ last := ordered
      have fills := @HttpHdrRangeSpec.fillAbsent_known (range first last).spec clen
        (by simp only [spec]; omega) (by simp only [spec]; omega)
      refine canonize_of_fills fills ?_ ?_ ?_ clen_ge clen_lt ?_ <;> simp only [spec]
      · omega
      · omega
      · omega
      · ext i
        simp only [requested, Set.mem_Ico, Set.mem_inter_iff, Set.mem_ofPred_eq]
        omega
  | trailer first =>
      have first_lt : first < 2 ^ 62 := small
      have fills := @HttpHdrRangeSpec.fillAbsent_trailer (trailer first).spec clen
        (by simp only [spec]; omega) (by simp [spec, UnknownPosition]) (by omega) clen_lt
      refine canonize_of_fills fills ?_ ?_ ?_ clen_ge clen_lt ?_ <;> simp only [spec]
      · omega
      · omega
      · omega
      · ext i
        simp only [requested, Set.mem_Ico]
        omega
  | suffix n =>
      have n_lt : n < 2 ^ 62 := small
      have fills := @HttpHdrRangeSpec.fillAbsent_suffix (suffix n).spec clen
        (by simp [spec, UnknownPosition]) (by simp only [spec]; omega) (by simp only [spec]; omega)
        (by omega) clen_lt
      refine canonize_of_fills fills ?_ ?_ ?_ clen_ge clen_lt ?_ <;> simp only [spec]
      · omega
      · omega
      · omega
      · ext i
        simp only [requested, Set.mem_Ico]
        omega

end ByteRange

/-! ## The specs of a header -/

namespace HttpHdrRange

open ByteRange

/-- The range specs of a header have digits and one dash, and request byte ranges. -/
def Requests (range_spec : Bytes) (ranges : List ByteRange) : Prop :=
  List.Forall₂ (fun item r => Writes (item.1.take item.2) r) (rangeItems range_spec) ranges

/-- The specs of a header are the byte ranges it requests. -/
theorem specs_of_requests {range_spec : Bytes} {specs : List HttpHdrRangeSpec}
    {ranges : List ByteRange} (parsed : parseInit range_spec = some specs)
    (requests : Requests range_spec ranges) :
    specs = ranges.map spec ∧ ∀ r ∈ ranges, r.Small ∧ r.Ordered := by
  have items := parseInit_forall₂ parsed
  have length : ∀ item ∈ rangeItems range_spec, item.2 ≤ item.1.length :=
    fun item member => StrList.length_le_of_mem member
  have ends : ∀ item ∈ rangeItems range_spec, EndsItem 44 (item.1.getD item.2 0) :=
    fun item member => endsItem_of_mem member
  unfold Requests at requests
  clear parsed
  generalize rangeItems range_spec = list at items requests length ends
  induction requests generalizing specs with
  | nil =>
      cases items
      exact ⟨rfl, by simp⟩
  | @cons item r list ranges writes _ ih =>
      cases items with
      | @cons _ parsed _ specs one items =>
          obtain ⟨rfl, rest⟩ := ih items (fun other member => length other (by simp [member]))
            fun other member => ends other (by simp [member])
          have inside := length item (by simp)
          have stop : (item.1.drop item.2).takeWhile (isDigit 10) = [] := by
            have last := HttpHdrRangeSpec.not_isDigit_of_endsItem (ends item (by simp))
            rw [getD_eq_getElem?_getD, ← List.head?_drop] at last
            cases behind : item.1.drop item.2 with
            | nil => rfl
            | cons b tail =>
                simp only [behind, List.head?_cons, Option.getD_some] at last
                simp [last]
          have text : (item.1.take item.2).length = item.2 := by
            rw [length_take, min_eq_left inside]
          have one' : HttpHdrRangeSpec.parseInit (item.1.take item.2 ++ item.1.drop item.2)
              (item.1.take item.2).length = some parsed := by
            rw [take_append_drop, text]
            exact one
          obtain ⟨rfl, ordered⟩ := parseInit_of_writes writes stop one'
          refine ⟨rfl, ?_⟩
          intro other member
          rcases mem_cons.mp member with rfl | later
          · exact ⟨writes.small, ordered⟩
          · exact rest other later

open scoped Classical in
/--
`canonize` leaves one spec for each byte range that requests any byte of the response, in the
order of the header, and the spec's offset and length are those of the requested bytes.
-/
theorem canonize_requested {range_spec : Bytes} {specs : List HttpHdrRangeSpec}
    {ranges : List ByteRange} (parsed : parseInit range_spec = some specs)
    (requests : Requests range_spec ranges) {clen : ℤ} (clen_ge : 0 ≤ clen)
    (clen_lt : clen < 2 ^ 63) :
    ∃ canonized, canonize specs clen = some canonized ∧
      List.Forall₂
        (fun spec r => Set.Ico spec.offset (spec.offset + spec.length) = r.requested clen)
        canonized (ranges.filter fun r => (r.requested clen).Nonempty) ∧
      (canonized ≠ [] ↔ ∃ r ∈ ranges, (r.requested clen).Nonempty) := by
  obtain ⟨rfl, good⟩ := specs_of_requests parsed requests
  simp only [canonize, Option.map_eq_some_iff, merge_eq, exists_eq_right]
  clear parsed requests
  induction ranges with
  | nil => exact ⟨[], rfl, .nil, by simp⟩
  | cons r ranges ih =>
      obtain ⟨copy, rest, selects, some⟩ := ih fun other member => good other (by simp [member])
      obtain ⟨small, ordered⟩ := good r (by simp)
      obtain ⟨one, valid, done, nonempty, selected⟩ := canonize_spec small ordered clen_ge clen_lt
      refine ⟨if valid then one :: copy else copy, ?_, ?_⟩
      · rw [List.map_cons, getCanonizedSpecs, done, rest]
        rfl
      · cases valid with
        | false =>
            have empty : ¬ (r.requested clen).Nonempty := by simpa using nonempty
            simpa [empty] using ⟨selects, some⟩
        | true =>
            have inside : (r.requested clen).Nonempty := by simpa using nonempty
            simpa [inside] using ⟨selected, selects⟩

/-- `bytes=0-4,7-,-5` of ten bytes. -/
def threeRanges : Bytes := [98, 121, 116, 101, 115, 61, 48, 45, 52, 44, 55, 45, 44, 45, 53]

theorem requests_threeRanges : Requests threeRanges [.range 0 4, .trailer 7, .suffix 5] := by
  have items : rangeItems threeRanges =
      [([48, 45, 52, 44, 55, 45, 44, 45, 53], 3), ([55, 45, 44, 45, 53], 2), ([45, 53], 2)] := by
    decide
  have number : ∀ d ∈ ([48, 52, 55, 53] : Bytes), Number [d] := by
    unfold Number
    decide +kernel
  rw [Requests, items]
  exact .cons (.range (number 48 (by decide)) (number 52 (by decide)))
    (.cons (.trailer (number 55 (by decide))) (.cons (.suffix (number 53 (by decide))) .nil))

open scoped Classical in
theorem canonize_threeRanges :
    parseInit threeRanges = some [⟨0, 5⟩, ⟨7, -1⟩, ⟨-1, 5⟩] ∧
      ∃ canonized, canonize [⟨0, 5⟩, ⟨7, -1⟩, ⟨-1, 5⟩] 10 = some canonized ∧
        List.Forall₂
          (fun spec r => Set.Ico spec.offset (spec.offset + spec.length) = r.requested 10)
          canonized
          (([.range 0 4, .trailer 7, .suffix 5] : List ByteRange).filter
            fun r => (r.requested 10).Nonempty) ∧
        (canonized ≠ [] ↔ ∃ r ∈ ([.range 0 4, .trailer 7, .suffix 5] : List ByteRange),
          (r.requested 10).Nonempty) := by
  have parsed : parseInit threeRanges = some [⟨0, 5⟩, ⟨7, -1⟩, ⟨-1, 5⟩] := by decide
  exact ⟨parsed,
    canonize_requested parsed requests_threeRanges (by decide) (by decide)⟩

end HttpHdrRange

end Squid
