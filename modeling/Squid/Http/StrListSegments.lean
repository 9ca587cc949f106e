import Squid.Http.StrList
import Mathlib.Data.List.DropRight

/-!
# The items of a list and its segments

A list in a header field consists of segments.  `strListGetItem` skips white space in front of an
item by a set of its own, which has neither vertical tabs nor form feeds, and cuts white space
behind the item by `xisspace`.
-/

namespace Squid
namespace StrList

open CRuntime List

/-! ## Segments -/

/-- Segments of a list: the delimiter and `,` separate outside of quoted strings. -/
def segments (del : UInt8) : Bool → Bytes → List Bytes
  | _, [] => [[]]
  | quoted, b :: s =>
      if b = 34 then
        (segments del (!quoted) s).modifyHead (b :: ·)
      else if quoted then
        if b = 92 then
          match s with
          | [] => [[b]]
          | escaped :: t => (segments del true t).modifyHead (b :: escaped :: ·)
        else
          (segments del true s).modifyHead (b :: ·)
      else if b = del ∨ b = 44 then
        [] :: segments del false s
      else
        (segments del false s).modifyHead (b :: ·)

/-- A segment without the white space around it. -/
def strip (segment : Bytes) : Bytes := (segment.dropWhile isSpace).rdropWhile isSpace

/-- What is left of the segments: white space around them goes, and so do empty ones. -/
def members (list : List Bytes) : List Bytes := (list.map strip).filter (· ≠ [])

/--
Where a segment starts with white space that `strListGetItem` does not skip, it and the segments
behind it are blank.
-/
def Regular (del : UInt8) (list : List Bytes) : Prop :=
  ∀ front segment back, list = front ++ segment :: back →
    (∃ b ∈ segment.takeWhile isSpace, isListGap del b = false) →
      ∀ other ∈ segment :: back, strip other = []

variable {del : UInt8} {segment : Bytes}

variable {back : List Bytes}

theorem regular_cons :
    Regular del (segment :: back) ↔
      ((∃ b ∈ segment.takeWhile isSpace, isListGap del b = false) →
        ∀ other ∈ segment :: back, strip other = []) ∧ Regular del back := by
  constructor
  · intro regular
    refine ⟨regular [] segment back rfl, ?_⟩
    intro front other rest split
    exact regular (segment :: front) other rest (by rw [split, cons_append])
  · rintro ⟨first, later⟩ front other rest split
    cases front with
    | nil =>
        obtain ⟨rfl, rfl⟩ := cons_eq_cons.mp split
        exact first
    | cons _ front =>
        obtain ⟨-, rfl⟩ := cons_eq_cons.mp split
        exact later front other rest rfl

theorem regular_nil (del : UInt8) : Regular del [] := by
  intro front segment back split
  simp at split

/-- White space that is skipped does not matter in front of a segment. -/
theorem regular_cons_of_gap (skipped : ∀ b ∈ segment.takeWhile isSpace, isListGap del b = true) :
    Regular del (segment :: back) ↔ Regular del back := by
  rw [regular_cons]
  refine and_iff_right ?_
  rintro ⟨b, member, kept⟩
  simp [skipped b member] at kept

theorem members_eq_nil {list : List Bytes} :
    members list = [] ↔ ∀ segment ∈ list, strip segment = [] := by
  simp [members, filter_eq_nil_iff]

theorem members_cons_of_blank (blank : strip segment = []) (back : List Bytes) :
    members (segment :: back) = members back := by
  simp [members, blank]

theorem members_cons (ne : strip segment ≠ []) (back : List Bytes) :
    members (segment :: back) = strip segment :: members back := by
  simp [members, ne]

theorem strip_eq_nil : strip segment = [] ↔ ∀ b ∈ segment, isSpace b = true := by
  rw [strip, rdropWhile_eq_nil_iff]
  constructor
  · intro blank b member
    rw [← takeWhile_append_dropWhile (p := isSpace) (l := segment), mem_append] at member
    rcases member with taken | dropped
    · exact mem_takeWhile_imp taken
    · exact blank b dropped
  · intro blank b member
    exact blank b ((dropWhile_suffix isSpace).subset member)

variable {b : UInt8}

theorem strip_cons (space : isSpace b = true) (segment : Bytes) :
    strip (b :: segment) = strip segment := by
  simp [strip, space]

theorem strip_of_head (plain : isSpace b = false) (segment : Bytes) :
    strip (b :: segment) = (b :: segment).rdropWhile isSpace := by
  simp [strip, plain]

theorem segments_ne_nil (del : UInt8) (quoted : Bool) (s : Bytes) : segments del quoted s ≠ [] := by
  fun_induction segments del quoted s with
  | case1 => simp
  | case2 _ _ ih => simpa using ih
  | case3 => simp
  | case4 _ _ _ ih => simpa using ih
  | case5 _ _ _ _ ih => simpa using ih
  | case6 => simp
  | case7 _ _ _ _ _ _ ih => simpa using ih

/-! ## Where an item ends -/

/-- The string ends here. -/
def Ended (s : Bytes) : Prop := s.headD 0 = 0

variable {rest : Bytes}

theorem findDelimiter_of_ended {quoted : Bool} (ended : Ended rest) :
    findDelimiter del quoted rest = rest := by
  cases rest with
  | nil => rw [findDelimiter]
  | cons b rest =>
      have zero : b = 0 := ended
      rw [findDelimiter.eq_def]
      simp [zero]

variable {s : Bytes}

/-- The scan for the end of an item stops at the end of the first segment. -/
theorem findDelimiter_segments (del : UInt8) (quoted : Bool) (plain : 0 ∉ s) (ended : Ended rest) :
    ∃ passed after later, s = passed ++ after ∧
      findDelimiter del quoted (s ++ rest) = after ++ rest ∧
      segments del quoted s = passed :: later ∧ segments del false after = [] :: later := by
  fun_induction segments del quoted s with
  | case1 quoted => exact ⟨[], [], [], rfl, findDelimiter_of_ended ended, rfl, rfl⟩
  | case2 quoted s ih =>
      obtain ⟨passed, after, later, split, found, first, others⟩ := ih (by simp_all)
      refine ⟨34 :: passed, after, later, by rw [split, cons_append], ?_, by simp [first],
        others⟩
      rw [cons_append, findDelimiter.eq_def]
      simpa using found
  | case3 _ =>
      refine ⟨[92], [], [], rfl, ?_, rfl, rfl⟩
      cases rest with
      | nil => simp [findDelimiter]
      | cons b rest =>
          have zero : b = 0 := ended
          simp [findDelimiter, zero]
  | case4 escaped t _ ih =>
      obtain ⟨passed, after, later, split, found, first, others⟩ := ih (by simp_all)
      have nonzero : escaped ≠ 0 := by
        rintro rfl
        simp at plain
      refine ⟨92 :: escaped :: passed, after, later, by rw [split]; rfl, ?_, by simp [first],
        others⟩
      simpa [findDelimiter, nonzero] using found
  | case5 b s quote backslash ih =>
      obtain ⟨passed, after, later, split, found, first, others⟩ := ih (by simp_all)
      have nonzero : b ≠ 0 := by
        rintro rfl
        simp at plain
      refine ⟨b :: passed, after, later, by rw [split, cons_append], ?_, by simp [first],
        others⟩
      rw [cons_append, findDelimiter.eq_def]
      simpa [nonzero, quote, backslash] using found
  | case6 quoted b s quote outside separates =>
      have nonzero : b ≠ 0 := by
        rintro rfl
        simp at plain
      have outside : quoted = false := by simpa using outside
      refine ⟨[], b :: s, segments del false s, rfl, ?_, rfl, ?_⟩
      · rw [cons_append, findDelimiter.eq_def]
        simp [nonzero, quote, outside, separates]
      · rw [segments.eq_def]
        simp [quote, separates]
  | case7 quoted b s quote outside separates ih =>
      obtain ⟨passed, after, later, split, found, first, others⟩ := ih (by simp_all)
      have nonzero : b ≠ 0 := by
        rintro rfl
        simp at plain
      have outside : quoted = false := by simpa using outside
      refine ⟨b :: passed, after, later, by rw [split, cons_append], ?_, by simp [first],
        others⟩
      rw [cons_append, findDelimiter.eq_def]
      simpa [nonzero, quote, outside, separates] using found

/-- Cutting white space behind an item. -/
theorem take_rtrim (item : Bytes) {len : ℕ} (bound : len ≤ item.length) :
    item.take (rtrim item len) = (item.take len).rdropWhile isSpace := by
  induction len with
  | zero => simp [rtrim]
  | succ len ih =>
      have inside : len < item.length := by omega
      have last : item.take (len + 1) = item.take len ++ [item.getD len 0] := by
        rw [take_add_one, getD_eq_getElem _ _ inside, List.getElem?_eq_getElem inside,
          Option.toList_some]
      simp only [rtrim]
      split
      · rename_i space
        rw [ih (by omega), last, rdropWhile_concat_pos _ _ _ space]
      · rename_i plain
        rw [last, rdropWhile_concat_neg _ _ _ plain]

/-! ## The gap in front of an item -/

/-- A byte of the gap changes neither the items nor where white space matters. -/
theorem segments_of_gap (notQuote : del ≠ 34) (gap : isListGap del b = true) :
    members (segments del false (b :: s)) = members (segments del false s) ∧
      (Regular del (segments del false (b :: s)) ↔ Regular del (segments del false s)) := by
  have quote : b ≠ 34 := by
    rintro rfl
    simp [isListGap, notQuote.symm] at gap
  rw [segments.eq_def]
  by_cases separates : b = del ∨ b = 44
  · simp only [quote, separates, if_true, if_false, Bool.false_eq_true]
    exact ⟨members_cons_of_blank rfl _, regular_cons_of_gap (by simp)⟩
  · have space : isSpace b = true := by
      simp only [isListGap, Bool.or_eq_true, beq_iff_eq] at gap
      rcases gap with ((((rfl | same) | same) | rfl) | rfl) | rfl
      · rfl
      · exact absurd (.inl same) separates
      · exact absurd (.inr same) separates
      · rfl
      · rfl
      · rfl
    obtain ⟨segment, later, first⟩ := exists_cons_of_ne_nil (segments_ne_nil del false s)
    simp only [quote, separates, if_false, Bool.false_eq_true, first, modifyHead_cons]
    refine ⟨by simp [members, strip_cons space], ?_⟩
    simp [regular_cons, strip_cons space, space, gap]

/-- The gap in front of an item. -/
theorem segments_dropWhile (notQuote : del ≠ 34) (s : Bytes) :
    members (segments del false (s.dropWhile (isListGap del))) = members (segments del false s) ∧
      (Regular del (segments del false (s.dropWhile (isListGap del))) ↔
        Regular del (segments del false s)) := by
  induction s with
  | nil => exact ⟨rfl, Iff.rfl⟩
  | cons b s ih =>
      by_cases gap : isListGap del b = true
      · obtain ⟨same, regular⟩ := segments_of_gap (s := s) notQuote gap
        rw [dropWhile_cons_of_pos gap, same, regular]
        exact ih
      · rw [dropWhile_cons_of_neg gap]
        exact ⟨rfl, Iff.rfl⟩

theorem dropWhile_gap_append {del : UInt8} (separator : del ≠ 0) (s : Bytes) {rest : Bytes}
    (ended : Ended rest) :
    (s ++ rest).dropWhile (isListGap del) = s.dropWhile (isListGap del) ++ rest := by
  induction s with
  | nil =>
      cases rest with
      | nil => rfl
      | cons b rest =>
          have zero : b = 0 := ended
          simp [zero, isListGap, separator.symm]
  | cons b s ih =>
      by_cases gap : isListGap del b = true
      · rw [cons_append, dropWhile_cons_of_pos gap, dropWhile_cons_of_pos gap, ih]
      · rw [cons_append, dropWhile_cons_of_neg gap, dropWhile_cons_of_neg gap, cons_append]

/-! ## Iteration -/

/-- The text of an item. -/
def text (item : Bytes × ℕ) : Bytes := item.1.take item.2

/--
What `strListGetItem` returns at a position, by the segments from there on: the first segment
behind the gap, with white space cut behind it, unless that leaves nothing.
-/
theorem strListGetItem_segments (separator : del ≠ 0) (plain : 0 ∉ s) (ended : Ended rest) :
    ∃ passed after later, s.dropWhile (isListGap del) = passed ++ after ∧
      segments del false (s.dropWhile (isListGap del)) = passed :: later ∧
      segments del false after = [] :: later ∧
      (passed.rdropWhile isSpace = [] → strListGetItem del (s ++ rest) = none) ∧
      (passed.rdropWhile isSpace ≠ [] → ∃ item len,
        strListGetItem del (s ++ rest) = some (item, len, after ++ rest) ∧
          text (item, len) = passed.rdropWhile isSpace) := by
  have plain' : 0 ∉ s.dropWhile (isListGap del) :=
    fun member => plain ((dropWhile_suffix _).subset member)
  obtain ⟨passed, after, later, split, found, first, others⟩ :=
    findDelimiter_segments del false plain' ended
  refine ⟨passed, after, later, split, first, others, ?_⟩
  have start := dropWhile_gap_append separator s ended
  have length : (passed ++ after ++ rest).length - (after ++ rest).length = passed.length := by
    simp only [length_append]
    omega
  have cut := @take_rtrim (passed ++ after ++ rest) passed.length
    (by simp only [length_append]; omega)
  rw [List.append_assoc, take_left' rfl, ← List.append_assoc] at cut
  have short := rtrim_le (passed ++ after ++ rest) passed.length
  have size : (passed.rdropWhile isSpace).length = rtrim (passed ++ after ++ rest) passed.length := by
    rw [← cut, length_take, length_append, length_append]
    omega
  simp only [strListGetItem, start, found]
  simp only [split] at found ⊢
  rw [length]
  constructor
  · intro blank
    rw [← size, blank]
    rfl
  · intro ne
    have positive : 0 < rtrim (passed ++ after ++ rest) passed.length := by
      rw [← size]
      exact length_pos_of_ne_nil ne
    exact ⟨_, _, if_pos positive, cut⟩

variable {t : Bytes}

/-- What is behind the gap does not start with a byte of the gap. -/
theorem head_dropWhile_gap (start : s.dropWhile (isListGap del) = b :: t) :
    isListGap del b = false := by
  have ne : s.dropWhile (isListGap del) ≠ [] := by simp [start]
  have kept := head_dropWhile_not (isListGap del) ne
  simpa [start] using kept

/-- A segment that starts with a byte outside of the gap has this byte. -/
theorem segments_ne_of_gap {later : List Bytes} (kept : isListGap del b = false) :
    segments del false (b :: t) ≠ [] :: later := by
  intro first
  simp only [isListGap, Bool.or_eq_false_iff, beq_eq_false_iff_ne] at kept
  rw [segments.eq_def] at first
  by_cases quote : b = 34
  · cases others : segments del true t with
    | nil => exact segments_ne_nil del true t others
    | cons _ _ => simp [quote, others] at first
  · cases others : segments del false t with
    | nil => exact segments_ne_nil del false t others
    | cons _ _ => simp [quote, kept, others] at first

variable {passed : Bytes}

/-- White space at the start of an item is not part of a segment without it. -/
theorem rdropWhile_ne_strip (space : isSpace b = true) (ne : strip (b :: passed) ≠ []) :
    (b :: passed).rdropWhile isSpace ≠ strip (b :: passed) := by
  intro same
  obtain ⟨c, t, start⟩ := exists_cons_of_ne_nil ne
  have first : c = b := by
    have front := rdropWhile_prefix isSpace (l := b :: passed)
    rw [same, start] at front
    exact (cons_prefix_cons.mp front).1
  have inside := rdropWhile_prefix isSpace (l := (b :: passed).dropWhile isSpace)
  change strip (b :: passed) <+: _ at inside
  rw [start] at inside
  obtain ⟨back, whole⟩ := inside
  have dropped : (b :: passed).dropWhile isSpace ≠ [] := by simp [← whole]
  have stop := head_dropWhile_not isSpace dropped
  simp only [← whole, cons_append, head_cons, first, space] at stop
  exact Bool.noConfusion stop

theorem rdropWhile_ne_nil (ne : strip passed ≠ []) : passed.rdropWhile isSpace ≠ [] := by
  intro blank
  rw [rdropWhile_eq_nil_iff] at blank
  exact ne (strip_eq_nil.mpr blank)

/-- The iteration over a list, by its segments. -/
theorem strListItems_segments (separator : del ≠ 0) (notQuote : del ≠ 34) (ended : Ended rest)
    (fuel : ℕ) (plain : 0 ∉ s) (enough : s.length < fuel) :
    (strListItems del fuel (s ++ rest)).map text = members (segments del false s) ↔
      Regular del (segments del false s) := by
  induction fuel generalizing s with
  | zero => omega
  | succ fuel ih =>
      obtain ⟨passed, after, later, split, first, others, none, some⟩ :=
        strListGetItem_segments separator plain ended
      obtain ⟨same, regular⟩ := segments_dropWhile notQuote s
      rw [← same, ← regular, first, strListItems]
      cases passed with
      | nil =>
          cases after with
          | nil =>
              simp only [segments, List.cons.injEq, true_and] at others
              rw [none rfl, ← others]
              exact iff_of_true rfl ((regular_cons_of_gap (by simp)).mpr (regular_nil del))
          | cons b after =>
              rw [split] at first
              exact absurd first (segments_ne_of_gap (head_dropWhile_gap split))
      | cons b passed =>
          have kept := head_dropWhile_gap split
          by_cases space : isSpace b = true
          · -- The item starts with white space that only `xisspace` knows.
            have blank : Regular del ((b :: passed) :: later) ↔
                ∀ other ∈ (b :: passed) :: later, strip other = [] := by
              rw [regular_cons]
              constructor
              · rintro ⟨holds, -⟩
                exact holds ⟨b, by simp [space], kept⟩
              · intro blank
                refine ⟨fun _ => blank, ?_⟩
                intro front other back split _ last member
                apply blank
                rw [split]
                simp_all
            rw [blank]
            by_cases empty : strip (b :: passed) = []
            · rw [none (rdropWhile_eq_nil_iff.mpr (strip_eq_nil.mp empty)), ← members_eq_nil]
              exact eq_comm
            · obtain ⟨item, len, found, shown⟩ := some (rdropWhile_ne_nil empty)
              rw [found, members_cons empty]
              constructor
              · intro equal
                simp only [List.map_cons, List.cons.injEq, shown] at equal
                exact absurd equal.1 (rdropWhile_ne_strip space empty)
              · intro blank
                exact absurd (blank _ (by simp)) empty
          · have space : isSpace b = false := by simpa using space
            have stripped := strip_of_head space passed
            have nonempty : (b :: passed).rdropWhile isSpace ≠ [] := by
              rw [Ne, rdropWhile_eq_nil_iff]
              intro blank
              simp [blank b (by simp)] at space
            obtain ⟨item, len, found, shown⟩ := some nonempty
            have shorter : (b :: passed).length + after.length ≤ s.length := by
              rw [← length_append, ← split]
              exact length_dropWhile_le _ _
            have inside : ∀ c ∈ after, c ∈ s := by
              intro c member
              apply (dropWhile_suffix (isListGap del)).subset
              simp [split, member]
            have rest := ih (s := after) (fun member => plain (inside 0 member))
              (by simp only [length_cons] at shorter; omega)
            rw [others, members_cons_of_blank rfl, regular_cons_of_gap (by simp)] at rest
            rw [found, members_cons (by rw [stripped]; exact nonempty),
              regular_cons_of_gap (by simp [space]), ← rest, stripped]
            simp only [List.map_cons, shown, List.cons.injEq, true_and]

/-- The items that iterating through a string returns. -/
def items (del : UInt8) (s : Bytes) : List Bytes := (strListItems del (s.length + 1) s).map text

/--
`strListGetItem` visits the segments of a C string if and only if no segment starts with a
vertical tab or a form feed, except where nothing but blank segments is left.
-/
theorem items_iff_regular {del : UInt8} (separator : del ≠ 0) (notQuote : del ≠ 34) (s : Bytes) :
    items del s = members (segments del false (cstr s)) ↔
      Regular del (segments del false (cstr s)) := by
  have split : cstr s ++ s.dropWhile (· != 0) = s := takeWhile_append_dropWhile
  have plain : (0 : UInt8) ∉ cstr s := by
    intro member
    simpa using mem_takeWhile_imp member
  have ended : Ended (s.dropWhile (· != 0)) := by
    cases start : s.dropWhile (· != 0) with
    | nil => rfl
    | cons b t =>
        have ne : s.dropWhile (· != 0) ≠ [] := by simp [start]
        have stop := head_dropWhile_not (· != 0) ne
        simpa [start, Ended] using stop
  have shorter : (cstr s).length < s.length + 1 :=
    Nat.lt_succ_of_le (List.takeWhile_prefix _).length_le
  have visited := strListItems_segments separator notQuote ended (s.length + 1) plain shorter
  rwa [split] at visited

/-- A list with a quoted delimiter and an empty segment, `a,"b,c",, d`. -/
theorem items_iff_regular_quoted :
    items 44 [97, 44, 34, 98, 44, 99, 34, 44, 44, 32, 100] =
      members (segments 44 false (cstr [97, 44, 34, 98, 44, 99, 34, 44, 44, 32, 100])) := by
  apply (items_iff_regular (by decide) (by decide) _).mpr
  have list : segments 44 false (cstr [97, 44, 34, 98, 44, 99, 34, 44, 44, 32, 100]) =
      [[97], [34, 98, 44, 99, 34], [], [32, 100]] := by decide +kernel
  rw [list]
  simp [regular_cons, regular_nil, isListGap, isSpace]

/-- A vertical tab between two commas ends the iteration, and `b` is never visited. -/
theorem items_ne_members :
    items 44 [97, 44, 11, 44, 98] ≠ members (segments 44 false (cstr [97, 44, 11, 44, 98])) := by
  decide +kernel

/-! ## Lists of words -/

theorem length_le_of_mem {fuel : ℕ} {pos item : Bytes} {ilen : ℕ}
    (member : (item, ilen) ∈ strListItems del fuel pos) : ilen ≤ item.length := by
  induction fuel generalizing pos with
  | zero => simp [strListItems] at member
  | succ fuel ih =>
      rw [strListItems] at member
      split at member
      · simp at member
      · rename_i found
        rcases mem_cons.mp member with same | later
        · cases same
          simp only [strListGetItem, Option.ite_none_right_eq_some, Option.some.injEq,
            Prod.mk.injEq] at found
          obtain ⟨-, rfl, rfl, -⟩ := found
          exact (rtrim_le _ _).trans (Nat.sub_le _ _)
        · exact ih later

/-- A byte of the gap is skipped. -/
theorem strListGetItem_gap (gap : isListGap del b = true) (pos : Bytes) :
    strListGetItem del (b :: pos) = strListGetItem del pos := by
  simp only [strListGetItem, dropWhile_cons_of_pos gap]

/-- A word that the scan passes is an item, with nothing to skip or to cut. -/
theorem strListGetItem_word {word : Bytes} (ne : word ≠ [])
    (start : ∀ b ∈ word.head?, isListGap del b = false)
    (last : ∀ b ∈ word.getLast?, isSpace b = false)
    (scan : findDelimiter del false (word ++ rest) = rest) :
    strListGetItem del (word ++ rest) = some (word ++ rest, word.length, rest) := by
  have kept : (word ++ rest).dropWhile (isListGap del) = word ++ rest := by
    obtain ⟨b, tail, rfl⟩ := exists_cons_of_ne_nil ne
    rw [cons_append, dropWhile_cons_of_neg (by simp [start b (by simp)])]
  have cut : rtrim (word ++ rest) word.length = word.length := by
    obtain ⟨front, b, rfl⟩ := (eq_nil_or_concat word).resolve_left ne
    simp only [concat_eq_append, List.getLast?_concat, Option.mem_def, Option.some.injEq,
      forall_eq'] at last
    simp [rtrim, last]
  have positive := length_pos_iff.mpr ne
  simp only [strListGetItem, kept, scan]
  rw [length_append, Nat.add_sub_cancel, cut, if_pos positive]

end StrList
end Squid
