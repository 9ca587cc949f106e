import Squid.Http.HttpParser

/-!
# Stability of the request-line parser

A verdict other than "more data needed" should not change when more data arrives.  The fields of a
complete line depend on the bytes up to its terminator only, and the line scan decides on a byte and
the one after it.  The exception is the tolerant mode's run of CR bytes: a run that reaches the end
of the data is judged by the zero after it.
-/

namespace Squid
namespace HttpParser

open CRuntime List

/-! ## The fields depend on the line only -/

section Congruence

variable {buf other : Bytes} {bound : ℤ}

/-- The buffers agree up to an offset. -/
def Agree (buf other : Bytes) (bound : ℤ) : Prop := ∀ i ≤ bound, byteAt other i = byteAt buf i

theorem agree_append (buf more : Bytes) (nonneg : 0 ≤ bound) (inside : bound < buf.length) :
    Agree buf (buf ++ more) bound := by
  intro i le
  have here : i.toNat < buf.length := by omega
  exact getD_append _ _ _ _ here

theorem cropUri_congr (agree : Agree buf other bound) {u_end : ℤ} (le : u_end ≤ bound)
    (count : ℕ) : cropUri other u_end count = cropUri buf u_end count := by
  induction count generalizing u_end with
  | zero => rfl
  | succ count ih => rw [cropUri, cropUri, agree u_end le, ih (by omega)]

theorem parseNumber_congr (agree : Agree buf other bound) {i value : ℤ} {count : ℕ}
    (le : i + count ≤ bound + 1) :
    parseNumber other i value count = parseNumber buf i value count := by
  induction count generalizing i value with
  | zero => rfl
  | succ count ih =>
      rw [parseNumber, parseNumber, agree i (by omega)]
      split
      · exact ih (by omega)
      · rfl

theorem isHttpMark_congr (agree : Agree buf other bound) {v_start : ℤ}
    (le : v_start + 4 ≤ bound) : isHttpMark other v_start = isHttpMark buf v_start := by
  rw [isHttpMark, isHttpMark, agree v_start (by omega), agree (v_start + 1) (by omega),
    agree (v_start + 2) (by omega), agree (v_start + 3) (by omega), agree (v_start + 4) le]

variable {line_end : ℤ} {req : RequestOffsets}

theorem parseVersion_congr (agree : Agree buf other (line_end + 1))
    (le : req.v_start + 5 ≤ line_end + 1) :
    parseVersion other req line_end = parseVersion buf req line_end := by
  unfold parseVersion
  simp only [agree _ le, parseNumber_congr agree (show
    req.v_start + 5 + ((line_end - (req.v_start + 5) + 1).toNat : ℤ) ≤ line_end + 1 + 1 by omega)]
  generalize parseNumber buf (req.v_start + 5) 0 (line_end - (req.v_start + 5) + 1).toNat = major
  obtain ⟨i, maj⟩ := major
  dsimp only
  by_cases long : i > line_end
  · simp [long]
  · rw [agree i (by omega), agree (i + 1) (by omega),
      parseNumber_congr agree
        (show i + 1 + ((line_end - (i + 1) + 1).toNat : ℤ) ≤ line_end + 1 + 1 by omega)]

variable {track : Track}

theorem parseUri_congr (violations : Bool) (agree : Agree buf other (line_end + 1))
    (le : track.last_whitespace ≤ line_end) :
    parseUri violations other req track line_end = parseUri violations buf req track line_end := by
  unfold parseUri
  simp only [cropUri_congr agree (show track.last_whitespace ≤ line_end + 1 by omega)]
  by_cases short : line_end - (track.last_whitespace + 1) + 1 < 5
  · simp [short]
  · rw [isHttpMark_congr agree (by omega), parseVersion_congr agree (by dsimp only; omega)]

theorem parseFields_congr (violations : Bool) (agree : Agree buf other (line_end + 1))
    (le : track.last_whitespace ≤ line_end) :
    parseFields violations other req track line_end =
      parseFields violations buf req track line_end := by
  simp only [parseFields, parseUri_congr violations agree le]

end Congruence

/-! ## The line scan -/

/-- The trackers after a part of the line. -/
def Track.seeAll (start : ℤ) : ℤ → Track → Bytes → Track
  | _, track, [] => track
  | i, track, b :: plain => Track.seeAll start (i + 1) (track.see start i b) plain

/-- The byte does not take part in a line terminator. -/
def isPlain (b : UInt8) : Bool := b != 13 && b != 10

variable {i : ℤ} {track : Track}

theorem see_last_whitespace_lt (start : ℤ) (b : UInt8) (lt : track.last_whitespace < i) :
    (track.see start i b).last_whitespace < i + 1 := by
  unfold Track.see
  by_cases space : b = 32
  · simp [space]
  · simp only [space, if_false]
    split
    · dsimp only
      omega
    · omega

variable {b : UInt8}

theorem see_last_whitespace (word : b ≠ 32) (track : Track) (start i : ℤ) :
    (track.see start i b).last_whitespace = track.last_whitespace := by
  unfold Track.see
  simp only [word, if_false]
  split <;> rfl

theorem seeAll_last_whitespace_lt (start : ℤ) (plain : Bytes) (lt : track.last_whitespace < i) :
    (track.seeAll start i plain).last_whitespace < i + plain.length := by
  induction plain generalizing i track with
  | nil => simpa [Track.seeAll] using lt
  | cons b plain ih =>
      have later := ih (see_last_whitespace_lt start b lt)
      simp only [Track.seeAll, length_cons]
      omega

theorem scanLine_plain {plain : Bytes} (all : ∀ b ∈ plain, isPlain b = true) (rest : Bytes)
    (relaxed : Bool) (start i : ℤ) (track : Track) :
    scanLine relaxed start i track (plain ++ rest) =
      scanLine relaxed start (i + plain.length) (track.seeAll start i plain) rest := by
  induction plain generalizing i track with
  | nil => simp [Track.seeAll]
  | cons b plain ih =>
      have here := all b (by simp)
      simp only [isPlain, Bool.and_eq_true, bne_iff_ne] at here
      rw [cons_append, scanLine]
      simp only [here.1, here.2, if_false, and_false]
      rw [ih (fun c member => all c (by simp [member])), Track.seeAll, length_cons]
      congr 1
      omega

/-- A buffer is a part without terminator bytes and what follows it. -/
theorem exists_plain (buf : Bytes) :
    ∃ plain rest, buf = plain ++ rest ∧ (∀ b ∈ plain, isPlain b = true) ∧
      (rest = [] ∨ (∃ tail, rest = 10 :: tail) ∨ ∃ tail, rest = 13 :: tail) := by
  refine ⟨buf.takeWhile isPlain, buf.dropWhile isPlain, takeWhile_append_dropWhile.symm,
    fun b member => mem_takeWhile_imp member, ?_⟩
  cases split : buf.dropWhile isPlain with
  | nil => exact .inl rfl
  | cons b tail =>
      have stop := List.head?_dropWhile_not isPlain buf
      simp only [split, List.head?_cons, isPlain, Bool.and_eq_false_iff, bne_eq_false_iff_eq]
        at stop
      rcases stop with rfl | rfl
      · exact .inr (.inr ⟨tail, rfl⟩)
      · exact .inr (.inl ⟨tail, rfl⟩)

/-! ## Stability -/

/-- The offsets and numbers of the method, the URI and the version. -/
def RequestOffsets.fields (req : RequestOffsets) : ℤ × ℤ × ℤ × ℤ × ℤ × ℤ × ℤ × ℤ :=
  (req.m_start, req.m_end, req.u_start, req.u_end, req.v_start, req.v_end, req.v_maj, req.v_min)

/-- The same verdict, status, offsets and numbers. -/
def Result.Same (first second : Result) : Prop :=
  second.verdict = first.verdict ∧ second.request_parse_status = first.request_parse_status ∧
    second.req.fields = first.req.fields

/-- A verdict that is not "more data needed" stays when `more` arrives. -/
def Stable (relaxedHeaderParser : ℤ) (violations : Bool) (buf more : Bytes) : Prop :=
  (parseRequestFirstLine relaxedHeaderParser violations buf).verdict ≠ 0 →
    (parseRequestFirstLine relaxedHeaderParser violations buf).Same
      (parseRequestFirstLine relaxedHeaderParser violations (buf ++ more))

/-- A line with something in it ends in several CR bytes, and the data ends there too. -/
def EndsInCrRun (buf : Bytes) : Prop :=
  ∃ plain count, buf = plain ++ List.replicate (count + 2) 13 ∧
    (∀ b ∈ plain, isPlain b = true) ∧ ∃ b ∈ plain, b ≠ 32

/-- White space before the method is not affected by data after the first other byte. -/
theorem methodStart_append (word : b ≠ 32) (relaxed : Bool) (plain rest : Bytes) :
    methodStart relaxed (plain ++ b :: rest) = methodStart relaxed (plain ++ [b]) := by
  unfold methodStart
  cases relaxed with
  | false => rfl
  | true =>
      simp only [if_true]
      rw [takeWhile_append, takeWhile_append]
      simp [word]

section Cases

variable {relaxedHeaderParser : ℤ} {relaxed violations : Bool} {plain rest more : Bytes}
  {b : UInt8}

section

variable (mode : decide (relaxedHeaderParser ≠ 0) = relaxed)
include mode

theorem stable_of_needMore (all : ∀ b ∈ plain, isPlain b = true)
    (scan : ∀ start i track, scanLine relaxed start i track rest = .needMore) :
    Stable relaxedHeaderParser violations (plain ++ rest) more := by
  intro decided
  simp only [parseRequestFirstLine, mode, scanLine_plain all, scan] at decided
  exact absurd rfl decided

/-- A line stays rejected where its first terminator byte and some bytes after it decide. -/
theorem stable_of_reject (all : ∀ b ∈ plain, isPlain b = true) (scan : ∀ tail start i track,
      scanLine relaxed start i track (b :: (rest ++ tail)) = .reject) :
    Stable relaxedHeaderParser violations (plain ++ b :: rest) more := by
  intro _
  have whole := scan []
  simp only [List.append_nil] at whole
  simp only [Result.Same, parseRequestFirstLine, mode, List.append_assoc, cons_append,
    scanLine_plain all, scan, whole]
  exact ⟨trivial, trivial, rfl⟩

/-- A line stays as it is where its first terminator byte and some bytes after it decide. -/
theorem stable_of_line {stop : ℤ} (all : ∀ b ∈ plain, isPlain b = true) (word : b ≠ 32)
    (scan : ∀ tail start i track, scanLine relaxed start i track (b :: (rest ++ tail)) =
      .line (track.see start i b) (i - 1) (i + stop)) :
    Stable relaxedHeaderParser violations (plain ++ b :: rest) more := by
  intro _
  have whole := scan []
  simp only [List.append_nil] at whole
  have start : methodStart relaxed (plain ++ b :: (rest ++ more)) =
      methodStart relaxed (plain ++ b :: rest) := by
    rw [methodStart_append word, ← methodStart_append word relaxed plain rest]
  simp only [parseRequestFirstLine, mode, List.append_assoc, cons_append,
    scanLine_plain all, scan, whole, start]
  generalize (methodStart relaxed (plain ++ b :: rest) : ℤ) = start
  have last := seeAll_last_whitespace_lt start plain
    (show ({} : Track).last_whitespace < 0 by decide)
  have agree : Agree (plain ++ b :: rest) (plain ++ b :: (rest ++ more))
      (0 + plain.length - 1 + 1) := by
    have longer : Agree (plain ++ b :: rest) (plain ++ b :: rest ++ more)
        (0 + plain.length - 1 + 1) := agree_append _ more (by omega) (by simp)
    simpa using longer
  rw [parseFields_congr violations agree (by rw [see_last_whitespace word]; omega)]
  exact ⟨rfl, rfl, rfl⟩

end

theorem scanLine_cr_strict (tail : Bytes) (ne : rest ≠ []) (start i : ℤ) (track : Track) :
    scanLine false start i track (13 :: (rest ++ tail)) =
      if rest.headD 0 = 10 then .line (track.see start i 13) (i - 1) (i + 1) else .reject := by
  obtain ⟨c, rest, rfl⟩ := exists_cons_of_ne_nil ne
  simp [scanLine]

/-- The tolerant scan looks at the first byte after the run of CR bytes. -/
theorem scanLine_cr_relaxed (ne : rest ≠ []) (start i : ℤ) (track : Track) :
    scanLine true start i track (13 :: rest) =
      if (rest.dropWhile (· = 13)).headD 0 = 10 then
        .line (track.see start i 13) (i - 1) (i + (rest.takeWhile (· = 13)).length + 1)
      else .reject := by
  simp [scanLine, ne]

theorem stable_cr_strict (mode : decide (relaxedHeaderParser ≠ 0) = false)
    (all : ∀ b ∈ plain, isPlain b = true) (ne : rest ≠ []) :
    Stable relaxedHeaderParser violations (plain ++ 13 :: rest) more := by
  have scan := fun tail => scanLine_cr_strict tail ne
  by_cases lf : rest.headD 0 = 10
  · simp only [lf, if_true] at scan
    exact stable_of_line mode all (by decide) scan
  · simp only [lf, if_false] at scan
    exact stable_of_reject mode all scan

theorem stable_cr_relaxed (mode : decide (relaxedHeaderParser ≠ 0) = true)
    (all : ∀ b ∈ plain, isPlain b = true) (ne : rest ≠ [])
    (more_than_cr : rest.dropWhile (· = 13) ≠ []) :
    Stable relaxedHeaderParser violations (plain ++ 13 :: rest) more := by
  obtain ⟨c, after, stop⟩ := exists_cons_of_ne_nil more_than_cr
  have run : (rest.takeWhile (· = 13)).length ≠ rest.length := by
    intro whole
    have split := congrArg List.length (takeWhile_append_dropWhile (p := (· = 13)) (l := rest))
    simp only [length_append, stop, length_cons] at split
    omega
  have scan : ∀ tail start i track, scanLine true start i track (13 :: (rest ++ tail)) =
      if c = 10 then
        .line (track.see start i 13) (i - 1) (i + ((rest.takeWhile (· = 13)).length + 1))
      else .reject := by
    intro tail start i track
    rw [scanLine_cr_relaxed (by simp [ne]), dropWhile_append, takeWhile_append, stop, if_neg run]
    simp [add_assoc]
  by_cases lf : c = 10
  · simp only [lf, if_true] at scan
    exact stable_of_line mode all (by decide) scan
  · simp only [lf, if_false] at scan
    exact stable_of_reject mode all scan

/-- A run of CR bytes at the end of the data is judged by the zero after it. -/
theorem parse_crRun (mode : decide (relaxedHeaderParser ≠ 0) = true)
    (all : ∀ b ∈ plain, isPlain b = true) (ne : rest ≠ [])
    (only_cr : rest.dropWhile (· = 13) = []) :
    parseRequestFirstLine relaxedHeaderParser violations (plain ++ 13 :: rest) =
      ⟨-1, .HTTP_BAD_REQUEST, { start := methodStart true (plain ++ 13 :: rest) }⟩ := by
  simp [parseRequestFirstLine, mode, scanLine_plain all, scanLine_cr_relaxed ne, only_cr]

theorem methodStart_eq_length (spaces : ∀ b ∈ plain, b = 32) (word : b ≠ 32) :
    methodStart true (plain ++ b :: rest) = plain.length := by
  simp only [methodStart, if_true]
  rw [takeWhile_append_of_pos (by simpa using spaces)]
  simp [word]

theorem methodStart_lt_length (word : ∃ b ∈ plain, b ≠ 32) :
    methodStart true (plain ++ rest) < plain.length := by
  obtain ⟨b, member, word⟩ := word
  obtain ⟨front, back, rfl⟩ := append_of_mem member
  rw [methodStart, if_pos rfl, List.append_assoc, cons_append, takeWhile_append]
  have short := (List.takeWhile_prefix (l := front) (fun b : UInt8 => decide (b = 32))).length_le
  rw [length_append, length_cons]
  split
  · simp [word]
  · omega

/-- Without a method the run of CR bytes makes a bad request in any case. -/
theorem stable_crRun_of_spaces (mode : decide (relaxedHeaderParser ≠ 0) = true)
    (all : ∀ b ∈ plain, isPlain b = true) (ne : rest ≠ [])
    (only_cr : rest.dropWhile (· = 13) = []) (spaces : ∀ b ∈ plain, b = 32) :
    Stable relaxedHeaderParser violations (plain ++ 13 :: rest) more := by
  intro _
  rw [parse_crRun mode all ne only_cr]
  simp only [parseRequestFirstLine, mode, List.append_assoc, cons_append, scanLine_plain all,
    scanLine_cr_relaxed (show rest ++ more ≠ [] by simp [ne]),
    methodStart_eq_length spaces (show (13 : UInt8) ≠ 32 by decide)]
  by_cases lf : ((rest ++ more).dropWhile (· = 13)).headD 0 = 10
  · simp only [lf, if_true]
    rw [parseFields, if_pos (by dsimp only; omega)]
    exact ⟨rfl, rfl, rfl⟩
  · simp only [lf, if_false]
    exact ⟨rfl, rfl, rfl⟩

theorem parseVersion_m_start (buf : Bytes) (req : RequestOffsets) (line_end : ℤ) :
    (parseVersion buf req line_end).req.m_start = req.m_start := by
  unfold parseVersion
  dsimp only
  repeat' split
  all_goals rfl

theorem parseUri_m_start (buf : Bytes) (req : RequestOffsets) (track : Track) (line_end : ℤ) :
    (parseUri violations buf req track line_end).req.m_start = req.m_start := by
  unfold parseUri
  dsimp only
  repeat' split
  all_goals first | rfl | exact parseVersion_m_start buf _ line_end

/-- A line that is not blank has a method. -/
theorem parseFields_m_start {buf : Bytes} {req : RequestOffsets} {track : Track} {line_end : ℤ}
    (method : req.start ≤ line_end) :
    (parseFields violations buf req track line_end).req.m_start = req.start := by
  rw [parseFields, if_neg (by omega)]
  dsimp only
  repeat' split
  all_goals first | rfl | exact parseUri_m_start buf _ track line_end

/-- A line with a method is rejected before its LF arrives and looked at afterwards. -/
theorem not_stable_crRun (mode : decide (relaxedHeaderParser ≠ 0) = true)
    (all : ∀ b ∈ plain, isPlain b = true) (ne : rest ≠ [])
    (only_cr : rest.dropWhile (· = 13) = []) (method : ∃ b ∈ plain, b ≠ 32) :
    ¬ Stable relaxedHeaderParser violations (plain ++ 13 :: rest) [10] := by
  intro stable
  have before := @parse_crRun _ violations _ _ mode all ne only_cr
  obtain ⟨_, _, fields⟩ := stable (by simp [before])
  have m_start := congrArg Prod.fst fields
  have lf : (rest ++ [10]).dropWhile (· = 13) = [10] := by
    rw [dropWhile_append, only_cr]
    rfl
  rw [before] at m_start
  simp only [RequestOffsets.fields, parseRequestFirstLine, mode, List.append_assoc,
    cons_append, scanLine_plain all, scanLine_cr_relaxed (show rest ++ [10] ≠ [] by simp), lf,
    headD_cons, if_true] at m_start
  have short := @methodStart_lt_length _ (13 :: (rest ++ [10])) method
  rw [parseFields_m_start (by dsimp only; omega)] at m_start
  dsimp only at m_start
  omega

end Cases

/-- A decided verdict of `parseRequestFirstLine` never changes when more data arrives, except in
the tolerant mode for a line that ends in several CR bytes at the end of the data. -/
theorem stable_iff (relaxedHeaderParser : ℤ) (violations : Bool) (buf : Bytes) :
    (∀ more, Stable relaxedHeaderParser violations buf more) ↔
      ¬ (relaxedHeaderParser ≠ 0 ∧ EndsInCrRun buf) := by
  constructor
  · rintro stable ⟨tolerant, plain, count, rfl, all, method⟩
    rw [replicate_succ] at stable
    exact not_stable_crRun (by simpa using tolerant) all (by simp) (by simp) method (stable [10])
  · intro no_run more
    obtain ⟨plain, rest, rfl, all, rfl | ⟨tail, rfl⟩ | ⟨tail, rfl⟩⟩ := exists_plain buf
    · exact stable_of_needMore rfl all fun _ _ _ => rfl
    · have scan : ∀ more start i track,
          scanLine (relaxedHeaderParser ≠ 0) start i track (10 :: (tail ++ more)) =
            .line (track.see start i 10) (i - 1) (i + 0) := by simp [scanLine]
      exact stable_of_line rfl all (by decide) scan
    · by_cases last : tail = []
      · rw [last]
        exact stable_of_needMore rfl all fun _ _ _ => by simp [scanLine]
      cases mode : decide (relaxedHeaderParser ≠ 0) with
      | false => exact stable_cr_strict mode all last
      | true =>
          by_cases only_cr : tail.dropWhile (· = 13) = []
          · refine stable_crRun_of_spaces mode all last only_cr fun b member => ?_
            by_contra word
            refine no_run ⟨by simpa using mode, plain, tail.length - 1, ?_, all, b, member, word⟩
            have run : tail = List.replicate tail.length 13 :=
              eq_replicate_iff.mpr ⟨rfl, by simpa using only_cr⟩
            have positive := length_pos_iff.mpr last
            rw [show tail.length - 1 + 2 = tail.length + 1 by omega, replicate_succ, ← run]
          · exact stable_cr_relaxed mode all last only_cr

/-- `GET / HTTP/1.1` and two CR bytes. -/
def crRunRequest : Bytes :=
  [71, 69, 84, 32, 47, 32, 72, 84, 84, 80, 47, 49, 46, 49, 13, 13]

theorem not_stable_crRunRequest :
    ¬ ∀ (relaxedHeaderParser : ℤ) (violations : Bool) (buf more : Bytes),
      Stable relaxedHeaderParser violations buf more := by
  intro stable
  have same := stable 1 true crRunRequest [10] (by decide)
  exact absurd same.1 (by decide)

end HttpParser
end Squid
