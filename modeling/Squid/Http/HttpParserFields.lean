import Squid.Http.HttpParserStability

/-!
# The fields of a request line

`parseRequestFirstLine` leaves offsets into the buffer that its callers use unchecked.  They come
from the trackers of the line scan; what these say about the bytes before the terminator decides
where the method, the URI and the version are.
-/

namespace Squid
namespace HttpParser

open CRuntime List

variable {buf : Bytes} {start : ℤ} {track : Track}

/-! ## The line -/

/-- Offset of the last byte before the line terminator. -/
def lineEnd (buf : Bytes) : ℤ := (buf.takeWhile isPlain).length - 1

/-- The terminator of the line: some CR bytes and the LF at `stop`. -/
structure Terminated (buf : Bytes) (stop : ℤ) : Prop where
  /-- The terminator follows the line. -/
  lineEnd_lt : lineEnd buf < stop
  /-- It is in the buffer. -/
  stop_lt : stop < buf.length
  /-- The last byte of the terminator. -/
  lf : byteAt buf stop = 10
  /-- The bytes before. -/
  cr : ∀ i, lineEnd buf < i → i < stop → byteAt buf i = 13

variable {i : ℤ}

/-- The line has neither CR nor LF. -/
theorem isPlain_of_le (nonneg : 0 ≤ i) (le : i ≤ lineEnd buf) : isPlain (byteAt buf i) = true := by
  unfold lineEnd at le
  have inside : i.toNat < (buf.takeWhile isPlain).length := by omega
  have same : byteAt buf i = (buf.takeWhile isPlain)[i.toNat] := by
    have line := takeWhile_prefix (l := buf) isPlain
    rw [byteAt, getD_eq_getElem _ _ (inside.trans_le line.length_le), line.getElem inside]
  rw [same]
  exact mem_takeWhile_imp (getElem_mem inside)

/-! ## The trackers -/

/-- What the trackers say about the bytes before offset `i`. -/
structure Tracks (buf : Bytes) (start i : ℤ) (track : Track) : Prop where
  /-- The last space is before `i`. -/
  last_lt : track.last_whitespace < i
  /-- It is not before the first one. -/
  first_le : track.first_whitespace ≤ track.last_whitespace
  /-- The first space at or after the start. -/
  first : start ≤ track.first_whitespace → byteAt buf track.first_whitespace = 32
  /-- No space is before it. -/
  before : ∀ j, start ≤ j → j < i → start ≤ track.first_whitespace →
    j < track.first_whitespace → byteAt buf j ≠ 32
  /-- Without it there is no space. -/
  none : ∀ j, start ≤ j → j < i → track.first_whitespace < start → byteAt buf j ≠ 32
  /-- The second word does not start with a space. -/
  second : 0 ≤ track.second_word → byteAt buf track.second_word ≠ 32

theorem tracks_initial (buf : Bytes) (nonneg : 0 ≤ start) : Tracks buf start 0 {} where
  last_lt := by decide
  first_le := le_rfl
  first := fun le => by
    dsimp only at le
    omega
  before := fun j _ _ le => by
    dsimp only at le
    omega
  none := fun j ge lt => by omega
  second := fun le => by
    dsimp only at le
    omega

theorem tracks_see (nonneg : 0 ≤ i) (tracks : Tracks buf start i track) :
    Tracks buf start (i + 1) (track.see start i (byteAt buf i)) := by
  obtain ⟨last_lt, first_le, first, before, none, second⟩ := tracks
  by_cases space : byteAt buf i = 32
  · have seen : track.see start i (byteAt buf i) =
        { track with
          last_whitespace := i
          first_whitespace :=
            if track.first_whitespace < start then i else track.first_whitespace } := by
      simp [Track.see, space]
    rw [seen]
    by_cases missing : track.first_whitespace < start
    · simp only [missing, if_true]
      refine ⟨by simp, le_rfl, fun _ => space, ?_, ?_, second⟩
      · intro j ge _ _ lt
        exact none j ge lt missing
      · intro j ge lt below
        dsimp only at below
        omega
    · simp only [missing, if_false]
      refine ⟨by simp, by dsimp only; omega, first, ?_, ?_, second⟩
      · intro j ge _ le lt
        dsimp only at lt
        exact before j ge (by omega) le lt
      · intro j _ _ below
        exact absurd below missing
  · have kept : ∀ second_word, (0 ≤ second_word → byteAt buf second_word ≠ 32) →
        Tracks buf start (i + 1) { track with second_word } := by
      intro second_word word
      refine ⟨by dsimp only; omega, first_le, first, ?_, ?_, word⟩
      · intro j ge lt le below
        dsimp only at below
        exact before j ge (by omega) le below
      · intro j ge lt below
        rcases eq_or_lt_of_le (show j ≤ i by omega) with rfl | earlier
        · exact space
        · exact none j ge earlier below
    simp only [Track.see, space, if_false]
    split
    · exact kept i fun _ => space
    · exact kept track.second_word second

theorem tracks_seeAll {plain rest : Bytes} (done : Bytes) (whole : buf = done ++ plain ++ rest)
    (tracks : Tracks buf start done.length track) :
    Tracks buf start (done.length + plain.length) (track.seeAll start done.length plain) := by
  induction plain generalizing done track with
  | nil => simpa [Track.seeAll] using tracks
  | cons b plain ih =>
      have here : byteAt buf done.length = b := by
        rw [whole, byteAt, Int.toNat_natCast, List.append_assoc,
          getD_append_right _ _ _ _ le_rfl, Nat.sub_self]
        rfl
      have next := tracks_see (by omega) tracks
      rw [here] at next
      have later := ih (done ++ [b]) (by rw [whole]; simp) (by simpa using next)
      simp only [length_append, length_singleton, Nat.cast_add, Nat.cast_one] at later
      rw [Track.seeAll, length_cons]
      push_cast
      rwa [add_comm (plain.length : ℤ), ← add_assoc]

variable {b : UInt8}

/-- Behind a byte that is not white space the second word is known, if there is a space. -/
theorem first_le_see_second (word : b ≠ 32) (text : b ≠ 9) (lt : track.first_whitespace < i) :
    (track.see start i b).first_whitespace ≤ (track.see start i b).second_word := by
  simp only [Track.see, word, if_false]
  split
  · dsimp only
    omega
  · rename_i known
    have : ¬ track.second_word < track.first_whitespace := fun less => known ⟨less, word, text⟩
    omega

/-! ## The scan -/

theorem terminated_of_run {plain run tail : Bytes} (line : lineEnd buf = plain.length - 1)
    (whole : buf = plain ++ (run ++ 10 :: tail)) (cr : ∀ b ∈ run, b = 13) :
    Terminated buf (plain.length + run.length) where
  lineEnd_lt := by omega
  stop_lt := by
    rw [whole]
    simp only [length_append, length_cons]
    omega
  lf := by
    have index : ((plain.length + run.length : ℤ)).toNat = (plain ++ run).length := by
      rw [length_append]
      omega
    rw [byteAt, index, whole, ← List.append_assoc, getD_append_right _ _ _ _ le_rfl, Nat.sub_self]
    rfl
  cr := by
    intro i lt le
    have inside : i.toNat - plain.length < run.length := by omega
    rw [byteAt, whole, getD_append_right _ _ _ _ (by omega), getD_append _ _ _ _ inside,
      getD_eq_getElem _ _ inside]
    exact cr _ (getElem_mem inside)

variable {line_end stop : ℤ}

/-- What the scan finds: the line, its terminator and the trackers behind the line. -/
theorem scanLine_spec {relaxed : Bool} (nonneg : 0 ≤ start)
    (found : scanLine relaxed start 0 {} buf = .line track line_end stop) :
    line_end = lineEnd buf ∧ Terminated buf stop ∧ Tracks buf start (line_end + 2) track ∧
      track.first_whitespace ≤ track.second_word ∧ track.last_whitespace ≤ line_end := by
  obtain ⟨plain, rest, whole, all, ends⟩ := exists_plain buf
  have line : lineEnd buf = plain.length - 1 := by
    rw [lineEnd, whole, takeWhile_append_of_pos all]
    rcases ends with rfl | ⟨tail, rfl⟩ | ⟨tail, rfl⟩ <;> simp [isPlain]
  have seen := @tracks_seeAll buf _ _ plain rest [] whole (tracks_initial buf nonneg)
  simp only [length_nil, Nat.cast_zero, zero_add] at seen
  have behind : ∀ b tail, rest = b :: tail → b ≠ 32 → b ≠ 9 →
      track = (Track.seeAll start 0 {} plain).see start plain.length b →
      Tracks buf start (lineEnd buf + 2) track ∧
        track.first_whitespace ≤ track.second_word ∧ track.last_whitespace ≤ lineEnd buf := by
    rintro b tail rfl word text rfl
    have here : byteAt buf plain.length = b := by
      rw [whole, byteAt, Int.toNat_natCast, getD_append_right _ _ _ _ le_rfl, Nat.sub_self]
      rfl
    have next := tracks_see (by omega) seen
    rw [here] at next
    refine ⟨by rw [line]; convert next using 1; omega, ?_, ?_⟩
    · exact first_le_see_second word text (seen.first_le.trans_lt seen.last_lt)
    · rw [see_last_whitespace word, line]
      have := seen.last_lt
      omega
  rw [whole, scanLine_plain all, zero_add] at found
  rcases ends with rfl | ⟨tail, rfl⟩ | ⟨tail, rfl⟩
  · simp [scanLine] at found
  · simp only [scanLine, if_true, Scan.line.injEq] at found
    obtain ⟨track_eq, rfl, rfl⟩ := found
    have terminated := @terminated_of_run buf plain [] tail line whole (by simp)
    simp only [length_nil, Nat.cast_zero, add_zero] at terminated
    rw [← line]
    exact ⟨rfl, terminated, behind 10 tail rfl (by decide) (by decide) track_eq.symm⟩
  · have ne : tail ≠ [] := by
      rintro rfl
      simp [scanLine] at found
    cases relaxed with
    | true =>
        rw [scanLine_cr_relaxed ne] at found
        split at found
        · rename_i lf
          simp only [Scan.line.injEq] at found
          obtain ⟨track_eq, rfl, rfl⟩ := found
          obtain ⟨c, after, stop⟩ := exists_cons_of_ne_nil
            (show tail.dropWhile (· = 13) ≠ [] by
              intro none
              simp [none] at lf)
          have zero : c = 10 := by simpa [stop] using lf
          have split := takeWhile_append_dropWhile (p := (· = 13)) (l := tail)
          rw [stop, zero] at split
          have terminated := @terminated_of_run buf plain (13 :: tail.takeWhile (· = 13)) after line
            (by rw [whole, cons_append, split]) (by
              intro b member
              rcases mem_cons.mp member with rfl | inside
              · rfl
              · simpa using mem_takeWhile_imp inside)
          rw [length_cons, Nat.cast_add, Nat.cast_one, ← add_assoc] at terminated
          rw [← line]
          exact ⟨rfl, terminated, behind 13 tail rfl (by decide) (by decide) track_eq.symm⟩
        · simp at found
    | false =>
        have strict := scanLine_cr_strict [] ne start plain.length
          (Track.seeAll start 0 {} plain)
        rw [List.append_nil] at strict
        rw [strict] at found
        split at found
        · rename_i lf
          simp only [Scan.line.injEq] at found
          obtain ⟨track_eq, rfl, rfl⟩ := found
          obtain ⟨c, after, rfl⟩ := exists_cons_of_ne_nil ne
          have zero : c = 10 := by simpa using lf
          rw [zero] at whole
          have terminated := @terminated_of_run buf plain [13] after line whole (by simp)
          rw [← line]
          exact ⟨rfl, terminated, behind 13 _ rfl (by decide) (by decide) track_eq.symm⟩
        · simp at found

/-! ## Accepted lines -/

theorem cropUri_le (u_end : ℤ) (count : ℕ) : cropUri buf u_end count ≤ u_end := by
  induction count generalizing u_end with
  | zero => exact le_rfl
  | succ count ih =>
      rw [cropUri]
      split
      · have := ih (u_end - 1)
        omega
      · exact le_rfl

variable {req : RequestOffsets} {violations : Bool}

/-- The ways to accept a URI: without a version, with another protocol, and with `HTTP/`. -/
theorem parseUri_cases (accepted : (parseUri violations buf req track line_end).verdict = 1) :
    (parseUri violations buf req track line_end).req =
        { req with u_start := track.second_word, u_end := line_end, v_maj := 0, v_min := 9 } ∨
      track.last_whitespace < line_end ∧ ∃ u_end, track.second_word ≤ u_end ∧
        u_end ≤ track.last_whitespace ∧
        ((line_end - track.last_whitespace < 5 ∨
            isHttpMark buf (track.last_whitespace + 1) = false) ∧
          (parseUri violations buf req track line_end).req =
            { req with
              u_start := track.second_word, u_end := line_end
              v_start := track.last_whitespace + 1, v_end := line_end, v_maj := 0, v_min := 9 } ∨
          5 ≤ line_end - track.last_whitespace ∧
          isHttpMark buf (track.last_whitespace + 1) = true ∧
          parseUri violations buf req track line_end =
            parseVersion buf
              { req with
                u_start := track.second_word, u_end := u_end
                v_start := track.last_whitespace + 1, v_end := line_end } line_end) := by
  unfold parseUri at accepted ⊢
  dsimp only at accepted ⊢
  by_cases old : track.last_whitespace < track.second_word ∧ track.last_whitespace ≥ req.start
  · rw [if_pos old]
    exact .inl rfl
  rw [if_neg old] at accepted ⊢
  have cropped := @cropUri_le buf track.last_whitespace
    (track.last_whitespace - track.second_word + 1).toNat
  generalize cropUri buf track.last_whitespace
    (track.last_whitespace - track.second_word + 1).toNat = u_end at accepted cropped ⊢
  split at accepted
  · simp at accepted
  rename_i someUri
  rw [if_neg someUri]
  split at accepted
  · simp at accepted
  rename_i version
  rw [if_neg version]
  refine .inr ⟨by omega, u_end, by omega, cropped, ?_⟩
  split at accepted
  · rename_i other
    split at accepted
    · rename_i lax
      refine .inl ⟨?_, by rw [if_pos other, if_pos lax]⟩
      rcases other with short | unmarked
      · exact .inl (by omega)
      · exact .inr (by simpa using unmarked)
    · simp at accepted
  · rename_i known
    rw [if_neg known]
    simp only [not_or, not_not] at known
    exact .inr ⟨by omega, known.2, rfl⟩

/-- What an accepted line has before the version. -/
theorem parseFields_cases (accepted : (parseFields violations buf req track line_end).verdict = 1) :
    req.start ≤ track.first_whitespace - 1 ∧ track.second_word ≤ line_end ∧
      req.start ≤ track.second_word ∧
      parseFields violations buf req track line_end =
        parseUri violations buf
          { req with m_start := req.start, m_end := track.first_whitespace - 1 } track
          line_end := by
  unfold parseFields at accepted ⊢
  dsimp only at accepted ⊢
  split at accepted
  · simp at accepted
  rename_i method
  rw [if_neg method]
  split at accepted
  · simp at accepted
  rename_i space
  rw [if_neg space]
  split at accepted
  · simp at accepted
  rename_i some
  rw [if_neg some]
  split at accepted
  · simp at accepted
  rename_i word
  rw [if_neg word]
  exact ⟨by omega, by omega, by omega, rfl⟩

/-- The numbers are all that parsing the version changes. -/
theorem parseVersion_req (req : RequestOffsets) (line_end : ℤ) :
    ∃ v_maj v_min, (parseVersion buf req line_end).req = { req with v_maj, v_min } := by
  unfold parseVersion
  dsimp only
  repeat' split
  all_goals exact ⟨_, _, rfl⟩

section Accepted

variable {relaxedHeaderParser : ℤ} {violations : Bool}

/-- An accepted request line and its trackers. -/
theorem parseRequestFirstLine_cases
    (accepted : (parseRequestFirstLine relaxedHeaderParser violations buf).verdict = 1) :
    ∃ start stop track, 0 ≤ start ∧ Terminated buf stop ∧
      Tracks buf start (lineEnd buf + 2) track ∧
      track.first_whitespace ≤ track.second_word ∧ track.last_whitespace ≤ lineEnd buf ∧
      start ≤ track.first_whitespace - 1 ∧ track.second_word ≤ lineEnd buf ∧
      start ≤ track.second_word ∧
      parseRequestFirstLine relaxedHeaderParser violations buf =
        parseUri violations buf
          { start, stop, m_start := start, m_end := track.first_whitespace - 1 } track
          (lineEnd buf) := by
  unfold parseRequestFirstLine at accepted ⊢
  dsimp only at accepted ⊢
  generalize decide (relaxedHeaderParser ≠ 0) = relaxed at accepted ⊢
  generalize methodStart relaxed buf = count at accepted ⊢
  cases found : scanLine relaxed count 0 {} buf with
  | needMore | reject =>
      rw [found] at accepted
      exact absurd accepted (by dsimp only; omega)
  | line track line_end stop =>
      obtain ⟨rfl, terminated, tracks, second, last⟩ := scanLine_spec (by omega) found
      simp only [found] at accepted ⊢
      obtain ⟨method, word, after, parsed⟩ := parseFields_cases accepted
      exact ⟨count, stop, track, by omega, terminated, tracks, second, last, method, word, after,
        parsed⟩

end Accepted

/-! ## The fields -/

/-- The offsets of an accepted line. -/
structure WellFormed (buf : Bytes) (req : RequestOffsets) : Prop where
  /-- The method is where the request starts. -/
  start : 0 ≤ req.start ∧ req.m_start = req.start
  /-- The method is not empty. -/
  method : req.m_start ≤ req.m_end
  /-- The URI is behind the method. -/
  uri_after : req.m_end < req.u_start
  /-- The URI is not empty. -/
  uri : req.u_start ≤ req.u_end
  /-- It is in the line. -/
  uri_inside : req.u_end ≤ lineEnd buf
  /-- The terminator of the line ends at `stop`. -/
  terminated : Terminated buf req.stop
  /-- The method has no space, CR or LF. -/
  method_bytes : ∀ i, req.m_start ≤ i → i ≤ req.m_end →
    byteAt buf i ≠ 32 ∧ byteAt buf i ≠ 13 ∧ byteAt buf i ≠ 10
  /-- The URI has no CR or LF. -/
  uri_bytes : ∀ i, req.u_start ≤ i → i ≤ req.u_end → byteAt buf i ≠ 13 ∧ byteAt buf i ≠ 10
  /-- A space follows the method. -/
  separator : byteAt buf (req.m_end + 1) = 32
  /-- A version other than `0.9` is the rest of the line behind the URI. -/
  version : ¬ (req.v_maj = 0 ∧ req.v_min = 9) →
    req.u_end < req.v_start ∧ req.v_start ≤ req.v_end ∧ req.v_end = lineEnd buf

/-- Where the URI and the version of an accepted line are. -/
theorem parseUri_spec (accepted : (parseUri violations buf req track line_end).verdict = 1)
    (word : track.second_word ≤ line_end) :
    ∃ u_end v_start v_end v_maj v_min,
      (parseUri violations buf req track line_end).req =
        { req with u_start := track.second_word, u_end, v_start, v_end, v_maj, v_min } ∧
      track.second_word ≤ u_end ∧ u_end ≤ line_end ∧
      (¬ (v_maj = 0 ∧ v_min = 9) → u_end < v_start ∧ v_start ≤ v_end ∧ v_end = line_end) := by
  obtain old | ⟨before, u_end, some, cropped, ⟨-, other⟩ | ⟨-, -, http⟩⟩ :=
    parseUri_cases accepted
  · exact ⟨_, _, _, _, _, old, word, le_rfl, fun version => absurd ⟨rfl, rfl⟩ version⟩
  · exact ⟨_, _, _, _, _, other, word, le_rfl, fun version => absurd ⟨rfl, rfl⟩ version⟩
  · obtain ⟨v_maj, v_min, numbers⟩ := @parseVersion_req buf
      { req with
        u_start := track.second_word, u_end := u_end
        v_start := track.last_whitespace + 1, v_end := line_end } line_end
    refine ⟨_, _, _, _, _, by rw [http]; exact numbers, some, by omega, fun _ => ?_⟩
    exact ⟨by dsimp only; omega, by dsimp only; omega, rfl⟩

/-- The field spans of every accepted request line are well formed. -/
theorem wellFormed_of_accepted (relaxedHeaderParser : ℤ) (violations : Bool) (buf : Bytes)
    (accepted : (parseRequestFirstLine relaxedHeaderParser violations buf).verdict = 1) :
    WellFormed buf (parseRequestFirstLine relaxedHeaderParser violations buf).req := by
  obtain ⟨start, stop, track, nonneg, terminated, tracks, second, last, method, word, after,
    parsed⟩ := parseRequestFirstLine_cases accepted
  rw [parsed] at accepted ⊢
  obtain ⟨u_end, v_start, v_end, v_maj, v_min, fields, uri, inside, version⟩ :=
    parseUri_spec accepted word
  rw [fields]
  have space := tracks.first (by omega)
  have apart : track.first_whitespace ≠ track.second_word := by
    intro same
    exact tracks.second (by omega) (same ▸ space)
  have plain : ∀ i, 0 ≤ i → i ≤ lineEnd buf → byteAt buf i ≠ 13 ∧ byteAt buf i ≠ 10 := by
    intro i ge le
    simpa [isPlain] using isPlain_of_le ge le
  refine ⟨⟨nonneg, rfl⟩, method, ?_, uri, inside, terminated, ?_, ?_, ?_, version⟩
  · change track.first_whitespace - 1 < track.second_word
    omega
  · intro i ge le
    change start ≤ i at ge
    change i ≤ track.first_whitespace - 1 at le
    exact ⟨tracks.before i ge (by omega) (by omega) (by omega), plain i (by omega) (by omega)⟩
  · intro i ge le
    change track.second_word ≤ i at ge
    change i ≤ u_end at le
    exact plain i (by omega) (by omega)
  · change byteAt buf (track.first_whitespace - 1 + 1) = 32
    rw [sub_add_cancel]
    exact space

/-- `GET / HTTP/1.1` behind two spaces, with two CR bytes before the LF. -/
def looseRequest : Bytes :=
  [32, 32, 71, 69, 84, 32, 47, 32, 72, 84, 84, 80, 47, 49, 46, 49, 13, 13, 10]

theorem wellFormed_looseRequest :
    WellFormed looseRequest (parseRequestFirstLine 1 false looseRequest).req :=
  wellFormed_of_accepted 1 false looseRequest (by decide)

/-! ## The version -/

theorem getD_digitValue (digit : isDigit 10 b = true) :
    (((digitValue 10 b).getD 0 : ℕ) : ℤ) = b.toNat - 48 := by
  have range := (isDigit_ten_iff b).mp digit
  have inside : 48 ≤ b ∧ b ≤ 57 := by
    simpa only [UInt8.le_iff_toNat_le, UInt8.reduceToNat] using range
  have small : b.toNat - 48 < 10 := by omega
  simp only [digitValue, if_pos inside, Option.filter_some, decide_eq_true small, if_true,
    Option.getD_some]
  omega

theorem byteAt_eq_headD (i : ℤ) : byteAt buf i = (buf.drop i.toNat).headD 0 := by
  rw [byteAt, headD_eq_head?_getD, List.head?_drop, getD_eq_getElem?_getD]

/-- A number is read from some digits, and the reading stops for a reason. -/
theorem parseNumber_spec (count : ℕ) {i : ℤ} (nonneg : 0 ≤ i) (value : ℕ) :
    ∃ digits rest, buf.drop i.toNat = digits ++ rest ∧ (∀ b ∈ digits, isDigit 10 b = true) ∧
      digits.length ≤ count ∧
      parseNumber buf i value count =
        (i + digits.length,
          ((digits.foldl (fun value b => value * 10 + (digitValue 10 b).getD 0) value : ℕ) : ℤ)) ∧
      (digits.length = count ∨ isDigit 10 (rest.headD 0) = false ∨
        65536 ≤ (parseNumber buf i value count).2) := by
  induction count generalizing i value with
  | zero => exact ⟨[], buf.drop i.toNat, rfl, by simp, le_rfl, by simp [parseNumber], .inl rfl⟩
  | succ count ih =>
      rw [parseNumber]
      split
      · rename_i more
        obtain ⟨digit, small⟩ := more
        have inside : i.toNat < buf.length := by
          by_contra outside
          rw [byteAt, getD_eq_default _ _ (by omega)] at digit
          exact absurd digit (by decide)
        have here : buf.drop i.toNat = byteAt buf i :: buf.drop (i + 1).toNat := by
          rw [drop_eq_getElem_cons inside, byteAt, getD_eq_getElem _ _ inside,
            show (i + 1).toNat = i.toNat + 1 by omega]
        have step : (value : ℤ) * 10 + ((byteAt buf i).toNat - 48) =
            (value * 10 + (digitValue 10 (byteAt buf i)).getD 0 : ℕ) := by
          push_cast
          rw [getD_digitValue digit]
        rw [step]
        obtain ⟨digits, rest, split, all, bound, read, stop⟩ :=
          @ih (i + 1) (by omega) (value * 10 + (digitValue 10 (byteAt buf i)).getD 0)
        refine ⟨byteAt buf i :: digits, rest, by rw [here, split, cons_append], ?_, ?_, ?_, ?_⟩
        · intro b member
          rcases mem_cons.mp member with rfl | later
          · exact digit
          · exact all b later
        · rw [length_cons]
          omega
        · rw [read, length_cons, foldl_cons, Nat.cast_add, Nat.cast_one, add_assoc,
            add_comm (1 : ℤ)]
        · rw [length_cons]
          rcases stop with all_read | other
          · exact .inl (by omega)
          · exact .inr other
      · rename_i stop
        refine ⟨[], buf.drop i.toNat, rfl, by simp, Nat.zero_le _, by simp, .inr ?_⟩
        rw [← byteAt_eq_headD]
        by_cases digit : isDigit 10 (byteAt buf i) = true
        · refine .inr ?_
          have : ¬ (value : ℤ) < 65536 := fun less => stop ⟨digit, less⟩
          omega
        · exact .inl (by simpa using digit)

/-- A number that starts with a digit ends behind its digits, or is too big. -/
theorem parseNumber_number {i line_end : ℤ} (nonneg : 0 ≤ i) (inside : i ≤ line_end)
    (digit : isDigit 10 (byteAt buf i) = true) :
    ∃ digits rest, buf.drop i.toNat = digits ++ rest ∧ digits ≠ [] ∧
      (∀ b ∈ digits, isDigit 10 b = true) ∧ i + digits.length ≤ line_end + 1 ∧
      parseNumber buf i 0 (line_end - i + 1).toNat =
        (i + digits.length, (magnitude 10 digits : ℤ)) ∧
      (i + digits.length = line_end + 1 ∨ isDigit 10 (rest.headD 0) = false ∨
        65536 ≤ (magnitude 10 digits : ℤ)) := by
  obtain ⟨digits, rest, split, all, bound, read, stop⟩ :=
    @parseNumber_spec buf (line_end - i + 1).toNat i nonneg 0
  have read : parseNumber buf i 0 (line_end - i + 1).toNat =
      (i + digits.length, (magnitude 10 digits : ℤ)) := read
  rw [Nat.cast_zero, read] at stop
  refine ⟨digits, rest, split, ?_, all, by omega, read, ?_⟩
  · rintro rfl
    rw [byteAt_eq_headD, split] at digit
    rcases stop with whole | other | big
    · rw [length_nil] at whole
      omega
    · exact absurd digit (by simpa using other)
    · simp [magnitude] at big
  · rcases stop with whole | other
    · exact .inl (by omega)
    · exact .inr other

/-- The bytes from one offset to another. -/
def span (buf : Bytes) (first last : ℤ) : Bytes :=
  (buf.drop first.toNat).take (last + 1 - first).toNat

/-- The version is `mark`, digits, a dot and digits, and the numbers are what the digits say. -/
def HasVersion (mark buf : Bytes) (req : RequestOffsets) : Prop :=
  ∃ major minor, span buf req.v_start req.v_end = mark ++ major ++ 46 :: minor ∧
    major ≠ [] ∧ minor ≠ [] ∧ (∀ b ∈ major, isDigit 10 b = true) ∧
    (∀ b ∈ minor, isDigit 10 b = true) ∧
    req.v_maj = magnitude 10 major ∧ req.v_min = magnitude 10 minor ∧
    req.v_maj < 65536 ∧ req.v_min < 65536

/-- The first number has a digit. -/
theorem digit_of_parseVersion (accepted : (parseVersion buf req line_end).verdict = 1) :
    isDigit 10 (byteAt buf (req.v_start + 5)) = true := by
  by_contra plain
  simp [parseVersion, plain] at accepted

/-- An accepted version: the digits of both numbers, and at most one byte behind them. -/
theorem parseVersion_spec (nonneg : 0 ≤ req.v_start) (inside : req.v_start + 5 ≤ line_end)
    (accepted : (parseVersion buf req line_end).verdict = 1) :
    ∃ major minor rest, buf.drop (req.v_start + 5).toNat = major ++ 46 :: (minor ++ rest) ∧
      major ≠ [] ∧ minor ≠ [] ∧ (∀ b ∈ major, isDigit 10 b = true) ∧
      (∀ b ∈ minor, isDigit 10 b = true) ∧ magnitude 10 major < 65536 ∧
      magnitude 10 minor < 65536 ∧
      (parseVersion buf req line_end).req =
        { req with v_maj := magnitude 10 major, v_min := magnitude 10 minor } ∧
      (req.v_start + 5 + major.length + 1 + minor.length = line_end + 1 ∨
        req.v_start + 5 + major.length + 1 + minor.length = line_end ∧
          isDigit 10 (rest.headD 0) = false) := by
  have first := digit_of_parseVersion accepted
  unfold parseVersion at accepted ⊢
  dsimp only at accepted ⊢
  rw [if_neg (by simpa using first)] at accepted ⊢
  obtain ⟨major, after, split, some, all, bound, read, stop⟩ :=
    @parseNumber_number buf (req.v_start + 5) line_end (by omega) inside first
  rw [read] at accepted ⊢
  dsimp only at accepted ⊢
  split at accepted
  · simp at accepted
  rename_i fits
  rw [if_neg fits]
  split at accepted
  · simp at accepted
  rename_i dot
  rw [if_neg dot]
  split at accepted
  · simp at accepted
  rename_i second
  rw [if_neg second]
  split at accepted
  · simp at accepted
  rename_i digit
  rw [if_neg digit]
  obtain ⟨minor, rest, split', some', all', bound', read', stop'⟩ :=
    @parseNumber_number buf (req.v_start + 5 + major.length + 1) line_end (by omega)
      (by omega) (by simpa using digit)
  rw [read'] at accepted ⊢
  dsimp only at accepted ⊢
  split at accepted
  · simp at accepted
  rename_i fits'
  rw [if_neg fits']
  have next : after = 46 :: (minor ++ rest) := by
    have drop : after = buf.drop (req.v_start + 5 + major.length).toNat := by
      rw [show (req.v_start + 5 + major.length).toNat = (req.v_start + 5).toNat + major.length by
        omega, ← drop_drop, split, drop_left]
    have head : after.headD 0 = 46 := by
      rw [drop, ← byteAt_eq_headD]
      simpa using dot
    cases after with
    | nil => exact absurd head (by decide)
    | cons b after =>
        have same : b = 46 := head
        rw [show req.v_start + 5 + major.length + 1 = req.v_start + 5 + major.length + (1 : ℕ) by
          simp, Int.toNat_add (by omega) (by omega), Int.toNat_natCast, ← drop_drop, ← drop]
          at split'
        rw [same, ← split']
        rfl
  refine ⟨major, minor, rest, by rw [split, next], some, some', all, all', by omega, by omega, rfl,
    ?_⟩
  rcases stop' with whole | other | big
  · exact .inl whole
  · by_cases whole : req.v_start + 5 + major.length + 1 + minor.length = line_end + 1
    · exact .inl whole
    · exact .inr ⟨by omega, other⟩
  · omega

/-- The mark may be in any case. -/
def IsMark (mark : Bytes) : Prop := mark.map toLower = [104, 116, 116, 112, 47]

variable {mark : Bytes}

theorem IsMark.length (http : IsMark mark) : mark.length = 5 := by
  simpa using congrArg List.length http

/-- A lower-case letter comes from itself or from its capital. -/
theorem of_toLower {c : UInt8} (same : toLower b = c) :
    b.toNat = c.toNat ∨ 65 ≤ b.toNat ∧ b.toNat ≤ 90 ∧ b.toNat + 32 = c.toNat := by
  simp only [toLower, UInt8.le_iff_toNat_le, UInt8.reduceToNat] at same
  split at same
  · refine .inr ⟨by omega, by omega, ?_⟩
    rw [← same, UInt8.toNat_add]
    change _ = (b.toNat + 32) % 256
    omega
  · exact .inl (congrArg UInt8.toNat same)

variable {v_start : ℤ}

/-- The bytes of a mark. -/
theorem IsMark.byteAt (http : IsMark mark) (nonneg : 0 ≤ v_start)
    (begins : mark <+: buf.drop v_start.toNat) (k : ℕ) (lt : k < 5) :
    toLower (HttpParser.byteAt buf (v_start + k)) = [104, 116, 116, 112, 47].getD k 0 := by
  have inside : k < mark.length := by
    rw [http.length]
    exact lt
  obtain ⟨rest, split⟩ := begins
  have here : HttpParser.byteAt buf (v_start + k) = mark.getD k 0 := by
    rw [HttpParser.byteAt, Int.toNat_add nonneg (by omega), Int.toNat_natCast,
      getD_eq_getElem?_getD, ← List.getElem?_drop, ← split, List.getElem?_append_left inside,
      ← getD_eq_getElem?_getD]
  rw [here, ← http]
  exact (List.getD_map (n := k) mark 0 toLower).symm

/-- A mark is found. -/
theorem IsMark.found (http : IsMark mark) (nonneg : 0 ≤ v_start)
    (begins : mark <+: buf.drop v_start.toNat) : isHttpMark buf v_start = true := by
  have h := of_toLower (http.byteAt nonneg begins 0 (by decide))
  have t := of_toLower (http.byteAt nonneg begins 1 (by decide))
  have t' := of_toLower (http.byteAt nonneg begins 2 (by decide))
  have p := of_toLower (http.byteAt nonneg begins 3 (by decide))
  have slash := of_toLower (http.byteAt nonneg begins 4 (by decide))
  simp only [Nat.cast_zero, add_zero, Nat.cast_one, Nat.cast_ofNat, getD_cons_zero,
    getD_cons_succ, UInt8.reduceToNat] at h t t' p slash
  simp only [isHttpMark, Bool.and_eq_true, Bool.or_eq_true, decide_eq_true_eq,
    ← UInt8.toNat_inj, UInt8.reduceToNat]
  omega

theorem Terminated.next (terminated : Terminated buf stop) :
    byteAt buf (lineEnd buf + 1) = 13 ∨ byteAt buf (lineEnd buf + 1) = 10 := by
  have before := terminated.lineEnd_lt
  by_cases last : lineEnd buf + 1 = stop
  · rw [last]
    exact .inr terminated.lf
  · exact .inl (terminated.cr _ (by omega) (by omega))

/-- A mark does not reach into the terminator of the line. -/
theorem IsMark.short (http : IsMark mark) (nonneg : 0 ≤ v_start)
    (begins : mark <+: buf.drop v_start.toNat) (terminated : Terminated buf stop)
    (before : v_start ≤ lineEnd buf) : v_start + 4 ≤ lineEnd buf := by
  by_contra reaches
  obtain ⟨k, offset⟩ := Int.eq_ofNat_of_zero_le (show 0 ≤ lineEnd buf + 1 - v_start by omega)
  have inside : k < 5 := by omega
  have letter := http.byteAt nonneg begins k inside
  rw [show v_start + k = lineEnd buf + 1 by omega] at letter
  rcases terminated.next with cr | lf
  · rw [cr] at letter
    exact absurd letter ((by decide :
      ∀ k < 5, toLower 13 ≠ ([104, 116, 116, 112, 47] : Bytes).getD k 0) k inside)
  · rw [lf] at letter
    exact absurd letter ((by decide :
      ∀ k < 5, toLower 10 ≠ ([104, 116, 116, 112, 47] : Bytes).getD k 0) k inside)

/-- The last byte of a span. -/
theorem getLastD_span {first last : ℤ} (nonneg : 0 ≤ first) (le : first ≤ last)
    (inside : last < buf.length) : (span buf first last).getLast? = some (byteAt buf last) := by
  have index : first.toNat + ((last + 1 - first).toNat - 1) = last.toNat := by omega
  have here : last.toNat < buf.length := by omega
  rw [span, List.getLast?_take, if_neg (by omega), List.getElem?_drop, index,
    List.getElem?_eq_getElem here, byteAt, getD_eq_getElem _ _ here]
  rfl

/-- A version ends in a digit. -/
theorem HasVersion.digit (version : HasVersion mark buf req) (nonneg : 0 ≤ req.v_start)
    (le : req.v_start ≤ req.v_end) (inside : req.v_end < buf.length) :
    isDigit 10 (byteAt buf req.v_end) = true := by
  obtain ⟨major, minor, whole, -, some, -, all, -⟩ := version
  have last := getLastD_span nonneg le inside
  obtain ⟨front, b, rfl⟩ := (eq_nil_or_concat minor).resolve_left some
  rw [whole, concat_eq_append, ← cons_append, ← List.append_assoc, List.getLast?_concat] at last
  rw [← Option.some.inj last]
  exact all b (by simp)

/--
An accepted request line with `HTTP/` has a version, and the version is what the numbers say, if
and only if the last byte of the line is a digit.
-/
theorem hasVersion_iff {mark : Bytes} (http : IsMark mark) (relaxedHeaderParser : ℤ)
    (violations : Bool) (buf : Bytes)
    (accepted : (parseRequestFirstLine relaxedHeaderParser violations buf).verdict = 1)
    (found : 0 ≤ (parseRequestFirstLine relaxedHeaderParser violations buf).req.v_start)
    (begins : mark <+:
      buf.drop (parseRequestFirstLine relaxedHeaderParser violations buf).req.v_start.toNat) :
    HasVersion mark buf (parseRequestFirstLine relaxedHeaderParser violations buf).req ↔
      isDigit 10 (byteAt buf (lineEnd buf)) = true := by
  obtain ⟨start, stop, track, nonneg, terminated, tracks, second, last, method, word, after,
    parsed⟩ := parseRequestFirstLine_cases accepted
  rw [parsed] at accepted found begins ⊢
  have first := tracks.first_le
  have stop_lt := terminated.stop_lt
  have lineEnd_lt := terminated.lineEnd_lt
  obtain old | ⟨before, u_end, some, cropped, ⟨other, lax⟩ | ⟨long, -, numbers⟩⟩ :=
    parseUri_cases accepted
  · rw [old] at found
    exact absurd (show (0 : ℤ) ≤ -1 from found) (by decide)
  · rw [lax] at begins
    rcases other with short | unmarked
    · have := http.short (show 0 ≤ track.last_whitespace + 1 by omega) begins terminated
        (by omega)
      omega
    · have marked := http.found (show 0 ≤ track.last_whitespace + 1 by omega) begins
      exact absurd marked (by rw [unmarked]; decide)
  · rw [numbers] at accepted begins ⊢
    have inside : track.last_whitespace + 1 + 5 ≤ lineEnd buf := by
      by_contra reaches
      have last_byte : track.last_whitespace + 1 + 5 = lineEnd buf + 1 := by omega
      have digit := digit_of_parseVersion accepted
      dsimp only at digit
      rw [last_byte] at digit
      rcases terminated.next with cr | lf
      · rw [cr] at digit
        exact absurd digit (by decide)
      · rw [lf] at digit
        exact absurd digit (by decide)
    obtain ⟨major, minor, rest, split, some, some', all, all', small, small', fields, ends⟩ :=
      parseVersion_spec (by dsimp only; omega) inside accepted
    dsimp only at split ends
    rw [fields] at begins ⊢
    obtain ⟨tail, whole⟩ := begins
    dsimp only at whole
    have behind : tail = major ++ 46 :: (minor ++ rest) := by
      rw [← split, Int.toNat_add (by omega) (by decide), ← drop_drop, ← whole,
        show (5 : ℤ).toNat = mark.length by rw [http.length]; rfl, drop_left]
    have joined : mark ++ tail = (mark ++ major ++ 46 :: minor) ++ rest := by simp [behind]
    constructor
    · intro version
      exact version.digit (by dsimp only; omega) (by dsimp only; omega) (by dsimp only; omega)
    · intro digit
      have ends : track.last_whitespace + 1 + 5 + major.length + 1 + minor.length =
          lineEnd buf + 1 := by
        rcases ends with exact_end | ⟨garbage, plain⟩
        · exact exact_end
        · have start : (lineEnd buf).toNat = (track.last_whitespace + 1).toNat +
              (mark ++ major ++ 46 :: minor).length := by
            simp only [length_append, length_cons, http.length]
            omega
          rw [byteAt_eq_headD, start, ← drop_drop, ← whole, joined, drop_left] at digit
          exact absurd digit (by rw [plain]; decide)
      refine ⟨major, minor, ?_, some, some', all, all', rfl, rfl, by dsimp only; omega,
        by dsimp only; omega⟩
      have length : (lineEnd buf + 1 - (track.last_whitespace + 1)).toNat =
          (mark ++ major ++ 46 :: minor).length := by
        simp only [length_append, length_cons, http.length]
        omega
      dsimp only [span]
      rw [length, ← whole, joined, take_left]

/-- `GET / HTTP/1.1` and LF. -/
def plainRequest : Bytes := [71, 69, 84, 32, 47, 32, 72, 84, 84, 80, 47, 49, 46, 49, 10]

theorem hasVersion_plainRequest :
    HasVersion [72, 84, 84, 80, 47] plainRequest
      (parseRequestFirstLine 1 false plainRequest).req :=
  (@hasVersion_iff [72, 84, 84, 80, 47] rfl 1 false plainRequest (by decide) (by decide)
    (by decide)).mpr (by decide)

/-- `GET / HTTP/1.1x` and LF. -/
def garbageRequest : Bytes := [71, 69, 84, 32, 47, 32, 72, 84, 84, 80, 47, 49, 46, 49, 120, 10]

/-- A byte behind the version is accepted as a part of it. -/
theorem not_hasVersion_garbageRequest :
    (parseRequestFirstLine 0 false garbageRequest).verdict = 1 ∧
      (parseRequestFirstLine 0 false garbageRequest).req.v_start = 6 ∧
      [72, 84, 84, 80, 47] <+: garbageRequest.drop 6 ∧
      ¬ HasVersion [72, 84, 84, 80, 47] garbageRequest
        (parseRequestFirstLine 0 false garbageRequest).req := by
  refine ⟨by decide, by decide, by decide, ?_⟩
  intro version
  exact absurd (version.digit (by decide) (by decide) (by decide)) (by decide)

end HttpParser
end Squid
