import Squid.Http.HttpReply
import Squid.Library.Outcome

/-!
# Reply headers do not depend on the body that follows

The two searches for the end of the headers agree: behind the start line the automaton of
`headersEnd` is in the state in which the second search starts, and where a bare carriage return
ends the start line the next byte brings both to the same state.  The C string functions that read
the status line stop within it, because a digit stands behind its spaces.
-/

namespace Squid

open CRuntime HttpReply List

/-! ## Numbers in a longer string -/

section Strings

variable {s t : Bytes} {c : UInt8}

/-- Neither white space nor a sign. -/
def Starts (x : UInt8) : Prop := isSpace x = false ∧ x ≠ 45 ∧ x ≠ 43

variable {blanks : Bytes} {x : UInt8}

theorem strtoll_start (spaces : ∀ b ∈ blanks, isSpace b = true) (starts : Starts x) :
    strtoll 10 (blanks ++ x :: s) =
      if (x :: s).takeWhile (isDigit 10) = [] then (0, blanks ++ x :: s)
      else (saturate false (magnitude 10 ((x :: s).takeWhile (isDigit 10))),
        (x :: s).dropWhile (isDigit 10)) := by
  have dropped : (blanks ++ x :: s).dropWhile isSpace = x :: s := by
    rw [dropWhile_append_of_pos spaces, dropWhile_cons_of_neg (by simp [starts.1])]
  simp only [strtoll, dropped, skipSign_of_ne _ starts.2.1 starts.2.2,
    skipHexMark_of_ne (show (10 : ℕ) ≠ 16 by decide), lt_irrefl, if_false]

/-- A number is read in the same way when more follows behind a byte that is no digit. -/
theorem strtoll_append (spaces : ∀ b ∈ blanks, isSpace b = true) (starts : Starts x)
    (stop : isDigit 10 c = false) :
    strtoll 10 (blanks ++ x :: s ++ c :: t) =
      ((strtoll 10 (blanks ++ x :: s)).1, (strtoll 10 (blanks ++ x :: s)).2 ++ c :: t) := by
  rw [List.append_assoc, cons_append, strtoll_start spaces starts,
    strtoll_start spaces starts, ← cons_append, takeWhile_stop stop, dropWhile_stop stop]
  split
  · exact congrArg (Prod.mk 0) (List.append_assoc blanks (x :: s) (c :: t)).symm
  · rfl

theorem scanInt_append (spaces : ∀ b ∈ blanks, isSpace b = true) (starts : Starts x)
    (stop : isDigit 10 c = false) :
    scanInt (blanks ++ x :: s ++ c :: t) =
      (scanInt (blanks ++ x :: s)).map fun scanned => (scanned.1, scanned.2 ++ c :: t) := by
  simp only [scanInt, strtoll_append spaces starts stop, @length_append _ _ (c :: t),
    Nat.add_right_cancel_iff]
  split <;> rfl

end Strings

/-! ## The status line -/

theorem starts_of_digit {d : UInt8} (digit : isDigit 10 d = true) : Starts d :=
  plain_of_isDigit digit

variable {x : UInt8}

theorem starts_of_inVersion (version : inVersion x = true) : Starts x := by
  rcases (Bool.or_eq_true _ _).mp version with dot | digit
  · rw [eq_of_beq dot]
    exact ⟨rfl, by decide, by decide⟩
  · exact starts_of_digit digit

theorem inLine_of_inVersion (version : inVersion x = true) : inLine x = true := by
  rcases (Bool.or_eq_true _ _).mp version with dot | digit
  · rw [eq_of_beq dot]
    decide
  · rw [isDigit_ten_iff] at digit
    simp only [inLine, Bool.and_eq_true, bne_iff_ne, ne_eq, ← UInt8.toNat_inj, UInt8.reduceToNat]
    omega

/--
What a checked start line has behind the protocol: version numbers, spaces and a status that starts
with a digit.
-/
structure StatusText where
  version : Bytes
  spaces : Bytes
  digit : UInt8
  reason : Bytes
  version_ne : version ≠ []
  inVersion : ∀ c ∈ version, inVersion c = true
  spaces_ne : spaces ≠ []
  space : ∀ c ∈ spaces, c = 32
  isDigit : isDigit 10 digit = true

namespace StatusText

variable (text : StatusText)

/-- The bytes. -/
def bytes : Bytes := text.version ++ (text.spaces ++ text.digit :: text.reason)

theorem blank {b : UInt8} (member : b ∈ text.spaces) : isSpace b = true := by
  rw [text.space b member]
  rfl

variable {c : UInt8} {version : Bytes}

/-- Behind a dot of the version comes another number. -/
theorem scanInt_rest (all : ∀ c ∈ version, HttpReply.inVersion c = true)
    (stop : CRuntime.isDigit 10 c = false) (t : Bytes) :
    scanInt (version ++ (text.spaces ++ text.digit :: text.reason) ++ c :: t) =
      (scanInt (version ++ (text.spaces ++ text.digit :: text.reason))).map
        fun scanned => (scanned.1, scanned.2 ++ c :: t) := by
  cases version with
  | nil =>
      exact scanInt_append (fun _ => text.blank) (starts_of_digit text.isDigit) stop
  | cons x version =>
      exact @scanInt_append _ _ _ [] x (by simp) (starts_of_inVersion (all x (by simp))) stop

theorem spaces_cons : ∃ spaces, text.spaces = 32 :: spaces := by
  obtain ⟨b, spaces, eq⟩ := exists_cons_of_ne_nil text.spaces_ne
  refine ⟨spaces, ?_⟩
  rw [eq, text.space b (by simp [eq])]

variable {d : UInt8}

/-- The first number is read up to the end of its digits. -/
theorem scanInt_bytes (eq : text.version = d :: version) (digit : CRuntime.isDigit 10 d = true) :
    ∃ major, scanInt text.bytes = some (major, version.dropWhile (CRuntime.isDigit 10) ++
      (text.spaces ++ text.digit :: text.reason)) := by
  obtain ⟨spaces, sp⟩ := text.spaces_cons
  have start : text.bytes = [] ++ d :: (version ++ 32 :: (spaces ++ text.digit :: text.reason)) := by
    rw [bytes, eq, sp]
    rfl
  have first : (d :: (version ++ 32 :: (spaces ++ text.digit :: text.reason))).takeWhile
      (CRuntime.isDigit 10) ≠ [] := by
    rw [takeWhile_cons_of_pos digit]
    exact cons_ne_nil _ _
  unfold scanInt
  rw [start, strtoll_start (by simp) (starts_of_digit digit), if_neg first,
    dropWhile_cons_of_pos digit, dropWhile_stop (by decide), sp]
  dsimp only
  rw [if_neg]
  · exact ⟨_, rfl⟩
  · have shorter := length_dropWhile_le (CRuntime.isDigit 10) version
    simp only [length_append, length_cons, List.nil_append]
    omega

/-- The version is read in the same way when more follows behind a byte that is no digit. -/
theorem scanVersion_append (sline : HttpStatusLine) (eq : text.version = d :: version)
    (digit : CRuntime.isDigit 10 d = true) (stop : CRuntime.isDigit 10 c = false) (t : Bytes) :
    scanVersion sline (text.bytes ++ c :: t) = scanVersion sline text.bytes := by
  obtain ⟨major, first⟩ := text.scanInt_bytes eq digit
  have again := text.scanInt_rest text.inVersion stop t
  rw [← bytes, first] at again
  unfold scanVersion
  rw [again, first, Option.map_some]
  dsimp only
  cases rest : version.dropWhile (CRuntime.isDigit 10) with
  | nil =>
      obtain ⟨spaces, sp⟩ := text.spaces_cons
      rw [sp]
      rfl
  | cons y version' =>
      have member (x : UInt8) (inside : x ∈ y :: version') : x ∈ text.version := by
        rw [eq]
        exact List.mem_cons_of_mem _ (dropWhile_subset _ (rest ▸ inside))
      have dot : y = 46 := by
        have plain := List.head?_dropWhile_not (CRuntime.isDigit 10) version
        rw [rest] at plain
        rcases (Bool.or_eq_true _ _).mp (text.inVersion y (member y (by simp))) with dot | number
        · exact eq_of_beq dot
        · simp [number] at plain
      have second := text.scanInt_rest
        (fun x inside => text.inVersion x (member x (List.mem_cons_of_mem _ inside))) stop t
      subst dot
      simp only [cons_append]
      rw [second]
      cases scanInt (version' ++ (text.spaces ++ text.digit :: text.reason)) with
      | none => rfl
      | some scanned => rfl

/-- The status is read in the same way when more follows behind a byte that is no digit. -/
theorem scanStatus_append (sline : HttpStatusLine) (stop : CRuntime.isDigit 10 c = false)
    (t : Bytes) : scanStatus sline (text.bytes ++ c :: t) = scanStatus sline text.bytes := by
  obtain ⟨spaces, sp⟩ := text.spaces_cons
  have skipped (t : Bytes) : (text.bytes ++ t).dropWhile (· != 32) =
      32 :: (spaces ++ text.digit :: text.reason ++ t) := by
    have version (b : UInt8) (member : b ∈ text.version) : (b != 32) = true := by
      have plain := (starts_of_inVersion (text.inVersion b member)).1
      rw [bne_iff_ne]
      rintro rfl
      exact absurd plain (by decide)
    rw [bytes, List.append_assoc, dropWhile_append_of_pos version, sp]
    simp
  have whole := skipped []
  rw [List.append_nil, List.append_nil] at whole
  have number := strtoll_append (s := text.reason) (t := t)
    (fun b member => text.blank (by rw [sp]; exact List.mem_cons_of_mem _ member))
    (starts_of_digit text.isDigit) stop
  unfold scanStatus
  rw [skipped, whole]
  dsimp only
  rw [atoi, atoi, number]

/-- Nothing behind the end of the line is read. -/
theorem httpStatusLineParse_append (sline : HttpStatusLine) (stop : CRuntime.isDigit 10 c = false)
    {t : Bytes} (nonzero : c ≠ 0) (plain : 0 ∉ ascii "HTTP/" ++ text.bytes) :
    httpStatusLineParse sline (ascii "HTTP/") (ascii "HTTP/" ++ (text.bytes ++ c :: t)) =
      httpStatusLineParse sline (ascii "HTTP/") (ascii "HTTP/" ++ text.bytes) := by
  have whole : cstr (ascii "HTTP/" ++ (text.bytes ++ c :: t)) =
      ascii "HTTP/" ++ (text.bytes ++ c :: cstr t) := by
    rw [← List.append_assoc, cstr_append_of_plain plain, cstr_cons nonzero, List.append_assoc]
  obtain ⟨d, version, eq⟩ := exists_cons_of_ne_nil text.version_ne
  have head (t : Bytes) : (text.bytes ++ t).head? = some d := by
    rw [bytes, eq]
    rfl
  have alone := head []
  rw [List.append_nil] at alone
  unfold httpStatusLineParse
  rw [whole, cstr_of_plain plain]
  have http : ¬(ascii "HTTP/").take 3 = ascii "ICY" := by decide
  simp only [take_left, drop_left, if_true, head, alone, Option.any_some, http, if_false]
  split
  next => rfl
  next digit =>
    rw [Bool.not_eq_false] at digit
    rw [text.scanVersion_append _ eq digit stop (cstr t), text.scanStatus_append _ stop (cstr t)]

end StatusText

/-! ## The start line -/

/-- The bytes before the first carriage return or line feed. -/
def firstLine (buf : Bytes) : Bytes := buf.takeWhile inLine

namespace HttpReply

variable {rest : Bytes}

/-- The check of a buffer that starts with the name of the protocol. -/
theorem sanityCheckStartLine_http (long : 4 ≤ rest.length) (hdr_len : ℕ) :
    sanityCheckStartLine {} (ascii "HTTP/" ++ rest) hdr_len =
      if rest.takeWhile inVersion = [] then ({}, false, 600)
      else checkStatus {} (rest.dropWhile inVersion) := by
  have size : ¬(ascii "HTTP/" ++ rest).length < (ascii "HTTP/").length + 4 := by
    rw [length_append]
    omega
  unfold sanityCheckStartLine
  rw [if_neg size, if_neg (by simp [ascii]), if_neg (by simp [ascii]), drop_left]

/-- A start line that passes the check, in a buffer with a line feed. -/
theorem exists_text {hdr_len : ℕ} {reply : HttpReply} {error : ℤ} (line : 10 ∈ rest)
    (sane : sanityCheckStartLine {} (ascii "HTTP/" ++ rest) hdr_len = (reply, true, error)) :
    4 ≤ rest.length ∧ ∃ text : StatusText, rest = text.bytes := by
  have long : 4 ≤ rest.length := by
    by_contra short
    have size : (ascii "HTTP/" ++ rest).length < (ascii "HTTP/").length + 4 := by
      rw [length_append]
      omega
    rw [sanityCheckStartLine, if_pos size] at sane
    simp at sane
  rw [sanityCheckStartLine_http long] at sane
  split at sane
  next => simp at sane
  next version =>
    refine ⟨long, ?_⟩
    have taken := takeWhile_append_dropWhile (p := inVersion) (l := rest)
    have spaces := takeWhile_append_dropWhile (p := (· == 32)) (l := rest.dropWhile inVersion)
    have versions (b : UInt8) (member : b ∈ rest.takeWhile inVersion) : inVersion b = true :=
      mem_takeWhile_imp member
    have blanks (b : UInt8) (member : b ∈ (rest.dropWhile inVersion).takeWhile (· == 32)) :
        b = 32 := by simpa using mem_takeWhile_imp member
    unfold checkStatus at sane
    split at sane
    next c reason found =>
      rw [found] at spaces
      split at sane
      next digit =>
        have spaces_ne : (rest.dropWhile inVersion).takeWhile (· == 32) ≠ [] := by
          intro empty
          have plain := List.head?_dropWhile_not inVersion rest
          rw [← spaces, empty] at plain
          simp [inVersion, digit] at plain
        refine ⟨⟨_, _, c, reason, version, versions, spaces_ne, blanks, digit⟩, ?_⟩
        rw [StatusText.bytes, spaces, taken]
      next => simp at sane
    next missing =>
      rw [missing, List.append_nil] at spaces
      rw [← taken, ← spaces, mem_append] at line
      rcases line with member | member
      · exact absurd (versions 10 member) (by decide)
      · exact absurd (blanks 10 member) (by decide)

theorem sane_of_text (text : StatusText) (t : Bytes) (long : 4 ≤ (text.bytes ++ t).length)
    (hdr_len : ℕ) :
    sanityCheckStartLine {} (ascii "HTTP/" ++ (text.bytes ++ t)) hdr_len = ({}, true, 0) := by
  obtain ⟨b, version, eq⟩ := exists_cons_of_ne_nil text.version_ne
  obtain ⟨spaces, sp⟩ := text.spaces_cons
  have all (c : UInt8) (member : c ∈ text.spaces) : (c == 32) = true := by
    rw [text.space c member]
    rfl
  have plain : text.digit ≠ 32 := by
    rintro digit
    exact absurd (digit ▸ text.isDigit) (by decide)
  have dropped : (text.bytes ++ t).dropWhile inVersion =
      text.spaces ++ text.digit :: (text.reason ++ t) := by
    rw [StatusText.bytes, List.append_assoc, dropWhile_append_of_pos text.inVersion, sp]
    simp [show inVersion 32 = false by decide]
  have status : (text.spaces ++ text.digit :: (text.reason ++ t)).dropWhile (· == 32) =
      text.digit :: (text.reason ++ t) := by
    rw [dropWhile_append_of_pos all, dropWhile_cons_of_neg (by simpa using plain)]
  rw [sanityCheckStartLine_http long, if_neg, dropped, checkStatus, status]
  · exact if_pos text.isDigit
  · rw [StatusText.bytes, List.append_assoc, eq, cons_append,
      takeWhile_cons_of_pos (text.inVersion b (by simp [eq]))]
    exact cons_ne_nil _ _

end HttpReply

/-- A text with a line end, up to there. -/
theorem StatusText.exists_line (text : StatusText) (line : 10 ∈ text.bytes) :
    ∃ (first : StatusText) (c : UInt8) (t : Bytes), text.bytes = first.bytes ++ c :: t ∧
      inLine c = false ∧ firstLine (ascii "HTTP/" ++ text.bytes) = ascii "HTTP/" ++ first.bytes := by
  have scheme : ∀ b ∈ ascii "HTTP/", inLine b = true := all_eq_true.mp (by decide)
  have version (b : UInt8) (member : b ∈ text.version) : inLine b = true :=
    inLine_of_inVersion (text.inVersion b member)
  have space (b : UInt8) (member : b ∈ text.spaces) : inLine b = true := by
    rw [text.space b member]
    rfl
  have digit : inLine text.digit = true :=
    inLine_of_inVersion (by simp [HttpReply.inVersion, text.isDigit])
  have reason : 10 ∈ text.reason := by
    simp only [StatusText.bytes, mem_append, mem_cons] at line
    rcases line with member | member | same | member
    · exact absurd (version 10 member) (by decide)
    · exact absurd (space 10 member) (by decide)
    · exact absurd (same ▸ digit) (by decide)
    · exact member
  obtain ⟨c, t, rest⟩ : ∃ c t, text.reason.dropWhile inLine = c :: t := by
    refine exists_cons_of_ne_nil fun empty => ?_
    exact absurd (dropWhile_eq_nil_iff.mp empty 10 reason) (by decide)
  have stop : inLine c = false := by
    have plain := List.head?_dropWhile_not inLine text.reason
    rw [rest] at plain
    simpa using plain
  have split : text.reason = text.reason.takeWhile inLine ++ c :: t := by
    rw [← rest, takeWhile_append_dropWhile]
  refine ⟨{ text with reason := text.reason.takeWhile inLine }, c, t, ?_, stop, ?_⟩
  · simp only [StatusText.bytes, List.append_assoc, cons_append, ← split]
  · rw [firstLine, takeWhile_append_of_pos scheme, StatusText.bytes, StatusText.bytes,
      takeWhile_append_of_pos version, takeWhile_append_of_pos space, takeWhile_cons_of_pos digit]

/-! ## The headers -/

section Isolating

variable {line returns : Bytes} {c : UInt8} {t : Bytes}

theorem charAt_append (front : Bytes) (c : UInt8) (t : Bytes) :
    charAt (front ++ c :: t) front.length = c := by
  simp [charAt]

theorem skipLineEnd_spec (cr : ∀ b ∈ returns, b = 13) (stop : c ≠ 13) :
    skipLineEnd (line ++ (returns ++ c :: t)) line.length =
      line.length + returns.length + if c = 10 then 1 else 0 := by
  have all (b : UInt8) (member : b ∈ returns) : (b == 13) = true := by
    rw [cr b member]
    rfl
  have next : charAt (line ++ (returns ++ c :: t)) (line.length + returns.length) = c := by
    rw [← List.append_assoc, ← length_append]
    exact charAt_append _ c t
  rw [skipLineEnd, drop_left, takeWhile_append_of_pos all,
    takeWhile_cons_of_neg (by simpa using stop), List.append_nil, next]
  split <;> rfl

/-- The start line ends behind its carriage returns and the line feed, if one follows. -/
theorem httpMsgIsolateStart_spec (plain : ∀ b ∈ line, inLine b = true)
    (cr : ∀ b ∈ returns, b = 13) (stop : c ≠ 13) (ends : returns ≠ [] ∨ c = 10)
    (zero : 0 ∉ line) :
    httpMsgIsolateStart (line ++ (returns ++ c :: t)) 0 =
      some (line.length + returns.length + if c = 10 then 1 else 0) := by
  obtain ⟨b, rest, next, outside, nonzero⟩ :
      ∃ b rest, returns ++ c :: t = b :: rest ∧ inLine b = false ∧ b ≠ 0 := by
    cases returns with
    | nil =>
        rcases ends with some | lf
        · exact (some rfl).elim
        · exact ⟨c, t, rfl, by rw [lf]; rfl, by rw [lf]; decide⟩
    | cons b returns =>
        exact ⟨b, returns ++ c :: t, rfl, by rw [cr b (by simp)]; rfl,
          by rw [cr b (by simp)]; decide⟩
  have slen : (cstr (line ++ (returns ++ c :: t))).takeWhile inLine = line := by
    rw [cstr_append_of_plain zero, next, cstr_cons nonzero, takeWhile_append_of_pos plain,
      takeWhile_cons_of_neg (by simp [outside]), List.append_nil]
  have found : charAt (line ++ (returns ++ c :: t)) line.length = b := by
    rw [next]
    exact charAt_append line b rest
  simp only [httpMsgIsolateStart, drop_zero, slen, Nat.zero_add]
  rw [found, if_neg nonzero, skipLineEnd_spec cr stop]

variable {parse_start : ℕ}

/-- Behind the start line both searches go on alike. -/
theorem headersEnd_start {b : UInt8} (plain : ∀ b ∈ line, inLine b = true) (first : b ∈ line.head?)
    (cr : ∀ b ∈ returns, b = 13) (stop : c ≠ 13)
    (start : parse_start = line.length + returns.length + if c = 10 then 1 else 0) :
    headersEnd (line ++ (returns ++ c :: t)) =
      headersEndFrom 1 parse_start ((line ++ (returns ++ c :: t)).drop parse_start) := by
  have outside (b : UInt8) (inside : inLine b = true) : b ≠ 13 ∧ b ≠ 10 := by
    simpa [inLine] using inside
  obtain ⟨rest, eq⟩ := List.head?_eq_some_iff.mp first
  have begins := outside b (plain b (by rw [eq]; simp))
  have noLine : 10 ∉ line ++ returns := by
    rw [mem_append, not_or]
    exact ⟨fun member => (outside 10 (plain 10 member)).2 rfl,
      fun member => absurd (cr 10 member) (by decide)⟩
  have whole : headersEnd (line ++ (returns ++ c :: t)) =
      headersEndFrom 0 (line.length + returns.length) (c :: t) := by
    calc headersEnd (line ++ (returns ++ c :: t))
        = headersEndFrom 0 0 (line ++ (returns ++ c :: t)) := by
          rw [headersEnd, eq]
          exact headersEndFrom_one begins.1 begins.2 0 _
      _ = headersEndFrom 0 (line.length + returns.length) (c :: t) := by
          rw [← List.append_assoc, headersEndFrom_line noLine, length_append, Nat.zero_add]
  have dropped : (line ++ (returns ++ c :: t)).drop (line.length + returns.length) = c :: t := by
    rw [← List.append_assoc, ← length_append, drop_left]
  rw [whole, start]
  split
  next lf =>
    rw [← drop_drop, dropped, lf]
    rfl
  next lf => rw [Nat.add_zero, dropped, headersEndFrom_one stop lf]

/-- `httpMsgIsolateHeaders` in a buffer with an empty line. -/
theorem httpMsgIsolateHeaders_spec {front mid rest : Bytes} {k : ℕ} (kinds : mid = [] ∨ mid = [13])
    (nonzero : k ≠ 0) (size : parse_start + k = front.length + mid.length + 2)
    (bound : (front ++ 10 :: (mid ++ 10 :: rest)).length < 2 ^ 31)
    (found : headersEnd ((front ++ 10 :: (mid ++ 10 :: rest)).drop parse_start) = k) :
    httpMsgIsolateHeaders (front ++ 10 :: (mid ++ 10 :: rest)) parse_start
        (((front ++ 10 :: (mid ++ 10 :: rest)).length : ℤ) - parse_start) =
      .ok (some ⟨parse_start, front.length + 1, parse_start + k⟩) := by
  have last : charAt (front ++ 10 :: (mid ++ 10 :: rest)) (parse_start + k - 1) = 10 := by
    have eq : front ++ 10 :: (mid ++ 10 :: rest) = (front ++ 10 :: mid) ++ 10 :: rest := by simp
    have place : parse_start + k - 1 = (front ++ 10 :: mid).length := by
      simp only [length_append, length_cons]
      omega
    rw [eq, place]
    exact charAt_append _ 10 rest
  have before : charAt (front ++ 10 :: (mid ++ 10 :: rest)) front.length = 10 :=
    charAt_append front 10 _
  have stripped : stripReturns (front ++ 10 :: (mid ++ 10 :: rest)) (parse_start + k - 1) =
      front.length + 1 := by
    rcases kinds with rfl | rfl
    · rw [show parse_start + k - 1 = front.length + 1 by simp at size; omega, stripReturns, before]
      exact if_neg (by decide)
    · have mark : charAt (front ++ 10 :: ([13] ++ 10 :: rest)) (front.length + 1) = 13 := by
        have eq : front ++ 10 :: ([13] ++ 10 :: rest) = (front ++ [10]) ++ 13 :: 10 :: rest :=
          by simp
        rw [eq, show front.length + 1 = (front ++ [10]).length by simp]
        exact charAt_append _ 13 _
      rw [show parse_start + k - 1 = front.length + 2 by simp at size; omega, stripReturns, mark,
        if_pos rfl, stripReturns, before]
      exact if_neg (by decide)
  generalize front ++ 10 :: (mid ++ 10 :: rest) = buf at bound found last before stripped ⊢
  have room : parse_start ≤ buf.length := by
    by_contra beyond
    rw [drop_eq_nil_of_le (by omega)] at found
    exact nonzero found.symm
  have length : (((buf.length : ℤ) - parse_start) % 2 ^ 64).toNat = buf.length - parse_start := by
    omega
  have all : (buf.drop parse_start).take (buf.length - parse_start) = buf.drop parse_start :=
    take_of_length_le (by rw [length_drop])
  simp only [httpMsgIsolateHeaders, length, all, found, stripped, last]
  rw [if_neg (by omega), if_pos nonzero, if_neg (by decide), if_neg (by omega), Nat.add_sub_cancel,
    before, if_neg (by decide)]

end Isolating

/-! ## The message -/

variable {b : UInt8} {buf : Bytes}

/-- The end of the headers is the line feed of an empty line. -/
theorem exists_empty_line (first : b ∈ buf.head?) (inside : inLine b = true)
    (found : headersEnd buf ≠ 0) :
    ∃ front mid rest, buf = front ++ 10 :: (mid ++ 10 :: rest) ∧ (mid = [] ∨ mid = [13]) ∧
      headersEnd buf = front.length + mid.length + 2 := by
  obtain ⟨tail, rfl⟩ := List.head?_eq_some_iff.mp first
  have outside : b ≠ 13 ∧ b ≠ 10 := by simpa [inLine] using inside
  have zero : headersEnd (b :: tail) = headersEndFrom 0 0 (b :: tail) :=
    headersEndFrom_one outside.1 outside.2 0 tail
  rw [zero] at found ⊢
  have history : Seen [] 0 := trivial
  obtain ⟨block, rest, eq, _, ends, suffix⟩ := headersEndFrom_found (by decide) history found
  rw [ends, eq]
  rcases suffix with ⟨front, same⟩ | ⟨front, same⟩
  · refine ⟨front, [], rest, ?_, .inl rfl, ?_⟩
    · rw [← List.nil_append block, ← same]
      simp
    · rw [← List.nil_append block, ← same]
      simp
  · refine ⟨front, [13], rest, ?_, .inr rfl, ?_⟩
    · rw [← List.nil_append block, ← same]
      simp
    · rw [← List.nil_append block, ← same]
      simp

/-- The parts of a buffer with a line feed. -/
theorem exists_start (line : 10 ∈ buf) :
    ∃ returns c t, buf = firstLine buf ++ (returns ++ c :: t) ∧ (∀ b ∈ returns, b = 13) ∧
      c ≠ 13 ∧ (returns ≠ [] ∨ c = 10) := by
  have parts : firstLine buf ++ buf.dropWhile inLine = buf := takeWhile_append_dropWhile
  have inside (b : UInt8) (member : b ∈ firstLine buf) : inLine b = true :=
    mem_takeWhile_imp member
  have later : 10 ∈ buf.dropWhile inLine := by
    rw [← parts, mem_append] at line
    exact line.resolve_left fun member => absurd (inside 10 member) (by decide)
  have plain := List.head?_dropWhile_not inLine buf
  generalize buf.dropWhile inLine = rest at parts later plain
  have cr (b : UInt8) (member : b ∈ rest.takeWhile (· == 13)) : b = 13 := by
    simpa using mem_takeWhile_imp member
  have split : rest.takeWhile (· == 13) ++ rest.dropWhile (· == 13) = rest :=
    takeWhile_append_dropWhile
  have stop := List.head?_dropWhile_not (· == 13) rest
  cases tail : rest.dropWhile (· == 13) with
  | nil =>
      rw [tail, List.append_nil] at split
      exact absurd (cr 10 (by rw [split]; exact later)) (by decide)
  | cons c t =>
      rw [tail] at split stop
      have other : c ≠ 13 := by simpa using stop
      refine ⟨_, c, t, by rw [split, parts], cr, other, ?_⟩
      by_contra none
      rw [not_or, not_not] at none
      rw [← split, none.1] at plain
      simp [inLine, other, none.2] at plain

/-- The start line and the headers of a buffer, whatever follows it. -/
theorem exists_block (first : b ∈ buf.head?) (inside : inLine b = true) (found : headersEnd buf ≠ 0)
    (zero : 0 ∉ buf) :
    ∃ parse_start blk_end, blk_end ≤ buf.length ∧ parse_start ≤ buf.length ∧
      ∀ more, (buf ++ more).length < 2 ^ 31 →
        httpMsgIsolateStart (buf ++ more) 0 = some parse_start ∧
        httpMsgIsolateHeaders (buf ++ more) parse_start (((buf ++ more).length : ℤ) - parse_start) =
          .ok (some ⟨parse_start, blk_end, headersEnd buf⟩) := by
  obtain ⟨front, mid, rest, eq, kinds, size⟩ := exists_empty_line first inside found
  obtain ⟨returns, c, t, parts, cr, stop, ends⟩ := @exists_start buf (by rw [eq]; simp)
  have plain (b : UInt8) (member : b ∈ firstLine buf) : inLine b = true :=
    mem_takeWhile_imp member
  have begins : b ∈ (firstLine buf).head? := by
    obtain ⟨tail, same⟩ := List.head?_eq_some_iff.mp first
    rw [firstLine, same, takeWhile_cons_of_pos inside]
    rfl
  have lineZero : 0 ∉ firstLine buf := fun member =>
    zero ((List.takeWhile_prefix inLine).subset member)
  generalize firstLine buf = line at parts plain begins lineZero
  set parse_start := line.length + returns.length + if c = 10 then 1 else 0 with start
  have again := headersEnd_start (t := t) plain begins cr stop start
  rw [← parts] at again
  have nonzero := found
  rw [again] at nonzero
  have history : Seen [10] 1 := suffix_refl _
  obtain ⟨block, tail, _, block_ne, offset, _⟩ := headersEndFrom_found (by decide) history nonzero
  have inner : headersEnd (buf.drop parse_start) = block.length := by
    rw [headersEnd, offset, Nat.zero_add]
  have whole : headersEnd buf = parse_start + block.length := by rw [again, offset]
  have some_block : block.length ≠ 0 := by
    rwa [ne_eq, length_eq_zero_iff]
  have within := headersEnd_le buf
  refine ⟨parse_start, front.length + 1, by omega, by omega, fun more bound => ⟨?_, ?_⟩⟩
  · have longer : buf ++ more = line ++ (returns ++ c :: (t ++ more)) := by
      rw [parts]
      simp
    rw [longer]
    exact httpMsgIsolateStart_spec plain cr stop ends lineZero
  · have longer : buf ++ more = front ++ 10 :: (mid ++ 10 :: (rest ++ more)) := by
      rw [eq]
      simp
    have later : headersEnd ((buf ++ more).drop parse_start) = block.length := by
      rw [drop_append_of_le_length (by omega), headersEnd_append more (by rwa [inner]), inner]
    rw [whole]
    rw [longer] at bound later ⊢
    exact httpMsgIsolateHeaders_spec kinds some_block (by omega) bound later

namespace HttpReply

variable {relaxed : Bool} {config : HttpMsgConfig}

/-- `httpMsgParseStep` for a fresh reply, once the start line and the headers are isolated. -/
def parseIsolated (relaxed : Bool) (sline : HttpStatusLine × Bool) (parse_start : ℕ)
    (block : Bytes) (hdr_len : ℕ) : Except HttpMsgFault (ℤ × HttpReply) :=
  let reply : HttpReply := { sline := sline.1 }
  if !sline.2 then reply.httpMsgParseError
  else do
    let reply := { reply with hdr_sz := int32 parse_start, pstate := .readyToParseHeaders }
    let (header, accepted) ← ofHeader (reply.header.parse relaxed block)
    let reply := { reply with header }
    if !accepted then reply.httpMsgParseError
    else return (1, { reply with hdr_sz := int32 hdr_len, pstate := .parsed })

theorem httpMsgParseStep_isolated {buf : Bytes} {parse_start : ℕ} {len : ℤ} {block : HeaderBlock}
    (start : httpMsgIsolateStart buf 0 = some parse_start)
    (isolated : httpMsgIsolateHeaders buf parse_start (int32 (len - int32 parse_start)) =
      .ok (some block)) (atEnd : Bool) :
    httpMsgParseStep relaxed {} buf len atEnd =
      parseIsolated relaxed (httpStatusLineParse {} (ascii "HTTP/") buf) parse_start
        (block.bytes buf) block.parse_start := by
  unfold httpMsgParseStep parseIsolated parseHeadersStep
  simp only [start, isolated]
  rfl

/-- What stops the program in a header. -/
def InHeader (fault : HttpMsgFault) : Prop := ∃ abort, fault = .header abort

theorem ofHeader_outcome {α : Type} (x : Except Abort α) :
    Outcome (fun _ => True) InHeader (ofHeader x) := by
  cases x with
  | ok => trivial
  | error abort => exact ⟨abort, rfl⟩

theorem reset_outcome (reply : HttpReply) : Outcome (fun _ => True) InHeader reply.reset :=
  .bind (ofHeader_outcome _) fun _ _ => .ok trivial

theorem httpMsgParseError_outcome (reply : HttpReply) :
    Outcome (fun result => result.1 = -1) InHeader reply.httpMsgParseError :=
  .bind (reset_outcome reply) fun _ _ => .ok rfl

theorem parseIsolated_outcome (sline : HttpStatusLine × Bool) (parse_start : ℕ) (block : Bytes)
    (hdr_len : ℕ) : Outcome
      (fun result => result.1 = -1 ∨
        result.1 = 1 ∧ result.2.sline = sline.1 ∧ result.2.hdr_sz = int32 hdr_len)
      InHeader (parseIsolated relaxed sline parse_start block hdr_len) := by
  unfold parseIsolated
  split
  · exact (httpMsgParseError_outcome _).mono fun _ => .inl
  · refine .bind (ofHeader_outcome _) fun parsed _ => ?_
    dsimp only
    split
    · exact (httpMsgParseError_outcome _).mono fun _ => .inl
    · exact .ok (.inr ⟨rfl, rfl, rfl⟩)

variable {text : StatusText}

/-- The step for a buffer that starts with a checked start line, whatever follows. -/
theorem exists_step (line : 10 ∈ text.bytes) (found : headersEnd (ascii "HTTP/" ++ text.bytes) ≠ 0)
    (zero : 0 ∉ ascii "HTTP/" ++ text.bytes) :
    ∃ parse_start block, ∀ more, (ascii "HTTP/" ++ text.bytes ++ more).length < 2 ^ 31 →
      ∀ atEnd,
        httpMsgParseStep relaxed {} (ascii "HTTP/" ++ text.bytes ++ more)
            (int32 (ascii "HTTP/" ++ text.bytes ++ more).length) atEnd =
          parseIsolated relaxed
            (httpStatusLineParse {} (ascii "HTTP/") (firstLine (ascii "HTTP/" ++ text.bytes)))
            parse_start block (headersEnd (ascii "HTTP/" ++ text.bytes)) := by
  obtain ⟨first, c, t, cut, stop, same⟩ := text.exists_line line
  rw [same]
  have digit : CRuntime.isDigit 10 c = false := by
    by_contra digit
    rw [Bool.not_eq_false] at digit
    have inside : inLine c = true := inLine_of_inVersion (by simp [inVersion, digit])
    simp [inside] at stop
  have begins : 72 ∈ (ascii "HTTP/" ++ text.bytes).head? := rfl
  obtain ⟨parse_start, blk_end, le, inside, isolated⟩ := exists_block begins rfl found zero
  have sline (more : Bytes) :
      httpStatusLineParse {} (ascii "HTTP/") (ascii "HTTP/" ++ text.bytes ++ more) =
        httpStatusLineParse {} (ascii "HTTP/") (ascii "HTTP/" ++ first.bytes) := by
    have split : ascii "HTTP/" ++ text.bytes ++ more =
        ascii "HTTP/" ++ (first.bytes ++ c :: (t ++ more)) := by
      rw [cut]
      simp
    have shorter : 0 ∉ ascii "HTTP/" ++ first.bytes := fun member => zero (by
      rw [cut, ← List.append_assoc]
      exact List.mem_append_left _ member)
    have nonzero : c ≠ 0 := fun null => zero (by simp [cut, null])
    rw [split]
    exact first.httpStatusLineParse_append {} digit nonzero shorter
  generalize ascii "HTTP/" ++ text.bytes = buf at le inside isolated sline ⊢
  refine ⟨parse_start, (buf.drop parse_start).take (blk_end - parse_start),
    fun more bound atEnd => ?_⟩
  obtain ⟨start, headers⟩ := isolated more bound
  have length : int32 (int32 (buf ++ more).length - int32 parse_start) =
      ((buf ++ more).length : ℤ) - parse_start := by
    rw [length_append] at bound ⊢
    rw [@int32_eq parse_start (by omega) (by omega),
      @int32_eq (buf.length + more.length : ℕ) (by omega) (by omega),
      int32_eq (by omega) (by omega)]
  have bytes : HeaderBlock.bytes ⟨parse_start, blk_end, headersEnd buf⟩ (buf ++ more) =
      (buf.drop parse_start).take (blk_end - parse_start) := by
    rw [HeaderBlock.bytes, drop_append_of_le_length inside,
      take_append_of_le_length (by rw [length_drop]; dsimp only; omega)]
  rw [httpMsgParseStep_isolated start (by rw [length]; exact headers), sline more, bytes]

/-- A buffer with room for the terminator. -/
structure Sized (buf : MemBuf) : Prop where
  terminated : buf.Terminated
  bounded : buf.capacity ≤ memBufMaxSize

variable {buf : MemBuf}

theorem Sized.length_lt (sized : Sized buf) : buf.content.length < 2 ^ 31 := by
  have terminated := sized.terminated
  have bounded := sized.bounded
  unfold MemBuf.Terminated at terminated
  unfold memBufMaxSize at bounded
  omega

/-- A buffer for a reply: with room for the terminator, and without a zero byte. -/
structure Readable (buf : MemBuf) : Prop where
  terminated : buf.Terminated
  bounded : buf.capacity ≤ memBufMaxSize
  plain : 0 ∉ buf.content

theorem Readable.sized (readable : Readable buf) : Sized buf :=
  ⟨readable.terminated, readable.bounded⟩

theorem parse_of_step {more : Bytes} (sized : Sized buf)
    (content : buf.content = ascii "HTTP/" ++ text.bytes ++ more)
    (long : 4 ≤ (text.bytes ++ more).length) (found : headersEnd buf.content ≠ 0)
    (small : headersEnd buf.content ≤ config.maxReplyHeaderSize) (eof : Bool) :
    parse config {} buf eof =
      (httpMsgParseStep config.relaxedHeaderParser {} buf.content (int32 buf.content.length)
        eof >>= fun result => .ok (parseEnd (headersEnd buf.content) 0 result.1 result.2)) := by
  have sane : sanityCheckStartLine {} buf.content (headersEnd buf.content) = ({}, true, 0) := by
    rw [content, List.append_assoc]
    exact sane_of_text text more long _
  have room : ¬buf.capacity ≤ buf.content.length := Nat.not_le.mpr sized.terminated
  unfold parse
  rw [if_neg room]
  simp only [sane]
  rw [if_neg (by omega), if_neg found]
  rfl

/-- What a parsed reply consists of, whatever follows its headers. -/
theorem parse_spec (config : HttpMsgConfig) (readable : Readable buf)
    (starts : ascii "HTTP/" <+: buf.content) (eof : Bool) :
    (∃ parsed, parse config {} buf eof = .ok parsed ∧ parsed.success = false ∧ parsed.notes = []) ∨
    ∃ result : Except HttpMsgFault (ℤ × HttpReply), Outcome
      (fun result => result.1 = -1 ∨ result.1 = 1 ∧
        result.2.sline = (httpStatusLineParse {} (ascii "HTTP/") (firstLine buf.content)).1 ∧
        result.2.hdr_sz = int32 (headersEnd buf.content)) InHeader result ∧
      ∀ (longer : MemBuf) (more : Bytes) (later : Bool), Sized longer →
        longer.content = buf.content ++ more → parse config {} longer later =
          (result >>= fun result =>
            .ok (parseEnd (headersEnd buf.content) 0 result.1 result.2)) := by
  obtain ⟨rest, content⟩ := starts
  have room : ¬buf.capacity ≤ buf.content.length := Nat.not_le.mpr readable.terminated
  rcases sane : sanityCheckStartLine {} buf.content (headersEnd buf.content) with
    ⟨reply, _ | _, error⟩
  · left
    unfold parse
    rw [if_neg room]
    simp only [sane]
    exact ⟨_, rfl, rfl, rfl⟩
  · by_cases large : config.maxReplyHeaderSize < headersEnd buf.content ∨
        headersEnd buf.content = 0 ∧ config.maxReplyHeaderSize < buf.content.length
    · left
      unfold parse
      rw [if_neg room]
      simp only [sane]
      exact ⟨_, if_pos large, rfl, rfl⟩
    · by_cases none : headersEnd buf.content = 0
      · left
        unfold parse
        rw [if_neg room]
        simp only [sane]
        rw [if_neg large, if_pos none]
        exact ⟨_, rfl, rfl, rfl⟩
      · right
        have begins : 72 ∈ buf.content.head? := by
          rw [← content]
          rfl
        have line : 10 ∈ rest := by
          obtain ⟨front, mid, tail, eq, _⟩ := exists_empty_line begins rfl none
          have member : 10 ∈ buf.content := by
            rw [eq]
            simp
          rw [← content, mem_append] at member
          exact member.resolve_left (by decide)
        rw [← content] at sane
        obtain ⟨long, text, rfl⟩ := exists_text line sane
        have zero := readable.plain
        rw [← content] at none large zero ⊢
        obtain ⟨parse_start, block, step⟩ := @exists_step config.relaxedHeaderParser
          text line none zero
        refine ⟨_, @parseIsolated_outcome config.relaxedHeaderParser _ parse_start block _,
          fun longer more later fits same => ?_⟩
        have ends : headersEnd longer.content = headersEnd (ascii "HTTP/" ++ text.bytes) := by
          rw [same, headersEnd_append more none]
        rw [parse_of_step fits same (by rw [length_append]; omega) (by rw [ends]; exact none)
          (by rw [ends]; omega), ends]
        have bound := fits.length_lt
        rw [same] at bound ⊢
        rw [step more bound later]

theorem parseEnd_error (hdr_len : ℕ) (reply : HttpReply) :
    parseEnd hdr_len 0 (-1) reply = { success := false, error := 600, reply } :=
  if_pos (by decide)

theorem parseEnd_done {hdr_len : ℕ} {reply : HttpReply} (size : reply.hdr_sz = int32 hdr_len) :
    parseEnd hdr_len 0 1 reply = { success := true, error := 0, reply } := by
  rw [parseEnd, if_neg (by decide), if_neg (by decide), if_neg (not_not.mpr size)]

/-- Parsing never takes the branches that should not happen. -/
theorem parse_outcome (config : HttpMsgConfig) (readable : Readable buf)
    (starts : ascii "HTTP/" <+: buf.content) (eof : Bool) :
    Outcome (fun parsed => parsed.notes = [] ∧ (parsed.success = true →
      parsed.reply.sline = (httpStatusLineParse {} (ascii "HTTP/") (firstLine buf.content)).1))
      InHeader (parse config {} buf eof) := by
  rcases parse_spec config readable starts eof with ⟨parsed, eq, failed, silent⟩ | ⟨result, outcome,
    eq⟩
  · rw [eq]
    exact .ok ⟨silent, by simp [failed]⟩
  · rw [eq buf [] eof readable.sized (List.append_nil _).symm]
    refine .bind outcome fun result cases => ?_
    rcases cases with failed | ⟨done, sline, size⟩
    · rw [failed, parseEnd_error]
      exact .ok ⟨rfl, by simp⟩
    · rw [done, parseEnd_done size]
      exact .ok ⟨rfl, fun _ => sline⟩

/--
A parsed reply is parsed in the same way however much of the body follows it; its status and its
version depend on the first line only; and the parser meets none of its internal errors.
-/
theorem parse_stable (config : HttpMsgConfig) {buf : MemBuf} (readable : Readable buf)
    (starts : ascii "HTTP/" <+: buf.content) (eof : Bool) :
    (∀ parsed, parse config {} buf eof = .ok parsed → parsed.success = true →
      ∀ (longer : MemBuf) (more : Bytes) (later : Bool), Readable longer →
        longer.content = buf.content ++ more →
        ∃ again, parse config {} longer later = .ok again ∧ again.success = true ∧
          again.reply.hdr_sz = parsed.reply.hdr_sz ∧
          again.reply.sline.status = parsed.reply.sline.status ∧
          again.reply.sline.major = parsed.reply.sline.major ∧
          again.reply.sline.minor = parsed.reply.sline.minor ∧
          again.reply.header.entries = parsed.reply.header.entries) ∧
    (∀ parsed, parse config {} buf eof = .ok parsed → parsed.success = true →
      ∀ (other : MemBuf) (later : Bool) (again : HttpMsgParsed), Readable other →
        ascii "HTTP/" <+: other.content → firstLine other.content = firstLine buf.content →
        parse config {} other later = .ok again → again.success = true →
        again.reply.sline.status = parsed.reply.sline.status ∧
          again.reply.sline.major = parsed.reply.sline.major ∧
          again.reply.sline.minor = parsed.reply.sline.minor) ∧
    Outcome (fun parsed => parsed.notes = [])
      (fun fault => fault ≠ .isolateHeaders ∧ fault ≠ .overread) (parse config {} buf eof) := by
  refine ⟨fun parsed done success longer more later fits same => ?_,
    fun parsed done success other later again fits http same eq ok => ?_, ?_⟩
  · rcases parse_spec config readable starts eof with ⟨_, eq, failed, _⟩ | ⟨result, _, eq⟩
    · rw [done, Except.ok.injEq] at eq
      rw [eq, failed] at success
      exact absurd success (by decide)
    · rw [eq buf [] eof readable.sized (List.append_nil _).symm] at done
      exact ⟨parsed, (eq longer more later fits.sized same).trans done, success, rfl, rfl, rfl, rfl,
        rfl⟩
  · have first := ((parse_outcome config readable starts eof).of_ok done).2 success
    have second := ((parse_outcome config fits http later).of_ok eq).2 ok
    rw [second, first, same]
    exact ⟨rfl, rfl, rfl⟩
  · refine (parse_outcome config readable starts eof).imp (fun parsed holds => holds.1) ?_
    rintro fault ⟨abort, rfl⟩
    exact ⟨by simp, by simp⟩

/-- A reply header. -/
def okHeader : Bytes := ascii "HTTP/1.0 200 OK\r\nAge: 1\r\n\r\n"

/-- A buffer with room for 64 bytes. -/
def smallBuf (content : Bytes) : MemBuf := ⟨content, 64, 64⟩

theorem parse_stable_ok : ∃ parsed again,
    parse ⟨100, true⟩ {} (smallBuf okHeader) false = .ok parsed ∧
      parse ⟨100, true⟩ {} (smallBuf (okHeader ++ ascii "body")) true = .ok again ∧
      parsed.reply.sline.status = 200 ∧ again.reply.sline.status = 200 ∧
      again.reply.header.entries = parsed.reply.header.entries := by
  have fits (content : Bytes) (short : content.length < 64) (plain : 0 ∉ content) :
      Readable (smallBuf content) := ⟨short, show 64 ≤ memBufMaxSize by decide, plain⟩
  have stable := parse_stable ⟨100, true⟩ (fits okHeader (by decide) (by decide)) (by decide) false
  have run : (parse ⟨100, true⟩ {} (smallBuf okHeader) false).toOption.map
      (fun parsed => (parsed.success, parsed.reply.sline.status)) = some (true, 200) := by
    decide +kernel
  cases done : parse ⟨100, true⟩ {} (smallBuf okHeader) false with
  | error fault => simp [done, Except.toOption] at run
  | ok parsed =>
      simp only [done, Except.toOption, Option.map_some, Option.some.injEq, Prod.mk.injEq] at run
      obtain ⟨again, eq, _, _, status, _, _, entries⟩ := stable.1 parsed done run.1
        (smallBuf (okHeader ++ ascii "body")) (ascii "body") true
        (fits _ (by decide) (by decide)) rfl
      exact ⟨parsed, again, rfl, eq, run.2, status.trans run.2, entries⟩

end HttpReply
end Squid
