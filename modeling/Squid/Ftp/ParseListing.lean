import Squid.Http.HdrType
import Squid.Library.Lines

/-!
# FTP listings

`processReplyBody` and `parseListing` of `src/ftp.cc`, for the listing of a directory.  What
`htmlifyListEntry` makes of a line is a parameter, and so is the memory that `xmalloc` returns.  An
entry that is aborted, and a pending adaptation, end the reply before it gets here.
-/

namespace Squid.Ftp

open CRuntime List Lines

/-- The characters of `crlf`. -/
def isCrlf (c : UInt8) : Bool := c == 13 || c == 10

/-- `strspn` with `crlf`. -/
def strspn (s : Bytes) : ℕ := (s.takeWhile isCrlf).length

/-- `strcspn` with `crlf`. -/
def strcspn (s : Bytes) : ℕ := (s.takeWhile fun c => c != 0 && !isCrlf c).length

/-- The copy that `xstrncpy` makes. -/
def xstrncpy (s : Bytes) (n : ℕ) : Bytes := (cstr s).take (n - 1)

/-- The scan for the last separator, from an index down. -/
def scanBack (sbuf : Bytes) : ℕ → ℕ
  | 0 => 0
  | i + 1 => if isCrlf (sbuf.getD (i + 1) 0) then i + 1 else scanBack sbuf i

/-- A line starts with `total`. -/
def isTotal (line : Bytes) : Bool := line.take 5 = ascii "total"

/-- The loop over the lines, with `end - s`: the lines for `htmlifyListEntry`. -/
def lineLoop (left : ℕ) (s : Bytes) : List Bytes :=
  if 0 < left then
    let linelen := strcspn s + 1
    if linelen < 2 then []
    else
      let line := xstrncpy s (min linelen 4096)
      let skip := strcspn s + strspn (s.drop (strcspn s))
      let rest := lineLoop (left - skip) (s.drop skip)
      if isTotal line then rest else line :: rest
  else []
termination_by left

/-- `parseListing`: what it leaves of `readBuf`, and the lines for `htmlifyListEntry`. -/
def parseListing (memory : ℕ → UInt8) (readBuf : Bytes) : Bytes × List Bytes :=
  let len := readBuf.length
  if len = 0 then (readBuf, [])
  else
    let text := cstr readBuf
    let sbuf := text ++ 0 :: (List.range (len - text.length)).map memory
    let usable := scanBack sbuf (len - 1)
    if usable = 0 then
      (if readBuf.head? = some 0 ∧ len = 1 then readBuf.drop len else readBuf, [])
    else
      (readBuf.drop usable, lineLoop (usable + 1 - strspn sbuf) (sbuf.drop (strspn sbuf)))

/-- What a transfer of a listing has collected; `lines` are the lines that were handed to
`htmlifyListEntry`. -/
structure Transfer where
  readBuf : Bytes := []
  isListing : Bool := false
  listing : Bytes := []
  lines : List Bytes := []

/-- A read of some bytes, with `processReplyBody`. -/
def processReplyBody (memory : ℕ → UInt8) (htmlifyListEntry : Bytes → Option Bytes)
    (state : Transfer) (read : Bytes) : Transfer :=
  let listing := if state.isListing then state.listing else []
  let (readBuf, lines) := parseListing memory (state.readBuf ++ read)
  { readBuf, isListing := true, listing := listing ++ (lines.filterMap htmlifyListEntry).flatten,
    lines := state.lines ++ lines }

/-! ## The loop over the lines -/

variable {rest : Bytes}

/-- A run ends where the text does not go on with it. -/
theorem takeWhile_run {p : UInt8 → Bool} {run : Bytes} (inside : ∀ c ∈ run, p c = true)
    (stop : ∀ c, rest.head? = some c → p c = false) : (run ++ rest).takeWhile p = run := by
  rw [takeWhile_append_of_pos inside]
  cases rest with
  | nil => simp
  | cons c rest => rw [takeWhile_cons_of_neg (by simp [stop c rfl]), List.append_nil]

theorem head?_dropWhile {p : UInt8 → Bool} {text : Bytes} {c : UInt8}
    (first : (text.dropWhile p).head? = some c) : p c = false := by
  have nonempty : text.dropWhile p ≠ [] := by
    intro empty
    rw [empty] at first
    cases first
  have stop := head_dropWhile_not p nonempty
  rw [List.head?_eq_some_head nonempty, Option.some_inj] at first
  rwa [first] at stop

/-- What stands in front of a word and a separator: the word. -/
theorem strcspn_word {word : Bytes} {c : UInt8} (inside : ∀ d ∈ word, d ≠ 0 ∧ isCrlf d = false)
    (ends : isCrlf c = true) : strcspn (word ++ c :: rest) = word.length := by
  rw [strcspn, takeWhile_run]
  · intro d member
    simp [inside d member]
  · rintro d ⟨⟩
    simp [ends]

theorem strspn_run {run rest : Bytes} (inside : ∀ c ∈ run, isCrlf c = true)
    (stop : ∀ c, rest.head? = some c → isCrlf c = false) : strspn (run ++ rest) = run.length := by
  rw [strspn, takeWhile_run inside stop]

variable {text : Bytes}

/-- A text that ends with a separator starts with a word, a separator and more of them. -/
theorem word_split (nonempty : text ≠ [])
    (ends : ∀ front c, text = front ++ [c] → isCrlf c = true) :
    ∃ word c run more, text = word ++ c :: (run ++ more) ∧ (∀ d ∈ word, isCrlf d = false) ∧
      isCrlf c = true ∧ (∀ d ∈ run, isCrlf d = true) ∧
      ∀ d, more.head? = some d → isCrlf d = false := by
  have split := @takeWhile_append_dropWhile _ (fun d => !isCrlf d) text
  cases from_separator : text.dropWhile fun d => !isCrlf d with
  | nil =>
      obtain ⟨front, last, whole⟩ := (eq_nil_or_concat text).resolve_left nonempty
      rw [concat_eq_append] at whole
      have all := dropWhile_eq_nil_iff.mp from_separator last (by rw [whole]; simp)
      simp [ends front last whole] at all
  | cons c later =>
      refine ⟨text.takeWhile fun d => !isCrlf d, c, later.takeWhile isCrlf, later.dropWhile isCrlf,
        ?_, ?_, ?_, ?_, fun d => head?_dropWhile⟩
      · rw [takeWhile_append_dropWhile, ← from_separator, split]
      · intro d member
        simpa using mem_takeWhile_imp member
      · have first := @head?_dropWhile (fun d => !isCrlf d) text c (by rw [from_separator]; rfl)
        simpa using first
      · exact fun d member => mem_takeWhile_imp member

/-- The copy of a line is the line. -/
theorem xstrncpy_word {word : Bytes} (clean : ∀ c ∈ word, c ≠ 0) (short : word.length < 4096) :
    xstrncpy (word ++ rest) (min (word.length + 1) 4096) = word := by
  rw [xstrncpy, cstr, takeWhile_append_of_pos fun c member => by simpa using clean c member,
    show min (word.length + 1) 4096 - 1 = word.length by omega, take_left]

/-- The loop takes the lines of a text that starts with one and ends with a separator. -/
theorem lineLoop_eq (clean : ∀ c ∈ text, c ≠ 0)
    (ends : ∀ front c, text = front ++ [c] → isCrlf c = true)
    (starts : ∀ c, text.head? = some c → isCrlf c = false)
    (stop : ∀ c, rest.head? = some c → isCrlf c = false)
    (short : ∀ line ∈ lines isCrlf text, line.length < 4096) :
    lineLoop text.length (text ++ rest) =
      (lines isCrlf text).filter fun line => !isTotal line := by
  induction size : text.length using Nat.strong_induction_on generalizing text with
  | _ n ih =>
      subst size
      by_cases nonempty : text = []
      · rw [nonempty, lineLoop]
        simp
      · obtain ⟨word, c, run, more, split, inside, separator, run_inside, more_starts⟩ :=
          word_split nonempty ends
        have word_nonempty : word ≠ [] := by
          rintro rfl
          rw [starts c (by rw [split]; rfl)] at separator
          cases separator
        have positive := length_pos_iff.mpr word_nonempty
        have run_lines : lines isCrlf (run ++ more) = lines isCrlf more := by
          rw [← lines_dropWhile (run ++ more), dropWhile_append_of_pos run_inside,
            lines_dropWhile]
        have lines_eq : lines isCrlf text = word :: lines isCrlf more := by
          rw [split, lines_word inside word_nonempty separator, run_lines]
        have word_clean : ∀ d ∈ word, d ≠ 0 ∧ isCrlf d = false := fun d member =>
          ⟨clean d (by rw [split]; simp [member]), inside d member⟩
        have whole : text ++ rest = word ++ c :: (run ++ (more ++ rest)) := by
          rw [split]
          simp
        have cspn : strcspn (text ++ rest) = word.length := by
          rw [whole, strcspn_word word_clean separator]
        have spn : strspn ((text ++ rest).drop word.length) = run.length + 1 := by
          rw [whole, drop_left]
          refine @strspn_run (c :: run) (more ++ rest) (forall_mem_cons.mpr ⟨separator, run_inside⟩) ?_
          intro d first
          cases more with
          | nil => exact stop d first
          | cons e more => exact more_starts d first
        have skip : (text ++ rest).drop (word.length + (run.length + 1)) = more ++ rest := by
          rw [whole, ← drop_drop, drop_left, drop_succ_cons, drop_left]
        have left : text.length - (word.length + (run.length + 1)) = more.length := by
          rw [split]
          simp only [length_append, length_cons]
          omega
        have line : xstrncpy (text ++ rest) (min (word.length + 1) 4096) = word := by
          rw [whole]
          exact xstrncpy_word (fun d member => (word_clean d member).1)
            (short word (by rw [lines_eq]; simp))
        have later := @ih more.length (by rw [split]; simp; omega) more
          (fun d member => clean d (by rw [split]; simp [member]))
          (fun front d last => ends (word ++ c :: (run ++ front)) d (by rw [split, last]; simp))
          more_starts (fun line member => short line (by rw [lines_eq]; simp [member])) rfl
        rw [lineLoop, if_pos (length_pos_iff.mpr nonempty)]
        simp only [cspn, spn, skip, left, line, later, lines_eq]
        rw [if_neg (by omega), filter_cons]
        cases isTotal word <;> simp

/-! ## Parsing a buffer -/

theorem scanBack_spec (sbuf : Bytes) (i : ℕ) :
    scanBack sbuf i ≤ i ∧ (scanBack sbuf i = 0 ∨ isCrlf (sbuf.getD (scanBack sbuf i) 0) = true) ∧
      ∀ j, scanBack sbuf i < j → j ≤ i → isCrlf (sbuf.getD j 0) = false := by
  induction i with
  | zero => exact ⟨le_rfl, Or.inl rfl, fun j above below => by omega⟩
  | succ i ih =>
      rw [scanBack]
      cases here : isCrlf (sbuf.getD (i + 1) 0) with
      | true =>
          rw [if_pos rfl]
          exact ⟨le_rfl, Or.inr here, fun j above below => by omega⟩
      | false =>
          rw [if_neg (by simp)]
          refine ⟨by omega, ih.2.1, fun j above below => ?_⟩
          obtain last | before := Nat.eq_or_lt_of_le below
          · rw [last, here]
          · exact ih.2.2 j above (by omega)

/-- What is kept of the separators: the last one. -/
def lastSeparator (text : Bytes) : Bytes := (complete isCrlf text).getLast?.toList

theorem complete_of_clean (clean : ∀ c ∈ text, isCrlf c = false) :
    complete isCrlf text = [] :=
  rdropWhile_eq_nil_iff.mpr fun c member => by simp [clean c member]

/-- Where the scan stops, the text is split at its last separator, unless the first character is the
only one. -/
theorem scanBack_split (nonempty : text ≠ []) (more : Bytes) :
    scanBack (text ++ more) (text.length - 1) = 0 ∧
      text = lastSeparator text ++ tail isCrlf text ∧
        complete isCrlf text = lastSeparator text ∨
    ∃ front c, 0 < front.length ∧
      scanBack (text ++ more) (text.length - 1) = front.length ∧ isCrlf c = true ∧
      complete isCrlf text = front ++ [c] ∧
      text = front ++ c :: tail isCrlf text := by
  have positive := length_pos_iff.mpr nonempty
  obtain ⟨bound, stops, behind⟩ := scanBack_spec (text ++ more) (text.length - 1)
  generalize scanBack (text ++ more) (text.length - 1) = usable at bound stops behind ⊢
  have inside : usable < text.length := by omega
  have parts := @complete_append_tail _ isCrlf text
  have split : text = text.take usable ++ [text[usable]] ++ text.drop (usable + 1) := by
    rw [List.append_assoc, singleton_append, getElem_cons_drop, take_append_drop]
  have at_usable : (text ++ more).getD usable 0 = text[usable] := by
    rw [getD_eq_getElem?_getD, List.getElem?_append_left inside,
      List.getElem?_eq_getElem inside, Option.getD_some]
  have clean : ∀ c ∈ text.drop (usable + 1), isCrlf c = false := by
    intro c member
    obtain ⟨j, small, rfl⟩ := mem_iff_getElem.mp member
    rw [length_drop] at small
    have unseparated := behind (usable + 1 + j) (by omega) (by omega)
    rwa [getD_eq_getElem?_getD, List.getElem?_append_left (by omega),
      List.getElem?_eq_getElem (by omega), Option.getD_some, ← getElem_drop] at unseparated
  generalize text[usable] = c at split at_usable
  cases separator : isCrlf c with
  | true =>
      have whole : complete isCrlf text = text.take usable ++ [c] := by
        conv_lhs => rw [split]
        rw [complete_append_sep _ _ separator, complete_of_clean clean, List.append_nil]
      obtain zero | more_used := Nat.eq_zero_or_pos usable
      · left
        have kept : lastSeparator text = complete isCrlf text := by
          rw [lastSeparator, whole, zero]
          simp
        exact ⟨zero, by rw [kept, parts], kept.symm⟩
      · right
        refine ⟨text.take usable, c, by rw [length_take]; omega,
          by rw [length_take]; omega, separator, whole, ?_⟩
        rw [whole, List.append_assoc] at parts
        exact parts.symm
  | false =>
      left
      rw [at_usable, separator] at stops
      have zero : usable = 0 := by simpa using stops
      have nothing : complete isCrlf text = [] := by
        refine complete_of_clean fun d member => ?_
        rw [split, zero, take_zero, List.nil_append, singleton_append] at member
        obtain rfl | later := mem_cons.mp member
        · exact separator
        · exact clean d (by rwa [zero])
      have kept : lastSeparator text = [] := by
        rw [lastSeparator, nothing]
        rfl
      refine ⟨zero, ?_, ?_⟩
      · rw [nothing, List.nil_append] at parts
        rw [kept, parts]
        rfl
      · rw [kept, nothing]

theorem cstr_of_clean (clean : ∀ c ∈ text, c ≠ 0) : cstr text = text :=
  takeWhile_eq_self_iff.mpr fun c member => by simpa using clean c member

/-- `parseListing` hands over the complete lines, and keeps the last separator with the tail. -/
theorem parseListing_eq (memory : ℕ → UInt8) {readBuf : Bytes} (clean : ∀ c ∈ readBuf, c ≠ 0)
    (short : ∀ line ∈ lines isCrlf (complete isCrlf readBuf), line.length < 4096) :
    parseListing memory readBuf = (lastSeparator readBuf ++ tail isCrlf readBuf,
      (lines isCrlf (complete isCrlf readBuf)).filter fun line => !isTotal line) := by
  by_cases nonempty : readBuf = []
  · rw [nonempty]
    rfl
  have positive := length_pos_iff.mpr nonempty
  have no_memory : (List.range (readBuf.length - readBuf.length)).map memory = [] := by simp
  rw [parseListing]
  dsimp only
  rw [if_neg (by omega), cstr_of_clean clean, no_memory]
  obtain ⟨zero, split, kept⟩ | ⟨front, c, some_front, usable, separator, whole, split⟩ :=
    scanBack_split nonempty [0]
  · rw [if_pos zero, if_neg]
    · have no_lines : lines isCrlf (complete isCrlf readBuf) = [] := by
        rw [kept]
        obtain none_complete | ⟨front, c, ends, separator⟩ :=
          @complete_cases _ isCrlf readBuf
        · rw [lastSeparator, none_complete]
          exact lines_nil
        · rw [lastSeparator, ends, List.getLast?_append]
          exact (lines_cons separator).trans lines_nil
      rw [no_lines, ← split]
      rfl
    · rintro ⟨nul, -⟩
      exact clean 0 (mem_of_mem_head? nul) rfl
  · have last : lastSeparator readBuf = [c] := by
      rw [lastSeparator, whole, List.getLast?_concat]
      rfl
    have runs := @takeWhile_append_dropWhile _ isCrlf (front ++ [c])
    have run_inside : ∀ d ∈ (front ++ [c]).takeWhile isCrlf, isCrlf d = true :=
      fun d member => mem_takeWhile_imp member
    have starts : ∀ d, ((front ++ [c]).dropWhile isCrlf).head? = some d → isCrlf d = false :=
      fun d => head?_dropWhile
    have line_set := @lines_dropWhile _ isCrlf (front ++ [c])
    generalize (front ++ [c]).takeWhile isCrlf = run at runs run_inside
    generalize (front ++ [c]).dropWhile isCrlf = text at runs starts line_set
    have stop : ∀ d, (tail isCrlf readBuf ++ [0]).head? = some d → isCrlf d = false := by
      intro d first
      cases tail : tail isCrlf readBuf with
      | nil =>
          rw [tail] at first
          cases first
          rfl
      | cons e later =>
          rw [tail] at first
          cases first
          exact not_sep_of_mem_tail (by rw [tail]; exact List.mem_cons_self)
    have sbuf : readBuf ++ [0] = run ++ (text ++ (tail isCrlf readBuf ++ [0])) := by
      conv_lhs => rw [← @complete_append_tail _ isCrlf readBuf, whole, ← runs]
      simp only [List.append_assoc]
    have spn : strspn (readBuf ++ [0]) = run.length := by
      rw [sbuf]
      refine strspn_run run_inside fun d first => ?_
      cases text with
      | nil => exact stop d first
      | cons e text => exact starts d first
    have sizes := congrArg List.length runs
    simp only [length_append, length_singleton] at sizes
    rw [if_neg (by omega), usable, spn, last, whole, ← line_set]
    refine Prod.ext ?_ ?_
    · change readBuf.drop front.length = c :: tail isCrlf readBuf
      conv_lhs => rw [split]
      rw [drop_left]
    · change lineLoop (front.length + 1 - run.length) ((readBuf ++ [0]).drop run.length) = _
      rw [sbuf, drop_left, show front.length + 1 - run.length = text.length by omega]
      refine lineLoop_eq (fun d member => clean d ?_) (fun front' d ends => ?_) starts stop ?_
      · rw [split, ← singleton_append, ← List.append_assoc, ← runs]
        simp [member]
      · rw [ends, ← List.append_assoc] at runs
        have same := (append_inj' runs rfl).2
        cases same
        exact separator
      · rwa [line_set, ← whole]

/-! ## Reads -/

/-- What has been done about the bytes received so far. -/
structure Sound (htmlifyListEntry : Bytes → Option Bytes) (received : Bytes) (state : Transfer) :
    Prop where
  lines : state.lines = (lines isCrlf (complete isCrlf received)).filter
    fun line => !isTotal line
  readBuf : state.readBuf = lastSeparator received ++ tail isCrlf received
  listing : state.isListing = true →
    state.listing = (state.lines.filterMap htmlifyListEntry).flatten
  fresh : state.isListing = false → state.lines = []

/-- A kept separator is complete by itself. -/
theorem complete_lastSeparator (received more : Bytes) :
    complete isCrlf (lastSeparator received ++ more) =
      lastSeparator received ++ complete isCrlf more := by
  obtain nothing | ⟨front, c, ends, separator⟩ := @complete_cases _ isCrlf received
  · rw [lastSeparator, nothing]
    rfl
  · rw [lastSeparator, ends, List.getLast?_concat]
    exact complete_append_sep [] more separator

theorem lines_lastSeparator (received more : Bytes) :
    lines isCrlf (lastSeparator received ++ more) = lines isCrlf more := by
  obtain nothing | ⟨front, c, ends, separator⟩ := @complete_cases _ isCrlf received
  · rw [lastSeparator, nothing]
    rfl
  · rw [lastSeparator, ends, List.getLast?_concat]
    exact lines_cons separator

/-- Only the last separator counts for the buffer. -/
theorem lastSeparator_buffer (received more : Bytes) :
    lastSeparator (lastSeparator received ++ (tail isCrlf received ++ more)) =
      lastSeparator (received ++ more) := by
  have kept : (lastSeparator received).getLast? = (complete isCrlf received).getLast? := by
    rw [lastSeparator]
    cases (complete isCrlf received).getLast? <;> rfl
  rw [lastSeparator, complete_lastSeparator, List.getLast?_append, kept, ← List.getLast?_append,
    ← complete_append, lastSeparator]

theorem tail_buffer (received more : Bytes) :
    tail isCrlf (lastSeparator received ++ (tail isCrlf received ++ more)) =
      tail isCrlf (received ++ more) := by
  rw [tail_append received]
  generalize tail isCrlf received ++ more = text
  have whole := @complete_append_tail _ isCrlf (lastSeparator received ++ text)
  have part := @complete_append_tail _ isCrlf text
  rw [complete_lastSeparator, List.append_assoc] at whole
  exact append_cancel_left ((append_cancel_left whole).trans part.symm)

/-- A read goes on where the bytes before it ended. -/
theorem processReplyBody_sound (memory : ℕ → UInt8) {htmlifyListEntry : Bytes → Option Bytes}
    {received : Bytes} {state : Transfer} (sound : Sound htmlifyListEntry received state)
    (read : Bytes) (clean : ∀ c ∈ received ++ read, c ≠ 0)
    (short : ∀ line ∈ lines isCrlf (complete isCrlf (received ++ read)),
      line.length < 4096) :
    Sound htmlifyListEntry (received ++ read)
      (processReplyBody memory htmlifyListEntry state read) := by
  have buffer : state.readBuf ++ read =
      lastSeparator received ++ (tail isCrlf received ++ read) := by
    rw [sound.readBuf, List.append_assoc]
  have new_lines : lines isCrlf (complete isCrlf (state.readBuf ++ read)) =
      lines isCrlf (complete isCrlf (tail isCrlf received ++ read)) := by
    rw [buffer, complete_lastSeparator, lines_lastSeparator]
  have whole := @lines_complete _ isCrlf received read
  have parts := @complete_append_tail _ isCrlf received
  have parsed := @parseListing_eq memory (state.readBuf ++ read)
    (by
      intro c member
      rw [buffer] at member
      refine clean c ?_
      obtain separator | later := mem_append.mp member
      · have last := mem_of_getLast? (Option.mem_toList.mp separator)
        exact List.mem_append_left _ (by rw [← parts]; exact List.mem_append_left _ last)
      · rw [← parts, List.append_assoc]
        exact List.mem_append_right _ later)
    (by
      intro line member
      rw [new_lines] at member
      exact short line (by rw [whole]; exact List.mem_append_right _ member))
  rw [buffer, lastSeparator_buffer, tail_buffer, ← buffer, new_lines] at parsed
  rw [processReplyBody, parsed]
  dsimp only
  refine ⟨?_, rfl, fun _ => ?_, nofun⟩
  · rw [sound.lines, whole, filter_append]
  · rw [filterMap_append, flatten_append]
    cases listing : state.isListing with
    | false =>
        rw [sound.fresh listing]
        rfl
    | true =>
        rw [if_pos rfl, sound.listing listing]

/-- However a listing is cut into reads, exactly its complete lines are handed over, in order and
without those that start with `total`; what is left in the buffer is the unterminated tail, behind
the last separator. -/
theorem parseListing_independent_of_reads (memory : ℕ → UInt8)
    (htmlifyListEntry : Bytes → Option Bytes) (reads : List Bytes)
    (clean : ∀ c ∈ reads.flatten, c ≠ 0)
    (short : ∀ line ∈ lines isCrlf (complete isCrlf reads.flatten),
      line.length < 4096) :
    Sound htmlifyListEntry reads.flatten
      (reads.foldl (processReplyBody memory htmlifyListEntry) {}) := by
  induction reads using List.reverseRecOn with
  | nil => exact ⟨rfl, rfl, nofun, fun _ => rfl⟩
  | append_singleton reads read ih =>
      rw [flatten_append, flatten_singleton] at clean short
      rw [flatten_append, flatten_singleton, foldl_append, foldl_cons, foldl_nil]
      refine processReplyBody_sound memory (ih ?_ ?_) read clean short
      · exact fun c member => clean c (List.mem_append_left _ member)
      · intro line member
        refine short line ?_
        rw [lines_complete]
        exact List.mem_append_left _ member

/-- The listing `ab`, `cd` and a tail, cut within a line end and within a line. -/
theorem parseListing_independent_of_reads_sample :
    Sound (fun line => some line) [97, 98, 13, 10, 99, 100, 10, 101]
      ([[97, 98, 13], [10, 99], [100, 10, 101]].foldl
        (processReplyBody (fun _ => 0) fun line => some line) {}) :=
  parseListing_independent_of_reads (fun _ => 0) (fun line => some line)
    [[97, 98, 13], [10, 99], [100, 10, 101]] (by decide +kernel) (by decide +kernel)

end Squid.Ftp
