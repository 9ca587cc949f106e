import Squid.Http.HttpHeader

/-!
# The texts of header fields

A field goes over several lines where the next one starts with a blank.  `HttpHeader::parse` keeps
the line ends inside a field: what it passes on to `HttpHeaderEntry::parse` is a text that reads
the same, line by line, when it is packed.
-/

namespace Squid

open CRuntime List

namespace HttpHeader

/-- Whether the first byte is a space or a tab. -/
def startsBlank (s : Bytes) : Bool := s.head? == some 32 || s.head? == some 9

variable {s : Bytes}

theorem startsBlank_iff : startsBlank s = true ↔ s.head? = some 32 ∨ s.head? = some 9 := by
  simp [startsBlank]

/-- The next bytes continue a field: a blank, and another byte in the same line. -/
def Continued (s : Bytes) : Prop :=
  ∃ x y more, s = x :: y :: more ∧ (x = 32 ∨ x = 9) ∧ y ≠ 10 ∧ y ≠ 13

theorem Continued.startsBlank (continued : Continued s) : startsBlank s = true := by
  obtain ⟨x, y, more, rfl, blank, -⟩ := continued
  simpa [startsBlank_iff] using blank

theorem Continued.append (continued : Continued s) (rest : Bytes) : Continued (s ++ rest) := by
  obtain ⟨x, y, more, rfl, blank⟩ := continued
  exact ⟨x, y, more ++ rest, rfl, blank⟩

/-! ## Folded texts -/

/--
No byte is null, each carriage return is before a line feed, and each line feed is before a
continuation.
-/
def Folded (text : Bytes) : Prop :=
  ∀ front b back, text = front ++ b :: back →
    b ≠ 0 ∧ (b = 13 → back.head? = some 10) ∧ (b = 10 → Continued back)

namespace Folded

variable {text : Bytes}

theorem of_plain (nul : 0 ∉ text) (lf : 10 ∉ text) (cr : 13 ∉ text) : Folded text := by
  rintro front b back rfl
  refine ⟨?_, ?_, ?_⟩
  · rintro rfl
    simp at nul
  · rintro rfl
    simp at cr
  · rintro rfl
    simp at lf

theorem zero_notMem (folded : Folded text) : 0 ∉ text := by
  intro member
  obtain ⟨front, back, rfl⟩ := append_of_mem member
  exact (folded front 0 back rfl).1 rfl

variable {back front : Bytes}

theorem behind (folded : Folded (front ++ back)) : Folded back := by
  rintro first b rest rfl
  exact folded (front ++ first) b rest (by simp)

theorem append (former : Folded front) (latter : Folded back) : Folded (front ++ back) := by
  intro first b rest split
  rcases append_eq_append_iff.1 split with ⟨between, rfl, rfl⟩ | ⟨between, rfl, same⟩
  · exact latter between b rest rfl
  · cases between with
    | nil => exact latter [] b rest (by simpa using same.symm)
    | cons c between =>
        obtain ⟨rfl, rfl⟩ : b = c ∧ rest = between ++ back := by simpa using same
        obtain ⟨nul, cr, lf⟩ := former first b between rfl
        refine ⟨nul, fun isCr => ?_, fun isLf => (lf isLf).append back⟩
        rw [List.head?_append, cr isCr, Option.some_or]

variable {rest : Bytes}

/-- A part that does not end with a blank does not end inside a line end. -/
theorem before (folded : Folded (text ++ rest)) (trimmed : text.rdropWhile isSpace = text) :
    Folded text := by
  have last : ∀ c (ne : text ≠ []), text.getLast ne = c → isSpace c = false := by
    rintro c ne rfl
    simpa using rdropWhile_eq_self_iff.1 trimmed ne
  rintro front b back rfl
  obtain ⟨nul, cr, lf⟩ := folded front b (back ++ rest) (by simp)
  refine ⟨nul, ?_, ?_⟩
  · rintro rfl
    cases back with
    | nil => exact absurd (last 13 (by simp) (by simp)) (by decide)
    | cons c back => simpa using cr rfl
  · rintro rfl
    obtain ⟨x, y, more, same, blank, notLf, notCr⟩ := lf rfl
    match back, same with
    | [], _ => exact absurd (last 10 (by simp) (by simp)) (by decide)
    | [c], same =>
        obtain rfl : c = x := by simpa using (List.cons.inj same).1
        have space := last c (by simp) (by simp)
        rcases blank with rfl | rfl <;> exact absurd space (by decide)
    | c :: d :: back, same =>
        obtain ⟨rfl, rfl, -⟩ : c = x ∧ d = y ∧ back ++ rest = more := by simpa using same
        exact ⟨c, d, back, rfl, blank, notLf, notCr⟩

/-- Trimming cannot cut a line end: it would take all of it. -/
theorem trim (folded : Folded text) : Folded (text.rdropWhile isSpace) := by
  obtain ⟨blanks, whole⟩ := rdropWhile_prefix isSpace text
  rw [← whole] at folded
  exact folded.before (rdropWhile_idempotent isSpace text)

/-- A line end before a continuation. -/
theorem lineEnd {cr : Bytes} (return_ : cr = [] ∨ cr = [13]) (continued : Continued rest)
    (folded : Folded rest) : Folded (cr ++ 10 :: rest) := by
  have feed : Folded (10 :: rest) := by
    intro front b back split
    cases front with
    | nil =>
        obtain ⟨rfl, rfl⟩ : 10 = b ∧ rest = back := by simpa using split
        exact ⟨by decide, by simp, fun _ => continued⟩
    | cons c front =>
        obtain ⟨-, rfl⟩ : 10 = c ∧ rest = front ++ b :: back := by simpa using split
        exact folded front b back rfl
  rcases return_ with rfl | rfl
  · exact feed
  · intro front b back split
    cases front with
    | nil =>
        obtain ⟨rfl, rfl⟩ : 13 = b ∧ 10 :: rest = back := by simpa using split
        exact ⟨by decide, fun _ => rfl, by simp⟩
    | cons c front =>
        obtain ⟨-, same⟩ : 13 = c ∧ 10 :: rest = front ++ b :: back := by simpa using split
        exact feed front b back same

end Folded

/-! ## Lines -/

theorem splitLines_append {line : Bytes} (plain : 10 ∉ line) (rest : Bytes) :
    splitLines (line ++ 10 :: rest) = (line :: (splitLines rest).1, (splitLines rest).2) := by
  induction line with
  | nil => simp [splitLines]
  | cons b line ih =>
      obtain ⟨other, plain⟩ : 10 ≠ b ∧ 10 ∉ line := by simpa using plain
      simp [splitLines, ih plain, Ne.symm other]

variable {line : Bytes}

/-- The lines have the bytes of the block, without line feeds. -/
theorem mem_splitLines {block : Bytes} (member : line ∈ (splitLines block).1) :
    10 ∉ line ∧ ∀ b ∈ line, b ∈ block := by
  induction block generalizing line with
  | nil => simp [splitLines] at member
  | cons b block ih =>
      simp only [splitLines] at member
      split at member
      · rcases mem_cons.1 member with rfl | member
        · simp
        · exact ⟨(ih member).1, fun c inLine => List.mem_cons_of_mem b ((ih member).2 c inLine)⟩
      · rename_i other
        split at member
        · cases member
        · rename_i first lines same
          rw [same] at ih
          rcases mem_cons.1 member with rfl | member
          · obtain ⟨lf, inside⟩ := ih List.mem_cons_self
            refine ⟨by simpa [lf] using Ne.symm other, fun c inLine => ?_⟩
            rcases mem_cons.1 inLine with rfl | inLine
            · simp
            · exact List.mem_cons_of_mem b (inside c inLine)
          · obtain ⟨lf, inside⟩ := ih (List.mem_cons_of_mem first member)
            exact ⟨lf, fun c inLine => List.mem_cons_of_mem b (inside c inLine)⟩

theorem continues_splitLines (block : Bytes) :
    continues (splitLines block).1 (splitLines block).2 = startsBlank block := by
  cases block with
  | nil => rfl
  | cons b block =>
      simp only [splitLines]
      split
      · rename_i feed
        simp [continues, startsBlank, feed]
      · split <;> simp [continues, startsBlank]

variable {body cr : Bytes} {first relaxed : Bool} {owner : Owner}

section

variable (scanned : scanLine relaxed owner first line = some (body, cr))
include scanned

/-- What the checks on a line let through. -/
theorem scanLine_cases :
    ∃ raw, line = raw ++ cr ∧ (cr = [] ∨ cr = [13]) ∧
      body = raw.map (fun b => if b = 13 then 32 else b) ∧ (first = false → raw.length ≠ 1) := by
  unfold scanLine at scanned
  split at scanned
  rename_i raw ending divided
  have whole : line = raw ++ ending ∧ (ending = [] ∨ ending = [13]) := by
    split at divided
    · rename_i ends
      obtain ⟨rfl, rfl⟩ := Prod.mk.inj divided
      exact ⟨(dropLast_append_getLast? 13 ends).symm, .inr rfl⟩
    · obtain ⟨rfl, rfl⟩ := Prod.mk.inj divided
      exact ⟨(List.append_nil line).symm, .inl rfl⟩
  split at scanned
  · cases scanned
  · split at scanned
    · cases scanned
    · split at scanned
      · cases scanned
      · rename_i long
        obtain ⟨rfl, rfl⟩ := Prod.mk.inj (Option.some.inj scanned)
        exact ⟨raw, whole.1, whole.2, rfl, fun later one => long ⟨one, by simp [later]⟩⟩

/-- Stray carriage returns are gone. -/
theorem scanLine_cr : 13 ∉ body := by
  obtain ⟨raw, rfl, -, rfl, -⟩ := scanLine_cases scanned
  simp only [List.mem_map, not_exists, not_and]
  intro b member
  split
  · decide
  · assumption

/-- Nothing but blanks is new in a line. -/
theorem scanLine_notMem {c : UInt8} (absent : c ∉ line) (other : c ≠ 32) : c ∉ body := by
  obtain ⟨raw, rfl, -, rfl, -⟩ := scanLine_cases scanned
  simp only [List.mem_map, not_exists, not_and]
  intro b member
  split
  · exact other.symm
  · rintro rfl
    exact absent (List.mem_append_left _ member)

end

/-- A line that continues a field. -/
theorem scanLine_continued (scanned : scanLine relaxed owner false line = some (body, cr))
    (plain : 10 ∉ line) (blank : startsBlank line = true) : Continued body := by
  have lf := scanLine_notMem scanned plain (by decide)
  have noCr := scanLine_cr scanned
  obtain ⟨raw, rfl, ending, rfl, long⟩ := scanLine_cases scanned
  match raw with
  | [] => rcases ending with rfl | rfl <;> simp [startsBlank] at blank
  | [x] => exact absurd rfl (long rfl)
  | x :: y :: raw =>
      have first : x = 32 ∨ x = 9 := by simpa [startsBlank] using blank
      simp only [List.map_cons, mem_cons, not_or] at lf noCr ⊢
      refine ⟨_, _, _, rfl, ?_, Ne.symm lf.2.1, Ne.symm noCr.2.1⟩
      rcases first with rfl | rfl <;> simp

/-- A line without stray carriage returns passes the checks. -/
theorem scanLine_of_plain (plain : 13 ∉ body) (ending : cr = [] ∨ cr = [13])
    (long : first = false → body.length ≠ 1) :
    scanLine relaxed owner first (body ++ cr) = some (body, cr) := by
  have divided : (if (body ++ cr).getLast? = some 13 then ((body ++ cr).dropLast, [13])
      else (body ++ cr, [])) = (body, cr) := by
    rcases ending with rfl | rfl
    · rw [List.append_nil, if_neg fun last => plain (mem_of_getLast? last)]
    · simp
  have same : body.map (fun b => if b = 13 then 32 else b) = body := by
    calc body.map (fun b => if b = 13 then 32 else b) = body.map id :=
          map_congr_left fun b member => if_neg (ne_of_mem_of_not_mem member plain)
      _ = body := List.map_id body
  have notOnly : ¬ (cr ≠ [] ∧ owner = .request ∧ body ≠ [] ∧ body.all (· == 13) = true) := by
    rintro ⟨-, -, ne, all⟩
    obtain ⟨b, rest, rfl⟩ := exists_cons_of_ne_nil ne
    have isCr : b = 13 := by simpa using (all_eq_true.1 all) b (by simp)
    simp [isCr] at plain
  unfold scanLine
  rw [divided]
  dsimp only
  rw [if_neg notOnly, if_neg fun stray => plain stray.1, if_neg, same]
  rintro ⟨one, later⟩
  exact long (by simpa using later) one

/-! ## The fields of a block -/

/--
The texts that `HttpHeader::parse` passes on to `HttpHeaderEntry::parse`, up to a line that it
rejects.  `field` is the text from the start of the field on, where the line continues one.
-/
def fieldTexts (relaxed : Bool) (owner : Owner) (tail : Bytes) :
    List Bytes → Option Bytes → List Bytes
  | [], _ => []
  | line :: lines, field =>
      match scanLine relaxed owner field.isNone line with
      | none => []
      | some (body, cr) =>
          let text := field.getD [] ++ body
          if continues lines tail then
            fieldTexts relaxed owner tail lines (some (text ++ cr ++ [10]))
          else
            text :: fieldTexts relaxed owner tail lines none

/-- The entries that `HttpHeaderEntry::parse` makes of the fields of a block. -/
def blockEntries (relaxed : Bool) (owner : Owner) (block : Bytes) : List HttpHeaderEntry :=
  (fieldTexts relaxed owner (splitLines block).2 (splitLines block).1 none).filterMap
    (HttpHeaderEntry.parse relaxed)

/-- What is carried from line to line: the next one continues the field. -/
def Carried (lines : List Bytes) (field : Option Bytes) : Prop :=
  ∀ text, field = some text →
    (∀ line ∈ lines.head?, startsBlank line = true) ∧
      ∀ rest, Continued rest → Folded rest → Folded (text ++ rest)

variable {lines : List Bytes}

theorem Carried.none : Carried lines none := by
  rintro _ ⟨⟩

/-- By induction on the lines. -/
theorem folded_of_mem_fieldTexts {tail : Bytes} {field : Option Bytes}
    (plain : ∀ line ∈ lines, 0 ∉ line ∧ 10 ∉ line) (carried : Carried lines field) :
    ∀ text ∈ fieldTexts relaxed owner tail lines field, Folded text := by
  induction lines generalizing field with
  | nil => simp [fieldTexts]
  | cons line lines ih =>
      obtain ⟨firstNul, firstLf⟩ := plain line (by simp)
      have later : ∀ line ∈ lines, 0 ∉ line ∧ 10 ∉ line := fun line member =>
        plain line (by simp [member])
      rw [fieldTexts]
      split
      · simp
      · rename_i body cr scanned
        have bodyFolded : Folded body :=
          Folded.of_plain (scanLine_notMem scanned firstNul (by decide))
            (scanLine_notMem scanned firstLf (by decide)) (scanLine_cr scanned)
        obtain ⟨-, -, ending, -⟩ := scanLine_cases scanned
        have whole : Folded (field.getD [] ++ body) := by
          cases field with
          | none => exact bodyFolded
          | some text =>
              obtain ⟨blank, open_⟩ := carried text rfl
              exact open_ body (scanLine_continued scanned firstLf (blank line (by simp)))
                bodyFolded
        extract_lets text
        split
        · rename_i goesOn
          refine ih later ?_
          rintro _ ⟨⟩
          refine ⟨?_, fun rest continued folded => ?_⟩
          · intro next head
            cases lines with
            | nil => cases head
            | cons other lines =>
                obtain rfl : other = next := by simpa using head
                exact goesOn
          · have joined := whole.append (Folded.lineEnd ending continued folded)
            simpa [text] using joined
        · intro found member
          rcases mem_cons.1 member with rfl | member
          · exact whole
          · exact ih later Carried.none found member

end HttpHeader

/-! ## Entries that are read back -/

namespace HdrType

theorem mem_table (id : HdrType) : id ∈ table := by
  cases id <;> decide

/-- The names in the table differ, and no null byte, blank or colon is in one. -/
theorem table_names : ∀ id ∈ table, id ≠ .other →
    idByName id.name = some id ∧ id.name ≠ [] ∧ 0 ∉ id.name ∧ 58 ∉ id.name ∧
      id.name.any isSpace = false ∧ id.name.length ≤ stringLimit := by
  decide +kernel

end HdrType

namespace HttpHeaderEntry

open HttpHeader

/-- The text of a field. -/
def text (e : HttpHeaderEntry) : Bytes := e.name ++ 58 :: 32 :: e.value

theorem packInto_eq (e : HttpHeaderEntry) : e.packInto = e.text ++ [13, 10] := by
  simp [packInto, text]

/-- An entry that reads its own text. -/
structure Readable (relaxed : Bool) (e : HttpHeaderEntry) : Prop where
  named : e.name ≠ []
  colon : 58 ∉ e.name
  trimmed : relaxed = true → e.name.rdropWhile isSpace = e.name
  id_eq : (HdrType.idByName e.name).getD .other = e.id
  short : e.name.length ≤ stringLimit
  value_front : e.value.dropWhile isSpace = e.value
  value_back : e.value.rdropWhile isSpace = e.value
  value_short : e.value.length ≤ stringLimit

theorem takeWhile_colon {name : Bytes} (colon : 58 ∉ name) (rest : Bytes) :
    (name ++ 58 :: rest).takeWhile (· != 58) = name := by
  rw [takeWhile_append_of_pos, takeWhile_cons_of_neg (by simp), List.append_nil]
  intro b member
  simpa using ne_of_mem_of_not_mem member colon

variable {e : HttpHeaderEntry} {field : Bytes} {relaxed : Bool}

/-- What `HttpHeaderEntry::parse` takes from a text. -/
theorem parse_cases (parsed : parse relaxed field = some e) :
    ∃ name blanks rest, field = name ++ blanks ++ 58 :: rest ∧ 58 ∉ name ∧ name ≠ [] ∧
      name.length ≤ stringLimit ∧
      (if relaxed then name = (name ++ blanks).rdropWhile isSpace else blanks = []) ∧
      e.id = (HdrType.idByName name).getD .other ∧ (e.id = .other → e.name = name) ∧
      e.value = (rest.dropWhile isSpace).rdropWhile isSpace ∧ e.value.length ≤ stringLimit := by
  unfold parse at parsed
  extract_lets found name id value at parsed
  split at parsed
  · cases parsed
  · rename_i accepted
    obtain ⟨colon, -, short, named, valueShort⟩ :
        58 ∈ field ∧ found ≠ [] ∧ found.length ≤ stringLimit ∧ name ≠ [] ∧
          value.length ≤ stringLimit := by
      simpa only [not_or, not_not, not_lt] using accepted
    obtain rfl := Option.some.inj parsed
    obtain ⟨blanks, whole⟩ : name <+: found := by
      cases relaxed with
      | true => exact rdropWhile_prefix isSpace found
      | false => exact prefix_rfl
    have divided : field = found ++ 58 :: field.drop (found.length + 1) := by
      obtain ⟨front, rest, rfl, before⟩ := eq_append_cons_of_mem colon
      have front_eq : found = front := takeWhile_colon before rest
      rw [front_eq, drop_length_add_append]
      rfl
    refine ⟨name, blanks, field.drop (found.length + 1), by rw [whole, ← divided], ?_, named, ?_,
      ?_,
      rfl, fun other => if_pos other, rfl, valueShort⟩
    · intro member
      have inFound : 58 ∈ found := by rw [← whole]; exact List.mem_append_left _ member
      simpa using mem_takeWhile_imp inFound
    · have := congrArg List.length whole
      rw [length_append] at this
      omega
    · rw [whole]
      cases relaxed with
      | true => rfl
      | false => exact append_right_eq_self.1 whole

/-- Trimming the end does not uncover blanks at the start. -/
theorem dropWhile_trim (s : Bytes) :
    ((s.dropWhile isSpace).rdropWhile isSpace).dropWhile isSpace =
      (s.dropWhile isSpace).rdropWhile isSpace := by
  obtain ⟨blanks, whole⟩ := rdropWhile_prefix isSpace (s.dropWhile isSpace)
  cases value : (s.dropWhile isSpace).rdropWhile isSpace with
  | nil => rfl
  | cons b rest =>
      rw [value] at whole
      have ne : s.dropWhile isSpace ≠ [] := by
        rw [← whole]
        simp
      have first := head_dropWhile_not isSpace ne
      simp only [← whole, cons_append, head_cons] at first
      exact dropWhile_cons_of_neg (by simp [first])

theorem readable_of_parse (parsed : parse relaxed field = some e) : Readable relaxed e := by
  obtain ⟨name, blanks, rest, -, colon, named, short, trimmed, id_eq, other, value_eq,
    value_short⟩ := parse_cases parsed
  have valueFront : e.value.dropWhile isSpace = e.value := by
    rw [value_eq, dropWhile_trim]
  have valueBack : e.value.rdropWhile isSpace = e.value := by
    rw [value_eq, rdropWhile_idempotent]
  by_cases known : e.id = .other
  · have name_eq := other known
    refine ⟨?_, ?_, fun isRelaxed => ?_, ?_, ?_, valueFront, valueBack, value_short⟩
    · rwa [name_eq]
    · rwa [name_eq]
    · rw [if_pos isRelaxed] at trimmed
      rw [name_eq, trimmed, rdropWhile_idempotent]
    · rw [name_eq, id_eq]
    · rwa [name_eq]
  · obtain ⟨found, named, -, colon, blank, short⟩ :=
      HdrType.table_names e.id (HdrType.mem_table e.id) known
    rw [← e.named known] at found named colon blank short
    refine ⟨named, colon, fun _ => ?_, by rw [found, Option.getD_some], short, valueFront,
      valueBack,
      value_short⟩
    refine rdropWhile_eq_self_iff.2 fun ne space => ?_
    exact List.any_eq_false.1 blank _ (getLast_mem ne) space

/-- An entry that reads its own text is what that text gives. -/
theorem Readable.parse_text (readable : Readable relaxed e) : parse relaxed e.text = some e := by
  have found : e.text.takeWhile (· != 58) = e.name := takeWhile_colon readable.colon _
  have name : (if relaxed then e.name.rdropWhile isSpace else e.name) = e.name := by
    split
    · exact readable.trimmed ‹_›
    · rfl
  have value : ((e.text.drop (e.name.length + 1)).dropWhile isSpace).rdropWhile isSpace =
    e.value := by
    have behind : e.text.drop (e.name.length + 1) = 32 :: e.value :=
      drop_length_add_append ..
    rw [behind, dropWhile_cons_of_pos rfl, readable.value_front, readable.value_back]
  have accepted : ¬ (58 ∉ e.text ∨ e.name = [] ∨ stringLimit < e.name.length ∨ e.name = [] ∨
      stringLimit < e.value.length) := by
    have := readable.short
    have := readable.value_short
    have := readable.named
    have : 58 ∈ e.text := by simp [text]
    grind
  unfold parse
  simp only [found, name, value, readable.id_eq, if_neg accepted]
  congr 1
  obtain ⟨id, name, value, named⟩ := e
  congr 1
  split
  · rfl
  · exact (named ‹_›).symm

/-- The text of an entry is folded as the text it is read from. -/
theorem folded_text (parsed : parse relaxed field = some e) (folded : Folded field)
    (strict : ¬ (e.id = .other ∧ e.name.any (ascii " \t\n\r").contains ∧ !relaxed)) :
    Folded e.text := by
  obtain ⟨name, blanks, rest, rfl, colon, named, short, trimmed, id_eq, other, value_eq,
    value_short⟩ := parse_cases parsed
  have nameFolded : Folded e.name := by
    by_cases known : e.id = .other
    · cases relaxed with
      | true =>
          rw [if_pos rfl] at trimmed
          rw [other known]
          rw [List.append_assoc] at folded
          refine folded.before ?_
          rw [trimmed, rdropWhile_idempotent]
      | false =>
          have plain : ∀ b ∈ e.name, (ascii " \t\n\r").contains b = false := by
            simpa [known] using strict
          have nul : 0 ∉ name := fun member => folded.zero_notMem (by simp [member])
          rw [← other known] at nul
          exact Folded.of_plain nul (fun lf => absurd (plain 10 lf) (by decide))
            fun cr => absurd (plain 13 cr) (by decide)
    · obtain ⟨-, -, nul, -, blank, -⟩ := HdrType.table_names e.id (HdrType.mem_table e.id) known
      rw [← e.named known, List.any_eq_false] at blank
      rw [← e.named known] at nul
      exact Folded.of_plain nul (fun lf => blank 10 lf rfl) fun cr => blank 13 cr rfl
  have valueFolded : Folded e.value := by
    rw [value_eq]
    have fromColon : Folded ([58] ++ rest) := folded.behind
    have behind : Folded (rest.takeWhile isSpace ++ rest.dropWhile isSpace) := by
      rw [takeWhile_append_dropWhile]
      exact fromColon.behind
    exact behind.behind.trim
  have marked : Folded ([58, 32] ++ e.value) :=
    (Folded.of_plain (by decide) (by decide) (by decide)).append valueFolded
  exact nameFolded.append marked

end HttpHeaderEntry

end Squid
