import Squid.Http.StrListSegments

/-!
# Lists that are written

A list of words with commas between them is read as these words.  The scan of `strListGetItem` is an
automaton of three modes; a word may leave it inside a quoted string only if no other word follows.
-/

namespace Squid
namespace StrList

open CRuntime List Option

/-! ## The scan as an automaton -/

/-- Where the scan for the end of an item is. -/
inductive Mode
  /-- Outside of quoted strings. -/
  | plain
  /-- In a quoted string. -/
  | quoted
  /-- Behind a backslash in a quoted string. -/
  | escaped

variable {del : UInt8}

/-- The mode behind a byte; nothing passes the end of the string or a delimiter. -/
def Mode.next (del : UInt8) (mode : Mode) (b : UInt8) : Option Mode :=
  if b = 0 then
    none
  else
    match mode with
    | .plain => if b = 34 then some .quoted else if b = del ∨ b = 44 then none else some .plain
    | .quoted => if b = 34 then some .plain else if b = 92 then some .escaped else some .quoted
    | .escaped => some .quoted

/-- The mode behind some bytes. -/
def scan (del : UInt8) : Mode → Bytes → Option Mode
  | mode, [] => some mode
  | mode, b :: s => (mode.next del b).bind fun next => scan del next s

/-- Where the scan that is in a mode stops. -/
def resume (del : UInt8) : Mode → Bytes → Bytes
  | .plain, s => findDelimiter del false s
  | .quoted, s => findDelimiter del true s
  | .escaped, [] => []
  | .escaped, b :: s => if b = 0 then b :: s else findDelimiter del true s

theorem scan_append (mode : Mode) (front back : Bytes) :
    scan del mode (front ++ back) = (scan del mode front).bind fun next => scan del next back := by
  induction front generalizing mode with
  | nil => rfl
  | cons b front ih =>
      rw [cons_append, scan, scan]
      cases mode.next del b with
      | none => rfl
      | some next => exact ih next

theorem resume_nil (mode : Mode) : resume del mode [] = [] := by
  cases mode <;> simp [resume, findDelimiter]

variable {mode : Mode}

variable {b : UInt8} {next : Mode}

/-- A byte that passes is passed. -/
theorem resume_of_next (passes : mode.next del b = some next) (s : Bytes) :
    resume del mode (b :: s) = resume del next s := by
  simp only [Mode.next, ite_none_left_eq_some] at passes
  obtain ⟨zero, passes⟩ := passes
  cases mode with
  | plain =>
      rw [resume, findDelimiter.eq_def]
      dsimp only at passes
      split at passes
      · rename_i quote
        cases some.inj passes
        simp [quote, resume]
      · rename_i quote
        rw [ite_none_left_eq_some, some.injEq] at passes
        obtain ⟨separates, rfl⟩ := passes
        simp [zero, quote, separates, resume]
  | quoted =>
      rw [resume, findDelimiter.eq_def]
      dsimp only at passes
      split at passes
      · rename_i quote
        cases some.inj passes
        simp [quote, resume]
      · rename_i quote
        split at passes
        · rename_i backslash
          cases some.inj passes
          cases s <;> simp [backslash, resume]
        · rename_i backslash
          cases some.inj passes
          simp [zero, quote, backslash, resume]
  | escaped =>
      cases some.inj passes
      simp [resume, zero]

/-- The scan stops at a byte that does not pass. -/
theorem resume_of_stop (stops : mode.next del b = none) (s : Bytes) :
    resume del mode (b :: s) = b :: s ∧ (b = 0 ∨ mode = .plain ∧ (b = del ∨ b = 44)) := by
  by_cases zero : b = 0
  · rw [zero]
    refine ⟨?_, .inl rfl⟩
    cases mode with
    | plain => exact findDelimiter_of_ended rfl
    | quoted => exact findDelimiter_of_ended rfl
    | escaped => simp [resume]
  · simp only [Mode.next, if_neg zero] at stops
    cases mode with
    | plain =>
        dsimp only at stops
        split at stops
        · simp at stops
        rename_i quote
        split at stops
        · rename_i separates
          refine ⟨?_, .inr ⟨rfl, separates⟩⟩
          rw [resume, findDelimiter.eq_def]
          simp [zero, quote, separates]
        · simp at stops
    | quoted =>
        dsimp only at stops
        split at stops
        · simp at stops
        · split at stops <;> simp at stops
    | escaped => simp at stops

variable {word : Bytes}

theorem resume_of_scan (passes : scan del mode word = some next) (rest : Bytes) :
    resume del mode (word ++ rest) = resume del next rest := by
  induction word generalizing mode with
  | nil =>
      cases some.inj passes
      rfl
  | cons b word ih =>
      obtain ⟨mid, here, later⟩ := bind_eq_some_iff.mp passes
      rw [cons_append, resume_of_next here, ih later]

/-- What the scan passes, and why it stops. -/
theorem resume_spec (mode : Mode) (s : Bytes) :
    ∃ passed next, s = passed ++ resume del mode s ∧ scan del mode passed = some next ∧
      ((resume del mode s).headD 0 = 0 ∨ next = .plain) := by
  induction s generalizing mode with
  | nil => exact ⟨[], mode, by rw [resume_nil]; rfl, rfl, .inl (by rw [resume_nil]; rfl)⟩
  | cons b s ih =>
      cases here : mode.next del b with
      | none =>
          obtain ⟨stop, why⟩ := resume_of_stop here s
          refine ⟨[], mode, by rw [stop]; rfl, rfl, ?_⟩
          rw [stop]
          exact why.imp id And.left
      | some mid =>
          obtain ⟨passed, next, split, later, stop⟩ := ih mid
          rw [resume_of_next here]
          exact ⟨b :: passed, next, congrArg (List.cons b) split,
            bind_eq_some_iff.mpr ⟨mid, here, later⟩, stop⟩

/-- White space does not end a quoted string. -/
theorem plain_of_spaces {blanks : Bytes} (spaces : ∀ b ∈ blanks, isSpace b = true)
    (passes : scan del mode blanks = some .plain) : mode = .plain := by
  induction blanks generalizing mode with
  | nil => exact some.inj passes
  | cons b blanks ih =>
      obtain ⟨mid, here, later⟩ := bind_eq_some_iff.mp passes
      obtain rfl := ih (fun c member => spaces c (by simp [member])) later
      have quote : b ≠ 34 := by
        rintro rfl
        exact absurd (spaces 34 (by simp)) (by decide)
      simp only [Mode.next, ite_none_left_eq_some] at here
      cases mode with
      | plain => rfl
      | quoted =>
          simp only [quote, if_false] at here
          split at here <;> simp at here
      | escaped => simp at here

/-- Bytes that neither quote nor separate are passed. -/
theorem scan_of_plain (plain : ∀ b ∈ word, b ≠ 0 ∧ b ≠ 34 ∧ b ≠ del ∧ b ≠ 44) :
    scan del .plain word = some .plain := by
  induction word with
  | nil => rfl
  | cons b word ih =>
      obtain ⟨zero, quote, other, comma⟩ := plain b (by simp)
      have here : Mode.next del .plain b = some .plain := by
        simp [Mode.next, zero, quote, other, comma]
      exact bind_eq_some_iff.mpr
        ⟨.plain, here, ih fun c member => plain c (by simp [member])⟩

/-! ## Words -/

/-- A text that is an item of a list. -/
structure Word (word : Bytes) : Prop where
  /-- It is not empty. -/
  ne : word ≠ []
  /-- It starts with a byte that is not skipped. -/
  start : ∀ b ∈ word.head?, isListGap 44 b = false
  /-- It does not end in white space. -/
  last : ∀ b ∈ word.getLast?, isSpace b = false
  /-- The scan passes it. -/
  passes : (scan 44 .plain word).isSome = true

/-- All quoted strings of the word end in it. -/
def Closed (word : Bytes) : Prop := scan 44 .plain word = some .plain

/-- Words that can be written one behind the other. -/
def Listed : List Bytes → Prop
  | [] => True
  | word :: words => Word word ∧ (words ≠ [] → Closed word) ∧ Listed words

/-- The item is a word, with the end of the string or a comma behind it. -/
def IsItem (item : Bytes × ℕ) (word : Bytes) : Prop :=
  ∃ rest, item = (word ++ rest, word.length) ∧ (rest = [] ∨ ∃ tail, rest = 44 :: tail)

/-- Words behind the first one, each with a separator in front. -/
def others (separator : Bytes) (words : List Bytes) : Bytes :=
  words.flatMap fun word => separator ++ word

/-- Words with separators between them. -/
def joined (separator : Bytes) : List Bytes → Bytes
  | [] => []
  | word :: words => word ++ others separator words

theorem IsItem.text {item : Bytes × ℕ} (isItem : IsItem item word) : text item = word := by
  obtain ⟨rest, rfl, -⟩ := isItem
  exact take_left' rfl

variable {items : List (Bytes × ℕ)} {words : List Bytes}

section

variable (same : List.Forall₂ IsItem items words)
include same

theorem map_text_of_items : items.map text = words := by
  induction same with
  | nil => rfl
  | cons one _ ih => rw [List.map_cons, ih, one.text]

theorem exists_word {item : Bytes × ℕ} (member : item ∈ items) :
    ∃ word ∈ words, IsItem item word := by
  induction same with
  | nil => simp at member
  | cons one _ ih =>
      rcases mem_cons.mp member with rfl | later
      · exact ⟨_, List.mem_cons_self, one⟩
      · obtain ⟨word, inside, isItem⟩ := ih later
        exact ⟨word, List.mem_cons_of_mem _ inside, isItem⟩

theorem exists_item (member : word ∈ words) : ∃ item ∈ items, IsItem item word := by
  induction same with
  | nil => simp at member
  | cons one _ ih =>
      rcases mem_cons.mp member with rfl | later
      · exact ⟨_, List.mem_cons_self, one⟩
      · obtain ⟨item, inside, isItem⟩ := ih later
        exact ⟨item, List.mem_cons_of_mem _ inside, isItem⟩

end

theorem listed_append {front back : List Bytes} (closed : ∀ word ∈ front, Word word ∧ Closed word)
    (listed : Listed back) : Listed (front ++ back) := by
  induction front with
  | nil => exact listed
  | cons word front ih =>
      obtain ⟨isWord, isClosed⟩ := closed word (by simp)
      exact ⟨isWord, fun _ => isClosed, ih fun other member => closed other (by simp [member])⟩

theorem listed_sublist {some all : List Bytes} (sub : some.Sublist all) (listed : Listed all) :
    Listed some := by
  induction sub with
  | slnil => exact listed
  | cons _ _ ih => exact ih listed.2.2
  | cons_cons word sub ih =>
      refine ⟨listed.1, fun ne => listed.2.1 ?_, ih listed.2.2⟩
      rintro rfl
      exact ne (sublist_nil.mp sub)

theorem isListGap_of_not_space (blank : isSpace b = false) (comma : b ≠ 44) :
    isListGap 44 b = false := by
  refine Bool.eq_false_iff.mpr fun gap => ?_
  simp only [isListGap, Bool.or_eq_true, beq_iff_eq] at gap
  rcases gap with ((((rfl | rfl) | rfl) | rfl) | rfl) | rfl
  all_goals first | exact comma rfl | exact absurd blank (by decide)

theorem word_of_listed (listed : Listed words) (member : word ∈ words) : Word word := by
  induction words with
  | nil => simp at member
  | cons first words ih =>
      rcases mem_cons.mp member with rfl | later
      · exact listed.1
      · exact ih listed.2.2 later

/-- A word behind which the scan stops is an item. -/
theorem Word.item {rest : Bytes} (isWord : Word word)
    (stop : rest = [] ∨ (∃ tail, rest = 44 :: tail) ∧ Closed word) :
    strListGetItem 44 (word ++ rest) = some (word ++ rest, word.length, rest) := by
  apply strListGetItem_word isWord.ne isWord.start isWord.last
  rcases stop with rfl | ⟨⟨tail, rfl⟩, closed⟩
  · obtain ⟨mode, passes⟩ := isSome_iff_exists.mp isWord.passes
    have stopped := resume_of_scan passes []
    rwa [resume_nil] at stopped
  · have stopped := resume_of_scan closed (44 :: tail)
    rw [(@resume_of_stop 44 .plain 44 (by decide) tail).1] at stopped
    exact stopped

section Joined

variable {blanks : Bytes}

variable {words : List Bytes}

theorem joined_append (separator : Bytes) (ne : words ≠ []) (word : Bytes) :
    joined separator (words ++ [word]) = joined separator words ++ separator ++ word := by
  obtain ⟨first, words, rfl⟩ := exists_cons_of_ne_nil ne
  simp [joined, others]

theorem joined_append_list (separator : Bytes) {front back : List Bytes} (ne : front ≠ [])
    (some : back ≠ []) :
    joined separator (front ++ back) = joined separator front ++ separator ++ joined separator back
    := by
  obtain ⟨first, front, rfl⟩ := exists_cons_of_ne_nil ne
  obtain ⟨word, back, rfl⟩ := exists_cons_of_ne_nil some
  simp [joined, others]

theorem joined_ne_nil (separator : Bytes) (ne : words ≠ []) (all : ∀ word ∈ words, word ≠ []) :
    joined separator words ≠ [] := by
  obtain ⟨first, words, rfl⟩ := exists_cons_of_ne_nil ne
  simp [joined, all first (by simp)]

theorem others_cons (word : Bytes) (words : List Bytes) :
    others (44 :: blanks) (word :: words) =
      44 :: (blanks ++ (word ++ others (44 :: blanks) words)) := by
  simp [others]

theorem strListGetItem_gaps (gaps : ∀ b ∈ blanks, isListGap 44 b = true) (pos : Bytes) :
    strListGetItem 44 (blanks ++ pos) = strListGetItem 44 pos := by
  induction blanks with
  | nil => rfl
  | cons b blanks ih =>
      rw [cons_append, strListGetItem_gap (gaps b (by simp)),
        ih fun c member => gaps c (by simp [member])]

theorem strListItems_words (gaps : ∀ b ∈ blanks, isListGap 44 b = true) {word : Bytes}
    {words : List Bytes} (listed : Listed (word :: words)) {fuel : ℕ} (enough : words.length < fuel)
    {front : Bytes} (skipped : strListGetItem 44 (front ++ (word ++ others (44 :: blanks) words)) =
      strListGetItem 44 (word ++ others (44 :: blanks) words)) :
    List.Forall₂ IsItem
      (strListItems 44 fuel (front ++ (word ++ others (44 :: blanks) words))) (word :: words) := by
  induction words generalizing word front fuel with
  | nil =>
      obtain ⟨fuel, rfl⟩ := Nat.exists_eq_succ_of_ne_zero (Nat.ne_of_gt enough)
      have item := @Word.item word (others (44 :: blanks) []) listed.1 (.inl rfl)
      rw [strListItems, skipped, item]
      refine .cons ⟨_, rfl, .inl rfl⟩ ?_
      cases fuel with
      | zero => exact .nil
      | succ fuel => exact .nil
  | cons next words ih =>
      obtain ⟨fuel, rfl⟩ := Nat.exists_eq_succ_of_ne_zero (show fuel ≠ 0 by omega)
      rw [length_cons] at enough
      have comma := @others_cons blanks next words
      rw [strListItems, skipped, listed.1.item (.inr ⟨⟨_, comma⟩, listed.2.1 (cons_ne_nil _ _)⟩)]
      refine .cons ⟨_, rfl, .inr ⟨_, comma⟩⟩ ?_
      have separator : ∀ b ∈ 44 :: blanks, isListGap 44 b = true := by
        intro b member
        rcases mem_cons.mp member with rfl | blank
        · decide
        · exact gaps b blank
      rw [comma, ← cons_append]
      exact ih listed.2.2 (by omega) (strListGetItem_gaps separator _)

/-- The items of a list that was written are its words. -/
theorem strListItems_joined (gaps : ∀ b ∈ blanks, isListGap 44 b = true) {words : List Bytes}
    (listed : Listed words) {fuel : ℕ} (enough : words.length < fuel) :
    List.Forall₂ IsItem (strListItems 44 fuel (joined (44 :: blanks) words)) words := by
  cases words with
  | nil =>
      obtain ⟨fuel, rfl⟩ := Nat.exists_eq_succ_of_ne_zero (Nat.ne_of_gt enough)
      exact .nil
  | cons word words =>
      rw [length_cons] at enough
      exact @strListItems_words blanks gaps word words listed fuel (by omega) [] rfl

theorem length_le_joined (separator : Bytes) (listed : Listed words) :
    words.length ≤ (joined separator words).length := by
  have behind : ∀ words, Listed words → words.length ≤ (others separator words).length := by
    intro words
    induction words with
    | nil => exact fun _ => le_rfl
    | cons word words ih =>
        intro listed
        have positive := length_pos_iff.mpr listed.1.ne
        have rest := ih listed.2.2
        simp only [others, flatMap_cons, length_append, length_cons] at rest ⊢
        omega
  cases words with
  | nil => exact Nat.zero_le _
  | cons word words =>
      have positive := length_pos_iff.mpr listed.1.ne
      have rest := behind words listed.2.2
      rw [joined, length_append, length_cons]
      omega

end Joined

/-! ## The items that were read -/

variable {pos : Bytes}

/-- An item is a word, and a closed one unless the string ends behind it. -/
theorem word_of_item {item after : Bytes} {ilen : ℕ}
    (found : strListGetItem 44 pos = some (item, ilen, after)) :
    Word (text (item, ilen)) ∧ (after.headD 0 ≠ 0 → Closed (text (item, ilen))) := by
  simp only [strListGetItem, ite_none_right_eq_some, some.injEq, Prod.mk.injEq]
    at found
  obtain ⟨positive, rfl, rfl, rfl⟩ := found
  generalize start : pos.dropWhile (isListGap 44) = item at positive ⊢
  obtain ⟨passed, next, split, passes, stop⟩ := @resume_spec 44 .plain item
  change item = passed ++ findDelimiter 44 false item at split
  change List.headD (findDelimiter 44 false item) 0 = 0 ∨ next = .plain at stop
  have size : item.length - (findDelimiter 44 false item).length = passed.length := by
    have total := congrArg List.length split
    rw [length_append] at total
    omega
  have shown : text (item, rtrim item (item.length - (findDelimiter 44 false item).length)) =
      passed.rdropWhile isSpace := by
    rw [text, take_rtrim item (Nat.sub_le _ _), size]
    congr 1
    exact (congrArg (List.take passed.length) split).trans (take_left' rfl)
  have ne : passed.rdropWhile isSpace ≠ [] := by
    rw [← shown, text, ne_eq, take_eq_nil_iff]
    rintro (zero | empty)
    · dsimp only at zero
      omega
    · dsimp only at empty
      rw [empty] at positive
      simp [rtrim] at positive
  have whole := rdropWhile_append_rtakeWhile (p := isSpace) (l := passed)
  have spaces : ∀ b ∈ passed.rtakeWhile isSpace, isSpace b = true :=
    fun b member => mem_rtakeWhile_imp member
  generalize passed.rtakeWhile isSpace = blanks at whole spaces
  rw [← whole, scan_append] at passes
  obtain ⟨mid, word, rest⟩ := bind_eq_some_iff.mp passes
  rw [shown]
  refine ⟨⟨ne, ?_, ?_, isSome_iff_exists.mpr ⟨mid, word⟩⟩, ?_⟩
  · intro b head
    obtain ⟨c, tail, first⟩ := exists_cons_of_ne_nil ne
    rw [first] at head
    cases some.inj head
    apply head_dropWhile_gap (s := pos) (t := tail ++ blanks ++ findDelimiter 44 false item)
    rw [start]
    refine split.trans ?_
    rw [← whole, first]
    simp
  · intro b last
    have kept := rdropWhile_last_not isSpace passed ne
    rw [List.getLast?_eq_getLast_of_ne_nil ne] at last
    cases some.inj last
    simpa using kept
  · intro more
    rcases stop with ended | rfl
    · exact absurd ended more
    · rw [Closed, word, plain_of_spaces spaces rest]

/-- The string ends where no item is. -/
theorem strListGetItem_of_ended (ended : Ended pos) : strListGetItem 44 pos = none := by
  have stopped : pos.dropWhile (isListGap 44) = pos := by
    simpa using @dropWhile_gap_append 44 (by decide) [] pos ended
  simp [strListGetItem, stopped, findDelimiter_of_ended ended, rtrim]

/-- The items of a list can be written one behind the other. -/
theorem listed_items (fuel : ℕ) (pos : Bytes) : Listed ((strListItems 44 fuel pos).map text) := by
  induction fuel generalizing pos with
  | zero => exact trivial
  | succ fuel ih =>
      rw [strListItems]
      cases found : strListGetItem 44 pos with
      | none => exact trivial
      | some result =>
          obtain ⟨item, ilen, after⟩ := result
          obtain ⟨isWord, closed⟩ := word_of_item found
          refine ⟨isWord, fun more => closed fun ended => more ?_, ih after⟩
          cases fuel with
          | zero => rfl
          | succ fuel => simp [strListItems, strListGetItem_of_ended ended]

end StrList
end Squid
