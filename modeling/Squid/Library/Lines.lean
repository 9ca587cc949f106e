import Mathlib.Data.List.DropRight

/-!
# Lines of a text

Separators end lines, and empty lines do not count.  What stands behind the last separator is the
tail of the text; it is not a line yet.
-/

namespace Lines

open List

variable {α : Type*} (sep : α → Bool) {c : α} {front back text word : List α}

/-- The pieces between separators that are not empty. -/
def lines (text : List α) : List (List α) := (text.splitOnP sep).filter fun line => !line.isEmpty

/-- The text up to its last separator. -/
def complete (text : List α) : List α := text.rdropWhile fun c => !sep c

/-- The text behind its last separator. -/
def tail (text : List α) : List α := text.rtakeWhile fun c => !sep c

variable {sep}

@[simp]
theorem lines_nil : lines sep [] = [] := by simp [lines]

theorem lines_append (ends : sep c = true) :
    lines sep (front ++ c :: back) = lines sep front ++ lines sep back := by
  rw [lines, splitOnP_append_cons _ _ ends, filter_append]
  rfl

theorem lines_cons (separator : sep c = true) : lines sep (c :: text) = lines sep text :=
  @lines_append _ sep _ [] _ separator

/-- A word and a separator make a line. -/
theorem lines_word (inside : ∀ d ∈ word, sep d = false) (nonempty : word ≠ [])
    (ends : sep c = true) : lines sep (word ++ c :: back) = word :: lines sep back := by
  rw [lines_append ends, lines, splitOnP_eq_singleton inside]
  simp [nonempty]

theorem lines_dropWhile (text : List α) : lines sep (text.dropWhile sep) = lines sep text := by
  induction text with
  | nil => rfl
  | cons c text ih =>
      cases separator : sep c with
      | false => rw [dropWhile_cons_of_neg (by simp [separator])]
      | true => rw [dropWhile_cons_of_pos separator, ih, lines_cons separator]

/-! ## The last separator -/

theorem complete_append_tail (text : List α) : complete sep text ++ tail sep text = text :=
  rdropWhile_append_rtakeWhile ..

theorem not_sep_of_mem_tail (member : c ∈ tail sep text) : sep c = false := by
  simpa using mem_rtakeWhile_imp member

/-- The complete part is empty or ends with a separator. -/
theorem complete_cases (text : List α) :
    complete sep text = [] ∨ ∃ front c, complete sep text = front ++ [c] ∧ sep c = true := by
  obtain nothing | ⟨front, c, ends⟩ := eq_nil_or_concat (complete sep text)
  · exact Or.inl nothing
  · right
    rw [concat_eq_append] at ends
    refine ⟨front, c, ends, ?_⟩
    have last := rdropWhile_last_not (fun c => !sep c) text
    change ∀ nonempty : complete sep text ≠ [], ¬ (!sep ((complete sep text).getLast nonempty)) at last
    simp only [ends] at last
    simpa using last (by simp)

/-- More text behind a complete one adds its lines. -/
theorem lines_complete_append (text more : List α) :
    lines sep (complete sep text ++ more) = lines sep (complete sep text) ++ lines sep more := by
  obtain nothing | ⟨front, c, ends, separator⟩ := @complete_cases _ sep text
  · rw [nothing, lines_nil]
    rfl
  · rw [ends, List.append_assoc, singleton_append, lines_append separator,
      lines_append separator, lines_nil, List.append_nil]

/-- A separator completes what stands before it. -/
theorem complete_append_sep (front more : List α) (separator : sep c = true) :
    complete sep (front ++ [c] ++ more) = front ++ [c] ++ complete sep more := by
  induction more using List.reverseRecOn with
  | nil =>
      rw [List.append_nil, complete, rdropWhile_concat_neg _ _ _ (by simp [separator])]
      simp [complete]
  | append_singleton more d ih =>
      rw [← List.append_assoc]
      cases ends : sep d with
      | false =>
          rw [complete, complete, rdropWhile_concat_pos _ _ _ (by simp [ends]),
            rdropWhile_concat_pos _ _ _ (by simp [ends])]
          exact ih
      | true =>
          rw [complete, complete, rdropWhile_concat_neg _ _ _ (by simp [ends]),
            rdropWhile_concat_neg _ _ _ (by simp [ends]), List.append_assoc]

/-- What is complete stays so. -/
theorem complete_append (text more : List α) :
    complete sep (text ++ more) = complete sep text ++ complete sep (tail sep text ++ more) := by
  conv_lhs => rw [← @complete_append_tail _ sep text, List.append_assoc]
  obtain nothing | ⟨front, c, ends, separator⟩ := @complete_cases _ sep text
  · rw [nothing]
    rfl
  · rw [ends, complete_append_sep front _ separator]

theorem tail_append (text more : List α) :
    tail sep (text ++ more) = tail sep (tail sep text ++ more) := by
  have whole := @complete_append_tail _ sep (text ++ more)
  have part := @complete_append_tail _ sep (tail sep text ++ more)
  have split := @complete_append_tail _ sep text
  rw [complete_append, List.append_assoc] at whole
  have rest : complete sep (tail sep text ++ more) ++ tail sep (text ++ more) =
      tail sep text ++ more := by
    refine @append_cancel_left _ (complete sep text) _ _ ?_
    rw [whole, ← List.append_assoc, split]
  exact append_cancel_left (rest.trans part.symm)

/-- The lines of a text that goes on. -/
theorem lines_complete (text more : List α) :
    lines sep (complete sep (text ++ more)) =
      lines sep (complete sep text) ++ lines sep (complete sep (tail sep text ++ more)) := by
  rw [complete_append, lines_complete_append]

end Lines
