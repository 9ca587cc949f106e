import Squid.Library.CRuntime
import Mathlib.Data.List.Infix

/-!
# The end of the headers

`headersEnd`, as in `src/mime_header.cc`: an automaton that looks for the line feed of an empty line.
-/

namespace Squid

open CRuntime

/-- One round of the loop of `headersEnd`. -/
def headersState (state : ℕ) (c : UInt8) : ℕ :=
  match state with
  | 0 => if c = 10 then 1 else 0
  | 1 => if c = 13 then 2 else if c = 10 then 3 else 0
  | 2 => if c = 10 then 3 else 0
  | state => state

/-- The loop of `headersEnd` after `e` bytes. -/
def headersEndFrom (state e : ℕ) : Bytes → ℕ
  | [] => if state = 3 then e else 0
  | c :: mime => if state < 3 then headersEndFrom (headersState state c) (e + 1) mime
      else if state = 3 then e else 0

def headersEnd (mime : Bytes) : ℕ := headersEndFrom 1 0 mime

theorem headersEndFrom_le (state e : ℕ) (mime : Bytes) :
    headersEndFrom state e mime ≤ e + mime.length := by
  induction mime generalizing state e with
  | nil =>
      rw [headersEndFrom]
      split <;> omega
  | cons c mime ih =>
      rw [headersEndFrom, List.length_cons]
      split
      · exact (ih _ _).trans (by omega)
      · split <;> omega

theorem headersEnd_le (mime : Bytes) : headersEnd mime ≤ mime.length :=
  (headersEndFrom_le 1 0 mime).trans (Nat.zero_add _).le

variable {mime : Bytes} {state : ℕ}

/-- Where the headers end does not depend on what follows. -/
theorem headersEndFrom_append {e : ℕ} (more : Bytes) (found : headersEndFrom state e mime ≠ 0) :
    headersEndFrom state e (mime ++ more) = headersEndFrom state e mime := by
  induction mime generalizing state e with
  | nil =>
      rw [headersEndFrom] at found ⊢
      split at found
      next last =>
        subst last
        cases more with
        | nil => rfl
        | cons c more => rfl
      next => exact (found rfl).elim
  | cons c mime ih =>
      rw [List.cons_append, headersEndFrom, headersEndFrom]
      rw [headersEndFrom] at found
      split
      next early =>
        rw [if_pos early] at found
        exact ih found
      next => rfl

theorem headersEnd_append (more : Bytes) (found : headersEnd mime ≠ 0) :
    headersEnd (mime ++ more) = headersEnd mime := headersEndFrom_append more found

/-! ## What stands before the end -/

/-- What the automaton has just seen when it is in a state. -/
def Seen (before : Bytes) : ℕ → Prop
  | 1 => [10] <:+ before
  | 2 => [10, 13] <:+ before
  | 3 => [10, 10] <:+ before ∨ [10, 13, 10] <:+ before
  | _ => True

theorem Seen.next {before : Bytes} (seen : Seen before state) (early : state < 3) (c : UInt8) :
    Seen (before ++ [c]) (headersState state c) := by
  have more (last : Bytes) (suffix : last <:+ before) : last ++ [c] <:+ before ++ [c] := by
    obtain ⟨front, rfl⟩ := suffix
    exact ⟨front, (List.append_assoc front last [c]).symm⟩
  match state, early with
  | 0, _ =>
      simp only [headersState]
      split
      next line => exact ⟨before, by rw [line]⟩
      next => trivial
  | 1, _ =>
      simp only [headersState]
      split
      next cr => simpa [Seen, cr] using more [10] seen
      next =>
        split
        next line => exact .inl (by simpa [line] using more [10] seen)
        next => trivial
  | 2, _ =>
      simp only [headersState]
      split
      next line => exact .inr (by simpa [line] using more [10, 13] seen)
      next => trivial

theorem headersEndFrom_three (e : ℕ) (mime : Bytes) : headersEndFrom 3 e mime = e := by
  cases mime with
  | nil => rfl
  | cons c mime => rfl

/-- The headers end behind an empty line, and the offset of the start only moves the end. -/
theorem headersEndFrom_found {e : ℕ} {before : Bytes} (early : state < 3) (seen : Seen before state)
    (found : headersEndFrom state e mime ≠ 0) :
    ∃ block rest, mime = block ++ rest ∧ block ≠ [] ∧
      (∀ start, headersEndFrom state start mime = start + block.length) ∧
      Seen (before ++ block) 3 := by
  induction mime generalizing state e before with
  | nil =>
      rw [headersEndFrom, if_neg early.ne] at found
      exact (found rfl).elim
  | cons c mime ih =>
      have step (start : ℕ) : headersEndFrom state start (c :: mime) =
          headersEndFrom (headersState state c) (start + 1) mime := by
        rw [headersEndFrom, if_pos early]
      rw [step] at found
      have later := seen.next early c
      have bound : headersState state c ≤ 3 := by
        unfold headersState
        split
        · split <;> decide
        · split
          · decide
          · split <;> decide
        · split <;> decide
        · omega
      rcases Nat.lt_or_eq_of_le bound with next | last
      · obtain ⟨block, rest, rfl, _, ends, suffix⟩ := ih next later found
        refine ⟨c :: block, rest, rfl, List.cons_ne_nil _ _, fun start => ?_, ?_⟩
        · rw [step, ends, List.length_cons]
          omega
        · simpa using suffix
      · refine ⟨[c], mime, rfl, List.cons_ne_nil _ _, fun start => ?_, ?_⟩
        · rw [step, last, headersEndFrom_three]
          rfl
        · rw [last] at later
          exact later

/-- Without a line feed the automaton stays where it is. -/
theorem headersEndFrom_line {line : Bytes} (plain : 10 ∉ line) (e : ℕ) (mime : Bytes) :
    headersEndFrom 0 e (line ++ mime) = headersEndFrom 0 (e + line.length) mime := by
  induction line generalizing e with
  | nil => rfl
  | cons c line ih =>
      rw [List.mem_cons, not_or] at plain
      have stay : headersState 0 c = 0 := if_neg fun line => plain.1 line.symm
      rw [List.cons_append, headersEndFrom, if_pos (by decide), stay, ih plain.2, List.length_cons]
      congr 1
      omega

/-- A text that starts like a line is read as if a line had been started. -/
theorem headersEndFrom_one {c : UInt8} (cr : c ≠ 13) (lf : c ≠ 10) (e : ℕ) (mime : Bytes) :
    headersEndFrom 1 e (c :: mime) = headersEndFrom 0 e (c :: mime) := by
  rw [headersEndFrom, headersEndFrom, if_pos (by decide), if_pos (by decide)]
  simp only [headersState, if_neg cr, if_neg lf]

end Squid
