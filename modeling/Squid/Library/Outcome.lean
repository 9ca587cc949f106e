import Mathlib.Data.List.Basic

/-!
# What a computation that can fail ensures

A predicate for the results and one for the errors are established together, part by part: the
rules follow `pure`, `throw`, `bind` and a fold over a list.
-/

/-- A result satisfies the first predicate, an error the second one. -/
def Outcome {ε α : Type} (post : α → Prop) (fail : ε → Prop) : Except ε α → Prop
  | .ok a => post a
  | .error e => fail e

namespace Outcome

variable {ε α β : Type} {post : α → Prop} {fail : ε → Prop}

theorem ok {a : α} (holds : post a) : Outcome post fail (.ok a) := holds

theorem error {e : ε} (holds : fail e) : Outcome post fail (.error e) := holds

theorem any (x : Except ε α) : Outcome (fun _ => True) (fun _ => True) x := by
  cases x with
  | ok a => exact trivial
  | error e => exact trivial

variable {x : Except ε α}

theorem of_ok {a : α} (outcome : Outcome post fail x) (done : x = .ok a) : post a := by
  subst done
  exact outcome

theorem of_error {e : ε} (outcome : Outcome post fail x) (failed : x = .error e) : fail e := by
  subst failed
  exact outcome

theorem mono {after : α → Prop} {x : Except ε α} (outcome : Outcome post fail x)
    (weaker : ∀ a, post a → after a) : Outcome after fail x := by
  cases x with
  | ok a => exact weaker a outcome
  | error e => exact outcome

theorem imp {after : α → Prop} {worse : ε → Prop} (outcome : Outcome post fail x)
    (weaker : ∀ a, post a → after a) (allowed : ∀ e, fail e → worse e) : Outcome after worse x := by
  cases x with
  | ok a => exact weaker a outcome
  | error e => exact allowed e outcome

/-- The second part starts from what the first part ensures. -/
theorem bind {after : β → Prop} {f : α → Except ε β} (first : Outcome post fail x)
    (second : ∀ a, post a → Outcome after fail (f a)) : Outcome after fail (x >>= f) := by
  cases x with
  | ok a => exact second a first
  | error e => exact first

/-- An invariant of the steps of a fold is an invariant of the fold. -/
theorem foldlM {inv : β → Prop} {f : β → α → Except ε β} {items : List α} {start : β}
    (initial : inv start) (step : ∀ s, ∀ x ∈ items, inv s → Outcome inv fail (f s x)) :
    Outcome inv fail (items.foldlM f start) := by
  induction items generalizing start with
  | nil => exact initial
  | cons x items ih =>
      rw [List.foldlM_cons]
      apply bind (step start x (by simp) initial)
      intro s holds
      exact ih holds fun t y member => step t y (by simp [member])

end Outcome
