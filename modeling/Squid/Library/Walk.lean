import Mathlib.Data.Set.Finite.Basic

/-!
# Walks along a partial function

A walk goes from each place to the next one until there is none.  It ends exactly if no place is
visited twice, where only finitely many places can be visited.
-/

namespace Walk

variable {α : Type} {next : α → Option α} {start place : α}

/-- The place after some steps, if the walk is that long. -/
def walk (next : α → Option α) : ℕ → α → Option α
  | 0, start => some start
  | steps + 1, start => (next start).bind (walk next steps)

@[simp] theorem walk_zero : walk next 0 start = some start := rfl

theorem walk_succ (steps : ℕ) :
    walk next (steps + 1) start = (next start).bind (walk next steps) := rfl

theorem walk_add (first second : ℕ) :
    walk next (first + second) start = (walk next first start).bind (walk next second) := by
  induction first generalizing start with
  | zero => simp
  | succ first ih =>
      rw [Nat.add_right_comm, walk_succ, walk_succ]
      cases next start with
      | none => rfl
      | some place => exact ih

/-- An invariant of the steps holds at every place of a walk. -/
theorem inv_of_walk {inv : α → Prop}
    (step : ∀ {here after},
      inv here → next here = some after → inv after) {steps : ℕ} (initial : inv start) (visited :
        walk next steps start = some place) : inv place := by
  induction steps generalizing start with
  | zero =>
      obtain rfl : start = place := by simpa using visited
      exact initial
  | succ steps ih =>
      obtain ⟨after, onward, rest⟩ := Option.bind_eq_some_iff.1 visited
      exact ih (step initial onward) rest

/-- A walk that has ended goes on nowhere. -/
theorem walk_eq_none_of_le {first second : ℕ} (ended : walk next first start = none)
    (later : first ≤ second) : walk next second start = none := by
  obtain ⟨more, rfl⟩ := Nat.exists_eq_add_of_le later
  rw [walk_add, ended, Option.bind_none]

/-- A walk that comes back to a place never ends. -/
theorem walk_ne_none_of_return {period : ℕ} (positive : 0 < period)
    (back : walk next period start = some start) (steps : ℕ) : walk next steps start ≠ none := by
  have rounds : ∀ count, walk next (period * count) start = some start := by
    intro count
    induction count with
    | zero => simp
    | succ count ih => rw [Nat.mul_succ, walk_add, ih, Option.bind_some, back]
  intro ended
  have long : walk next (period * steps) start = none :=
    walk_eq_none_of_le ended (Nat.le_mul_of_pos_left steps positive)
  rw [rounds steps] at long
  cases long

/-- A walk that ends visits no place twice. -/
theorem ne_of_ends {steps first second : ℕ} (ended : walk next steps start = none)
    (less : first < second) (visited : walk next first start = some place) :
    walk next second start ≠ some place := by
  intro again
  obtain ⟨period, rfl⟩ := Nat.exists_eq_add_of_le less.le
  have positive : 0 < period := by omega
  have back : walk next period place = some place := by
    rwa [walk_add, visited, Option.bind_some] at again
  refine walk_ne_none_of_return positive back steps ?_
  have long := walk_eq_none_of_le ended (Nat.le_add_left steps first)
  rwa [walk_add, visited, Option.bind_some] at long

/-- A walk through finitely many places ends if it visits no place twice. -/
theorem ends_of_ne {places : Set α} (finite : places.Finite)
    (inside : ∀ steps place, walk next steps start = some place → (next place).isSome →
      place ∈ places)
    (new : ∀ first second place, first < second → walk next first start = some place →
      (next place).isSome → walk next second start ≠ some place) :
    ∃ steps, walk next steps start = none := by
  by_contra endless
  push Not at endless
  have visited : ∀ steps, ∃ place, walk next steps start = some place ∧ (next place).isSome := by
    intro steps
    obtain ⟨place, here⟩ := Option.ne_none_iff_exists'.1 (endless steps)
    refine ⟨place, here, ?_⟩
    have further := endless (steps + 1)
    rw [walk_add, here, Option.bind_some, walk_succ] at further
    cases onward : next place with
    | none => simp [onward] at further
    | some _ => rfl
  choose place here onward using visited
  have distinct : Function.Injective place := by
    intro first second same
    rcases Nat.lt_trichotomy first second with less | equal | less
    · exact absurd (same ▸ here second)
        (new first second (place first) less (here first) (onward first))
    · exact equal
    · exact absurd (same ▸ here first)
        (new second first (place second) less (here second) (onward second))
  have infinite : (Set.range place).Infinite := Set.infinite_range_of_injective distinct
  refine infinite (finite.subset ?_)
  rintro _ ⟨steps, rfl⟩
  exact inside steps (place steps) (here steps) (onward steps)

end Walk
