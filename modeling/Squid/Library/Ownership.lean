import Mathlib.Logic.Function.Basic

/-!
# Things with one owner each

Every owner may have one thing, nothing has two owners, and a map marks the things that have one.
The map follows when a thing is acquired or released.
-/

/-- The map marks the things that have an owner, which is the only one. -/
structure Ownership {ι φ : Type*} (owned : ι → Option φ) (marked : φ → Bool) : Prop where
  marked_iff : ∀ thing, marked thing = true ↔ ∃ owner, owned owner = some thing
  unique : ∀ {owner other thing}, owned owner = some thing → owned other = some thing →
    owner = other

namespace Ownership

open Function

variable {ι φ : Type*} {owned : ι → Option φ} {marked : φ → Bool} {owner : ι} {thing : φ}

theorem isMarked (own : Ownership owned marked) (owns : owned owner = some thing) :
    marked thing = true := (own.marked_iff thing).mpr ⟨owner, owns⟩

/-- Nobody has a thing that is not marked. -/
theorem unowned (own : Ownership owned marked) (unused : marked thing = false) :
    owned owner ≠ some thing := by
  intro owns
  rw [own.isMarked owns] at unused
  cases unused

theorem existsUnique_iff (own : Ownership owned marked) :
    marked thing = true ↔ ∃! owner, owned owner = some thing := by
  rw [own.marked_iff]
  constructor
  · rintro ⟨owner, owns⟩
    exact ⟨owner, owns, fun other also => own.unique also owns⟩
  · rintro ⟨owner, owns, -⟩
    exact ⟨owner, owns⟩

variable [DecidableEq ι]

theorem owned_of_released {holder : ι}
    (holds : update owned owner none holder = some thing) :
    holder ≠ owner ∧ owned holder = some thing := by
  by_cases self : holder = owner
  · rw [self, update_self] at holds
    cases holds
  · rw [update_of_ne self] at holds
    exact ⟨self, holds⟩

variable [DecidableEq φ]

/-- The owner of a thing releases it. -/
theorem release (own : Ownership owned marked) (owns : owned owner = some thing) :
    Ownership (update owned owner none) (update marked thing false) where
  marked_iff := by
    intro other
    by_cases same : other = thing
    · subst same
      rw [update_self]
      refine iff_of_false nofun ?_
      rintro ⟨holder, holds⟩
      obtain ⟨self, holds⟩ := owned_of_released holds
      exact self (own.unique holds owns)
    · rw [update_of_ne same, own.marked_iff]
      refine exists_congr fun holder => ?_
      by_cases self : holder = owner
      · rw [self, update_self, owns]
        exact iff_of_false (fun also => same (Option.some.inj also).symm) nofun
      · rw [update_of_ne self]
  unique one two := own.unique (owned_of_released one).2 (owned_of_released two).2

/-- Somebody without a thing acquires one that is not marked. -/
theorem acquire (own : Ownership owned marked) (free : owned owner = none)
    (unused : marked thing = false) :
    Ownership (update owned owner (some thing)) (update marked thing true) where
  marked_iff := by
    intro other
    by_cases same : other = thing
    · subst same
      rw [update_self]
      exact iff_of_true rfl ⟨owner, update_self _ _ _⟩
    · rw [update_of_ne same, own.marked_iff]
      refine exists_congr fun holder => ?_
      by_cases self : holder = owner
      · rw [self, update_self, free]
        exact iff_of_false nofun fun also => same (Option.some.inj also).symm
      · rw [update_of_ne self]
  unique := by
    intro first second other one two
    by_cases self : first = owner
    · rw [self, update_self] at one
      cases one
      by_cases also : second = owner
      · exact self.trans also.symm
      · rw [update_of_ne also] at two
        exact (own.unowned unused two).elim
    · rw [update_of_ne self] at one
      by_cases also : second = owner
      · rw [also, update_self] at two
        cases two
        exact (own.unowned unused one).elim
      · rw [update_of_ne also] at two
        exact own.unique one two

end Ownership
