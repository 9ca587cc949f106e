import Mathlib.Data.List.Basic

/-!
# Computations that log what they touch

A traced computation returns its result and the list of the events on the way, in order.  The
events of a composition are those of the first part and then those of the second part, so a
property of all the events can be established part by part.
-/

/-- A result and the events that led to it. -/
structure Traced (ε α : Type) where
  /-- The value returned. -/
  result : α
  /-- The events, the earliest first. -/
  events : List ε

namespace Traced

variable {ε α β : Type}

instance : Monad (Traced ε) where
  pure a := ⟨a, []⟩
  bind x f := ⟨(f x.result).result, x.events ++ (f x.result).events⟩

/-- Log one event. -/
def emit (event : ε) : Traced ε Unit := ⟨(), [event]⟩

/-- All the events have the property. -/
def All (property : ε → Prop) (x : Traced ε α) : Prop := ∀ event ∈ x.events, property event

@[simp] theorem result_pure (a : α) : (pure a : Traced ε α).result = a := rfl

@[simp] theorem result_bind (x : Traced ε α) (f : α → Traced ε β) :
    (x >>= f).result = (f x.result).result := rfl

@[simp] theorem all_pure (property : ε → Prop) (a : α) : All property (pure a : Traced ε α) := by
  intro event member
  cases member

variable {property : ε → Prop}

@[simp] theorem all_emit {event : ε} : All property (emit event) ↔ property event := by
  simp [All, emit]

@[simp] theorem all_bind {x : Traced ε α} {f : α → Traced ε β} :
    All property (x >>= f) ↔ All property x ∧ All property (f x.result) :=
  List.forall_mem_append

/-- A property of the events of every step is one of the events of a fold. -/
theorem all_foldlM {f : β → α → Traced ε β} (each : ∀ state item, All property (f state item))
    (items : List α) (state : β) : All property (items.foldlM f state) := by
  induction items generalizing state with
  | nil => exact all_pure property state
  | cons item items ih =>
      rw [List.foldlM_cons, all_bind]
      exact ⟨each state item, ih _⟩

end Traced
