import Mathlib.Data.List.Basic

/-!
# Runs of labelled transition functions

A partial transition function `next : σ → α → Option σ` resolves every scheduling choice through
its label.  A run is the sequential composition of `next` along a list of labels.  The rules below
carry a state invariant along a run, optionally under a condition that every step of the run has
to meet in the state in which it is taken.
-/

namespace LabelledRun

variable {σ α : Type*} {next : σ → α → Option σ}

/-- Take the labelled transitions one after the other, failing at the first disabled label. -/
def exec (next : σ → α → Option σ) : σ → List α → Option σ
  | state, [] => some state
  | state, label :: labels =>
      match next state label with
      | none => none
      | some successor => exec next successor labels

@[simp]
theorem exec_nil (state : σ) : exec next state [] = some state := rfl

theorem exec_cons (state : σ) (label : α) (labels : List α) :
    exec next state (label :: labels) =
      (next state label).bind fun successor => exec next successor labels := by
  simp only [exec]
  cases next state label <;> rfl

theorem exec_append (state : σ) (front back : List α) :
    exec next state (front ++ back) =
      (exec next state front).bind fun middle => exec next middle back := by
  induction front generalizing state with
  | nil => rfl
  | cons label front ih =>
      simp only [List.cons_append, exec_cons]
      cases next state label with
      | none => rfl
      | some successor => exact ih successor

variable {after before middle : σ}

theorem exec_trans {front back : List α} (first : exec next before front = some middle)
    (second : exec next middle back = some after) :
    exec next before (front ++ back) = some after := by
  rw [exec_append, first]
  exact second

/-- Every step of the run is taken in a state where the label is allowed. -/
def Allowed (next : σ → α → Option σ) (allowed : σ → α → Prop) : σ → List α → Prop
  | _, [] => True
  | state, label :: labels =>
      allowed state label ∧
        ∀ successor, next state label = some successor → Allowed next allowed successor labels

theorem Allowed.cons {allowed : σ → α → Prop} {state successor : σ} {label : α} {labels : List α}
    (ok : allowed state label) (step : next state label = some successor)
    (later : Allowed next allowed successor labels) :
    Allowed next allowed state (label :: labels) := by
  refine ⟨ok, fun other same => ?_⟩
  cases Option.some.inj (step.symm.trans same)
  exact later

variable {allowed : σ → α → Prop} {labels : List α} {state : σ}

theorem allowed_cons_iff {successor : σ} {label : α} (step : next state label = some successor) :
    Allowed next allowed state (label :: labels) ↔
      allowed state label ∧ Allowed next allowed successor labels :=
  ⟨fun all => ⟨all.1, all.2 successor step⟩, fun both => Allowed.cons both.1 step both.2⟩

theorem allowed_of_forall (always : ∀ state label, allowed state label) (state : σ)
    (labels : List α) : Allowed next allowed state labels := by
  induction labels generalizing state with
  | nil => trivial
  | cons label labels ih => exact ⟨always state label, fun successor _ => ih successor⟩

theorem allowed_of_forall_mem (always : ∀ state, ∀ label ∈ labels, allowed state label) :
    Allowed next allowed state labels := by
  induction labels generalizing state with
  | nil => trivial
  | cons label labels ih =>
      refine ⟨always state label (by simp), fun successor _ => ih ?_⟩
      exact fun other later member => always other later (by simp [member])

/-- Whether a run is allowed can be tested along the run. -/
instance Allowed.decidable {allowed : σ → α → Prop}
    [∀ state label, Decidable (allowed state label)] :
    ∀ (state : σ) (labels : List α), Decidable (Allowed next allowed state labels)
  | _, [] => .isTrue trivial
  | state, label :: labels =>
      have _later : Decidable (∀ successor, next state label = some successor →
          Allowed next allowed successor labels) :=
        match next state label with
        | none => .isTrue nofun
        | some successor =>
            have _rest : Decidable (Allowed next allowed successor labels) :=
              Allowed.decidable successor labels
            decidable_of_iff (Allowed next allowed successor labels)
              ⟨fun holds _ same => Option.some.inj same ▸ holds, fun holds => holds successor rfl⟩
      inferInstanceAs (Decidable (_ ∧ _))

/-- An invariant kept by every allowed step holds at the end of a run of allowed steps. -/
theorem invariant_of_allowed {Inv : σ → Prop} {allowed : σ → α → Prop}
    (keep : ∀ {before label after}, Inv before → allowed before label →
      next before label = some after → Inv after)
    {before after : σ} {labels : List α} (start : Inv before)
    (steps : Allowed next allowed before labels)
    (run : exec next before labels = some after) : Inv after := by
  induction labels generalizing before with
  | nil =>
      cases Option.some.inj run
      exact start
  | cons label labels ih =>
      rw [exec_cons, Option.bind_eq_some_iff] at run
      obtain ⟨middle, step, later⟩ := run
      exact ih (keep start steps.1 step) (steps.2 middle step) later

variable {Inv : σ → Prop}

/-- An invariant kept by every step holds at the end of every run. -/
theorem invariant
    (keep : ∀ {before label after}, Inv before → next before label = some after → Inv after)
    (start : Inv before) (run : exec next before labels = some after) : Inv after := by
  have steps : Allowed next (fun _ _ => True) before labels :=
    allowed_of_forall (fun _ _ => trivial) before labels
  exact invariant_of_allowed (fun inv _ step => keep inv step) start steps run

/-- An invariant under which every step can be taken and which every step keeps leads through any
list of labels. -/
theorem exec_of_progress
    (progress : ∀ {state}, Inv state → ∀ label, ∃ successor, next state label = some successor ∧
      Inv successor) (start : Inv state) (labels : List α) :
    ∃ final, exec next state labels = some final ∧ Inv final := by
  induction labels generalizing state with
  | nil => exact ⟨state, rfl, start⟩
  | cons label labels ih =>
      obtain ⟨successor, step, kept⟩ := progress start label
      obtain ⟨final, run, inv⟩ := ih kept
      exact ⟨final, by rw [exec_cons, step, Option.bind_some, run], inv⟩

/-- The states in which some run from `initial` can end. -/
def Reachable (next : σ → α → Option σ) (initial state : σ) : Prop :=
  ∃ labels, exec next initial labels = some state

theorem Reachable.refl (initial : σ) : Reachable next initial initial := ⟨[], rfl⟩

variable {initial : σ}

theorem Reachable.append (reach : Reachable next initial middle)
    (run : exec next middle labels = some state) : Reachable next initial state := by
  obtain ⟨front, first⟩ := reach
  exact ⟨front ++ labels, exec_trans first run⟩

theorem Reachable.step {initial before after : σ} {label : α}
    (reach : Reachable next initial before) (step : next before label = some after) :
    Reachable next initial after := by
  have run : exec next before [label] = some after := by simp [exec_cons, step]
  exact reach.append run

/-- An invariant that holds initially and is kept by every step holds in every reachable state. -/
theorem Reachable.invariant
    (keep : ∀ {before label after}, Inv before → next before label = some after → Inv after)
    (start : Inv initial) (reach : Reachable next initial state) : Inv state := by
  obtain ⟨labels, run⟩ := reach
  exact LabelledRun.invariant keep start run

end LabelledRun
