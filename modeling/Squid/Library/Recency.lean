import Mathlib.Data.List.Basic

/-!
# Recency

A history lists its events, the latest first, and an event may use a name.  The age of a name is
the number of events since it was last used.  Names in the order in which they were used keep
this order through events that use none of them, and a name that is used comes first.
-/

namespace Recency

variable {ε ι : Type*} [DecidableEq ι] {used : ε → Option ι} {history : List ε} {event : ε}
  {name : ι} {names : List ι}

/-- The number of events since a name was last used. -/
def age (used : ε → Option ι) (name : ι) : List ε → ℕ
  | [] => 0
  | event :: history => if used event = some name then 0 else age used name history + 1

/-- The names are listed from the one used last to the one used first. -/
def Ordered (used : ε → Option ι) (history : List ε) (names : List ι) : Prop :=
  names.Pairwise fun later earlier => age used later history < age used earlier history

theorem Ordered.sublist {part : List ι} (ordered : Ordered used history names)
    (sub : part.Sublist names) : Ordered used history part :=
  List.Pairwise.sublist sub ordered

theorem age_of_unused (unused : used event ≠ some name) :
    age used name (event :: history) = age used name history + 1 := if_neg unused

/-- An event that uses none of the names keeps their order. -/
theorem Ordered.skip (ordered : Ordered used history names)
    (unused : ∀ name ∈ names, used event ≠ some name) : Ordered used (event :: history) names := by
  refine List.Pairwise.imp_of_mem (fun later earlier order => ?_) ordered
  rw [age_of_unused (unused _ later), age_of_unused (unused _ earlier)]
  exact Nat.succ_lt_succ order

/-- The name that an event uses comes before the others. -/
theorem Ordered.use (ordered : Ordered used history names) (uses : used event = some name)
    (fresh : name ∉ names) : Ordered used (event :: history) (name :: names) := by
  have unused : ∀ other ∈ names, used event ≠ some other := by
    intro other member same
    cases uses.symm.trans same
    exact fresh member
  refine List.pairwise_cons.mpr ⟨fun other member => ?_, ordered.skip unused⟩
  rw [age_of_unused (unused other member), age, if_pos uses]
  exact Nat.succ_pos _

/-- Names further behind were used longer ago. -/
theorem Ordered.lt_of_append {front back : List ι} (ordered : Ordered used history (front ++ back))
    {later earlier : ι} (in_front : later ∈ front) (in_back : earlier ∈ back) :
    age used later history < age used earlier history :=
  (List.pairwise_append.mp ordered).2.2 later in_front earlier in_back

end Recency
