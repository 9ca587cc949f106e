import Mathlib.Algebra.Order.Ring.Int
import Mathlib.Data.List.Basic
import Mathlib.Tactic.Common

/-!
# Splay trees

The top-down splay trees of `include/splay.h`.  A comparison function is applied to the value that
is looked for before it is passed on, so that it takes a value of the tree only.  What the
functions do to a tree is said in terms of its in-order sequence.
-/

namespace Squid

open List

universe u

variable {V : Type u}

/-- `SplayNode`, where `null` is the null pointer. -/
inductive SplayNode (V : Type u)
  | null
  | node (left : SplayNode V) (data : V) (right : SplayNode V)
  deriving DecidableEq

namespace SplayNode

/-- The values in order, as `walk` meets them. -/
def toList : SplayNode V → List V
  | null => []
  | node left data right => left.toList ++ data :: right.toList

/-- The tree under `N.right`: nodes linked left, the last one first, with `tree` at the end. -/
def linkLeft : List (SplayNode V × V) → SplayNode V → SplayNode V
  | [], tree => tree
  | (left, data) :: l, tree => linkLeft l (node left data tree)

/-- The tree under `N.left`: nodes linked right, the last one first, with `tree` at the end. -/
def linkRight : List (V × SplayNode V) → SplayNode V → SplayNode V
  | [], tree => tree
  | (data, right) :: r, tree => linkRight r (node tree data right)

/-- The assembly after the loop of `splay`. -/
def assemble (l : List (SplayNode V × V)) (r : List (V × SplayNode V)) (left : SplayNode V)
    (data : V) (right : SplayNode V) : SplayNode V :=
  node (linkLeft l left) data (linkRight r right)

/-- The loop of `splay`, with the last comparison and the new top. -/
def splayLoop (compare : V → ℤ) :
    SplayNode V → List (SplayNode V × V) → List (V × SplayNode V) → ℤ × SplayNode V
  | null, _, _ => (-1, null)
  | node left data right, l, r =>
      if compare data < 0 then
        match left with
        | null => (compare data, assemble l r null data right)
        | node yLeft y yRight =>
            if compare y < 0 then
              match yLeft with
              | null => (compare y, assemble l r null y (node yRight data right))
              | node zLeft z zRight =>
                  splayLoop compare (node zLeft z zRight) l ((y, node yRight data right) :: r)
            else
              splayLoop compare (node yLeft y yRight) l ((data, right) :: r)
      else if 0 < compare data then
        match right with
        | null => (compare data, assemble l r left data null)
        | node yLeft y yRight =>
            if 0 < compare y then
              match yRight with
              | null => (compare y, assemble l r (node left data yLeft) y null)
              | node zLeft z zRight =>
                  splayLoop compare (node zLeft z zRight) ((node left data yLeft, y) :: l) r
            else
              splayLoop compare (node yLeft y yRight) ((left, data) :: l) r
      else
        (compare data, assemble l r left data right)

/-- `splay`, with `splayLastResult`. -/
def splay (compare : V → ℤ) (tree : SplayNode V) : ℤ × SplayNode V := splayLoop compare tree [] []

def insert (value : V) (compare : V → ℤ) (tree : SplayNode V) : SplayNode V :=
  match splay compare tree with
  | (_, null) => node null value null
  | (splayLastResult, node left data right) =>
      if splayLastResult < 0 then
        node left value (node null data right)
      else if 0 < splayLastResult then
        node (node left data null) value right
      else
        node left data right

def remove (compare : V → ℤ) (tree : SplayNode V) : SplayNode V :=
  match splay compare tree with
  | (_, null) => null
  | (splayLastResult, node left data right) =>
      if splayLastResult = 0 then
        match splay compare left with
        | (_, null) => right
        | (_, node newLeft newTop _) => node newLeft newTop right
      else
        node left data right

/-- `start`: the first value. -/
def start : SplayNode V → Option V
  | null => none
  | node null data _ => some data
  | node left _ _ => left.start

/-- `finish`: the last value. -/
def finish : SplayNode V → Option V
  | null => none
  | node _ data null => some data
  | node _ _ right => right.finish

/-! ## The in-order sequence -/

@[simp]
theorem toList_null : (null : SplayNode V).toList = [] := rfl

@[simp]
theorem toList_node (left : SplayNode V) (data : V) (right : SplayNode V) :
    (node left data right).toList = left.toList ++ data :: right.toList := rfl

/-- Values that have been linked left. -/
def lefts (l : List (SplayNode V × V)) : List V := (linkLeft l null).toList

/-- Values that have been linked right. -/
def rights (r : List (V × SplayNode V)) : List V := (linkRight r null).toList

theorem toList_linkLeft (l : List (SplayNode V × V)) (tree : SplayNode V) :
    (linkLeft l tree).toList = lefts l ++ tree.toList := by
  induction l generalizing tree with
  | nil => rfl
  | cons entry l ih =>
      obtain ⟨left, data⟩ := entry
      have whole : lefts ((left, data) :: l) = lefts l ++ (node left data null).toList :=
        ih (node left data null)
      rw [linkLeft, ih, whole]
      simp

theorem toList_linkRight (r : List (V × SplayNode V)) (tree : SplayNode V) :
    (linkRight r tree).toList = tree.toList ++ rights r := by
  induction r generalizing tree with
  | nil => simp [linkRight, rights]
  | cons entry r ih =>
      obtain ⟨data, right⟩ := entry
      have whole : rights ((data, right) :: r) = (node null data right).toList ++ rights r :=
        ih (node null data right)
      rw [linkRight, ih, whole]
      simp

@[simp]
theorem lefts_nil : lefts ([] : List (SplayNode V × V)) = [] := rfl

@[simp]
theorem rights_nil : rights ([] : List (V × SplayNode V)) = [] := rfl

@[simp]
theorem lefts_cons (left : SplayNode V) (data : V) (l : List (SplayNode V × V)) :
    lefts ((left, data) :: l) = lefts l ++ (left.toList ++ [data]) := by
  rw [lefts, linkLeft, toList_linkLeft]
  simp

@[simp]
theorem rights_cons (data : V) (right : SplayNode V) (r : List (V × SplayNode V)) :
    rights ((data, right) :: r) = data :: right.toList ++ rights r := by
  rw [rights, linkRight, toList_linkRight]
  simp

/-! ## Searching -/

/-- The comparison goes with the order: positive values, then zeros, then negative ones. -/
def Consistent (compare : V → ℤ) (values : List V) : Prop :=
  values.Pairwise fun a b => (compare a ≤ 0 → compare b ≤ 0) ∧ (compare a < 0 → compare b < 0)

variable {compare : V → ℤ}

theorem Consistent.congr {other : V → ℤ} {values : List V} (consistent : Consistent compare values)
    (same : ∀ x ∈ values, other x = compare x) : Consistent other values := by
  refine List.Pairwise.imp_of_mem ?_ consistent
  intro a b first second order
  rwa [same a first, same b second]

variable {back front : List V}

variable {data : V}

theorem Consistent.before (consistent : Consistent compare (front ++ data :: back))
    (positive : 0 < compare data) : ∀ x ∈ front ++ [data], 0 < compare x := by
  intro x member
  rcases mem_append.mp member with earlier | last
  · have order := (pairwise_append.mp consistent).2.2 x earlier data (by simp)
    by_contra other
    have := order.1 (by omega)
    omega
  · rwa [mem_singleton.mp last]

theorem Consistent.after (consistent : Consistent compare (front ++ data :: back))
    (negative : compare data < 0) : ∀ x ∈ data :: back, compare x < 0 := by
  intro x member
  rcases mem_cons.mp member with rfl | later
  · exact negative
  · have order := (pairwise_append.mp consistent).2.1
    exact ((pairwise_cons.mp order).1 x later).2 negative

/-- The root is a value that compares equal, or next to where the value looked for would be. -/
def Neighbour (compare : V → ℤ) (left : List V) (data : V) (right : List V) : Prop :=
  (compare data < 0 → ∀ x ∈ left, 0 < compare x) ∧ (0 < compare data → ∀ x ∈ right, compare x < 0)

variable {tree : SplayNode V}

/-- The loop keeps the values in order, those linked before included. -/
theorem splayLoop_spec (compare : V → ℤ) (ne : tree ≠ null) (l : List (SplayNode V × V))
    (r : List (V × SplayNode V)) :
    ∃ left data right, splayLoop compare tree l r = (compare data, node left data right) ∧
      left.toList ++ data :: right.toList = lefts l ++ (tree.toList ++ rights r) ∧
      (Consistent compare (lefts l ++ (tree.toList ++ rights r)) → (∀ x ∈ lefts l, 0 < compare x) →
        (∀ x ∈ rights r, compare x < 0) → Neighbour compare left.toList data right.toList) := by
  fun_induction splayLoop compare tree l r with
  | case1 => exact absurd rfl ne
  | case2 data right l r negative | case3 data right l r negative y yRight yNegative =>
      refine ⟨_, _, _, rfl, by simp [toList_linkLeft, toList_linkRight], ?_⟩
      intro _ before _
      refine ⟨fun _ => ?_, fun positive => by omega⟩
      simpa [toList_linkLeft] using before
  | case4 data right l r negative y yRight yNegative zLeft z zRight ih =>
      obtain ⟨left, root, right', result, values, neighbour⟩ := ih nofun
      refine ⟨left, root, right', result, by simpa using values, ?_⟩
      intro consistent before _
      have moved : Consistent compare (lefts l ++ (node zLeft z zRight).toList ++
          rights ((y, node yRight data right) :: r)) := by
        simpa using consistent
      rw [rights_cons, cons_append] at moved
      refine neighbour (by simpa using consistent) before ?_
      rw [rights_cons, cons_append]
      exact moved.after yNegative
  | case5 data right l r negative yLeft y yRight _ ih =>
      obtain ⟨left, root, right', result, values, neighbour⟩ := ih nofun
      refine ⟨left, root, right', result, by simpa using values, ?_⟩
      intro consistent before _
      have moved : Consistent compare (lefts l ++ (node yLeft y yRight).toList ++
          rights ((data, right) :: r)) := by
        simpa using consistent
      rw [rights_cons, cons_append] at moved
      refine neighbour (by simpa using consistent) before ?_
      rw [rights_cons, cons_append]
      exact moved.after negative
  | case6 left data l r _ positive | case7 left data l r _ positive yLeft y yPositive =>
      refine ⟨_, _, _, rfl, by simp [toList_linkLeft, toList_linkRight], ?_⟩
      intro _ _ after
      refine ⟨fun negative => by omega, fun _ => ?_⟩
      simpa [toList_linkRight] using after
  | case8 left data l r _ positive yLeft y yPositive zLeft z zRight ih =>
      obtain ⟨left', root, right, result, values, neighbour⟩ := ih nofun
      refine ⟨left', root, right, result, by simpa using values, ?_⟩
      intro consistent _ after
      have moved : Consistent compare (lefts l ++ (node left data yLeft).toList ++
          y :: ((node zLeft z zRight).toList ++ rights r)) := by
        simpa using consistent
      refine neighbour (by simpa using consistent) ?_ after
      simpa using moved.before yPositive
  | case9 left data l r _ positive yLeft y yRight _ ih =>
      obtain ⟨left', root, right, result, values, neighbour⟩ := ih nofun
      refine ⟨left', root, right, result, by simpa using values, ?_⟩
      intro consistent _ after
      have moved : Consistent compare (lefts l ++ left.toList ++
          data :: ((node yLeft y yRight).toList ++ rights r)) := by
        simpa using consistent
      refine neighbour (by simpa using consistent) ?_ after
      simpa using moved.before positive
  | case10 left data right l r negative positive =>
      refine ⟨_, _, _, rfl, by simp [toList_linkLeft, toList_linkRight], ?_⟩
      intro _ _ _
      exact ⟨fun below => absurd below negative, fun above => absurd above positive⟩

/-- `splay` keeps the values in order and brings the right one to the root. -/
theorem splay_spec (compare : V → ℤ) (ne : tree ≠ null) :
    ∃ left data right, splay compare tree = (compare data, node left data right) ∧
      left.toList ++ data :: right.toList = tree.toList ∧
      (Consistent compare tree.toList → Neighbour compare left.toList data right.toList) := by
  obtain ⟨left, data, right, result, values, neighbour⟩ := splayLoop_spec compare ne [] []
  refine ⟨left, data, right, result, by simpa using values, fun consistent => ?_⟩
  exact neighbour (by simpa using consistent) (by simp) (by simp)

theorem toList_eq_nil : tree.toList = [] ↔ tree = null := by
  cases tree <;> simp

theorem toList_splay (compare : V → ℤ) (tree : SplayNode V) :
    (splay compare tree).2.toList = tree.toList := by
  by_cases ne : tree = null
  · subst ne
    rfl
  · obtain ⟨left, data, right, result, values, -⟩ := splay_spec compare ne
    rw [result]
    exact values

/-- A value that compares equal is found if there is one, and it is the root then. -/
theorem splay_eq_zero_iff (consistent : Consistent compare tree.toList) :
    (splay compare tree).1 = 0 ↔ ∃ x ∈ tree.toList, compare x = 0 := by
  by_cases ne : tree = null
  · subst ne
    simp [splay, splayLoop]
  · obtain ⟨left, data, right, result, values, neighbour⟩ := splay_spec compare ne
    obtain ⟨below, above⟩ := neighbour consistent
    rw [result, ← values]
    rw [← values] at consistent
    constructor
    · exact fun zero => ⟨data, by simp, zero⟩
    · rintro ⟨x, member, zero⟩
      by_contra other
      rcases lt_or_gt_of_ne other with negative | positive
      · rcases mem_append.mp member with member | member
        · have := below negative x member
          omega
        · have := consistent.after negative x member
          omega
      · rw [append_cons] at member
        rcases mem_append.mp member with member | member
        · have := consistent.before positive x member
          omega
        · have := above positive x member
          omega

/-- A new value comes between those before and those after it, and is the root then. -/
theorem insert_spec (value : V) (consistent : Consistent compare tree.toList)
    (absent : ∀ x ∈ tree.toList, compare x ≠ 0) :
    ∃ left right, insert value compare tree = node left value right ∧
      left.toList ++ right.toList = tree.toList ∧ (∀ x ∈ left.toList, 0 < compare x) ∧
      ∀ x ∈ right.toList, compare x < 0 := by
  by_cases ne : tree = null
  · subst ne
    exact ⟨null, null, rfl, rfl, by simp, by simp⟩
  · obtain ⟨left, data, right, result, values, neighbour⟩ := splay_spec compare ne
    obtain ⟨below, above⟩ := neighbour consistent
    have other := absent data (by rw [← values]; simp)
    rw [← values] at consistent
    rw [insert, result]
    dsimp only
    rcases lt_or_gt_of_ne other with negative | positive
    · rw [if_pos negative]
      exact ⟨left, node null data right, rfl, by simpa using values, below negative,
        by simpa using consistent.after negative⟩
    · rw [if_neg (by omega), if_pos positive]
      exact ⟨node left data null, right, rfl, by simpa using values,
        by simpa using consistent.before positive, above positive⟩

/-- Positive values, any value and negative values. -/
theorem consistent_of_split (value : V) (before : ∀ x ∈ front, 0 < compare x)
    (after : ∀ x ∈ back, compare x < 0) : Consistent compare (front ++ value :: back) := by
  rw [Consistent, pairwise_append, pairwise_cons]
  refine ⟨pairwise_of_forall_mem_list fun a first b second => ?_, ⟨fun b second => ?_,
    pairwise_of_forall_mem_list fun a first b second => ?_⟩, fun a first b second => ?_⟩
  · have := before a first
    exact ⟨fun low => by omega, fun low => by omega⟩
  · have := after b second
    exact ⟨fun _ => by omega, fun _ => by omega⟩
  · have := after b second
    exact ⟨fun _ => by omega, fun _ => by omega⟩
  · have := before a first
    exact ⟨fun low => by omega, fun low => by omega⟩

/-- A removal takes out the one value that compares equal. -/
theorem remove_spec {compare : V → ℤ} {tree : SplayNode V} {front back : List V} {value : V}
    (values : tree.toList = front ++ value :: back) (zero : compare value = 0)
    (before : ∀ x ∈ front, 0 < compare x) (after : ∀ x ∈ back, compare x < 0) :
    (remove compare tree).toList = front ++ back := by
  have consistent : Consistent compare tree.toList := by
    rw [values]
    exact consistent_of_split value before after
  have ne : tree ≠ null := by
    intro empty
    rw [empty, toList_null] at values
    exact cons_ne_nil _ _ (append_eq_nil_iff.mp values.symm).2
  obtain ⟨left, data, right, result, split, neighbour⟩ := splay_spec compare ne
  have found : compare data = 0 := by
    have exists_zero := (splay_eq_zero_iff consistent).mpr ⟨value, by rw [values]; simp, zero⟩
    rwa [result] at exists_zero
  -- the value at the root is the one that compares equal, so that the parts agree
  have parts : left.toList = front ∧ data = value ∧ right.toList = back := by
    rw [values] at split
    rcases append_eq_append_iff.mp split with ⟨more, longer, rest⟩ | ⟨more, longer, rest⟩
    · cases more with
      | nil => exact ⟨by simpa using longer.symm, by simpa using rest⟩
      | cons first more =>
          obtain ⟨rfl, -⟩ := List.cons.inj rest
          have positive := before data (by rw [longer]; simp)
          omega
    · cases more with
      | nil => exact ⟨by simpa using longer, by simpa [eq_comm] using rest⟩
      | cons first more =>
          obtain ⟨-, rest⟩ := List.cons.inj rest
          have negative := after data (by rw [rest]; simp)
          omega
  obtain ⟨same_left, -, same_right⟩ := parts
  rw [remove, result]
  dsimp only
  rw [if_pos found]
  by_cases empty : left = null
  · subst empty
    simp only [splay, splayLoop]
    rw [same_right, ← same_left, toList_null, nil_append]
  · obtain ⟨newLeft, newTop, newRight, moved, kept, above⟩ := splay_spec compare empty
    have inside : ∀ x ∈ left.toList, 0 < compare x := by
      rw [same_left]
      exact before
    have nothing : newRight.toList = [] := by
      have above := above (consistent.sublist (by rw [← split]; exact sublist_append_left _ _))
      refine eq_nil_iff_forall_not_mem.mpr fun x member => ?_
      have top := inside newTop (by rw [← kept]; simp)
      have negative := above.2 top x member
      have positive := inside x (by rw [← kept]; simp [member])
      omega
    rw [moved]
    dsimp only
    rw [nothing] at kept
    rw [toList_node, ← same_left, ← kept, same_right]
    simp

/-- An insertion adds no other values, whatever the comparison. -/
theorem mem_insert {value x : V} (member : x ∈ (insert value compare tree).toList) :
    x = value ∨ x ∈ tree.toList := by
  by_cases ne : tree = null
  · subst ne
    simpa [insert, splay, splayLoop] using member
  · obtain ⟨left, data, right, result, values, -⟩ := splay_spec compare ne
    rw [← values]
    rw [insert, result] at member
    dsimp only at member
    split at member
    · simp only [toList_node, toList_null, nil_append, mem_append, mem_cons] at member ⊢
      tauto
    · split at member
      · simp only [toList_node, toList_null, mem_append, mem_cons, not_mem_nil,
          or_false] at member ⊢
        tauto
      · exact .inr member

/-- A search that ends with zero ends at a value that compares equal. -/
theorem exists_of_splay_eq_zero (zero : (splay compare tree).1 = 0) :
    ∃ x ∈ tree.toList, compare x = 0 := by
  by_cases ne : tree = null
  · subst ne
    simp [splay, splayLoop] at zero
  · obtain ⟨left, data, right, result, values, -⟩ := splay_spec compare ne
    rw [result] at zero
    exact ⟨data, by rw [← values]; simp, zero⟩

theorem start_eq (tree : SplayNode V) : tree.start = tree.toList.head? := by
  induction tree with
  | null => rfl
  | node left data right ih _ =>
      cases left with
      | null => rfl
      | node leftLeft leftData leftRight =>
          rw [start, ih]
          · simp
          · nofun

theorem finish_eq (tree : SplayNode V) : tree.finish = tree.toList.getLast? := by
  induction tree with
  | null => rfl
  | node left data right _ ih =>
      cases right with
      | null => simp [finish]
      | node rightLeft rightData rightRight =>
          rw [finish, ih, toList_node left, append_cons, List.getLast?_append_of_ne_nil]
          · simp
          · nofun

end SplayNode

/-! ## `Splay` -/

/-- `Splay`: the tree and the number of its values. -/
structure Splay (V : Type u) where
  head : SplayNode V := .null
  elements : ℕ := 0

namespace Splay

/-- The values in order. -/
def toList (tree : Splay V) : List V := tree.head.toList

/-- `find`; the tree is splayed. -/
def find (compare : V → ℤ) (tree : Splay V) : Option V × Splay V :=
  match tree.head.splay compare with
  | (splayLastResult, head) =>
      (if splayLastResult ≠ 0 then none
        else match head with
          | .null => none
          | .node _ data _ => some data, { tree with head })

/-- `insert`, where `none` is a failed assertion. -/
def insert (value : V) (compare : V → ℤ) (tree : Splay V) : Option (Splay V) :=
  match tree.find compare with
  | (some _, _) => none
  | (none, tree) =>
      some { head := tree.head.insert value compare, elements := tree.elements + 1 }

def start (tree : Splay V) : Option V := tree.head.start

def finish (tree : Splay V) : Option V := tree.head.finish

variable {compare : V → ℤ} {tree : Splay V}

theorem find_spec (consistent : SplayNode.Consistent compare tree.toList) :
    (tree.find compare).2.toList = tree.toList ∧
      (tree.find compare).2.elements = tree.elements ∧
      match (tree.find compare).1 with
      | none => ∀ x ∈ tree.toList, compare x ≠ 0
      | some data => data ∈ tree.toList ∧ compare data = 0 := by
  have zero := SplayNode.splay_eq_zero_iff consistent
  have values := SplayNode.toList_splay compare tree.head
  refine ⟨values, rfl, ?_⟩
  by_cases ne : tree.head = .null
  · simp [find, toList, ne, SplayNode.splay, SplayNode.splayLoop]
  · obtain ⟨left, data, right, result, split, -⟩ := SplayNode.splay_spec compare ne
    rw [result] at zero
    unfold find
    rw [result]
    by_cases found : compare data = 0
    · simp only [found, ne_eq, not_true_eq_false, if_false, and_true]
      rw [toList, ← split]
      simp
    · simp only [ne_eq, found, not_false_eq_true, if_true]
      intro x member equal
      exact found (zero.mpr ⟨x, member, equal⟩)

theorem insert_spec (value : V) (consistent : SplayNode.Consistent compare tree.toList)
    (absent : ∀ x ∈ tree.toList, compare x ≠ 0) :
    ∃ after front back, tree.insert value compare = some after ∧
      after.toList = front ++ value :: back ∧ tree.toList = front ++ back ∧
      after.elements = tree.elements + 1 ∧ (∀ x ∈ front, 0 < compare x) ∧
      ∀ x ∈ back, compare x < 0 := by
  obtain ⟨values, elements, found⟩ := find_spec consistent
  unfold insert
  generalize tree.find compare = result at values elements found ⊢
  obtain ⟨_ | data, splayed⟩ := result
  · dsimp only at values elements
    rw [← values] at consistent absent
    obtain ⟨left, right, inserted, split, before, after⟩ :=
      SplayNode.insert_spec value consistent absent
    refine ⟨_, left.toList, right.toList, rfl, ?_, ?_, by simp [elements], before, after⟩
    · rw [toList, inserted, SplayNode.toList_node]
    · rw [← values, toList, split]
  · exact absurd found.2 (absent data found.1)

/-- `remove`, where `none` is a failed assertion. -/
def remove (compare : V → ℤ) (tree : Splay V) : Option (Splay V) :=
  match tree.find compare with
  | (none, _) => none
  | (some _, tree) => some { head := tree.head.remove compare, elements := tree.elements - 1 }

theorem remove_spec {compare : V → ℤ} {tree : Splay V} {front back : List V} {value : V}
    (values : tree.toList = front ++ value :: back) (zero : compare value = 0)
    (before : ∀ x ∈ front, 0 < compare x) (after : ∀ x ∈ back, compare x < 0) :
    ∃ removed, tree.remove compare = some removed ∧ removed.toList = front ++ back ∧
      removed.elements = tree.elements - 1 := by
  have consistent : SplayNode.Consistent compare tree.toList := by
    rw [values]
    exact SplayNode.consistent_of_split value before after
  obtain ⟨same, elements, found⟩ := find_spec consistent
  unfold remove
  generalize tree.find compare = result at same elements found ⊢
  obtain ⟨_ | data, splayed⟩ := result
  · exact absurd zero (found value (by rw [values]; simp))
  · refine ⟨_, rfl, ?_, by rw [← elements]⟩
    exact SplayNode.remove_spec (same.trans values) zero before after

theorem start_eq (tree : Splay V) : tree.start = tree.toList.head? := SplayNode.start_eq _

theorem finish_eq (tree : Splay V) : tree.finish = tree.toList.getLast? := SplayNode.finish_eq _

end Splay

end Squid
