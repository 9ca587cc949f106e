import Mathlib.Algebra.Order.Group.Nat
import Mathlib.Logic.Equiv.Basic
import Mathlib.Order.Basic

/-!
# Heap order over the positions of an array

The keys of an array of `n` positions form a binary tree in which position `i` has the children
`2 * i + 1` and `2 * i + 2`.  The keys are in heap order when no key is below the key of its
parent.  A sift swaps one position with a neighbour until the order, broken at that position only,
is restored.
-/

namespace HeapOrder

open Function

variable {κ : Type*} [LinearOrder κ] {key key' : ℕ → κ} {n i c : ℕ}

def parent (i : ℕ) : ℕ := (i - 1) / 2

def left (i : ℕ) : ℕ := 2 * i + 1

def right (i : ℕ) : ℕ := 2 * i + 2

theorem parent_le (i : ℕ) : parent i ≤ i := by
  rw [parent]
  omega

theorem parent_lt (inside : 0 < i) : parent i < i := by
  rw [parent]
  omega

theorem parent_left (i : ℕ) : parent (left i) = i := by
  rw [parent, left]
  omega

theorem parent_right (i : ℕ) : parent (right i) = i := by
  rw [parent, right]
  omega

theorem lt_left (i : ℕ) : i < left i := by
  rw [left]
  omega

theorem lt_right (i : ℕ) : i < right i := by
  rw [right]
  omega

/-- The children of a position are its left and its right one. -/
theorem eq_child (inside : 0 < c) : c = left (parent c) ∨ c = right (parent c) := by
  rw [left, right, parent]
  omega

theorem left_parent_le (inside : 0 < c) : left (parent c) ≤ c := by
  rw [left, parent]
  omega

/-- No key is below the key of its parent. -/
def Ordered (key : ℕ → κ) (n : ℕ) : Prop :=
  ∀ j, 0 < j → j < n → key (parent j) ≤ key j

/-- The keys around position `i` would be in order without `i`. -/
def Around (key : ℕ → κ) (n i : ℕ) : Prop :=
  ∀ j, 0 < j → j < n → parent j = i → 0 < i → key (parent i) ≤ key j

/-- The order may be broken between `i` and its neighbours. -/
structure Hole (key : ℕ → κ) (n i : ℕ) : Prop where
  off : ∀ j, 0 < j → j < n → j ≠ i → parent j ≠ i → key (parent j) ≤ key j
  around : Around key n i

/-- The order may be broken between `i` and its parent. -/
structure UpReady (key : ℕ → κ) (n i : ℕ) : Prop where
  off : ∀ j, 0 < j → j < n → j ≠ i → key (parent j) ≤ key j
  around : Around key n i

/-- The order may be broken between `i` and its children. -/
structure DownReady (key : ℕ → κ) (n i : ℕ) : Prop where
  off : ∀ j, 0 < j → j < n → parent j ≠ i → key (parent j) ≤ key j
  around : Around key n i

section

variable (ordered : Ordered key n)
include ordered

/-- The root has a least key. -/
theorem Ordered.root_le {j : ℕ} (inside : j < n) : key 0 ≤ key j := by
  induction j using Nat.strongRecOn with
  | ind j ih =>
      rcases Nat.eq_zero_or_pos j with rfl | positive
      · exact le_refl _
      · have above := parent_lt positive
        exact (ih (parent j) above (above.trans inside)).trans (ordered j positive inside)

theorem Ordered.around (i : ℕ) : Around key n i := by
  intro j positive inside child below
  have first : key (parent i) ≤ key i := by
    refine ordered i below ?_
    rw [← child]
    exact (parent_lt positive).trans inside
  have second := ordered j positive inside
  rw [child] at second
  exact first.trans second

theorem Ordered.downReady (i : ℕ) : DownReady key n i where
  off j positive inside _ := ordered j positive inside
  around := ordered.around i

/-- Replacing the key of one position, possibly in a shorter array, leaves a hole there. -/
theorem Ordered.hole {m : ℕ} (shorter : m ≤ n) (same : ∀ j < m, j ≠ i → key' j = key j)
    (inside : i < m) : Hole key' m i where
  off j positive bound other child := by
    rw [same j bound other, same (parent j) ((parent_lt positive).trans bound) child]
    exact ordered j positive (bound.trans_le shorter)
  around j positive bound child below := by
    have other : j ≠ i := by
      rw [← child]
      exact (parent_lt positive).ne'
    have above := parent_lt below
    rw [same j bound other, same (parent i) (above.trans inside) above.ne]
    exact ordered.around i j positive (bound.trans_le shorter) child below

/-- A new key in the last position can only be out of order with its parent. -/
theorem Ordered.upReady_succ (same : ∀ j < n, key' j = key j) :
    UpReady key' (n + 1) n where
  off j positive bound other := by
    have inside : j < n := by omega
    rw [same j inside, same (parent j) ((parent_lt positive).trans inside)]
    exact ordered j positive inside
  around j positive bound child _ := by
    have := parent_lt positive
    omega

end

theorem Hole.upReady (hole : Hole key n i) (positive : 0 < i) (less : key i < key (parent i)) :
    UpReady key n i where
  off j above inside other := by
    rcases eq_or_ne (parent j) i with child | child
    · rw [child]
      exact less.le.trans (hole.around j above inside child positive)
    · exact hole.off j above inside other child
  around := hole.around

theorem Hole.downReady (hole : Hole key n i) (least : 0 < i → key (parent i) ≤ key i) :
    DownReady key n i where
  off j above inside child := by
    rcases eq_or_ne j i with rfl | other
    · exact least above
    · exact hole.off j above inside other child
  around := hole.around

theorem UpReady.finish (ready : UpReady key n i) (stop : 0 < i → key (parent i) ≤ key i) :
    Ordered key n := by
  intro j positive inside
  rcases eq_or_ne j i with rfl | other
  · exact stop positive
  · exact ready.off j positive inside other

theorem DownReady.finish (ready : DownReady key n i)
    (stop : ∀ j, 0 < j → j < n → parent j = i → key i ≤ key j) : Ordered key n := by
  intro j positive inside
  rcases eq_or_ne (parent j) i with child | child
  · rw [child]
    exact stop j positive inside child
  · exact ready.off j positive inside child

/-- One step up: the key was below its parent's, and changes places with it. -/
theorem UpReady.step (ready : UpReady key n i) (positive : 0 < i) (inside : i < n)
    (less : key i < key (parent i)) :
    UpReady (key ∘ Equiv.swap i (parent i)) n (parent i) := by
  have above := parent_lt positive
  constructor
  · intro j low bound other
    rw [comp_apply, comp_apply]
    rcases eq_or_ne j i with rfl | elsewhere
    · rw [Equiv.swap_apply_left, Equiv.swap_apply_right]
      exact less.le
    rw [Equiv.swap_apply_of_ne_of_ne elsewhere other]
    rcases eq_or_ne (parent j) i with child | child
    · rw [child, Equiv.swap_apply_left]
      exact ready.around j low bound child positive
    rcases eq_or_ne (parent j) (parent i) with sibling | apart
    · rw [sibling, Equiv.swap_apply_right]
      have order := ready.off j low bound elsewhere
      rw [sibling] at order
      exact less.le.trans order
    · rw [Equiv.swap_apply_of_ne_of_ne child apart]
      exact ready.off j low bound elsewhere
  · intro j low bound child grand
    have higher := parent_lt grand
    have top : key (parent (parent i)) ≤ key (parent i) :=
      ready.off (parent i) grand (above.trans inside) above.ne
    rw [comp_apply, comp_apply, Equiv.swap_apply_of_ne_of_ne (higher.trans above).ne higher.ne]
    rcases eq_or_ne j i with rfl | elsewhere
    · rw [Equiv.swap_apply_left]
      exact top
    · have below := parent_lt low
      rw [Equiv.swap_apply_of_ne_of_ne elsewhere (by omega)]
      have order := ready.off j low bound elsewhere
      rw [child] at order
      exact top.trans order

/-- One step down: a least child's key is below the key, and changes places with it. -/
theorem DownReady.step (ready : DownReady key n i) (positive : 0 < c) (inside : c < n)
    (child : parent c = i) (least : ∀ j, 0 < j → j < n → parent j = i → key c ≤ key j)
    (less : key c < key i) : DownReady (key ∘ Equiv.swap c i) n c := by
  have above : i < c := child ▸ parent_lt positive
  constructor
  · intro j low bound off
    have below := parent_lt low
    rw [comp_apply, comp_apply]
    rcases eq_or_ne (parent j) i with sibling | apart
    · rw [sibling, Equiv.swap_apply_right]
      rcases eq_or_ne j c with rfl | elsewhere
      · rw [Equiv.swap_apply_left]
        exact less.le
      · rw [Equiv.swap_apply_of_ne_of_ne elsewhere (by omega)]
        exact least j low bound sibling
    · rw [Equiv.swap_apply_of_ne_of_ne off apart]
      have elsewhere : j ≠ c := fun same => apart (by rw [same, child])
      rcases eq_or_ne j i with rfl | other
      · rw [Equiv.swap_apply_right]
        exact ready.around c positive inside child low
      · rw [Equiv.swap_apply_of_ne_of_ne elsewhere other]
        exact ready.off j low bound apart
  · intro j low bound grandchild _
    have below := parent_lt low
    rw [comp_apply, comp_apply, child, Equiv.swap_apply_right,
      Equiv.swap_apply_of_ne_of_ne (by omega) (by omega), ← grandchild]
    exact ready.off j low bound (by omega)

end HeapOrder
