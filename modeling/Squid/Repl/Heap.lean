import Mathlib.Algebra.Group.Action.Defs
import Mathlib.Algebra.BigOperators.Group.Finset.Basic
import Mathlib.GroupTheory.Perm.Support
import Squid.Library.HeapOrder
import Squid.Library.LabelledRun
import Squid.Library.Table

/-!
# The heap of the removal policies

`lib/heap.c` keeps an array of pointers to heap nodes.  A node holds its key, its data and its own
index in the array, through which callers delete and update it.  Every access to a node and to the
array is checked: it fails on a node that is not allocated and outside the array.
-/

namespace Squid.Repl

open Option Function HeapOrder

structure heap_node (κ δ : Type) where
  key : κ
  id : ℕ
  data : δ
deriving DecidableEq

/-- `heap`, with the memory blocks of its nodes. -/
structure Heap (ρ κ δ : Type) where
  /-- The number of cells of the array. -/
  size : ℕ
  last : ℕ
  nodes : ℕ → ρ
  /-- Whether the block at the address is an allocated node. -/
  live : ρ → Bool
  /-- The contents of the block at the address. -/
  block : ρ → heap_node κ δ

namespace Heap

variable {ρ κ δ : Type}

/-- `Left`, `Right` and `Parent`; for index 0 the source computes `(int)(0 - 1) / 2`, which is 0. -/
abbrev Left : ℕ → ℕ := left

abbrev Right : ℕ → ℕ := right

abbrev Parent : ℕ → ℕ := parent

def new_heap (initSize : ℤ) (nodes : ℕ → ρ) (block : ρ → heap_node κ δ) : Heap ρ κ δ where
  size := if initSize ≤ 0 then 32 else initSize.toNat
  last := 0
  nodes := nodes
  live := fun _ => false
  block := block

/-- Read the node at an address. -/
def node (hp : Heap ρ κ δ) (p : ρ) : Option (heap_node κ δ) :=
  if hp.live p then some (hp.block p) else none

/-- Read a cell of the array. -/
def cell (hp : Heap ρ κ δ) (i : ℕ) : Option ρ :=
  if i < hp.size then some (hp.nodes i) else none

/-- `_heap_node_exist`; the cells below `last` are never null. -/
def _heap_node_exist (hp : Heap ρ κ δ) (id : ℤ) : Bool := decide (0 ≤ id ∧ id < hp.last)

def _heap_should_grow (hp : Heap ρ κ δ) : Bool := decide (hp.size ≤ hp.last)

/-- `_heap_grow`; the factor is 1.5 above the threshold. -/
def _heap_grow (hp : Heap ρ κ δ) : Heap ρ κ δ :=
  { hp with size := if 10000 < hp.size then hp.size * 3 / 2 else hp.size * 2 }

variable {hp hp' : Heap ρ κ δ} {i j : ℕ} {elm : ρ}

/-! ### Nodes and their indices -/

/-- The key of the node at an index. -/
def keyAt (hp : Heap ρ κ δ) (i : ℕ) : κ := (hp.block (hp.nodes i)).key

/-- The array holds the allocated nodes, each at its own index. -/
structure Linked (hp : Heap ρ κ δ) : Prop where
  alive : ∀ i < hp.last, hp.live (hp.nodes i) = true
  id_nodes : ∀ i < hp.last, (hp.block (hp.nodes i)).id = i
  held : ∀ p, hp.live p = true → ∃ i < hp.last, hp.nodes i = p
  room : hp.last ≤ hp.size
  size_pos : 0 < hp.size

/-- The nodes of the second heap are those of the first in another order. -/
structure Rearranged (hp hp' : Heap ρ κ δ) : Prop where
  last_eq : hp'.last = hp.last
  live_eq : hp'.live = hp.live
  key_eq : ∀ p, (hp'.block p).key = (hp.block p).key
  data_eq : ∀ p, (hp'.block p).data = (hp.block p).data

theorem Rearranged.refl (hp : Heap ρ κ δ) :
    hp.Rearranged hp := ⟨rfl, rfl, fun _ => rfl, fun _ => rfl⟩

variable {middle : Heap ρ κ δ}

theorem Rearranged.trans (first : hp.Rearranged middle) (second : middle.Rearranged hp') :
    hp.Rearranged hp' where
  last_eq := second.last_eq.trans first.last_eq
  live_eq := second.live_eq.trans first.live_eq
  key_eq p := (second.key_eq p).trans (first.key_eq p)
  data_eq p := (second.data_eq p).trans (first.data_eq p)

namespace Linked

theorem injective (linked : hp.Linked) (hi : i < hp.last) (hj : j < hp.last)
    (same : hp.nodes i = hp.nodes j) : i = j := by
  rw [← linked.id_nodes i hi, same, linked.id_nodes j hj]

theorem node_nodes (linked : hp.Linked) (hi : i < hp.last) :
    hp.node (hp.nodes i) = some (hp.block (hp.nodes i)) := by
  rw [node, if_pos (linked.alive i hi)]

theorem cell_eq (linked : hp.Linked) (hi : i < hp.last) : hp.cell i = some (hp.nodes i) := by
  rw [cell, if_pos (hi.trans_le linked.room)]

/-- The positions of a rearranged heap hold the same nodes. -/
theorem exists_index (linked : hp.Linked) (linked' : hp'.Linked) (moved : hp.Rearranged hp')
    (hi : i < hp.last) : ∃ j < hp.last, hp'.nodes j = hp.nodes i := by
  obtain ⟨j, hj, at_j⟩ := linked'.held (hp.nodes i) (by rw [moved.live_eq, linked.alive i hi])
  exact ⟨j, moved.last_eq ▸ hj, at_j⟩

end Linked

/-! ### Exchanging two nodes -/

variable [DecidableEq ρ]

/-- Write the node at an address. -/
def write (hp : Heap ρ κ δ) (p : ρ) (content : heap_node κ δ) : Option (Heap ρ κ δ) :=
  if hp.live p then some { hp with block := update hp.block p content } else none

/-- Write a cell of the array. -/
def store (hp : Heap ρ κ δ) (i : ℕ) (p : ρ) : Option (Heap ρ κ δ) :=
  if i < hp.size then some { hp with nodes := update hp.nodes i p } else none

def _heap_swap_element (hp : Heap ρ κ δ) (elm1 elm2 : ρ) : Option (Heap ρ κ δ) := do
  let first ← hp.node elm1
  let elm1Id := first.id
  let second ← hp.node elm2
  let hp ← hp.write elm1 { first with id := second.id }
  let second ← hp.node elm2
  let hp ← hp.write elm2 { second with id := elm1Id }
  let first ← hp.node elm1
  let hp ← hp.store first.id elm1
  let second ← hp.node elm2
  hp.store second.id elm2

/-- The nodes at two indices have changed places. -/
def swapped (hp : Heap ρ κ δ) (i j : ℕ) : Heap ρ κ δ :=
  { hp with
    nodes := hp.nodes ∘ Equiv.swap i j
    block := fun p => { hp.block p with
      id := if p = hp.nodes i then j else if p = hp.nodes j then i else (hp.block p).id } }

theorem rearranged_swapped (hp : Heap ρ κ δ) (i j : ℕ) : hp.Rearranged (hp.swapped i j) :=
  ⟨rfl, rfl, fun _ => rfl, fun _ => rfl⟩

theorem keyAt_swapped (hp : Heap ρ κ δ) (i j : ℕ) :
    (hp.swapped i j).keyAt = hp.keyAt ∘ Equiv.swap i j := rfl

omit [DecidableEq ρ] in
theorem swap_lt {n k : ℕ} (hi : i < n) (hj : j < n) (hk : k < n) : Equiv.swap i j k < n := by
  rw [Equiv.swap_apply_def]
  split_ifs
  · exact hj
  · exact hi
  · exact hk

theorem Linked.swapped (linked : hp.Linked) (hi : i < hp.last) (hj : j < hp.last) :
    (hp.swapped i j).Linked where
  alive k hk := linked.alive _ (swap_lt hi hj hk)
  id_nodes k hk := by
    change (if hp.nodes (Equiv.swap i j k) = hp.nodes i then j
      else if hp.nodes (Equiv.swap i j k) = hp.nodes j then i
      else (hp.block (hp.nodes (Equiv.swap i j k))).id) = k
    rcases eq_or_ne k i with rfl | not_first
    · rw [Equiv.swap_apply_left, if_pos rfl]
      by_cases same : hp.nodes j = hp.nodes k
      · rw [if_pos same, linked.injective hj hi same]
      · rw [if_neg same]
    rcases eq_or_ne k j with rfl | not_second
    · rw [Equiv.swap_apply_right, if_pos rfl]
    · rw [Equiv.swap_apply_of_ne_of_ne not_first not_second,
        if_neg fun same => not_first (linked.injective hk hi same),
        if_neg fun same => not_second (linked.injective hk hj same)]
      exact linked.id_nodes k hk
  held p alive := by
    obtain ⟨k, hk, at_k⟩ := linked.held p alive
    refine ⟨Equiv.swap i j k, swap_lt hi hj hk, ?_⟩
    change hp.nodes (Equiv.swap i j (Equiv.swap i j k)) = p
    rw [Equiv.swap_apply_self, at_k]
  room := linked.room
  size_pos := linked.size_pos

/-- `_heap_swap_element` exchanges two nodes together with their indices. -/
theorem Linked.swap_element_eq (linked : hp.Linked) (hi : i < hp.last) (hj : j < hp.last) :
    hp._heap_swap_element (hp.nodes i) (hp.nodes j) = some (hp.swapped i j) := by
  have alive_i := linked.alive i hi
  have alive_j := linked.alive j hj
  have id_i := linked.id_nodes i hi
  have id_j := linked.id_nodes j hj
  have room_i := hi.trans_le linked.room
  have room_j := hj.trans_le linked.room
  rcases eq_or_ne i j with rfl | differ
  · simp only [_heap_swap_element, node, write, store, alive_i, id_i, room_i, if_true, bind_eq_bind,
      bind_some, update_self, update_idem, update_eq_self, Heap.swapped, Equiv.swap_self,
      Equiv.coe_refl, comp_id, some.injEq, Heap.mk.injEq, true_and]
    funext p
    rcases eq_or_ne p (hp.nodes i) with rfl | other
    · rw [update_self, if_pos rfl]
    · rw [update_of_ne other, if_neg other, if_neg other]
  · have apart : hp.nodes i ≠ hp.nodes j := fun same => differ (linked.injective hi hj same)
    simp only [_heap_swap_element, node, write, store, alive_i, alive_j, id_i, id_j, room_i, room_j,
      if_true, bind_eq_bind, bind_some, update_self, update_of_ne apart, update_of_ne apart.symm,
      Heap.swapped, some.injEq, Heap.mk.injEq, true_and, Equiv.comp_swap_eq_update]
    funext p
    rcases eq_or_ne p (hp.nodes j) with rfl | second
    · rw [update_self, if_neg apart.symm, if_pos rfl]
    rw [update_of_ne second]
    rcases eq_or_ne p (hp.nodes i) with rfl | first
    · rw [update_self, if_pos rfl]
    · rw [update_of_ne first, if_neg first, if_neg second]

/-! ### The sifts -/

variable [LinearOrder κ]

/-- `_heap_ify_up`, given the number of turns of the loop that it may take. -/
def _heap_ify_up (hp : Heap ρ κ δ) (elm : ρ) : ℕ → Option (Heap ρ κ δ)
  | 0 => none
  | turns + 1 => do
      let e ← hp.node elm
      if 0 < e.id then
        let parentNode ← hp.cell (Parent e.id)
        let above ← hp.node parentNode
        if above.key ≤ e.key then some hp
        else
          let hp ← hp._heap_swap_element parentNode elm
          hp._heap_ify_up elm turns
      else some hp

/-- The kid that `_heap_ify_down` compares with: none at the bottom of the heap. -/
def kid (hp : Heap ρ κ δ) (id : ℕ) : Option (Option ρ) :=
  if !hp._heap_node_exist (Left id) then
    -- `assert(!_heap_node_exist(hp, right))`
    if hp._heap_node_exist (Right id) then none else some none
  else if !hp._heap_node_exist (Right id) then (hp.cell (Left id)).map some
  else do
    let rightNode ← hp.cell (Right id)
    let leftNode ← hp.cell (Left id)
    let r ← hp.node rightNode
    let l ← hp.node leftNode
    if r.key < l.key then some (some rightNode) else some (some leftNode)

/-- `_heap_ify_down`, given the number of turns of the loop that it may take. -/
def _heap_ify_down (hp : Heap ρ κ δ) (elm : ρ) : ℕ → Option (Heap ρ κ δ)
  | 0 => none
  | turns + 1 => do
      let e ← hp.node elm
      match ← hp.kid e.id with
      | none => some hp
      | some kid =>
          let k ← hp.node kid
          if e.key ≤ k.key then some hp
          else
            let hp ← hp._heap_swap_element kid elm
            hp._heap_ify_down elm turns

/-- The `if` and the two sifts that `heap_delete` and `heap_update` end with. -/
def resift (hp : Heap ρ κ δ) (elm : ρ) : Option (Heap ρ κ δ) := do
  let e ← hp.node elm
  let parentNode ← hp.cell (Parent e.id)
  let above ← hp.node parentNode
  let hp ← if e.key < above.key then hp._heap_ify_up elm (hp.last + 1) else some hp
  hp._heap_ify_down elm (hp.last + 1)

/-- What the sifts and everything built on them end with. -/
structure Sifted (hp hp' : Heap ρ κ δ) : Prop where
  linked : hp'.Linked
  moved : hp.Rearranged hp'
  ordered : Ordered hp'.keyAt hp'.last

omit [DecidableEq ρ] in
theorem Sifted.of_rearranged (moved : hp.Rearranged middle) (sifted : middle.Sifted hp') :
    hp.Sifted hp' :=
  ⟨sifted.linked, moved.trans sifted.moved, sifted.ordered⟩

theorem ify_up_eq (linked : hp.Linked) (inside : i < hp.last) (turns : ℕ) :
    hp._heap_ify_up (hp.nodes i) (turns + 1) =
      if 0 < i then
        if hp.keyAt (Parent i) ≤ hp.keyAt i then some hp
        else (hp.swapped (Parent i) i)._heap_ify_up (hp.nodes i) turns
      else some hp := by
  have above : Parent i < hp.last := (parent_le i).trans_lt inside
  simp only [_heap_ify_up, linked.node_nodes inside, linked.id_nodes i inside, linked.cell_eq above,
    linked.node_nodes above, linked.swap_element_eq above inside, bind_eq_bind, bind_some, keyAt]
  rfl

/-- Sifting up ends in heap order when only the node's own key was out of order with its parent. -/
theorem ify_up_spec (linked : hp.Linked) (inside : i < hp.last) {turns : ℕ} (enough : i < turns)
    (ready : UpReady hp.keyAt hp.last i) :
    ∃ hp', hp._heap_ify_up (hp.nodes i) turns = some hp' ∧ hp.Sifted hp' := by
  induction turns generalizing hp i with
  | zero => omega
  | succ turns ih =>
      rw [ify_up_eq linked inside]
      have stays (stop : 0 < i → hp.keyAt (Parent i) ≤ hp.keyAt i) : hp.Sifted hp :=
        ⟨linked, Rearranged.refl hp, ready.finish stop⟩
      by_cases positive : 0 < i
      · rw [if_pos positive]
        by_cases order : hp.keyAt (Parent i) ≤ hp.keyAt i
        · rw [if_pos order]
          exact ⟨hp, rfl, stays fun _ => order⟩
        · have lower : Parent i < i := parent_lt positive
          have above : Parent i < hp.last := lower.trans inside
          have next := ready.step positive inside (lt_of_not_ge order)
          rw [Equiv.swap_comm, ← keyAt_swapped] at next
          obtain ⟨hp', run, sifted⟩ := @ih (hp.swapped (Parent i) i) (Parent i)
            (linked.swapped above inside) above (by omega) next
          have at_parent : (hp.swapped (Parent i) i).nodes (Parent i) = hp.nodes i :=
            congrArg hp.nodes (Equiv.swap_apply_left (Parent i) i)
          rw [if_neg order, ← at_parent]
          exact ⟨hp', run, .of_rearranged (rearranged_swapped hp _ _) sifted⟩
      · rw [if_neg positive]
        exact ⟨hp, rfl, stays fun below => absurd below positive⟩

omit [DecidableEq ρ] [LinearOrder κ] in
theorem node_exist_iff (hp : Heap ρ κ δ) (i : ℕ) :
    hp._heap_node_exist i = decide (i < hp.last) := by
  rw [_heap_node_exist]
  congr 1
  exact propext ⟨fun both => by omega, fun below => by omega⟩

section

variable (linked : hp.Linked)
include linked

omit [DecidableEq ρ] in
/-- The kid is a child with a least key, if there is a child. -/
theorem kid_spec (i : ℕ) :
    (hp.last ≤ Left i ∧ hp.kid i = some none) ∨
      ∃ c, 0 < c ∧ c < hp.last ∧ Parent c = i ∧
        (∀ j, 0 < j → j < hp.last → Parent j = i → hp.keyAt c ≤ hp.keyAt j) ∧
        hp.kid i = some (some (hp.nodes c)) := by
  have left_pos : 0 < Left i := Nat.zero_lt_of_lt (lt_left i)
  have right_pos : 0 < Right i := Nat.zero_lt_of_lt (lt_right i)
  have next : Right i = Left i + 1 := rfl
  rw [kid, node_exist_iff, node_exist_iff]
  rcases Nat.lt_or_ge (Left i) hp.last with has_left | no_left
  · rw [decide_eq_true has_left]
    right
    rcases Nat.lt_or_ge (Right i) hp.last with has_right | no_right
    · simp only [decide_eq_true has_right, linked.cell_eq has_left, linked.cell_eq has_right,
        linked.node_nodes has_left, linked.node_nodes has_right, Bool.not_true,
        Bool.false_eq_true, if_false, bind_eq_bind, bind_some]
      by_cases less : hp.keyAt (Right i) < hp.keyAt (Left i)
      · refine ⟨Right i, right_pos, has_right, parent_right i, ?_, if_pos less⟩
        intro j low bound child
        rcases eq_child low with same | same
        · rw [same, show parent j = i from child]
          exact less.le
        · rw [same, show parent j = i from child]
      · refine ⟨Left i, left_pos, has_left, parent_left i, ?_, if_neg less⟩
        intro j low bound child
        rcases eq_child low with same | same
        · rw [same, show parent j = i from child]
        · rw [same, show parent j = i from child]
          exact le_of_not_gt less
    · have absent : ¬ Right i < hp.last := Nat.not_lt_of_le no_right
      refine ⟨Left i, left_pos, has_left, parent_left i, ?_, ?_⟩
      · intro j low bound child
        rcases eq_child low with same | same
        · rw [same, show parent j = i from child]
        · rw [same, show parent j = i from child] at bound
          exact absurd bound absent
      · rw [decide_eq_false absent, linked.cell_eq has_left]
        rfl
  · left
    refine ⟨no_left, ?_⟩
    rw [decide_eq_false (Nat.not_lt_of_le no_left), decide_eq_false (by omega)]
    rfl

theorem ify_down_of_none (inside : i < hp.last) (turns : ℕ) (bottom : hp.kid i = some none) :
    hp._heap_ify_down (hp.nodes i) (turns + 1) = some hp := by
  simp only [_heap_ify_down, linked.node_nodes inside, linked.id_nodes i inside, bottom,
    bind_eq_bind, bind_some]

theorem ify_down_of_some (inside : i < hp.last) (turns : ℕ) {c : ℕ} (bound : c < hp.last)
    (found : hp.kid i = some (some (hp.nodes c))) :
    hp._heap_ify_down (hp.nodes i) (turns + 1) =
      if hp.keyAt i ≤ hp.keyAt c then some hp
      else (hp.swapped c i)._heap_ify_down (hp.nodes i) turns := by
  simp only [_heap_ify_down, linked.node_nodes inside, linked.id_nodes i inside, found,
    linked.node_nodes bound, linked.swap_element_eq bound inside, bind_eq_bind, bind_some, keyAt]
  rfl

/-- Sifting down ends in heap order when only the node's own key was out of order with its
children. -/
theorem ify_down_spec (inside : i < hp.last) {turns : ℕ} (enough : hp.last < i + turns)
    (ready : DownReady hp.keyAt hp.last i) :
    ∃ hp', hp._heap_ify_down (hp.nodes i) turns = some hp' ∧ hp.Sifted hp' := by
  induction turns generalizing hp i with
  | zero => omega
  | succ turns ih =>
      rcases kid_spec linked i with ⟨no_left, bottom⟩ | ⟨c, low, bound, child, least, found⟩
      · rw [ify_down_of_none linked inside turns bottom]
        refine ⟨hp, rfl, linked, Rearranged.refl hp, ready.finish fun j low bound child => ?_⟩
        have from_left : Left i ≤ j := child ▸ left_parent_le low
        omega
      · rw [ify_down_of_some linked inside turns bound found]
        by_cases order : hp.keyAt i ≤ hp.keyAt c
        · rw [if_pos order]
          refine ⟨hp, rfl, linked, Rearranged.refl hp, ready.finish fun j low' bound' child' => ?_⟩
          exact order.trans (least j low' bound' child')
        · have below : i < c := child ▸ parent_lt low
          have next := ready.step low bound child least (lt_of_not_ge order)
          rw [← keyAt_swapped] at next
          obtain ⟨hp', run, sifted⟩ := @ih (hp.swapped c i) c
            (linked.swapped bound inside) bound (by change hp.last < c + turns; omega) next
          have at_child : (hp.swapped c i).nodes c = hp.nodes i :=
            congrArg hp.nodes (Equiv.swap_apply_left c i)
          rw [if_neg order, ← at_child]
          exact ⟨hp', run, .of_rearranged (rearranged_swapped hp _ _) sifted⟩

/-- A hole at a node is closed by the two sifts. -/
theorem resift_spec (inside : i < hp.last) (hole : Hole hp.keyAt hp.last i) :
    ∃ hp', hp.resift (hp.nodes i) = some hp' ∧ hp.Sifted hp' := by
  have above : Parent i < hp.last := (parent_le i).trans_lt inside
  have unfolded : hp.resift (hp.nodes i) =
      (if hp.keyAt i < hp.keyAt (Parent i) then hp._heap_ify_up (hp.nodes i) (hp.last + 1)
        else some hp).bind fun middle =>
          middle._heap_ify_down (hp.nodes i) (middle.last + 1) := by
    simp only [resift, linked.node_nodes inside, linked.id_nodes i inside, linked.cell_eq above,
      linked.node_nodes above, bind_eq_bind, bind_some]
    change (if hp.keyAt i < hp.keyAt (Parent i) then _ else _) = _
    by_cases less : hp.keyAt i < hp.keyAt (Parent i)
    · rw [if_pos less, if_pos less]
    · rw [if_neg less, if_neg less, bind_some]
  rw [unfolded]
  by_cases less : hp.keyAt i < hp.keyAt (Parent i)
  · have positive : 0 < i := by
      refine Nat.pos_of_ne_zero fun root => ?_
      rw [root] at less
      exact lt_irrefl _ less
    obtain ⟨middle, up, sifted⟩ :=
      ify_up_spec linked inside (show i < hp.last + 1 by omega) (hole.upReady positive less)
    obtain ⟨j, at_j, same⟩ := linked.exists_index sifted.linked sifted.moved inside
    rw [← sifted.moved.last_eq] at at_j
    obtain ⟨hp', down, final⟩ := ify_down_spec sifted.linked at_j
      (show middle.last < j + (middle.last + 1) by omega) (sifted.ordered.downReady j)
    rw [if_pos less, up, bind_some, ← same]
    exact ⟨hp', down, final.of_rearranged sifted.moved⟩
  · obtain ⟨hp', down, final⟩ := ify_down_spec linked inside
      (show hp.last < i + (hp.last + 1) by omega)
      (hole.downReady fun _ => le_of_not_gt less)
    rw [if_neg less, bind_some]
    exact ⟨hp', down, final⟩

end

/-! ### The operations -/

/-- `heap_insert` with the address that `xmalloc` returns and the key that the heap's key function
computes for the data. -/
def heap_insert (hp : Heap ρ κ δ) (elm : ρ) (key : κ) (dat : δ) : Option (Heap ρ κ δ) := do
  let hp := if hp._heap_should_grow then hp._heap_grow else hp
  let hp ← hp.store hp.last elm
  let hp := { hp with
    live := update hp.live elm true
    block := update hp.block elm ⟨key, hp.last, dat⟩
    last := hp.last + 1 }
  hp._heap_ify_up elm (hp.last + 1)

def heap_extractlast (hp : Heap ρ κ δ) : Option (δ × Heap ρ κ δ) :=
  if hp._heap_node_exist ((hp.last : ℤ) - 1) then do
    let hp := { hp with last := hp.last - 1 }
    let p ← hp.cell hp.last
    let lastNode ← hp.node p
    some (lastNode.data, { hp with live := update hp.live p false })
  else none

def heap_delete (hp : Heap ρ κ δ) (elm : ρ) : Option (δ × Heap ρ κ δ) := do
  let e ← hp.node elm
  if hp._heap_node_exist ((hp.last : ℤ) - 1) then do
    let lastNode ← hp.cell (hp.last - 1)
    let hp ← hp._heap_swap_element lastNode elm
    let (_, hp) ← hp.heap_extractlast
    if elm = lastNode then some (e.data, hp)
    else if 0 < hp.last then do
      let hp ← hp.resift lastNode
      some (e.data, hp)
    else some (e.data, hp)
  else none

/-- `heap_extractmin`: `none` of data for an empty heap. -/
def heap_extractmin (hp : Heap ρ κ δ) : Option (Option δ × Heap ρ κ δ) :=
  if hp.last ≤ 0 then some (none, hp)
  else do
    let root ← hp.cell 0
    let r ← hp.node root
    let (_, hp) ← hp.heap_delete root
    some (some r.data, hp)

/-- `heap_update` with the key that the heap's key function computes for the data. -/
def heap_update (hp : Heap ρ κ δ) (elm : ρ) (key : κ) (dat : δ) : Option (δ × Heap ρ κ δ) := do
  let e ← hp.node elm
  let hp ← hp.write elm { e with key := key, data := dat }
  let hp ← hp.resift elm
  some (e.data, hp)

/-- What every operation keeps. -/
structure Valid (hp : Heap ρ κ δ) : Prop where
  linked : hp.Linked
  ordered : Ordered hp.keyAt hp.last

omit [DecidableEq ρ] in
theorem Sifted.valid (sifted : hp.Sifted hp') : hp'.Valid := ⟨sifted.linked, sifted.ordered⟩

omit [DecidableEq ρ] in
theorem valid_new_heap (initSize : ℤ) (nodes : ℕ → ρ) (block : ρ → heap_node κ δ) :
    (new_heap initSize nodes block).Valid where
  linked :=
    { alive := fun i below => absurd below (Nat.not_lt_zero i)
      id_nodes := fun i below => absurd below (Nat.not_lt_zero i)
      held := fun p alive => Bool.noConfusion alive
      room := Nat.zero_le _
      size_pos := by
        change 0 < if initSize ≤ 0 then 32 else initSize.toNat
        split <;> omega }
  ordered j _ below := absurd below (Nat.not_lt_zero j)

/-- A node put into the last cell before it is sifted up. -/
def appended (hp : Heap ρ κ δ) (elm : ρ) (key : κ) (dat : δ) : Heap ρ κ δ :=
  { hp with
    nodes := update hp.nodes hp.last elm
    live := update hp.live elm true
    block := update hp.block elm ⟨key, hp.last, dat⟩
    last := hp.last + 1 }

omit [LinearOrder κ] in
theorem appended_block_self (hp : Heap ρ κ δ) (elm : ρ) (key : κ) (dat : δ) :
    (hp.appended elm key dat).block elm = ⟨key, hp.last, dat⟩ := update_self ..

omit [LinearOrder κ] in
theorem appended_block_ne (hp : Heap ρ κ δ) (key : κ) (dat : δ) {p : ρ} (differ : p ≠ elm) :
    (hp.appended elm key dat).block p = hp.block p := update_of_ne differ ..

omit [DecidableEq ρ] [LinearOrder κ] in
/-- Growing makes room behind the last node. -/
theorem room_of_grow (linked : hp.Linked) :
    ∃ grown : Heap ρ κ δ, (if hp._heap_should_grow then hp._heap_grow else hp) = grown ∧
      grown.Linked ∧ grown.last < grown.size ∧ grown = { hp with size := grown.size } := by
  have room := linked.room
  have positive := linked.size_pos
  rw [_heap_should_grow]
  by_cases full : hp.size ≤ hp.last
  · rw [if_pos (decide_eq_true full)]
    have wider : hp.last < (hp._heap_grow).size := by
      rw [_heap_grow]
      change hp.last < if 10000 < hp.size then hp.size * 3 / 2 else hp.size * 2
      split <;> omega
    exact ⟨_, rfl, ⟨linked.alive, linked.id_nodes, linked.held, wider.le, by omega⟩, wider, rfl⟩
  · rw [if_neg fun should => full (of_decide_eq_true should)]
    exact ⟨_, rfl, linked, Nat.lt_of_not_le full, rfl⟩

theorem Valid.appended (valid : hp.Valid) (room : hp.last < hp.size) (fresh : hp.live elm = false)
    (key : κ) (dat : δ) : (hp.appended elm key dat).Linked ∧
      UpReady (hp.appended elm key dat).keyAt (hp.last + 1) hp.last := by
  have linked := valid.linked
  have at_last : (hp.appended elm key dat).nodes hp.last = elm := update_self ..
  have at_index {i : ℕ} (below : i < hp.last) :
      (hp.appended elm key dat).nodes i = hp.nodes i := update_of_ne below.ne ..
  have other {i : ℕ} (below : i < hp.last) : hp.nodes i ≠ elm := by
    intro same
    have alive := linked.alive i below
    rw [same, fresh] at alive
    cases alive
  have block_at {i : ℕ} (below : i < hp.last) :
      (hp.appended elm key dat).block (hp.nodes i) = hp.block (hp.nodes i) :=
    hp.appended_block_ne key dat (other below)
  have live_at {p : ρ} (differ : p ≠ elm) : (hp.appended elm key dat).live p = hp.live p :=
    update_of_ne differ ..
  refine ⟨⟨fun i below => ?_, fun i below => ?_, fun p alive => ?_, room, linked.size_pos⟩, ?_⟩
  · rcases Nat.lt_succ_iff_lt_or_eq.mp below with inside | rfl
    · rw [at_index inside, live_at (other inside), linked.alive i inside]
    · rw [at_last]
      exact update_self ..
  · rcases Nat.lt_succ_iff_lt_or_eq.mp below with inside | rfl
    · rw [at_index inside, block_at inside, linked.id_nodes i inside]
    · rw [at_last, appended_block_self]
  · rcases eq_or_ne p elm with rfl | differ
    · exact ⟨hp.last, Nat.lt_succ_self _, at_last⟩
    · rw [live_at differ] at alive
      obtain ⟨i, inside, at_i⟩ := linked.held p alive
      exact ⟨i, inside.trans (Nat.lt_succ_self _), by rw [at_index inside, at_i]⟩
  · refine valid.ordered.upReady_succ fun j below => ?_
    rw [keyAt, at_index below, block_at below, keyAt]

/-- `heap_insert` adds one node with the key and the data, and keeps the others. -/
theorem insert_spec (valid : hp.Valid) (fresh : hp.live elm = false) (key : κ) (dat : δ) :
    ∃ hp', hp.heap_insert elm key dat = some hp' ∧ hp'.Valid ∧ hp'.last = hp.last + 1 ∧
      hp'.live = update hp.live elm true ∧
      ((hp'.block elm).key = key ∧ (hp'.block elm).data = dat) ∧
      ∀ p ≠ elm, (hp'.block p).key = (hp.block p).key ∧ (hp'.block p).data = (hp.block p).data := by
  obtain ⟨grown, grow, linked, room, exact_grown⟩ := room_of_grow valid.linked
  have valid' : grown.Valid := ⟨linked, by rw [exact_grown]; exact valid.ordered⟩
  have same_last : grown.last = hp.last := by rw [exact_grown]
  have same_live : grown.live = hp.live := by rw [exact_grown]
  have same_block : grown.block = hp.block := by rw [exact_grown]
  obtain ⟨linked', ready⟩ := valid'.appended room (by rw [same_live, fresh]) key dat
  have at_last : (grown.appended elm key dat).nodes grown.last = elm := update_self ..
  obtain ⟨hp', up, sifted⟩ := ify_up_spec linked' (Nat.lt_succ_self grown.last)
    (show grown.last < grown.last + 1 + 1 by omega) ready
  rw [at_last] at up
  have unfolded : hp.heap_insert elm key dat =
      (grown.appended elm key dat)._heap_ify_up elm (grown.last + 1 + 1) := by
    rw [heap_insert, grow]
    simp only [store, if_pos room, bind_eq_bind, bind_some]
    rfl
  refine ⟨hp', by rw [unfolded, up], sifted.valid, ?_, ?_, ⟨?_, ?_⟩, fun p differ => ⟨?_, ?_⟩⟩
  · rw [sifted.moved.last_eq, ← same_last]
    rfl
  · rw [sifted.moved.live_eq, ← same_live]
    rfl
  · rw [sifted.moved.key_eq, appended_block_self]
  · rw [sifted.moved.data_eq, appended_block_self]
  · rw [sifted.moved.key_eq, appended_block_ne _ _ _ differ, same_block]
  · rw [sifted.moved.data_eq, appended_block_ne _ _ _ differ, same_block]

/-- The heap without its last node, after that node has changed places with the one at `i`. -/
def removed (hp : Heap ρ κ δ) (i : ℕ) : Heap ρ κ δ :=
  { hp.swapped (hp.last - 1) i with
    last := hp.last - 1
    live := update hp.live (hp.nodes i) false }

omit [LinearOrder κ] in
theorem Linked.removed (linked : hp.Linked) (inside : i < hp.last) : (hp.removed i).Linked := by
  have bound : hp.last - 1 < hp.last := by omega
  have swapped := linked.swapped bound inside
  have at_end : (hp.removed i).nodes (hp.last - 1) = hp.nodes i :=
    congrArg hp.nodes (Equiv.swap_apply_left (hp.last - 1) i)
  have live_at {p : ρ} (differ : p ≠ hp.nodes i) : (hp.removed i).live p = hp.live p :=
    update_of_ne differ ..
  have other {k : ℕ} (below : k < hp.last - 1) : (hp.removed i).nodes k ≠ hp.nodes i := by
    rw [← at_end]
    exact fun same => below.ne (swapped.injective (below.trans bound) bound same)
  refine ⟨fun k below => ?_, fun k below => swapped.id_nodes k (below.trans bound),
    fun p alive => ?_, (Nat.sub_le _ _).trans linked.room, linked.size_pos⟩
  · rw [live_at (other below)]
    exact swapped.alive k (below.trans bound)
  · have differ : p ≠ hp.nodes i := by
      rintro rfl
      have gone : (hp.removed i).live (hp.nodes i) = false := update_self ..
      rw [gone] at alive
      cases alive
    rw [live_at differ] at alive
    obtain ⟨k, below, at_k⟩ := swapped.held p alive
    refine ⟨k, ?_, at_k⟩
    rcases eq_or_ne k (hp.last - 1) with rfl | inner
    · exact absurd (at_k.symm.trans at_end) differ
    · change k < hp.last - 1
      change k < hp.last at below
      omega

/-- The removal leaves a hole where the last node has come. -/
theorem Valid.hole_removed (valid : hp.Valid) (inner : i < hp.last - 1) :
    Hole (hp.removed i).keyAt (hp.removed i).last i := by
  refine valid.ordered.hole (Nat.sub_le _ _) (fun j below differ => ?_) inner
  have before_last : j < hp.last - 1 := below
  change (hp.keyAt ∘ Equiv.swap (hp.last - 1) i) j = hp.keyAt j
  rw [comp_apply, Equiv.swap_apply_of_ne_of_ne before_last.ne differ]

theorem Valid.ordered_removed (valid : hp.Valid) (outer : i = hp.last - 1) :
    Ordered (hp.removed i).keyAt (hp.removed i).last := by
  intro j positive below
  have same : (hp.removed i).keyAt = hp.keyAt := by
    change hp.keyAt ∘ Equiv.swap (hp.last - 1) i = hp.keyAt
    rw [outer, Equiv.swap_self, Equiv.coe_refl, comp_id]
  rw [same]
  exact valid.ordered j positive (below.trans_le (Nat.sub_le _ _))

omit [DecidableEq ρ] [LinearOrder κ] in
theorem exists_last_of_pos (nonempty : 0 < hp.last) :
    hp._heap_node_exist ((hp.last : ℤ) - 1) = true := by
  rw [_heap_node_exist]
  exact decide_eq_true (by omega)

omit [LinearOrder κ] in
/-- `heap_extractlast` frees the node in the last cell. -/
theorem extractlast_eq (linked : hp.Linked) (nonempty : 0 < hp.last) :
    hp.heap_extractlast = some ((hp.block (hp.nodes (hp.last - 1))).data,
      { hp with
        last := hp.last - 1
        live := update hp.live (hp.nodes (hp.last - 1)) false }) := by
  have bound : hp.last - 1 < hp.last := by omega
  have room := bound.trans_le linked.room
  simp only [heap_extractlast, exists_last_of_pos nonempty, cell, node, room,
    linked.alive _ bound, if_true, bind_eq_bind, bind_some]

/-- `heap_delete` removes the node, returns its data and keeps the other nodes. -/
theorem delete_spec (valid : hp.Valid) (alive : hp.live elm = true) :
    ∃ hp', hp.heap_delete elm = some ((hp.block elm).data, hp') ∧ hp'.Valid ∧
      hp'.last + 1 = hp.last ∧ hp'.live = update hp.live elm false ∧
      ∀ p, (hp'.block p).key = (hp.block p).key ∧ (hp'.block p).data = (hp.block p).data := by
  have linked := valid.linked
  obtain ⟨i, inside, rfl⟩ := linked.held elm alive
  have bound : hp.last - 1 < hp.last := by omega
  have linked' := linked.removed inside
  have at_end : (hp.swapped (hp.last - 1) i).nodes (hp.last - 1) = hp.nodes i :=
    congrArg hp.nodes (Equiv.swap_apply_left (hp.last - 1) i)
  have extracted : (hp.swapped (hp.last - 1) i).heap_extractlast =
      some ((hp.block (hp.nodes i)).data, hp.removed i) := by
    rw [extractlast_eq (linked.swapped bound inside) (Nat.zero_lt_of_lt inside)]
    change some ((hp.block ((hp.swapped (hp.last - 1) i).nodes (hp.last - 1))).data,
      { hp.swapped (hp.last - 1) i with
        last := hp.last - 1
        live := update hp.live ((hp.swapped (hp.last - 1) i).nodes (hp.last - 1))
          false }) = _
    rw [at_end]
    rfl
  have exists_last := exists_last_of_pos (Nat.zero_lt_of_lt inside)
  have unfolded : hp.heap_delete (hp.nodes i) =
      if hp.nodes i = hp.nodes (hp.last - 1) then
        some ((hp.block (hp.nodes i)).data, hp.removed i)
      else if 0 < (hp.removed i).last then
        ((hp.removed i).resift (hp.nodes (hp.last - 1))).bind fun hp' =>
          some ((hp.block (hp.nodes i)).data, hp')
      else some ((hp.block (hp.nodes i)).data, hp.removed i) := by
    simp only [heap_delete, linked.node_nodes inside, exists_last, if_true, linked.cell_eq bound,
      linked.swap_element_eq bound inside, extracted, bind_eq_bind, bind_some]
  rw [unfolded]
  have last_succ : hp.last - 1 + 1 = hp.last := by omega
  rcases eq_or_ne i (hp.last - 1) with outer | inner
  · rw [if_pos (congrArg hp.nodes outer)]
    exact ⟨_, rfl, ⟨linked', valid.ordered_removed outer⟩, last_succ, rfl, fun p => ⟨rfl, rfl⟩⟩
  · have below : i < hp.last - 1 := by omega
    have at_i : (hp.removed i).nodes i = hp.nodes (hp.last - 1) :=
      congrArg hp.nodes (Equiv.swap_apply_right (hp.last - 1) i)
    have nonempty : 0 < (hp.removed i).last := Nat.zero_lt_of_lt below
    obtain ⟨hp', run, sifted⟩ := resift_spec linked' below (valid.hole_removed below)
    rw [at_i] at run
    rw [if_neg fun same => inner (linked.injective inside bound same), if_pos nonempty, run,
      bind_some]
    refine ⟨hp', rfl, sifted.valid, ?_, sifted.moved.live_eq, fun p => ⟨?_, ?_⟩⟩
    · rw [sifted.moved.last_eq]
      exact last_succ
    · exact sifted.moved.key_eq p
    · exact sifted.moved.data_eq p

/-- `heap_extractmin` removes a node with a least key. -/
theorem extractmin_spec (valid : hp.Valid) (nonempty : 0 < hp.last) :
    ∃ elm hp', hp.live elm = true ∧ (∀ p, hp.live p = true → (hp.block elm).key ≤ (hp.block p).key) ∧
      hp.heap_extractmin = some (some (hp.block elm).data, hp') ∧
      hp.heap_delete elm = some ((hp.block elm).data, hp') := by
  have linked := valid.linked
  obtain ⟨hp', run, -⟩ := delete_spec valid (linked.alive 0 nonempty)
  refine ⟨hp.nodes 0, hp', linked.alive 0 nonempty, fun p alive => ?_, ?_, run⟩
  · obtain ⟨i, inside, rfl⟩ := linked.held p alive
    exact valid.ordered.root_le inside
  · simp only [heap_extractmin, if_neg (Nat.not_le_of_lt nonempty), linked.cell_eq nonempty,
      linked.node_nodes nonempty, run, bind_eq_bind, bind_some]

/-- The block of one node has a new key and new data. -/
def rewritten (hp : Heap ρ κ δ) (elm : ρ) (key : κ) (dat : δ) : Heap ρ κ δ :=
  { hp with
    block := update hp.block elm ⟨key, (hp.block elm).id, dat⟩ }

omit [LinearOrder κ] in
theorem Linked.rewritten (linked : hp.Linked) (elm : ρ) (key : κ) (dat : δ) :
    (hp.rewritten elm key dat).Linked where
  alive := linked.alive
  id_nodes j below := by
    change (update hp.block elm _ (hp.nodes j)).id = j
    rcases eq_or_ne (hp.nodes j) elm with same | differ
    · rw [same, update_self]
      exact same ▸ linked.id_nodes j below
    · rw [update_of_ne differ, linked.id_nodes j below]
  held := linked.held
  room := linked.room
  size_pos := linked.size_pos

/-- `heap_update` gives the node a new key and new data, and returns the old data. -/
theorem update_spec (valid : hp.Valid) (alive : hp.live elm = true) (key : κ) (dat : δ) :
    ∃ hp', hp.heap_update elm key dat = some ((hp.block elm).data, hp') ∧ hp'.Valid ∧
      hp'.last = hp.last ∧ hp'.live = hp.live ∧
      ((hp'.block elm).key = key ∧ (hp'.block elm).data = dat) ∧
      ∀ p ≠ elm, (hp'.block p).key = (hp.block p).key ∧ (hp'.block p).data = (hp.block p).data := by
  have linked := valid.linked
  obtain ⟨i, inside, at_i⟩ := linked.held elm alive
  have linked' := linked.rewritten elm key dat
  have block_self : (hp.rewritten elm key dat).block elm = ⟨key, (hp.block elm).id, dat⟩ :=
    update_self ..
  have block_ne {p : ρ} (differ : p ≠ elm) : (hp.rewritten elm key dat).block p = hp.block p :=
    update_of_ne differ ..
  have hole : Hole (hp.rewritten elm key dat).keyAt hp.last i := by
    refine valid.ordered.hole le_rfl (fun j below differ => ?_) inside
    have other : hp.nodes j ≠ elm := by
      rw [← at_i]
      exact fun same => differ (linked.injective below inside same)
    exact congrArg heap_node.key (block_ne other)
  obtain ⟨hp', run, sifted⟩ := resift_spec linked' inside hole
  have unfolded : hp.heap_update elm key dat =
      ((hp.rewritten elm key dat).resift elm).bind fun hp' => some ((hp.block elm).data, hp') := by
    simp only [heap_update, node, write, if_pos alive, bind_eq_bind, bind_some]
    rfl
  have at_i' : (hp.rewritten elm key dat).nodes i = elm := at_i
  rw [at_i'] at run
  refine ⟨hp', by rw [unfolded, run, bind_some], sifted.valid, sifted.moved.last_eq,
    sifted.moved.live_eq, ⟨?_, ?_⟩, fun p differ => ⟨?_, ?_⟩⟩
  · rw [sifted.moved.key_eq, block_self]
  · rw [sifted.moved.data_eq, block_self]
  · rw [sifted.moved.key_eq, block_ne differ]
  · rw [sifted.moved.data_eq, block_ne differ]

end Heap

end Squid.Repl
