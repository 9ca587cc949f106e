import Squid.Base.Splay
import Mathlib.Logic.Function.Basic

/-!
# Splay trees in memory

`include/splay.h` works on nodes that point to each other.  `splay` takes a tree apart in place and
hangs the parts under a node `N` of its own: `l` and `r` start at `N`, so that the first node linked
left goes under `N.right` and the first one linked right under `N.left`.  A node of the tree is an
address here, and what the functions do to the links is what those of `Squid.Base.Splay` do to the
tree of the addresses.
-/

namespace Squid

open List Function

variable {κ V : Type}

/-- The fields of the nodes, by address. -/
structure SplayNodes (κ V : Type) where
  left : κ → Option κ
  right : κ → Option κ
  data : κ → V

namespace SplayNodes

variable [DecidableEq κ]

/-- Write the field `left` of a node. -/
def setLeft (nodes : SplayNodes κ V) (p : κ) (q : Option κ) : SplayNodes κ V :=
  { nodes with left := update nodes.left p q }

/-- Write the field `right` of a node. -/
def setRight (nodes : SplayNodes κ V) (p : κ) (q : Option κ) : SplayNodes κ V :=
  { nodes with right := update nodes.right p q }

/-- The constructor of `SplayNode`. -/
def construct (nodes : SplayNodes κ V) (p : κ) (someData : V) : SplayNodes κ V :=
  { left := update nodes.left p none
    right := update nodes.right p none
    data := update nodes.data p someData }

/-- The assembly after the loop of `splay`. -/
def assemble (N : κ) (nodes : SplayNodes κ V) (l r top : κ) : SplayNodes κ V :=
  let nodes := nodes.setRight l (nodes.left top)
  let nodes := nodes.setLeft r (nodes.right top)
  let nodes := nodes.setLeft top (nodes.right N)
  nodes.setRight top (nodes.left N)

/-- The loop of `splay`, of at most `fuel` rounds: `splayLastResult`, the top and the nodes. -/
def splayLoop (compare : V → ℤ) (N : κ) :
    ℕ → SplayNodes κ V → κ → κ → κ → Option (ℤ × κ × SplayNodes κ V)
  | 0, _, _, _, _ => none
  | fuel + 1, nodes, l, r, top =>
      if compare (nodes.data top) < 0 then
        match nodes.left top with
        | none => some (compare (nodes.data top), top, nodes.assemble N l r top)
        | some y =>
            if compare (nodes.data y) < 0 then
              let nodes := (nodes.setLeft top (nodes.right y)).setRight y (some top)
              match nodes.left y with
              | none => some (compare (nodes.data y), y, nodes.assemble N l r y)
              | some _ => do
                  let nodes := nodes.setLeft r (some y)
                  splayLoop compare N fuel nodes l y (← nodes.left y)
            else do
              let nodes := nodes.setLeft r (some top)
              splayLoop compare N fuel nodes l top (← nodes.left top)
      else if 0 < compare (nodes.data top) then
        match nodes.right top with
        | none => some (compare (nodes.data top), top, nodes.assemble N l r top)
        | some y =>
            if 0 < compare (nodes.data y) then
              let nodes := (nodes.setRight top (nodes.left y)).setLeft y (some top)
              match nodes.right y with
              | none => some (compare (nodes.data y), y, nodes.assemble N l r y)
              | some _ => do
                  let nodes := nodes.setRight l (some y)
                  splayLoop compare N fuel nodes y r (← nodes.right y)
            else do
              let nodes := nodes.setRight l (some top)
              splayLoop compare N fuel nodes top r (← nodes.right top)
      else
        some (compare (nodes.data top), top, nodes.assemble N l r top)

/-- `splay`: `splayLastResult`, the returned pointer and the nodes. -/
def splay (compare : V → ℤ) (N : κ) (fuel : ℕ) (nodes : SplayNodes κ V) :
    Option κ → Option (ℤ × Option κ × SplayNodes κ V)
  | none => some (-1, none, nodes)
  | some this => do
      let nodes := (nodes.setLeft N none).setRight N none
      let (splayLastResult, top, nodes) ← splayLoop compare N fuel nodes N N this
      some (splayLastResult, some top, nodes)

/-- `insert` with the block `newNode` from `new`: the returned pointer, the nodes and the node that
was deleted. -/
def insert (dataToInsert : V) (newNode : κ) (compare : V → ℤ) (N : κ) (fuel : ℕ)
    (nodes : SplayNodes κ V) (this : Option κ) :
    Option (Option κ × SplayNodes κ V × Option κ) := do
  let nodes := nodes.construct newNode dataToInsert
  match this with
  | none => some (some newNode, (nodes.setRight newNode none).setLeft newNode none, none)
  | some this =>
      let (splayLastResult, newTop, nodes) ← nodes.splay compare N fuel (some this)
      let newTop ← newTop
      if splayLastResult < 0 then
        let nodes := nodes.setLeft newNode (nodes.left newTop)
        let nodes := nodes.setRight newNode (some newTop)
        some (some newNode, nodes.setLeft newTop none, none)
      else if 0 < splayLastResult then
        let nodes := nodes.setRight newNode (nodes.right newTop)
        let nodes := nodes.setLeft newNode (some newTop)
        some (some newNode, nodes.setRight newTop none, none)
      else
        some (some newTop, nodes, some newNode)

/-- `remove`: the returned pointer, the nodes and the node that was deleted. -/
def remove (compare : V → ℤ) (N : κ) (fuel : ℕ) (nodes : SplayNodes κ V) :
    Option κ → Option (Option κ × SplayNodes κ V × Option κ)
  | none => some (none, nodes, none)
  | some this => do
      let (splayLastResult, result, nodes) ← nodes.splay compare N fuel (some this)
      let result ← result
      if splayLastResult = 0 then
        match nodes.left result with
        | none => some (nodes.right result, nodes, some result)
        | some left =>
            let (_, newTop, nodes) ← nodes.splay compare N fuel (some left)
            let newTop ← newTop
            let nodes := nodes.setRight newTop (nodes.right result)
            some (some newTop, nodes.setRight result none, some result)
      else
        some (some result, nodes, none)

/-! ## Trees of addresses -/

omit [DecidableEq κ]

/-- The nodes under a pointer, by their links. -/
def Holds (nodes : SplayNodes κ V) : Option κ → SplayNode κ → Prop
  | p, .null => p = none
  | p, .node left a right =>
      p = some a ∧ nodes.Holds (nodes.left a) left ∧ nodes.Holds (nodes.right a) right

/-- Some links were written, of the addresses in a list only. -/
structure Only (written : List κ) (nodes other : SplayNodes κ V) : Prop where
  data : other.data = nodes.data
  agree : ∀ a, a ∉ written → other.left a = nodes.left a ∧ other.right a = nodes.right a

variable {nodes other : SplayNodes κ V} {written : List κ} {p : Option κ} {tree : SplayNode κ}

theorem Only.trans {third : SplayNodes κ V} (first : Only written nodes other)
    (second : Only written other third) : Only written nodes third where
  data := second.data.trans first.data
  agree := fun a away =>
    ⟨(second.agree a away).1.trans (first.agree a away).1,
      (second.agree a away).2.trans (first.agree a away).2⟩

theorem Only.mono {more : List κ} (only : Only written nodes other) (sub : written ⊆ more) :
    Only more nodes other :=
  ⟨only.data, fun a away => only.agree a fun member => away (sub member)⟩

theorem Holds.congr (holds : nodes.Holds p tree)
    (agree : ∀ a ∈ tree.toList, other.left a = nodes.left a ∧ other.right a = nodes.right a) :
    other.Holds p tree := by
  induction tree generalizing p with
  | null => exact holds
  | node left a right ihLeft ihRight =>
      obtain ⟨here, below, above⟩ := holds
      obtain ⟨sameLeft, sameRight⟩ := agree a (by simp)
      refine ⟨here, ?_, ?_⟩
      · rw [sameLeft]
        exact ihLeft below fun b member => agree b (by simp [member])
      · rw [sameRight]
        exact ihRight above fun b member => agree b (by simp [member])

/-- A row of nodes that have been linked one under the other, the last one at `p`: with a tree hung
under `p`, all of them are under `N`. -/
def Hangs (along aside : SplayNodes κ V → κ → Option κ) (N : κ) (nodes : SplayNodes κ V)
    (row : List κ) (build : SplayNode κ → SplayNode κ) (p : κ) : Prop :=
  p ∈ N :: row ∧ ∀ (other : SplayNodes κ V) (tree : SplayNode κ),
    (∀ a ∈ N :: row, a ≠ p → along other a = along nodes a) →
    (∀ a ∈ row, aside other a = aside nodes a) → other.Holds (along other p) tree →
    other.Holds (along other N) (build tree)

/-- The addresses that the loop works on. -/
def working (N : κ) (l : List (SplayNode κ × κ)) (tree : SplayNode κ)
    (r : List (κ × SplayNode κ)) : List κ :=
  N :: (SplayNode.lefts l ++ (tree.toList ++ SplayNode.rights r))

/-- The tree in parts: nodes linked left, those under `top` and nodes linked right. -/
structure Split (N : κ) (nodes : SplayNodes κ V) (l : List (SplayNode κ × κ)) (tree : SplayNode κ)
    (r : List (κ × SplayNode κ)) (lp rp : κ) (top : Option κ) : Prop where
  holds : nodes.Holds top tree
  lefts : Hangs right left N nodes (SplayNode.lefts l) (SplayNode.linkLeft l) lp
  rights : Hangs left right N nodes (SplayNode.rights r) (SplayNode.linkRight r) rp
  nodup : (working N l tree r).Nodup

variable {l : List (SplayNode κ × κ)} {r : List (κ × SplayNode κ)}
  {left right yLeft yRight : SplayNode κ} {N lp rp top y : κ}

theorem Hangs.congr {along aside : SplayNodes κ V → κ → Option κ} {row : List κ}
    {build : SplayNode κ → SplayNode κ} {q : κ} (hangs : Hangs along aside N nodes row build q)
    (same : ∀ a ∈ N :: row, along other a = along nodes a)
    (sameAside : ∀ a ∈ row, aside other a = aside nodes a) :
    Hangs along aside N other row build q := by
  refine ⟨hangs.1, fun third tree first second => hangs.2 third tree ?_ ?_⟩
  · exact fun a member ne => (first a member ne).trans (same a member)
  · exact fun a member => (second a member).trans (sameAside a member)

theorem Split.mem_lefts (split : Split N nodes l tree r lp rp p) : lp ∈ working N l tree r := by
  have := split.lefts.1
  simp only [working, mem_cons, mem_append] at this ⊢
  tauto

theorem Split.mem_rights (split : Split N nodes l tree r lp rp p) : rp ∈ working N l tree r := by
  have := split.rights.1
  simp only [working, mem_cons, mem_append] at this ⊢
  tauto

/-- The three parts have no node in common. -/
theorem Split.apart (split : Split N nodes l tree r lp rp p) :
    (∀ a ∈ tree.toList, a ≠ N ∧ a ≠ lp ∧ a ≠ rp ∧ a ∉ SplayNode.lefts l ∧ a ∉ SplayNode.rights r) ∧
      (∀ a ∈ SplayNode.lefts l, a ≠ N ∧ a ≠ rp) ∧ (∀ a ∈ SplayNode.rights r, a ≠ N ∧ a ≠ lp) ∧
      tree.toList.Nodup := by
  have nodup := split.nodup
  have first := split.lefts.1
  have second := split.rights.1
  simp only [working, nodup_cons, nodup_append, mem_append, mem_cons, not_or] at nodup first second
  grind

theorem sub_working : tree.toList ⊆ working N l tree r := fun a member => by simp [working, member]

/-- Other links under `top`. -/
theorem Split.retree (split : Split N nodes l tree r lp rp p) {tree' : SplayNode κ}
    {p' : Option κ} (only : Only tree.toList nodes other) (holds : other.Holds p' tree')
    (same : tree'.toList = tree.toList) : Split N other l tree' r lp rp p' := by
  obtain ⟨away, -⟩ := split.apart
  refine ⟨holds, split.lefts.congr ?_ ?_, split.rights.congr ?_ ?_, ?_⟩
  · exact fun a member => (only.agree a (by grind)).2
  · exact fun a member => (only.agree a (by grind)).1
  · exact fun a member => (only.agree a (by grind)).1
  · exact fun a member => (only.agree a (by grind)).2
  · rw [working, same]
    exact split.nodup

/-- What the loop does to the nodes, next to what it does to the tree of their addresses. -/
def Follows (nodes : SplayNodes κ V) (written : List κ) (after : ℤ × SplayNode κ)
    (outcome : Option (ℤ × κ × SplayNodes κ V)) : Prop :=
  ∃ top nodes', outcome = some (after.1, top, nodes') ∧ nodes'.Holds (some top) after.2 ∧
    Only written nodes nodes'

theorem Follows.earlier {after : ℤ × SplayNode κ} {outcome : Option (ℤ × κ × SplayNodes κ V)}
    {written' : List κ} (follows : other.Follows written' after outcome)
    (only : Only written nodes other) (same : written' = written) :
    nodes.Follows written after outcome := by
  obtain ⟨top, nodes', result, holds, later⟩ := follows
  exact ⟨top, nodes', result, holds, only.trans (same ▸ later)⟩

/-! ## The loop -/

section

variable [DecidableEq κ]

@[simp]
theorem setLeft_self (nodes : SplayNodes κ V) (a : κ) (q : Option κ) :
    (nodes.setLeft a q).left a = q := update_self ..

@[simp]
theorem setRight_self (nodes : SplayNodes κ V) (a : κ) (q : Option κ) :
    (nodes.setRight a q).right a = q := update_self ..

@[simp]
theorem setLeft_right (nodes : SplayNodes κ V) (a : κ) (q : Option κ) :
    (nodes.setLeft a q).right = nodes.right := rfl

@[simp]
theorem setRight_left (nodes : SplayNodes κ V) (a : κ) (q : Option κ) :
    (nodes.setRight a q).left = nodes.left := rfl

variable {a : κ}

theorem setLeft_of_ne {b : κ} (other : b ≠ a) (q : Option κ) :
    (nodes.setLeft a q).left b = nodes.left b := update_of_ne other ..

theorem setRight_of_ne {b : κ} (other : b ≠ a) (q : Option κ) :
    (nodes.setRight a q).right b = nodes.right b := update_of_ne other ..

theorem only_setLeft (member : top ∈ written) (q : Option κ) :
    Only written nodes (nodes.setLeft top q) := by
  refine ⟨rfl, fun a away => ⟨setLeft_of_ne ?_ _, rfl⟩⟩
  rintro rfl
  exact away member

theorem only_setRight (member : top ∈ written) (q : Option κ) :
    Only written nodes (nodes.setRight top q) := by
  refine ⟨rfl, fun a away => ⟨rfl, setRight_of_ne ?_ _⟩⟩
  rintro rfl
  exact away member

/-- `rotate right`. -/
theorem Split.rotateRight
    (split : Split N nodes l (.node (.node yLeft y yRight) top right) r lp rp p) :
    Split N ((nodes.setLeft top (nodes.right y)).setRight y (some top)) l
        (.node yLeft y (.node yRight top right)) r lp rp (some y) ∧
      Only (working N l (.node (.node yLeft y yRight) top right) r) nodes
        ((nodes.setLeft top (nodes.right y)).setRight y (some top)) := by
  obtain ⟨-, -, -, nodup⟩ := split.apart
  obtain ⟨-, ⟨-, holdsLeft, holdsMid⟩, holdsRight⟩ := split.holds
  have only : Only (SplayNode.node (.node yLeft y yRight) top right).toList nodes
      ((nodes.setLeft top (nodes.right y)).setRight y (some top)) :=
    (only_setLeft (by simp) _).trans (only_setRight (by simp) _)
  have keep : Only [top, y] nodes ((nodes.setLeft top (nodes.right y)).setRight y (some top)) :=
    (only_setLeft (by simp) _).trans (only_setRight (by simp) _)
  simp only [SplayNode.toList_node, nodup_append, nodup_cons, mem_append, mem_cons] at nodup
  have ne : y ≠ top := by grind
  refine ⟨split.retree only ⟨rfl, ?_, ?_, ?_, ?_⟩ ?_, only.mono ?_⟩
  · rw [setRight_left, setLeft_of_ne ne]
    exact holdsLeft.congr fun a member => keep.agree a (by grind)
  · exact setRight_self ..
  · rw [setRight_left, setLeft_self]
    exact holdsMid.congr fun a member => keep.agree a (by grind)
  · rw [setRight_of_ne ne.symm, setLeft_right]
    exact holdsRight.congr fun a member => keep.agree a (by grind)
  · simp
  · exact sub_working

/-- `rotate left`. -/
theorem Split.rotateLeft
    (split : Split N nodes l (.node left top (.node yLeft y yRight)) r lp rp p) :
    Split N ((nodes.setRight top (nodes.left y)).setLeft y (some top)) l
        (.node (.node left top yLeft) y yRight) r lp rp (some y) ∧
      Only (working N l (.node left top (.node yLeft y yRight)) r) nodes
        ((nodes.setRight top (nodes.left y)).setLeft y (some top)) := by
  obtain ⟨-, -, -, nodup⟩ := split.apart
  obtain ⟨-, holdsLeft, ⟨-, holdsMid, holdsRight⟩⟩ := split.holds
  have only : Only (SplayNode.node left top (.node yLeft y yRight)).toList nodes
      ((nodes.setRight top (nodes.left y)).setLeft y (some top)) :=
    (only_setRight (by simp) _).trans (only_setLeft (by simp) _)
  have keep : Only [top, y] nodes ((nodes.setRight top (nodes.left y)).setLeft y (some top)) :=
    (only_setRight (by simp) _).trans (only_setLeft (by simp) _)
  simp only [SplayNode.toList_node, nodup_append, nodup_cons, mem_append, mem_cons] at nodup
  have ne : y ≠ top := by grind
  refine ⟨split.retree only ⟨rfl, ⟨?_, ?_, ?_⟩, ?_⟩ ?_, only.mono ?_⟩
  · exact setLeft_self ..
  · rw [setLeft_of_ne ne.symm, setRight_left]
    exact holdsLeft.congr fun a member => keep.agree a (by grind)
  · rw [setLeft_right, setRight_self]
    exact holdsMid.congr fun a member => keep.agree a (by grind)
  · rw [setLeft_right, setRight_of_ne ne]
    exact holdsRight.congr fun a member => keep.agree a (by grind)
  · simp
  · exact sub_working

omit [DecidableEq κ] in
theorem working_linkRight : working N l left ((top, right) :: r) =
    working N l (.node left top right) r := by
  simp [working]

omit [DecidableEq κ] in
theorem working_linkLeft : working N ((left, top) :: l) right r =
    working N l (.node left top right) r := by
  simp [working]

/-- `link right`. -/
theorem Split.linkRight (split : Split N nodes l (.node left top right) r lp rp p) :
    Split N (nodes.setLeft rp (some top)) l left ((top, right) :: r) lp top
      ((nodes.setLeft rp (some top)).left top) := by
  obtain ⟨away, first, second, nodup⟩ := split.apart
  obtain ⟨-, holdsLeft, holdsRight⟩ := split.holds
  simp only [SplayNode.toList_node, nodup_append, nodup_cons, mem_append, mem_cons] at nodup away
  have keep : Only [rp] nodes (nodes.setLeft rp (some top)) := only_setLeft (by simp) _
  refine ⟨?_, split.lefts.congr (fun _ _ => rfl) ?_, ⟨by simp, ?_⟩, ?_⟩
  · rw [setLeft_of_ne (by grind)]
    exact holdsLeft.congr fun a member => keep.agree a (by grind)
  · exact fun a member => setLeft_of_ne (first a member).2 _
  · intro other tree same sameAside holds
    simp only [SplayNode.rights_cons, mem_cons, mem_append] at same sameAside
    have inside := split.rights.1
    refine split.rights.2 other (.node tree top right) ?_ ?_ ⟨?_, holds, ?_⟩
    · intro a member ne
      rw [same a (by grind) (by grind), setLeft_of_ne ne]
    · exact fun a member => sameAside a (by grind)
    · rw [same rp (by grind) (by grind), setLeft_self]
    · rw [sameAside top (by simp)]
      refine holdsRight.congr fun a member => ⟨?_, sameAside a (by grind)⟩
      rw [same a (by grind) (by grind), setLeft_of_ne (by grind)]
  · rw [working_linkRight]
    exact split.nodup

/-- `link left`. -/
theorem Split.linkLeft (split : Split N nodes l (.node left top right) r lp rp p) :
    Split N (nodes.setRight lp (some top)) ((left, top) :: l) right r top rp
      ((nodes.setRight lp (some top)).right top) := by
  obtain ⟨away, first, second, nodup⟩ := split.apart
  obtain ⟨-, holdsLeft, holdsRight⟩ := split.holds
  simp only [SplayNode.toList_node, nodup_append, nodup_cons, mem_append, mem_cons] at nodup away
  have keep : Only [lp] nodes (nodes.setRight lp (some top)) := only_setRight (by simp) _
  refine ⟨?_, ⟨by simp, ?_⟩, split.rights.congr (fun _ _ => rfl) ?_, ?_⟩
  · rw [setRight_of_ne (by grind)]
    exact holdsRight.congr fun a member => keep.agree a (by grind)
  · intro other tree same sameAside holds
    simp only [SplayNode.lefts_cons, mem_cons, mem_append] at same sameAside
    have inside := split.lefts.1
    refine split.lefts.2 other (.node left top tree) ?_ ?_ ⟨?_, ?_, holds⟩
    · intro a member ne
      rw [same a (by grind) (by grind), setRight_of_ne ne]
    · exact fun a member => sameAside a (by grind)
    · rw [same lp (by grind) (by grind), setRight_self]
    · rw [sameAside top (by simp)]
      refine holdsLeft.congr fun a member => ⟨sameAside a (by grind), ?_⟩
      rw [same a (by grind) (by grind), setRight_of_ne (by grind)]
  · exact fun a member => setRight_of_ne (second a member).2 _
  · rw [working_linkLeft]
    exact split.nodup

/-- The assembly hangs what is under `N` under `top`. -/
theorem Split.done (split : Split N nodes l (.node left top right) r lp rp p) (result : ℤ) :
    nodes.Follows (working N l (.node left top right) r)
      (result, SplayNode.assemble l r left top right)
      (some (result, top, nodes.assemble N lp rp top)) := by
  obtain ⟨away, first, second, nodup⟩ := split.apart
  obtain ⟨-, holdsLeft, holdsRight⟩ := split.holds
  simp only [SplayNode.toList_node, nodup_append, nodup_cons, mem_append, mem_cons] at nodup away
  have onLeft : ∀ a, a ≠ top → a ≠ rp → (nodes.assemble N lp rp top).left a = nodes.left a := by
    intro a third fourth
    rw [assemble, setRight_left, setLeft_of_ne third, setLeft_of_ne fourth, setRight_left]
  have onRight : ∀ a, a ≠ top → a ≠ lp → (nodes.assemble N lp rp top).right a = nodes.right a := by
    intro a third fourth
    rw [assemble, setRight_of_ne third]
    exact setRight_of_ne fourth _
  have member : top ∈ working N l (.node left top right) r := sub_working (by simp)
  refine ⟨top, _, rfl, ⟨rfl, ?_, ?_⟩, ?_⟩
  · have below : (nodes.assemble N lp rp top).left top = (nodes.assemble N lp rp top).right N := by
      refine Eq.trans ?_ (setRight_of_ne (by grind) _).symm
      exact setLeft_self ..
    have onward : (nodes.assemble N lp rp top).right lp = nodes.left top := by
      rw [assemble, setRight_of_ne (by grind)]
      exact setRight_self ..
    rw [below]
    refine split.lefts.2 _ left (fun a member ne => onRight a (by grind) ne)
      (fun a member => onLeft a (by grind) (by grind)) ?_
    rw [onward]
    exact holdsLeft.congr fun a member =>
      ⟨onLeft a (by grind) (by grind), onRight a (by grind) (by grind)⟩
  · have above : (nodes.assemble N lp rp top).right top = (nodes.assemble N lp rp top).left N := by
      rw [assemble, setRight_self, setRight_left]
    have onward : (nodes.assemble N lp rp top).left rp = nodes.right top := by
      rw [assemble, setRight_left, setLeft_of_ne (by grind), setLeft_self,
        setRight_of_ne (by grind)]
    rw [above]
    refine split.rights.2 _ right (fun a member ne => onLeft a (by grind) ne)
      (fun a member => onRight a (by grind) (by grind)) ?_
    rw [onward]
    exact holdsRight.congr fun a member =>
      ⟨onLeft a (by grind) (by grind), onRight a (by grind) (by grind)⟩
  · exact ((only_setRight split.mem_lefts _).trans (only_setLeft split.mem_rights _)).trans
      ((only_setLeft member _).trans (only_setRight member _))

variable {rank : κ → ℤ}

/-- The loop does to the nodes what it does to the tree of their addresses. -/
theorem splayLoop_eq {compare : V → ℤ} (fuel : ℕ) (same : ∀ a, compare (nodes.data a) = rank a)
    (split : Split N nodes l tree r lp rp (some top)) (enough : tree.toList.length ≤ fuel) :
    nodes.Follows (working N l tree r) (SplayNode.splayLoop rank tree l r)
      (splayLoop compare N fuel nodes lp rp top) := by
  induction fuel generalizing nodes lp rp top l tree r with
  | zero =>
      rw [Nat.le_zero, length_eq_zero_iff, SplayNode.toList_eq_nil] at enough
      subst enough
      exact absurd split.holds nofun
  | succ fuel ih =>
      cases tree with
      | null => exact absurd split.holds nofun
      | node left data right =>
          obtain ⟨here, below, above⟩ := split.holds
          obtain rfl := Option.some.inj here
          simp only [SplayNode.toList_node, length_append, length_cons] at enough
          rw [splayLoop, SplayNode.splayLoop.eq_def]
          simp only [same]
          by_cases negative : rank top < 0
          · rw [if_pos negative, if_pos negative]
            cases left with
            | null =>
                obtain below : nodes.left top = none := below
                rw [below]
                exact split.done _
            | node yLeft y yRight =>
                obtain ⟨below, -⟩ := below
                rw [below]
                dsimp only
                simp only [SplayNode.toList_node, length_append, length_cons] at enough
                by_cases yNegative : rank y < 0
                · rw [if_pos yNegative, if_pos yNegative]
                  obtain ⟨rotated, only⟩ := split.rotateRight
                  obtain ⟨-, next, -⟩ := rotated.holds
                  cases yLeft with
                  | null =>
                      obtain next : _ = none := next
                      rw [next, ← same y]
                      exact (rotated.done _).earlier only (by simp [working])
                  | node zLeft z zRight =>
                      obtain ⟨next, -⟩ := next
                      have linked := rotated.linkRight
                      obtain ⟨onward, -⟩ := linked.holds
                      rw [next]
                      dsimp only
                      rw [onward] at linked ⊢
                      refine ((ih (by exact same) linked (by omega)).earlier
                        (only_setLeft rotated.mem_rights _) ?_).earlier only ?_
                      · simp [working]
                      · simp [working]
                · rw [if_neg yNegative, if_neg yNegative]
                  have linked := split.linkRight
                  obtain ⟨onward, -⟩ := linked.holds
                  rw [onward] at linked ⊢
                  refine (ih (by exact same) linked ?_).earlier (only_setLeft split.mem_rights _) ?_
                  · simp only [SplayNode.toList_node, length_append, length_cons]
                    omega
                  · simp [working]
          · rw [if_neg negative, if_neg negative]
            by_cases positive : 0 < rank top
            · rw [if_pos positive, if_pos positive]
              cases right with
              | null =>
                  obtain above : nodes.right top = none := above
                  rw [above]
                  exact split.done _
              | node yLeft y yRight =>
                  obtain ⟨above, -⟩ := above
                  rw [above]
                  dsimp only
                  simp only [SplayNode.toList_node, length_append, length_cons] at enough
                  by_cases yPositive : 0 < rank y
                  · rw [if_pos yPositive, if_pos yPositive]
                    obtain ⟨rotated, only⟩ := split.rotateLeft
                    obtain ⟨-, -, next⟩ := rotated.holds
                    cases yRight with
                    | null =>
                        obtain next : _ = none := next
                        rw [next, ← same y]
                        exact (rotated.done _).earlier only (by simp [working])
                    | node zLeft z zRight =>
                        obtain ⟨next, -⟩ := next
                        have linked := rotated.linkLeft
                        obtain ⟨onward, -⟩ := linked.holds
                        rw [next]
                        dsimp only
                        rw [onward] at linked ⊢
                        refine ((ih (by exact same) linked (by omega)).earlier
                          (only_setRight rotated.mem_lefts _) working_linkLeft).earlier only ?_
                        simp [working]
                  · rw [if_neg yPositive, if_neg yPositive]
                    have linked := split.linkLeft
                    obtain ⟨onward, -⟩ := linked.holds
                    rw [onward] at linked ⊢
                    refine (ih (by exact same) linked ?_).earlier
                      (only_setRight split.mem_lefts _) working_linkLeft
                    simp only [SplayNode.toList_node, length_append, length_cons]
                    omega
            · rw [if_neg positive, if_neg positive]
              exact split.done _

/-- The nodes under a pointer are those of a tree. -/
structure Forms (nodes : SplayNodes κ V) (p : Option κ) (tree : SplayNode κ) : Prop where
  holds : nodes.Holds p tree
  nodup : tree.toList.Nodup

variable {fuel : ℕ}

/-- `splay` does to the nodes what it does to the tree of their addresses. -/
theorem splay_eq (compare : V → ℤ) (forms : nodes.Forms p tree) (apart : N ∉ tree.toList)
    (enough : tree.toList.length ≤ fuel) :
    ∃ p' nodes',
      splay compare N fuel nodes p =
        some ((SplayNode.splay (compare ∘ nodes.data) tree).1, p', nodes') ∧
      nodes'.Forms p' (SplayNode.splay (compare ∘ nodes.data) tree).2 ∧
      Only (N :: tree.toList) nodes nodes' := by
  obtain ⟨holds, nodup⟩ := forms
  cases tree with
  | null =>
      obtain rfl : p = none := holds
      exact ⟨none, nodes, rfl, ⟨rfl, nodup⟩, rfl, fun _ _ => ⟨rfl, rfl⟩⟩
  | node left top right =>
      obtain ⟨rfl, -⟩ := id holds
      have only : Only [N] nodes ((nodes.setLeft N none).setRight N none) :=
        (only_setLeft (by simp) _).trans (only_setRight (by simp) _)
      have split : Split N ((nodes.setLeft N none).setRight N none) [] (.node left top right) []
          N N (some top) := by
        refine ⟨holds.congr fun a member => only.agree a ?_, ⟨by simp, fun _ _ _ _ => id⟩,
          ⟨by simp, fun _ _ _ _ => id⟩, ?_⟩
        · rintro same
          exact apart (mem_singleton.mp same ▸ member)
        · simpa [working] using ⟨by simpa using apart, nodup⟩
      have wider : Only (N :: (SplayNode.node left top right).toList) nodes
          ((nodes.setLeft N none).setRight N none) := only.mono (by simp)
      have same : ∀ a, compare (((nodes.setLeft N none).setRight N none).data a) =
          (compare ∘ nodes.data) a := fun _ => rfl
      obtain ⟨top', nodes', result, holds', written⟩ :=
        (splayLoop_eq fuel same split enough).earlier wider (by simp [working])
      refine ⟨some top', nodes', ?_, ⟨holds', ?_⟩, written⟩
      · rw [splay]
        dsimp only
        rw [result]
        rfl
      · rw [SplayNode.toList_splay]
        exact nodup

/-- A tree is splayed around one of its nodes. -/
theorem splay_spec (compare : V → ℤ) (forms : nodes.Forms (some top) tree) (apart : N ∉ tree.toList)
    (enough : tree.toList.length ≤ fuel)
    (consistent : SplayNode.Consistent (compare ∘ nodes.data) tree.toList) :
    ∃ left a right nodes',
      splay compare N fuel nodes (some top) = some (compare (nodes.data a), some a, nodes') ∧
      nodes'.Forms (some a) (.node left a right) ∧
      tree.toList = left.toList ++ a :: right.toList ∧
      SplayNode.Neighbour (compare ∘ nodes.data) left.toList a right.toList ∧
      Only (N :: tree.toList) nodes nodes' := by
  have ne : tree ≠ .null := by
    rintro rfl
    exact absurd forms.holds nofun
  obtain ⟨p', nodes', result, forms', only⟩ := splay_eq compare forms apart enough
  obtain ⟨left, a, right, splayed, values, neighbour⟩ :=
    SplayNode.splay_spec (compare ∘ nodes.data) ne
  rw [splayed] at result forms'
  obtain rfl := forms'.holds.1
  exact ⟨left, a, right, nodes', result, forms', values.symm, neighbour consistent, only⟩

omit [DecidableEq κ] in
theorem ne_zero_of_neighbour {front back : List κ}
    (consistent : SplayNode.Consistent rank (front ++ a :: back))
    (neighbour : SplayNode.Neighbour rank front a back) (other : rank a ≠ 0) :
    ∀ x ∈ front ++ a :: back, rank x ≠ 0 := by
  intro x member zero
  rcases lt_or_gt_of_ne other with negative | positive
  · rcases mem_append.mp member with member | member
    · have := neighbour.1 negative x member
      omega
    · have := consistent.after negative x member
      omega
  · rw [append_cons] at member
    rcases mem_append.mp member with member | member
    · have := consistent.before positive x member
      omega
    · have := neighbour.2 positive x member
      omega

/-- What `remove` takes out, with the node that is deleted. -/
inductive Removed (rank : κ → ℤ) (before : List κ) : List κ → Option κ → Prop
  | absent (other : ∀ a ∈ before, rank a ≠ 0) : Removed rank before before none
  | found (front lost back : List κ) (a : κ) (split : before = front ++ lost ++ a :: back)
      (equal : ∀ b ∈ a :: lost, rank b = 0) : Removed rank before (front ++ back) (some a)

omit [DecidableEq κ] in
/-- The tree that is left of a value, splayed, keeps only values that compare equal on the right. -/
theorem equal_after_splay {front last back : List κ}
    (consistent : SplayNode.Consistent rank (front ++ top :: last ++ a :: back)) (zero : rank a = 0)
    (neighbour : SplayNode.Neighbour rank front top last) : ∀ b ∈ a :: last, rank b = 0 := by
  obtain ⟨-, -, order⟩ := pairwise_append.mp consistent
  have low : ∀ b ∈ front ++ top :: last, 0 ≤ rank b := by
    intro b member
    by_contra negative
    have := (order b member a (by simp)).2 (by omega)
    omega
  intro b member
  rcases mem_cons.mp member with rfl | member
  · exact zero
  · have := low b (by simp [member])
    have := low top (by simp)
    by_contra other
    by_cases positive : 0 < rank top
    · have := neighbour.2 positive b member
      omega
    · have inner := (pairwise_append.mp (pairwise_append.mp consistent).1).2.1
      have := ((pairwise_cons.mp inner).1 b member).1 (by omega)
      omega

theorem remove_spec (compare : V → ℤ) {fuel : ℕ} (forms : nodes.Forms p tree)
    (apart : N ∉ tree.toList) (enough : tree.toList.length ≤ fuel)
    (consistent : SplayNode.Consistent (compare ∘ nodes.data) tree.toList) :
    ∃ p' nodes' deleted tree', remove compare N fuel nodes p = some (p', nodes', deleted) ∧
      nodes'.Forms p' tree' ∧ nodes'.data = nodes.data ∧
      Removed (compare ∘ nodes.data) tree.toList tree'.toList deleted := by
  cases p with
  | none =>
      cases tree with
      | null => exact ⟨none, nodes, none, .null, rfl, forms, rfl, .absent (by simp)⟩
      | node left a right => exact absurd forms.holds.1 nofun
  | some this =>
      obtain ⟨left, a, right, nodes₁, result, forms₁, values, neighbour, only₁⟩ :=
        splay_spec compare forms apart enough consistent
      rw [values] at consistent apart enough ⊢
      simp only [remove, result, Option.bind_eq_bind, Option.bind_some]
      by_cases zero : compare (nodes.data a) = 0
      · rw [if_pos zero]
        obtain ⟨-, below, above⟩ := forms₁.holds
        have nodup := forms₁.nodup
        rw [SplayNode.toList_node] at nodup
        cases left with
        | null =>
            obtain below : nodes₁.left a = none := below
            rw [below]
            refine ⟨_, _, _, right, rfl, ⟨above, (nodup_cons.mp nodup).2⟩, only₁.data, ?_⟩
            exact .found [] [] right.toList a rfl (by simpa using zero)
        | node l b r =>
            have root := below.1
            rw [root] at below ⊢
            have inner := (pairwise_append.mp consistent).1
            rw [← only₁.data] at inner
            have short : (SplayNode.node l b r).toList.length ≤ fuel := by
              rw [length_append] at enough
              omega
            obtain ⟨l₂, a₂, r₂, nodes₂, result₂, forms₂, values₂, neighbour₂, only₂⟩ :=
              splay_spec compare ⟨below, (nodup_append.mp nodup).1⟩
                (fun member => apart (mem_append_left _ member))
                short inner
            simp only [result₂, Option.bind_some]
            rw [values₂] at nodup apart consistent ⊢
            rw [only₁.data] at neighbour₂
            obtain ⟨-, holds₂, -⟩ := forms₂.holds
            simp only [nodup_append, nodup_cons, mem_append, mem_cons] at nodup
            simp only [mem_append, mem_cons, not_or] at apart
            have ne : a₂ ≠ a := by grind
            have keep : ∀ q, Only [a₂, a] nodes₂ ((nodes₂.setRight a₂ q).setRight a none) :=
              fun q => (only_setRight (by simp) _).trans (only_setRight (by simp) _)
            refine ⟨_, _, _, .node l₂ a₂ right, rfl, ⟨⟨rfl, ?_, ?_⟩, ?_⟩, ?_, ?_⟩
            · exact holds₂.congr fun b member => (keep _).agree b (by grind)
            · rw [setRight_of_ne ne, setRight_self, (only₂.agree a (by grind)).2]
              refine Holds.congr (above.congr fun b member => only₂.agree b (by grind)) ?_
              exact fun b member => (keep _).agree b (by grind)
            · simp only [SplayNode.toList_node, nodup_append, nodup_cons]
              grind
            · exact only₂.data.trans only₁.data
            · have lost := equal_after_splay consistent zero neighbour₂
              have taken : Removed (compare ∘ nodes.data)
                  (l₂.toList ++ a₂ :: r₂.toList ++ a :: right.toList)
                  (l₂.toList ++ [a₂] ++ right.toList) (some a) := .found _ _ _ a (by simp) lost
              simpa using taken
      · rw [if_neg zero]
        refine ⟨_, _, _, _, rfl, forms₁, only₁.data, .absent ?_⟩
        exact ne_zero_of_neighbour consistent neighbour zero

/-- Where `insert` puts a node, with the node that is deleted. -/
inductive Inserted (rank : κ → ℤ) (newNode : κ) (before : List κ) : List κ → Option κ → Prop
  | fresh (front back : List κ) (split : before = front ++ back) (first : ∀ b ∈ front, 0 < rank b)
      (last : ∀ b ∈ back, rank b < 0) :
      Inserted rank newNode before (front ++ newNode :: back) none
  | duplicate (equal : ∃ b ∈ before, rank b = 0) : Inserted rank newNode before before (some newNode)

theorem insert_spec (dataToInsert : V) (newNode : κ) (compare : V → ℤ) (forms : nodes.Forms p tree)
    (apart : N ∉ tree.toList) (fresh : newNode ∉ N :: tree.toList)
    (enough : tree.toList.length ≤ fuel)
    (consistent : SplayNode.Consistent (compare ∘ nodes.data) tree.toList) :
    ∃ p' nodes' deleted tree',
      insert dataToInsert newNode compare N fuel nodes p = some (p', nodes', deleted) ∧
      nodes'.Forms p' tree' ∧ nodes'.data = update nodes.data newNode dataToInsert ∧
      Inserted (compare ∘ nodes'.data) newNode tree.toList tree'.toList deleted := by
  cases p with
  | none =>
      cases tree with
      | null =>
          refine ⟨_, _, _, .node .null newNode .null, rfl, ⟨⟨rfl, ?_, ?_⟩, by simp⟩, rfl, ?_⟩
          · exact setLeft_self ..
          · exact setRight_self ..
          · exact .fresh [] [] rfl (by simp) (by simp)
      | node left a right => exact absurd forms.holds.1 nofun
  | some this =>
      rw [mem_cons, not_or] at fresh
      have other : ∀ a ∈ tree.toList, a ≠ newNode := fun a member same => fresh.2 (same ▸ member)
      have constructed : (nodes.construct newNode dataToInsert).Forms (some this) tree := by
        refine ⟨forms.holds.congr fun a member => ?_, forms.nodup⟩
        exact ⟨update_of_ne (other a member) _ _, update_of_ne (other a member) _ _⟩
      have order : SplayNode.Consistent (compare ∘ (nodes.construct newNode dataToInsert).data)
          tree.toList :=
        consistent.congr fun a member => congrArg compare (update_of_ne (other a member) ..)
      obtain ⟨left, a, right, nodes₁, result, forms₁, values, neighbour, only₁⟩ :=
        splay_spec compare constructed apart enough order
      obtain ⟨-, below, above⟩ := forms₁.holds
      have nodup := forms₁.nodup
      rw [values] at fresh other order ⊢
      rw [← only₁.data] at result neighbour order
      simp only [insert, result, Option.bind_eq_bind, Option.bind_some]
      simp only [SplayNode.toList_node, nodup_append, nodup_cons, mem_append,
        mem_cons, not_or] at nodup fresh other
      by_cases negative : compare (nodes₁.data a) < 0
      · rw [if_pos negative]
        have keep : Only [newNode, a] nodes₁ (((nodes₁.setLeft newNode (nodes₁.left a)).setRight
            newNode (some a)).setLeft a none) :=
          ((only_setLeft (by simp) _).trans (only_setRight (by simp) _)).trans
            (only_setLeft (by simp) _)
        refine ⟨_, _, _, .node left newNode (.node .null a right), rfl, ⟨⟨rfl, ?_, ?_⟩, ?_⟩,
          only₁.data, ?_⟩
        · rw [setLeft_of_ne (by grind), setRight_left, setLeft_self]
          exact below.congr fun b member => keep.agree b (by grind)
        · refine ⟨setRight_self .., setLeft_self .., ?_⟩
          rw [setLeft_right, setRight_of_ne (by grind), setLeft_right]
          exact above.congr fun b member => keep.agree b (by grind)
        · simp only [SplayNode.toList_node, SplayNode.toList_null, nodup_append,
            nodup_cons, mem_append, mem_cons]
          grind
        · exact .fresh left.toList (a :: right.toList) rfl (neighbour.1 negative)
            (order.after negative)
      · rw [if_neg negative]
        by_cases positive : 0 < compare (nodes₁.data a)
        · rw [if_pos positive]
          have keep : Only [newNode, a] nodes₁ (((nodes₁.setRight newNode
              (nodes₁.right a)).setLeft newNode (some a)).setRight a none) :=
            ((only_setRight (by simp) _).trans (only_setLeft (by simp) _)).trans
              (only_setRight (by simp) _)
          refine ⟨_, _, _, .node (.node left a .null) newNode right, rfl, ⟨⟨rfl, ?_, ?_⟩, ?_⟩,
            only₁.data, ?_⟩
          · rw [setRight_left, setLeft_self]
            refine ⟨rfl, ?_, setRight_self ..⟩
            rw [setRight_left, setLeft_of_ne (by grind), setRight_left]
            exact below.congr fun b member => keep.agree b (by grind)
          · rw [setRight_of_ne (by grind), setLeft_right, setRight_self]
            exact above.congr fun b member => keep.agree b (by grind)
          · simp only [SplayNode.toList_node, SplayNode.toList_null, nodup_append,
              nodup_cons, mem_append, mem_cons]
            grind
          · exact .fresh (left.toList ++ [a]) right.toList (by simp) (order.before positive)
              (neighbour.2 positive)
        · rw [if_neg positive]
          refine ⟨_, _, _, _, rfl, forms₁, only₁.data, .duplicate ⟨a, by simp, ?_⟩⟩
          exact le_antisymm (not_lt.mp positive) (not_lt.mp negative)

omit [DecidableEq κ] in
theorem Removed.unique {before after : List κ} (removed : Removed rank before after (some a))
    (nodup : before.Nodup) (unique : ∀ a ∈ before, ∀ b ∈ before, rank a = 0 → rank b = 0 → a = b) :
    ∃ front back, before = front ++ a :: back ∧ after = front ++ back := by
  cases removed with
  | found front lost back _ split equal =>
      cases lost with
      | nil => exact ⟨front, back, by simpa using split, rfl⟩
      | cons b lost =>
          subst split
          obtain rfl : a = b := unique a (by simp) b (by simp) (equal a (by simp)) (equal b (by simp))
          simp [nodup_append] at nodup

/-- `splay`, `insert` and `remove` keep the nodes in order, with one added or some taken out. -/
theorem inorder_kept (dataToInsert : V) (newNode : κ) (compare : V → ℤ) (fuel : ℕ)
    (forms : nodes.Forms p tree) (apart : N ∉ tree.toList) (fresh : newNode ∉ N :: tree.toList)
    (enough : tree.toList.length ≤ fuel)
    (consistent : SplayNode.Consistent (compare ∘ nodes.data) tree.toList) :
    (∃ splayLastResult p' nodes' tree',
      splay compare N fuel nodes p = some (splayLastResult, p', nodes') ∧
      nodes'.Forms p' tree' ∧ nodes'.data = nodes.data ∧ tree'.toList = tree.toList ∧
      (splayLastResult = 0 ↔ ∃ a ∈ tree.toList, compare (nodes.data a) = 0) ∧
      ∀ left a right, tree' = .node left a right → splayLastResult = compare (nodes.data a) ∧
        SplayNode.Neighbour (compare ∘ nodes.data) left.toList a right.toList) ∧
    (∃ p' nodes' deleted tree',
      insert dataToInsert newNode compare N fuel nodes p = some (p', nodes', deleted) ∧
      nodes'.Forms p' tree' ∧ nodes'.data = update nodes.data newNode dataToInsert ∧
      Inserted (compare ∘ nodes'.data) newNode tree.toList tree'.toList deleted) ∧
    ∃ p' nodes' deleted tree', remove compare N fuel nodes p = some (p', nodes', deleted) ∧
      nodes'.Forms p' tree' ∧ nodes'.data = nodes.data ∧
      Removed (compare ∘ nodes.data) tree.toList tree'.toList deleted ∧
      ((∀ a ∈ tree.toList, ∀ b ∈ tree.toList, compare (nodes.data a) = 0 →
          compare (nodes.data b) = 0 → a = b) →
        ∀ a, deleted = some a → ∃ front back, tree.toList = front ++ a :: back ∧
          tree'.toList = front ++ back) := by
  refine ⟨?_, insert_spec dataToInsert newNode compare forms apart fresh enough consistent, ?_⟩
  · cases p with
    | none =>
        cases tree with
        | null => exact ⟨-1, none, nodes, .null, rfl, forms, rfl, rfl, by simp, nofun⟩
        | node left a right => exact absurd forms.holds.1 nofun
    | some top =>
        obtain ⟨left, a, right, nodes', result, forms', values, neighbour, only⟩ :=
          splay_spec compare forms apart enough consistent
        refine ⟨_, _, nodes', _, result, forms', only.data, values.symm, ?_, ?_⟩
        · rw [values] at consistent ⊢
          refine ⟨fun zero => ⟨a, by simp, zero⟩, fun ⟨b, member, zero⟩ => ?_⟩
          by_contra other
          exact ne_zero_of_neighbour consistent neighbour other b member zero
        · rintro _ _ _ ⟨⟩
          exact ⟨rfl, neighbour⟩
  · obtain ⟨p', nodes', deleted, tree', result, forms', data, removed⟩ :=
      remove_spec compare forms apart enough consistent
    refine ⟨p', nodes', deleted, tree', result, forms', data, removed, ?_⟩
    rintro unique a rfl
    exact removed.unique forms.nodup unique

end

/-- The values 10, 20, 30 and 40, with 30 at the top and 20 to the right of 10. -/
def fourNodes : SplayNodes ℕ ℤ where
  left a := if a = 2 then some 0 else none
  right a := if a = 2 then some 3 else if a = 0 then some 1 else none
  data a := 10 * a + 10

/-- A search for 20, an insertion of 25 and the removal of 20. -/
theorem inorder_kept_sample :
    (∃ p' nodes' tree', splay (20 - ·) 9 4 fourNodes (some 2) = some (0, p', nodes') ∧
      nodes'.Forms p' tree' ∧ tree'.toList = [0, 1, 2, 3]) ∧
    (∃ p' nodes' tree', insert 25 4 (25 - ·) 9 4 fourNodes (some 2) = some (p', nodes', none) ∧
      nodes'.Forms p' tree' ∧
      Inserted ((25 - ·) ∘ nodes'.data) 4 [0, 1, 2, 3] tree'.toList none) ∧
    ∃ p' nodes' tree', remove (20 - ·) 9 4 fourNodes (some 2) = some (p', nodes', some 1) ∧
      nodes'.Forms p' tree' ∧ tree'.toList = [0, 2, 3] := by
  have kept (datum : ℤ) := @inorder_kept ℕ ℤ fourNodes (some 2)
    (.node (.node .null 0 (.node .null 1 .null)) 2 (.node .null 3 .null)) 9 _ datum 4 (datum - ·) 4
    ⟨⟨rfl, ⟨rfl, rfl, rfl, rfl, rfl⟩, rfl, rfl, rfl⟩, by decide⟩ (by decide) (by decide)
    (by decide) (by simp [SplayNode.Consistent, fourNodes]; omega)
  refine ⟨?_, ?_, ?_⟩
  · obtain ⟨_, p', nodes', tree', run, forms, -, values, found, -⟩ := (kept 20).1
    cases found.mpr ⟨1, by decide, by decide⟩
    exact ⟨p', nodes', tree', run, forms, values⟩
  · obtain ⟨p', nodes', deleted, tree', run, forms, -, inserted⟩ := (kept 25).2.1
    have new : (insert 25 4 (25 - ·) 9 4 fourNodes (some 2)).map (·.2.2) = some none := by rfl
    rw [run] at new
    cases Option.some.inj new
    exact ⟨p', nodes', tree', run, forms, inserted⟩
  · obtain ⟨p', nodes', deleted, tree', run, forms, -, -, only⟩ := (kept 20).2.2
    have gone : (remove (20 - ·) 9 4 fourNodes (some 2)).map (·.2.2) = some (some 1) := by rfl
    rw [run] at gone
    cases Option.some.inj gone
    obtain ⟨front, back, split, rest⟩ := only (by decide) 1 rfl
    have first : front = [0] := by
      rcases front with _ | ⟨a, _ | ⟨b, front⟩⟩
      · cases split
      · cases split
        rfl
      · obtain ⟨-, -, later⟩ : 0 = a ∧ 1 = b ∧ [2, 3] = front ++ 1 :: back := by simpa using split
        have member : 1 ∈ [2, 3] := later ▸ by simp
        exact absurd member (by decide)
    subst first
    cases split
    exact ⟨p', nodes', tree', run, forms, rest⟩

/-- Three nodes that compare equal, of which `remove` takes out two. -/
theorem removes_more : ∃ (nodes nodes' : SplayNodes ℕ ℤ) (tree tree' : SplayNode ℕ),
    nodes.Forms (some 2) tree ∧ SplayNode.Consistent ((fun _ => 0) ∘ nodes.data) tree.toList ∧
    remove (fun _ => 0) 3 3 nodes (some 2) = some (some 0, nodes', some 2) ∧
    nodes'.Forms (some 0) tree' ∧
    ¬ ∃ front a back, tree.toList = front ++ a :: back ∧ tree'.toList = front ++ back := by
  refine ⟨⟨fun a => if a = 2 then some 0 else none, fun a => if a = 0 then some 1 else none,
    fun _ => 0⟩, _, .node (.node .null 0 (.node .null 1 .null)) 2 .null, .node .null 0 .null,
    ?_, ?_, rfl, ?_, ?_⟩
  · refine ⟨⟨rfl, ⟨rfl, rfl, ⟨rfl, rfl, rfl⟩⟩, rfl⟩, ?_⟩
    simp
  · simp [SplayNode.Consistent]
  · refine ⟨⟨rfl, rfl, rfl⟩, ?_⟩
    simp
  · rintro ⟨front, a, back, before, after⟩
    have before := congrArg List.length before
    have after := congrArg List.length after
    simp at before after
    omega

end SplayNodes

end Squid
