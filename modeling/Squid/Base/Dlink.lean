import Mathlib.Data.Option.Basic
import Squid.Library.LinkedList

/-!
# Doubly linked lists

`src/dlink.cc` links nodes that live in memory blocks of their own.  Every access to a node is
checked: it fails at a block that is not allocated.
-/

namespace Squid.Base

open List Option Function

variable {ρ δ : Type}

structure dlink_list (ρ : Type) where
  head : Option ρ
  tail : Option ρ

/-- The memory of the nodes: which blocks are allocated, and the fields of `dlink_node`. -/
structure DlinkMemory (ρ δ : Type) where
  live : ρ → Bool
  data : ρ → Option δ
  prev : ρ → Option ρ
  next : ρ → Option ρ

namespace DlinkMemory

variable [DecidableEq ρ]

/-- Read a field of a node. -/
def get {α : Type} (mem : DlinkMemory ρ δ) (field : ρ → α) (m : ρ) : Option α :=
  if mem.live m then some (field m) else none

/-- Write the field `data` of a node. -/
def setData (mem : DlinkMemory ρ δ) (m : ρ) (data : Option δ) : Option (DlinkMemory ρ δ) :=
  if mem.live m then some { mem with data := update mem.data m data } else none

/-- Write the field `prev` of a node. -/
def setPrev (mem : DlinkMemory ρ δ) (m : ρ) (prev : Option ρ) : Option (DlinkMemory ρ δ) :=
  if mem.live m then some { mem with prev := update mem.prev m prev } else none

/-- Write the field `next` of a node. -/
def setNext (mem : DlinkMemory ρ δ) (m : ρ) (next : Option ρ) : Option (DlinkMemory ρ δ) :=
  if mem.live m then some { mem with next := update mem.next m next } else none

def dlinkAddTail (mem : DlinkMemory ρ δ) (data : δ) (m : ρ) (list : dlink_list ρ) :
    Option (DlinkMemory ρ δ × dlink_list ρ) := do
  let mem ← mem.setData m (some data)
  let mem ← mem.setNext m none
  let mem ← mem.setPrev m list.tail
  let mem ←
    match list.tail with
    | none => some mem
    | some tail => mem.setNext tail (some m)
  some (mem, { head := if list.head = none then some m else list.head, tail := some m })

/-- The first statement of `dlinkDelete`. -/
def unlinkNext (mem : DlinkMemory ρ δ) (m : ρ) : Option (DlinkMemory ρ δ) := do
  match ← mem.get mem.next m with
  | none => some mem
  | some next => mem.setPrev next (← mem.get mem.prev m)

/-- The second statement of `dlinkDelete`. -/
def unlinkPrev (mem : DlinkMemory ρ δ) (m : ρ) : Option (DlinkMemory ρ δ) := do
  match ← mem.get mem.prev m with
  | none => some mem
  | some prev => mem.setNext prev (← mem.get mem.next m)

def dlinkDelete (mem : DlinkMemory ρ δ) (m : ρ) (list : dlink_list ρ) :
    Option (DlinkMemory ρ δ × dlink_list ρ) := do
  let mem ← mem.unlinkNext m
  let mem ← mem.unlinkPrev m
  let head ← (if list.head = some m then mem.get mem.next m else some list.head)
  let tail ← (if list.tail = some m then mem.get mem.prev m else some list.tail)
  let mem ← mem.setPrev m none
  let mem ← mem.setNext m none
  some (mem, ⟨head, tail⟩)

/-- A link that may be missing leads elsewhere. -/
def relink {α : Type} (field : ρ → α) (m : Option ρ) (value : α) : ρ → α :=
  match m with
  | none => field
  | some m => update field m value

theorem relink_some {α : Type} (field : ρ → α) (m : ρ) (value : α) :
    relink field (some m) value m = value := update_self ..

theorem relink_of_ne {α : Type} {field : ρ → α} {m : Option ρ} {q : ρ} (other : m ≠ some q)
    (value : α) : relink field m value q = field q := by
  cases m with
  | none => rfl
  | some m => exact update_of_ne (fun same => other (congrArg some same.symm)) ..

variable {mem : DlinkMemory ρ δ} {list : dlink_list ρ} {m : ρ}

/-- What `dlinkAddTail` writes. -/
theorem dlinkAddTail_eq (alive : mem.live m) (alive_tail : ∀ q, list.tail = some q → mem.live q)
    (data : δ) :
    mem.dlinkAddTail data m list =
      some ({ live := mem.live
              data := update mem.data m (some data)
              prev := update mem.prev m list.tail
              next := relink (update mem.next m none) list.tail (some m) },
        { head := if list.head = none then some m else list.head, tail := some m }) := by
  obtain ⟨head, tail⟩ := list
  simp only [dlinkAddTail, setData, setNext, setPrev, if_pos alive, bind_eq_bind, bind_some]
  cases tail with
  | none => rfl
  | some tail =>
      simp only [if_pos (alive_tail tail rfl), bind_some]
      rfl

omit [DecidableEq ρ] in
theorem get_eq {α : Type} (alive : mem.live m) (field : ρ → α) :
    mem.get field m = some (field m) := if_pos alive

theorem unlinkNext_eq (alive : mem.live m) (alive_next : ∀ q, mem.next m = some q → mem.live q) :
    mem.unlinkNext m =
      some { mem with prev := relink mem.prev (mem.next m) (mem.prev m) } := by
  rw [unlinkNext, get_eq alive]
  cases forward : mem.next m with
  | none => rfl
  | some n =>
      change (mem.get mem.prev m).bind (mem.setPrev n) = _
      rw [get_eq alive, bind_some, setPrev, if_pos (alive_next n forward)]
      rfl

theorem unlinkPrev_eq (alive : mem.live m) (alive_prev : ∀ q, mem.prev m = some q → mem.live q) :
    mem.unlinkPrev m =
      some { mem with next := relink mem.next (mem.prev m) (mem.next m) } := by
  rw [unlinkPrev, get_eq alive]
  cases backward : mem.prev m with
  | none => rfl
  | some p =>
      change (mem.get mem.next m).bind (mem.setNext p) = _
      rw [get_eq alive, bind_some, setNext, if_pos (alive_prev p backward)]
      rfl

/-- What `dlinkDelete` writes. -/
theorem dlinkDelete_eq (alive : mem.live m) (alive_next : ∀ q, mem.next m = some q → mem.live q)
    (alive_prev : ∀ q, mem.prev m = some q → mem.live q) (next_ne : mem.next m ≠ some m)
    (prev_ne : mem.prev m ≠ some m) :
    mem.dlinkDelete m list =
      some ({ live := mem.live
              data := mem.data
              prev := update (relink mem.prev (mem.next m) (mem.prev m)) m none
              next := update (relink mem.next (mem.prev m) (mem.next m)) m none },
        { head := if list.head = some m then mem.next m else list.head
          tail := if list.tail = some m then mem.prev m else list.tail }) := by
  have prev_kept : relink mem.prev (mem.next m) (mem.prev m) m = mem.prev m :=
    relink_of_ne next_ne _
  have next_kept : relink mem.next (mem.prev m) (mem.next m) m = mem.next m :=
    relink_of_ne prev_ne _
  have second := @unlinkPrev_eq ρ δ _
    { mem with prev := relink mem.prev (mem.next m) (mem.prev m) } m alive
    fun q same => alive_prev q (prev_kept.symm.trans same)
  simp only [prev_kept] at second
  rw [dlinkDelete, unlinkNext_eq alive alive_next, bind_eq_bind, bind_some, second]
  simp only [get, setPrev, setNext, if_pos alive, prev_kept, next_kept, bind_eq_bind,
    bind_some, ← apply_ite some]

end DlinkMemory

open LinkedList DlinkMemory

variable {mem mem' : DlinkMemory ρ δ} {list : dlink_list ρ} {nodes front back : List ρ} {m : ρ}

/-- The list holds exactly these nodes, in order. -/
structure Dlinked (mem : DlinkMemory ρ δ) (list : dlink_list ρ) (nodes : List ρ) : Prop where
  alive : ∀ p ∈ nodes, mem.live p
  forward : Links mem.next list.head nodes
  backward : Links mem.prev list.tail nodes.reverse

namespace Dlinked

theorem nodup (linked : Dlinked mem list nodes) : nodes.Nodup := linked.forward.nodup

theorem tail_eq (linked : Dlinked mem list nodes) : list.tail = nodes.getLast? := by
  rw [linked.backward.head_eq, List.head?_reverse]

theorem next_eq (linked : Dlinked mem list (front ++ m :: back)) : mem.next m = back.head? :=
  linked.forward.behind.head_eq

theorem prev_eq (linked : Dlinked mem list (front ++ m :: back)) :
    mem.prev m = front.getLast? := by
  have backward := linked.backward
  rw [reverse_append, reverse_cons, append_assoc, singleton_append]
    at backward
  rw [backward.behind.head_eq, List.head?_reverse]

variable [DecidableEq ρ]

/-- `dlinkAddTail` puts a new node behind the others. -/
theorem addTail_spec (linked : Dlinked mem list nodes) (alive : mem.live m) (fresh : m ∉ nodes)
    (dat : δ) :
    ∃ mem' list', mem.dlinkAddTail dat m list = some (mem', list') ∧
      Dlinked mem' list' (nodes ++ [m]) ∧ mem'.live = mem.live ∧
      mem'.data = update mem.data m (some dat) := by
  have member {q : ρ} (last : list.tail = some q) : q ∈ nodes :=
    mem_of_getLast? (linked.tail_eq ▸ last)
  have other {q : ρ} (among : q ∈ nodes) : q ≠ m := fun same => fresh (same ▸ among)
  refine ⟨_, _, dlinkAddTail_eq alive (fun q last => linked.alive q (member last)) dat,
    ⟨fun q among => ?_, ?_, ?_⟩, rfl, rfl⟩
  · rw [mem_append, mem_singleton] at among
    rcases among with among | rfl
    · exact linked.alive q among
    · exact alive
  · have empty_iff : list.head = none ↔ nodes = [] := by
      rw [linked.forward.head_eq, List.head?_eq_none_iff]
    simp only [empty_iff]
    refine linked.forward.extend ?_ (fun q last => ?_) fun q among inner => ?_
    · rw [relink_of_ne (fun last => fresh (member last)), update_self]
    · rw [linked.tail_eq, last, relink_some]
    · rw [← linked.tail_eq] at inner
      rw [relink_of_ne inner, update_of_ne (other among)]
  · rw [reverse_append, reverse_singleton]
    refine ⟨rfl, ?_⟩
    change Links (update mem.prev m list.tail)
      (update mem.prev m list.tail m) nodes.reverse
    rw [update_self]
    exact linked.backward.congr fun q among =>
      update_of_ne (other (mem_reverse.mp among)) ..

/-- `dlinkDelete` takes a node out and keeps the order of the others. -/
theorem delete_spec (linked : Dlinked mem list (front ++ m :: back)) :
    ∃ mem' list', mem.dlinkDelete m list = some (mem', list') ∧
      Dlinked mem' list' (front ++ back) ∧ mem'.live = mem.live ∧ mem'.data = mem.data := by
  have distinct := nodup_middle.mp linked.nodup
  rw [nodup_cons, mem_append, not_or] at distinct
  obtain ⟨⟨not_front, not_back⟩, -⟩ := distinct
  have among_front {q : ρ} (last : front.getLast? = some q) : q ∈ front :=
    mem_of_getLast? last
  have among_back {q : ρ} (first : back.head? = some q) : q ∈ back := mem_of_head? first
  have alive (q : ρ) (among : q ∈ front ++ back) : mem.live q := by
    apply linked.alive
    rw [mem_append] at among
    rw [mem_append, mem_cons]
    exact among.imp_right .inr
  have other {q : ρ} (among : q ∈ front ++ back) : q ≠ m := by
    rintro rfl
    exact (mem_append.mp among).elim not_front not_back
  have next_eq := linked.next_eq
  have prev_eq := linked.prev_eq
  have run := @dlinkDelete_eq ρ δ _ mem list m (linked.alive m (by simp))
    (fun q first => alive q (mem_append_right _ (among_back (next_eq ▸ first))))
    (fun q last => alive q (mem_append_left _ (among_front (prev_eq ▸ last))))
    (fun first => not_back (among_back (next_eq ▸ first)))
    (fun last => not_front (among_front (prev_eq ▸ last)))
  refine ⟨_, _, run, ⟨alive, ?_, ?_⟩, rfl, rfl⟩
  · have first_iff : list.head = some m ↔ front = [] := by
      rw [linked.forward.head_eq]
      cases front with
      | nil => simp
      | cons q front =>
          have differ : q ≠ m := fun same => not_front (by simp [same])
          simpa using differ
    simp only [first_iff]
    refine linked.forward.unlink (fun q last => ?_) fun q among inner => ?_
    · rw [update_of_ne (other (mem_append_left _ (among_front last))), prev_eq, last, relink_some]
    · rw [← prev_eq] at inner
      rw [update_of_ne (other among), relink_of_ne inner]
  · have last_iff : list.tail = some m ↔ back.reverse = [] := by
      rw [linked.tail_eq, reverse_eq_nil_iff, List.getLast?_append]
      cases back using List.reverseRecOn with
      | nil => simp
      | append_singleton back q =>
          have differ : q ≠ m := fun same => not_back (by simp [same])
          simpa [List.getLast?_cons] using differ
    have backward := linked.backward
    rw [reverse_append, reverse_cons, append_assoc, singleton_append]
      at backward
    simp only [last_iff]
    rw [reverse_append]
    refine backward.unlink (fun q last => ?_) fun q among inner => ?_
    · rw [List.getLast?_reverse] at last
      rw [update_of_ne (other (mem_append_right _ (among_back last))), next_eq, last, relink_some]
    · rw [List.getLast?_reverse, ← next_eq] at inner
      rw [← reverse_append, mem_reverse] at among
      rw [update_of_ne (other among), relink_of_ne inner]

end Dlinked

end Squid.Base
