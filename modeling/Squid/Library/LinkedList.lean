import Mathlib.Data.List.Induction
import Mathlib.Data.List.Nodup
import Mathlib.Logic.Function.Basic

/-!
# Singly linked lists

Nodes are linked by a function that gives the next node.  `Links next head nodes` says that
following the links from `head` passes through exactly the listed nodes and ends.
-/

namespace LinkedList

open List Function

variable {ρ : Type*} {next next' : ρ → Option ρ} {head : Option ρ} {nodes front back : List ρ}
  {p : ρ}

/-- The links from `head` lead through the nodes, in order, to the end. -/
def Links (next : ρ → Option ρ) : Option ρ → List ρ → Prop
  | head, [] => head = none
  | head, p :: nodes => head = some p ∧ Links next (next p) nodes

/-- Whether links lead through a list can be tested along the list. -/
instance Links.decidable [DecidableEq ρ] (next : ρ → Option ρ) :
    ∀ (head : Option ρ) (nodes : List ρ), Decidable (Links next head nodes)
  | head, [] => inferInstanceAs (Decidable (head = none))
  | head, p :: nodes =>
      have _later := Links.decidable next (next p) nodes
      inferInstanceAs (Decidable (head = some p ∧ Links next (next p) nodes))

theorem links_none_iff : Links next none nodes ↔ nodes = [] := by
  cases nodes with
  | nil => simp [Links]
  | cons p nodes => simp [Links]

theorem links_some_iff :
    Links next (some p) nodes ↔ ∃ back, nodes = p :: back ∧ Links next (next p) back := by
  cases nodes with
  | nil => simp [Links]
  | cons q nodes =>
      rw [Links, Option.some_inj]
      constructor
      · rintro ⟨rfl, links⟩
        exact ⟨nodes, rfl, links⟩
      · rintro ⟨back, same, links⟩
        cases same
        exact ⟨rfl, links⟩

theorem Links.head_eq (links : Links next head nodes) : head = nodes.head? := by
  cases nodes with
  | nil => exact links
  | cons p nodes => exact links.1

/-- The links determine the nodes. -/
theorem Links.unique {others : List ρ} (links : Links next head nodes)
    (same : Links next head others) : nodes = others := by
  induction nodes generalizing head others with
  | nil =>
      rw [Links] at links
      rw [links] at same
      exact (links_none_iff.mp same).symm
  | cons p nodes ih =>
      obtain ⟨rfl, later⟩ := links
      obtain ⟨back, rfl, later'⟩ := links_some_iff.mp same
      rw [ih later later']

theorem Links.suffix (links : Links next head (front ++ back)) :
    ∃ middle, Links next middle back := by
  induction front generalizing head with
  | nil => exact ⟨head, links⟩
  | cons p front ih => exact ih links.2

/-- What is linked behind a node of the list. -/
theorem Links.behind (links : Links next head (front ++ p :: back)) :
    Links next (next p) back := by
  obtain ⟨middle, later⟩ := links.suffix
  exact later.2

/-- A list that ends passes no node twice. -/
theorem Links.nodup (links : Links next head nodes) : nodes.Nodup := by
  induction nodes generalizing head with
  | nil => exact nodup_nil
  | cons p nodes ih =>
      rw [nodup_cons]
      refine ⟨fun again => ?_, ih links.2⟩
      obtain ⟨front, back, split_nodes⟩ := append_of_mem again
      have tail := links.2
      rw [split_nodes] at tail
      have later : Links next (next p) back := tail.behind
      have lengths := congrArg List.length (links.2.unique later)
      rw [split_nodes, length_append, length_cons] at lengths
      omega

theorem Links.congr (links : Links next head nodes) (same : ∀ q ∈ nodes, next' q = next q) :
    Links next' head nodes := by
  induction nodes generalizing head with
  | nil => exact links
  | cons p nodes ih =>
      refine ⟨links.1, ?_⟩
      rw [same p List.mem_cons_self]
      exact ih links.2 fun q member => same q (List.mem_cons_of_mem p member)

/-- Linking a node past its successor removes the successor. -/
theorem Links.remove [DecidableEq ρ] {q : ρ}
    (links : Links next head (front ++ q :: p :: back)) :
    Links (update next q (next p)) head (front ++ q :: back) := by
  induction front generalizing head with
  | nil =>
      have distinct := links.nodup
      rw [List.nil_append, nodup_cons, mem_cons, not_or] at distinct
      refine ⟨links.1, ?_⟩
      rw [update_self]
      refine links.2.2.congr fun r member => update_of_ne ?_ ..
      rintro rfl
      exact distinct.1.2 member
  | cons r front ih =>
      have distinct := links.nodup
      rw [cons_append, nodup_cons] at distinct
      have other : r ≠ q := by
        rintro rfl
        exact distinct.1 (by simp)
      refine ⟨links.1, ?_⟩
      rw [update_of_ne other]
      exact ih links.2

/-- Linking a new node behind a node of the list inserts it there. -/
theorem Links.insert [DecidableEq ρ] {q : ρ} (links : Links next head (front ++ q :: back))
    (fresh : p ∉ front ++ q :: back) :
    Links (update (update next p (next q)) q (some p)) head
      (front ++ q :: p :: back) := by
  induction front generalizing head with
  | nil =>
      have distinct := links.nodup
      rw [List.nil_append, nodup_cons] at distinct
      rw [List.nil_append, mem_cons, not_or] at fresh
      refine ⟨links.1, ?_⟩
      rw [update_self]
      refine ⟨rfl, ?_⟩
      rw [update_of_ne fresh.1, update_self]
      refine links.2.congr fun r member => ?_
      have other : r ≠ q := by
        rintro rfl
        exact distinct.1 member
      have new : r ≠ p := by
        rintro rfl
        exact fresh.2 member
      rw [update_of_ne other, update_of_ne new]
  | cons r front ih =>
      have distinct := links.nodup
      rw [cons_append, nodup_cons] at distinct
      rw [cons_append, mem_cons, not_or] at fresh
      have other : r ≠ q := by
        rintro rfl
        exact distinct.1 (by simp)
      refine ⟨links.1, ?_⟩
      rw [update_of_ne other, update_of_ne (Ne.symm fresh.1)]
      exact ih links.2 fresh.2

/-- Leading the links to a node past it removes the node. -/
theorem Links.unlink [DecidableEq ρ] (links : Links next head (front ++ p :: back))
    (jump : ∀ q, front.getLast? = some q → next' q = next p)
    (keeps : ∀ q ∈ front ++ back, front.getLast? ≠ some q → next' q = next q) :
    Links next' (if front = [] then next p else head) (front ++ back) := by
  have distinct := links.nodup
  induction front using List.reverseRecOn with
  | nil =>
      rw [if_pos rfl]
      exact links.2.congr fun q member => keeps q member (Option.some_ne_none q).symm
  | append_singleton front q =>
      rw [if_neg (append_ne_nil_of_right_ne_nil front (cons_ne_nil q []))]
      rw [List.append_assoc, singleton_append] at links distinct ⊢
      refine links.remove.congr fun r member => ?_
      by_cases last : r = q
      · subst last
        rw [update_self]
        exact jump r List.getLast?_concat
      · rw [update_of_ne last]
        refine keeps r ?_ ?_
        · rwa [List.append_assoc, singleton_append]
        · rw [List.getLast?_concat, Ne, Option.some_inj]
          exact Ne.symm last

/-- Linking a new node behind the last one adds it to the list. -/
theorem Links.extend (links : Links next head nodes) (ends : next' p = none)
    (joined : ∀ q, nodes.getLast? = some q → next' q = some p)
    (keeps : ∀ q ∈ nodes, nodes.getLast? ≠ some q → next' q = next q) :
    Links next' (if nodes = [] then some p else head) (nodes ++ [p]) := by
  induction nodes generalizing head with
  | nil =>
      rw [if_pos rfl]
      exact ⟨rfl, ends⟩
  | cons q nodes ih =>
      rw [if_neg (cons_ne_nil q nodes)]
      refine ⟨links.1, ?_⟩
      have distinct := links.nodup
      rw [nodup_cons] at distinct
      cases nodes with
      | nil =>
          rw [joined q rfl]
          exact ⟨rfl, ends⟩
      | cons r nodes =>
          have other : (q :: r :: nodes).getLast? ≠ some q := by
            rw [List.getLast?_cons_cons]
            intro last
            exact distinct.1 (mem_of_getLast? last)
          have later := ih links.2 (fun s last => joined s (by rwa [List.getLast?_cons_cons]))
            fun s member inner => keeps s (List.mem_cons_of_mem q member)
              (by rwa [List.getLast?_cons_cons])
          rw [if_neg (cons_ne_nil r nodes)] at later
          rw [keeps q List.mem_cons_self other]
          exact later

end LinkedList
