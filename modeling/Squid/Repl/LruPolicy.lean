import Mathlib.Data.Int.Notation
import Squid.Base.Dlink
import Squid.Library.LabelledRun
import Squid.Repl.RemovalPolicy

/-!
# The LRU removal policy

`src/repl/lru/store_repl_lru.cc` keeps one list node for each entry it manages, the entries in the
order in which they were last added or referenced.
-/

namespace Squid.Repl

open Squid.Base List Option Function

variable {ρ ε : Type} [DecidableEq ρ] [DecidableEq ε]

/-- `LruPolicyData`, with the nodes of `lru_node_pool` and the members `data` of the policy
nodes. -/
structure LruPolicyData (ρ ε : Type) where
  list : dlink_list ρ
  count : ℤ
  nwalkers : ℤ
  type : heap_entry_type
  pool : DlinkMemory ρ ε
  data : RemovalPolicyNode ε → Option ρ

/-- Take a node from the pool. -/
def alloc (pool : DlinkMemory ρ ε) (lru_node : ρ) : DlinkMemory ρ ε :=
  ⟨update pool.live lru_node true, pool.data, pool.prev, pool.next⟩

/-- Return a node to the pool. -/
def freeOne (pool : DlinkMemory ρ ε) (lru_node : ρ) : Option (DlinkMemory ρ ε) :=
  if pool.live lru_node then some { pool with live := update pool.live lru_node false }
  else none

/-- `createRemovalPolicy_lru`; the blocks of the pool hold anything. -/
def createRemovalPolicy_lru (data : ρ → Option ε) (prev next : ρ → Option ρ) :
    LruPolicyData ρ ε where
  list := ⟨none, none⟩
  count := 0
  nwalkers := 0
  type := .TYPE_UNKNOWN
  pool := ⟨fun _ => false, data, prev, next⟩
  data := fun _ => none

namespace LruPolicyData

/-- `LruPolicyData::setPolicyNode`. -/
def setPolicyNode (lru : LruPolicyData ρ ε) (entry : ε) (value : Option ρ) : LruPolicyData ρ ε :=
  { lru with data := updateNode lru.type lru.data entry value }

/-- `lru_add`, where the pool gives out the block `lru_node`. -/
def lru_add (lru : LruPolicyData ρ ε) (entry : ε) (node : RemovalPolicyNode ε) (lru_node : ρ) :
    Option (LruPolicyData ρ ε) :=
  if (lru.data node).isSome then none
  else do
    let (pool, list) ← (alloc lru.pool lru_node).dlinkAddTail entry lru_node lru.list
    let type ← (if lru.type = .TYPE_UNKNOWN then repl_guessType entry node else some lru.type)
    some { lru with
      list := list
      count := lru.count + 1
      type := type
      pool := pool
      data := update lru.data node (some lru_node) }

def lru_remove (lru : LruPolicyData ρ ε) (entry : ε) (node : RemovalPolicyNode ε) :
    Option (LruPolicyData ρ ε) :=
  match lru.data node with
  | none => some lru
  | some lru_node => do
      match ← lru.pool.get lru.pool.data lru_node with
      | none => some lru
      | some owner =>
          if owner ≠ entry then none
          else
            let (pool, list) ← lru.pool.dlinkDelete lru_node lru.list
            let pool ← freeOne pool lru_node
            some { lru with
              list := list
              count := lru.count - 1
              pool := pool
              data := update lru.data node none }

def lru_referenced (lru : LruPolicyData ρ ε) (entry : ε) (node : RemovalPolicyNode ε) :
    Option (LruPolicyData ρ ε) :=
  match lru.data node with
  | none => some lru
  | some lru_node => do
      let (pool, list) ← lru.pool.dlinkDelete lru_node lru.list
      let (pool, list) ← pool.dlinkAddTail entry lru_node list
      some { lru with list := list, pool := pool }

/-- The list holds exactly the entries whose policy node is set, each in its own node. -/
structure Holds (memory : Bool) (lru : LruPolicyData ρ ε) (items : List (ρ × ε)) : Prop where
  linked : Dlinked lru.pool lru.list (items.map Prod.fst)
  owner : ∀ item ∈ items, lru.pool.data item.1 = some item.2
  named : ∀ entry lru_node,
    lru.data (policyNode memory entry) = some lru_node ↔ (lru_node, entry) ∈ items
  counted : lru.count = items.length
  guessed : lru.type = policyType memory ∨ items = [] ∧ lru.type = .TYPE_UNKNOWN
  allocated : ∀ lru_node, lru.pool.live lru_node → lru_node ∈ items.map Prod.fst

variable {memory : Bool} {lru : LruPolicyData ρ ε} {items front back : List (ρ × ε)}
  {entry other : ε} {lru_node : ρ}

namespace Holds

omit [DecidableEq ρ] [DecidableEq ε] in
theorem entries_nodup (holds : Holds memory lru items) : (items.map Prod.snd).Nodup := by
  refine List.Nodup.map_on (fun item member item' member' same => ?_) holds.linked.nodup.of_map
  have named := (holds.named item.2 item.1).mpr member
  have named' := (holds.named item'.2 item'.1).mpr member'
  rw [same, named'] at named
  exact Prod.ext (some.inj named).symm same

omit [DecidableEq ρ] [DecidableEq ε] in
theorem mem_entries_iff (holds : Holds memory lru items) :
    entry ∈ items.map Prod.snd ↔
      ∃ lru_node, lru.data (policyNode memory entry) = some lru_node := by
  simp only [List.mem_map, Prod.exists, holds.named]
  constructor
  · rintro ⟨lru_node, _, member, rfl⟩
    exact ⟨lru_node, member⟩
  · rintro ⟨lru_node, member⟩
    exact ⟨lru_node, entry, member, rfl⟩

omit [DecidableEq ρ] [DecidableEq ε] in
theorem unlinked_iff (holds : Holds memory lru items) :
    entry ∉ items.map Prod.snd ↔ lru.data (policyNode memory entry) = none := by
  rw [holds.mem_entries_iff, eq_none_iff_forall_ne_some, not_exists]

omit [DecidableEq ρ] [DecidableEq ε] in
theorem type_eq (holds : Holds memory lru (front ++ (lru_node, entry) :: back)) :
    lru.type = policyType memory :=
  holds.guessed.resolve_right fun ⟨empty, _⟩ => by simp at empty

omit [DecidableEq ρ] [DecidableEq ε] in
/-- The other items are neither in the node nor those of the entry. -/
theorem of_split (holds : Holds memory lru (front ++ (lru_node, entry) :: back)) :
    lru_node ∉ (front ++ back).map Prod.fst ∧ entry ∉ (front ++ back).map Prod.snd := by
  have nodes := holds.linked.nodup
  have entries := holds.entries_nodup
  rw [List.map_append, List.map_cons, nodup_middle, nodup_cons, ← List.map_append]
    at nodes entries
  exact ⟨nodes.1, entries.1⟩

omit [DecidableEq ε] in
/-- Taking a node out of the list leaves the other items in it. -/
theorem unlink (holds : Holds memory lru (front ++ (lru_node, entry) :: back)) :
    ∃ pool list, lru.pool.dlinkDelete lru_node lru.list = some (pool, list) ∧
      Dlinked pool list ((front ++ back).map Prod.fst) ∧ pool.live = lru.pool.live ∧
      pool.data = lru.pool.data := by
  have linked := holds.linked
  rw [List.map_append, List.map_cons] at linked
  rw [List.map_append]
  exact linked.delete_spec

/-- An entry leaves the policy: its node is taken out of the list and freed, and the policy node
is cleared. -/
theorem release (holds : Holds memory lru (front ++ (lru_node, entry) :: back)) :
    ∃ pool list freed, lru.pool.dlinkDelete lru_node lru.list = some (pool, list) ∧
      freeOne pool lru_node = some freed ∧
      Holds memory { lru with
        list := list
        count := lru.count - 1
        pool := freed
        data := update lru.data (policyNode memory entry) none } (front ++ back) := by
  obtain ⟨pool, list, run, linked, live, data⟩ := holds.unlink
  obtain ⟨not_node, not_entry⟩ := holds.of_split
  have alive : pool.live lru_node := by
    rw [live]
    exact holds.linked.alive lru_node (by simp)
  have kept {item : ρ × ε} (member : item ∈ front ++ back) :
      item ∈ front ++ (lru_node, entry) :: back := by
    rw [mem_append] at member
    rw [mem_append, mem_cons]
    exact member.imp_right .inr
  refine ⟨pool, list, _, run, if_pos alive, ⟨?_, fun item member => ?_, fun e n => ?_, ?_,
    .inl holds.type_eq, fun n alive_n => ?_⟩⟩
  · refine ⟨fun n member => ?_, linked.forward, linked.backward⟩
    have differ : n ≠ lru_node := fun same => not_node (same ▸ member)
    change update pool.live lru_node false n
    rw [update_of_ne differ]
    exact linked.alive n member
  · change pool.data item.1 = some item.2
    rw [data]
    exact holds.owner item (kept member)
  · change update lru.data (policyNode memory entry) none (policyNode memory e) =
      some n ↔ _
    by_cases same : e = entry
    · subst same
      rw [update_self]
      constructor
      · intro cleared
        cases cleared
      · intro member
        exact absurd (List.mem_map_of_mem member) not_entry
    · rw [update_of_ne fun nodes => same (policyNode_injective memory nodes), holds.named]
      simp only [mem_append, mem_cons, Prod.mk.injEq, same, and_false, false_or]
  · change lru.count - 1 = ((front ++ back).length : ℤ)
    rw [holds.counted, length_append, length_append, length_cons]
    omega
  · change update pool.live lru_node false n = true at alive_n
    by_cases same : n = lru_node
    · subst same
      rw [update_self] at alive_n
      cases alive_n
    · rw [update_of_ne same, live] at alive_n
      have member := holds.allocated n alive_n
      rw [List.map_append, mem_append] at member ⊢
      rw [List.map_cons, mem_cons] at member
      exact member.imp_right fun either => either.resolve_left same

omit [DecidableEq ε] in
/-- An entry moves to the end: its node is taken out of the list and put behind the others. -/
theorem move (holds : Holds memory lru (front ++ (lru_node, entry) :: back)) :
    ∃ pool list pool' list', lru.pool.dlinkDelete lru_node lru.list = some (pool, list) ∧
      pool.dlinkAddTail entry lru_node list = some (pool', list') ∧
      Holds memory { lru with list := list', pool := pool' }
        (front ++ back ++ [(lru_node, entry)]) := by
  obtain ⟨pool, list, run, linked, live, data⟩ := holds.unlink
  have alive : pool.live lru_node := by
    rw [live]
    exact holds.linked.alive lru_node (by simp)
  obtain ⟨pool', list', run', linked', live', data'⟩ :=
    linked.addTail_spec alive holds.of_split.1 entry
  have perm : (front ++ back ++ [(lru_node, entry)]).Perm
      (front ++ (lru_node, entry) :: back) := by
    rw [List.append_assoc]
    exact (List.perm_append_singleton _ _).append_left front
  refine ⟨pool, list, pool', list', run, run', ⟨?_, fun item member => ?_, fun e n => ?_, ?_,
    .inl holds.type_eq, fun n alive_n => ?_⟩⟩
  · rw [List.map_append]
    exact linked'
  · change pool'.data item.1 = some item.2
    have found := holds.owner item (perm.mem_iff.mp member)
    rw [data', data]
    by_cases same : item.1 = lru_node
    · have own := holds.owner (lru_node, entry) (by simp)
      rw [same, update_self, ← own, ← found, same]
    · rw [update_of_ne same, found]
  · rw [perm.mem_iff]
    exact holds.named e n
  · rw [perm.length_eq]
    exact holds.counted
  · rw [(perm.map Prod.fst).mem_iff]
    apply holds.allocated n
    change pool'.live n = true at alive_n
    rwa [live', live] at alive_n

end Holds

omit [DecidableEq ρ] [DecidableEq ε] in
theorem holds_createRemovalPolicy_lru (memory : Bool) (data : ρ → Option ε)
    (prev next : ρ → Option ρ) :
    Holds memory (createRemovalPolicy_lru data prev next) [] := by
  refine ⟨⟨?_, rfl, rfl⟩, ?_, ?_, rfl, .inr ⟨rfl, rfl⟩, ?_⟩
  · simp
  · simp
  · simp [createRemovalPolicy_lru]
  · simp [createRemovalPolicy_lru]

omit [DecidableEq ρ] in
/-- Taking an item out of the list is erasing its entry. -/
theorem Holds.erase_entry (holds : Holds memory lru (front ++ (lru_node, entry) :: back)) :
    ((front ++ (lru_node, entry) :: back).map Prod.snd).erase entry =
      (front ++ back).map Prod.snd := by
  have absent := holds.of_split.2
  rw [List.map_append, mem_append, not_or] at absent
  rw [List.map_append, List.map_cons, erase_append_right _ absent.1, erase_cons_head,
    List.map_append]

/-- `lru_add` puts the entry behind the others. -/
theorem lru_add_spec (holds : Holds memory lru items)
    (fresh : lru.data (policyNode memory entry) = none) (unused : lru.pool.live lru_node = false) :
    ∃ lru', lru.lru_add entry (policyNode memory entry) lru_node = some lru' ∧
      Holds memory lru' (items ++ [(lru_node, entry)]) ∧ lru'.nwalkers = lru.nwalkers := by
  have new : lru_node ∉ items.map Prod.fst := by
    intro member
    have alive := holds.linked.alive lru_node member
    rw [unused] at alive
    cases alive
  have linked : Dlinked (alloc lru.pool lru_node) lru.list (items.map Prod.fst) := by
    refine ⟨fun n member => ?_, holds.linked.forward, holds.linked.backward⟩
    have differ : n ≠ lru_node := fun same => new (same ▸ member)
    change update lru.pool.live lru_node true n = true
    rw [update_of_ne differ]
    exact holds.linked.alive n member
  obtain ⟨pool, list, run, linked', live, data⟩ :=
    linked.addTail_spec (update_self ..) new entry
  have guess : (if lru.type = .TYPE_UNKNOWN then repl_guessType entry (policyNode memory entry)
      else some lru.type) = some (policyType memory) := by
    rcases holds.guessed with known | ⟨-, unknown⟩
    · rw [known, repl_guessType_policyNode]
      split <;> rfl
    · rw [if_pos unknown, repl_guessType_policyNode]
  refine ⟨{ lru with
      list := list
      count := lru.count + 1
      type := policyType memory
      pool := pool
      data := update lru.data (policyNode memory entry) (some lru_node) },
    ?_, ⟨?_, fun item member => ?_, fun e n => ?_, ?_, .inl rfl, fun n alive_n => ?_⟩, rfl⟩
  · rw [lru_add, fresh, if_neg (by simp), run]
    simp only [guess, bind_eq_bind, bind_some]
  · rw [List.map_append]
    exact linked'
  · change pool.data item.1 = some item.2
    rw [data]
    rw [mem_append, mem_singleton] at member
    rcases member with member | rfl
    · have differ : item.1 ≠ lru_node := fun same => new (same ▸ List.mem_map_of_mem member)
      rw [update_of_ne differ]
      exact holds.owner item member
    · exact update_self ..
  · change update lru.data (policyNode memory entry) (some lru_node)
      (policyNode memory e) = some n ↔ _
    rw [mem_append, mem_singleton, Prod.mk.injEq]
    by_cases same : e = entry
    · subst same
      rw [update_self, some_inj]
      constructor
      · rintro rfl
        exact .inr ⟨rfl, rfl⟩
      · rintro (member | ⟨rfl, -⟩)
        · exact absurd (List.mem_map_of_mem member) (holds.unlinked_iff.mpr fresh)
        · rfl
    · rw [update_of_ne fun nodes => same (policyNode_injective memory nodes), holds.named]
      simp only [same, and_false, or_false]
  · change lru.count + 1 = ((items ++ [(lru_node, entry)]).length : ℤ)
    rw [holds.counted, length_append, length_singleton]
    omega
  · change pool.live n = true at alive_n
    rw [List.map_append, mem_append, List.map_singleton, mem_singleton]
    by_cases same : n = lru_node
    · exact .inr same
    · rw [live] at alive_n
      change update lru.pool.live lru_node true n = true at alive_n
      rw [update_of_ne same] at alive_n
      exact .inl (holds.allocated n alive_n)

/-- `lru_remove` takes out the entry, if the policy has it. -/
theorem lru_remove_spec (holds : Holds memory lru items) (entry : ε) :
    ∃ lru' items', lru.lru_remove entry (policyNode memory entry) = some lru' ∧
      Holds memory lru' items' ∧ lru'.nwalkers = lru.nwalkers ∧
      items'.map Prod.snd = (items.map Prod.snd).erase entry := by
  cases found : lru.data (policyNode memory entry) with
  | none =>
      refine ⟨lru, items, by rw [lru_remove, found], holds, rfl, ?_⟩
      rw [erase_of_not_mem (holds.unlinked_iff.mpr found)]
  | some lru_node =>
      obtain ⟨front, back, rfl⟩ := append_of_mem ((holds.named entry lru_node).mp found)
      obtain ⟨pool, list, freed, run, free, holds'⟩ := holds.release
      refine ⟨_, front ++ back, ?_, holds', rfl, ?_⟩
      · have own := holds.owner (lru_node, entry) (by simp)
        have alive := holds.linked.alive lru_node (by simp)
        rw [lru_remove, found]
        simp only [DlinkMemory.get_eq alive, own, bind_eq_bind, bind_some, ne_eq, not_true_eq_false,
          if_false, run, free]
      · exact holds.erase_entry.symm

/-- `lru_referenced` moves the entry to the end, if the policy has it. -/
theorem lru_referenced_spec (holds : Holds memory lru items) (entry : ε) :
    ∃ lru' items', lru.lru_referenced entry (policyNode memory entry) = some lru' ∧
      Holds memory lru' items' ∧ lru'.nwalkers = lru.nwalkers ∧ items'.map Prod.snd =
        if entry ∈ items.map Prod.snd then (items.map Prod.snd).erase entry ++ [entry]
        else items.map Prod.snd := by
  cases found : lru.data (policyNode memory entry) with
  | none =>
      refine ⟨lru, items, by rw [lru_referenced, found], holds, rfl, ?_⟩
      rw [if_neg (holds.unlinked_iff.mpr found)]
  | some lru_node =>
      obtain ⟨front, back, rfl⟩ := append_of_mem ((holds.named entry lru_node).mp found)
      obtain ⟨pool, list, pool', list', run, run', holds'⟩ := holds.move
      refine ⟨_, front ++ back ++ [(lru_node, entry)], ?_, holds', rfl, ?_⟩
      · rw [lru_referenced, found]
        simp only [bind_eq_bind, bind_some, run, run']
      · rw [if_pos (by simp), holds.erase_entry, List.map_append, List.map_singleton]

end LruPolicyData

end Squid.Repl
