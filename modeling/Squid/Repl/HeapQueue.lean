import Squid.Repl.Heap

/-!
# The heap as an addressable priority queue

The purpose of the heap, in its own terms: a table of handles with their keys and data, from which
a row is deleted or updated by its handle, and a row with a least key is extracted.  Every run of
the heap's operations is a run of such a queue with the same results.
-/

namespace Squid.Repl

open Function

variable {ρ κ δ : Type} [DecidableEq ρ]

/-- The operations on a heap; the key is the value of the heap's key function. -/
inductive HeapCall (ρ κ δ : Type) where
  | insert (elm : ρ) (key : κ) (dat : δ)
  | delete (elm : ρ)
  | update (elm : ρ) (key : κ) (dat : δ)
  | extractmin

/-- An addressable priority queue: handles with their keys and data. -/
abbrev Queue (ρ κ δ : Type) := Table ρ (κ × δ)

namespace Queue

/-- The data in the queue. -/
def contents (q : Queue ρ κ δ) : Multiset δ := ↑(q.rows.map fun row => row.2.2)

/-- What an operation does to the queue and which data it returns. -/
inductive Serves [LE κ] : Queue ρ κ δ → HeapCall ρ κ δ → Option δ → Queue ρ κ δ → Prop
  | insert {q : Queue ρ κ δ} {elm : ρ} {key : κ} {dat : δ} (fresh : q.find elm = none) :
      Serves q (.insert elm key dat) none (Table.insert q elm (key, dat))
  | delete {q : Queue ρ κ δ} {elm : ρ} {key : κ} {dat : δ} (held : q.find elm = some (key, dat)) :
      Serves q (.delete elm) (some dat) (Table.erase q elm)
  | update {q : Queue ρ κ δ} {elm : ρ} {key old_key : κ} {dat old : δ}
      (held : q.find elm = some (old_key, old)) :
      Serves q (.update elm key dat) (some old) (Table.set q elm (key, dat))
  | extractmin_empty {q : Queue ρ κ δ} (empty : q.rows = []) : Serves q .extractmin none q
  | extractmin {q : Queue ρ κ δ} {elm : ρ} {key : κ} {dat : δ} (held : q.find elm = some (key, dat))
      (least : ∀ row ∈ q.rows, key ≤ row.2.1) :
      Serves q .extractmin (some dat) (Table.erase q elm)

/-- A run of the queue with its results. -/
inductive Run [LE κ] : Queue ρ κ δ → List (HeapCall ρ κ δ) → List (Option δ) → Queue ρ κ δ → Prop
  | nil (q : Queue ρ κ δ) : Run q [] [] q
  | cons {q q' q'' : Queue ρ κ δ} {call : HeapCall ρ κ δ} {calls : List (HeapCall ρ κ δ)}
      {result : Option δ} {results : List (Option δ)} (serves : Serves q call result q')
      (later : Run q' calls results q'') : Run q (call :: calls) (result :: results) q''

end Queue

namespace Heap

/-- The data of the nodes of the array. -/
def contents (hp : Heap ρ κ δ) : Multiset δ :=
  ↑((List.range hp.last).map fun i => (hp.block (hp.nodes i)).data)

/-- The queue lists the allocated nodes with their keys and data. -/
def Represents (hp : Heap ρ κ δ) (q : Queue ρ κ δ) : Prop :=
  ∀ p, q.find p = if hp.live p then some ((hp.block p).key, (hp.block p).data) else none

variable {hp hp' : Heap ρ κ δ} {q : Queue ρ κ δ} {elm : ρ}

section

variable (rep : hp.Represents q)
include rep

theorem Represents.of_live (alive : hp.live elm = true) :
    q.find elm = some ((hp.block elm).key, (hp.block elm).data) := by
  rw [rep elm, if_pos alive]

theorem Represents.of_not_live (dead : hp.live elm = false) : q.find elm = none := by
  rw [rep elm, dead]
  rfl

theorem Represents.live_of_row {row : ρ × κ × δ} (member : row ∈ q.rows) :
    hp.live row.1 = true ∧ row.2 = ((hp.block row.1).key, (hp.block row.1).data) := by
  obtain ⟨p, value⟩ := row
  have found := Table.mem_rows_iff.mp member
  rw [rep p] at found
  split at found
  case isTrue alive => exact ⟨alive, (Option.some.inj found).symm⟩
  case isFalse => cases found

theorem Represents.insert {key : κ} {dat : δ} (live : hp'.live = update hp.live elm true)
    (own : (hp'.block elm).key = key ∧ (hp'.block elm).data = dat)
    (others : ∀ p ≠ elm, (hp'.block p).key = (hp.block p).key ∧
      (hp'.block p).data = (hp.block p).data) : hp'.Represents (Table.insert q elm (key, dat)) := by
  intro p
  rcases eq_or_ne p elm with rfl | differ
  · rw [Table.find_insert_self, live, update_self, if_pos rfl, own.1, own.2]
  · rw [Table.find_insert_ne differ, rep p, live, update_of_ne differ, (others p differ).1,
      (others p differ).2]

theorem Represents.erase (live : hp'.live = update hp.live elm false)
    (same : ∀ p, (hp'.block p).key = (hp.block p).key ∧ (hp'.block p).data = (hp.block p).data) :
    hp'.Represents (Table.erase q elm) := by
  intro p
  rcases eq_or_ne p elm with rfl | differ
  · rw [Table.find_erase_self, live, update_self]
    rfl
  · rw [Table.find_erase_ne differ, rep p, live, update_of_ne differ, (same p).1, (same p).2]

theorem Represents.set {key : κ} {dat : δ} (alive : hp.live elm = true) (live : hp'.live = hp.live)
    (own : (hp'.block elm).key = key ∧ (hp'.block elm).data = dat)
    (others : ∀ p ≠ elm, (hp'.block p).key = (hp.block p).key ∧
      (hp'.block p).data = (hp.block p).data) : hp'.Represents (Table.set q elm (key, dat)) := by
  intro p
  rcases eq_or_ne p elm with rfl | differ
  · rw [Table.find_set_self (rep.of_live alive), live, if_pos alive, own.1, own.2]
  · rw [Table.find_set_ne differ, rep p, live, (others p differ).1, (others p differ).2]

/-- The handles of the queue are the pointers of the array, in another order. -/
theorem Represents.perm (linked : hp.Linked) :
    ((List.range hp.last).map hp.nodes).Perm (q.rows.map Prod.fst) := by
  have distinct : ((List.range hp.last).map hp.nodes).Nodup := by
    refine List.Nodup.map_on (fun i below j below' same => ?_) List.nodup_range
    exact linked.injective (List.mem_range.mp below) (List.mem_range.mp below') same
  rw [List.perm_ext_iff_of_nodup distinct q.nodup]
  intro p
  rw [List.mem_map, List.mem_map]
  constructor
  · rintro ⟨i, below, rfl⟩
    exact ⟨_, Table.mem_rows_iff.mpr (rep.of_live (linked.alive i (List.mem_range.mp below))), rfl⟩
  · rintro ⟨row, member, rfl⟩
    obtain ⟨i, below, at_i⟩ := linked.held row.1 (rep.live_of_row member).1
    exact ⟨i, List.mem_range.mpr below, at_i⟩

theorem Represents.contents_eq (linked : hp.Linked) : hp.contents = q.contents := by
  have moved := (rep.perm linked).map fun p => (hp.block p).data
  rw [List.map_map, List.map_map] at moved
  rw [contents, Queue.contents, Multiset.coe_eq_coe]
  refine moved.trans (List.Perm.of_eq (List.map_congr_left fun row member => ?_))
  rw [comp_apply, (rep.live_of_row member).2]

theorem Represents.last_eq (linked : hp.Linked) : hp.last = q.rows.length := by
  have same := (rep.perm linked).length_eq
  rwa [List.length_map, List.length_range, List.length_map] at same

end

variable [LinearOrder κ]

/-- One operation: the data returned and the heap left; `none` where an assertion fails or memory
outside the heap is touched. -/
def next (hp : Heap ρ κ δ) : HeapCall ρ κ δ → Option (Option δ × Heap ρ κ δ)
  | .insert elm key dat => (hp.heap_insert elm key dat).map fun hp => (none, hp)
  | .delete elm => (hp.heap_delete elm).map fun (data, hp) => (some data, hp)
  | .update elm key dat => (hp.heap_update elm key dat).map fun (data, hp) => (some data, hp)
  | .extractmin => hp.heap_extractmin

/-- `xmalloc` returns a block that is not in use; only nodes in the heap are deleted or updated. -/
def Proper (hp : Heap ρ κ δ) : HeapCall ρ κ δ → Prop
  | .insert elm _ _ => hp.live elm = false
  | .delete elm | .update elm _ _ => ∃ i < hp.last, hp.nodes i = elm
  | .extractmin => True

/-- A run of operations with the results. -/
def execute (hp : Heap ρ κ δ) : List (HeapCall ρ κ δ) → Option (List (Option δ) × Heap ρ κ δ)
  | [] => some ([], hp)
  | call :: calls =>
      (hp.next call).bind fun (result, hp) =>
        (hp.execute calls).map fun (results, hp) => (result :: results, hp)

/-- The heap after one operation. -/
def step (hp : Heap ρ κ δ) (call : HeapCall ρ κ δ) : Option (Heap ρ κ δ) := (hp.next call).map Prod.snd

/-- One operation of the heap serves the queue. -/
theorem next_serves {call : HeapCall ρ κ δ} (valid : hp.Valid) (rep : hp.Represents q)
    (ok : hp.Proper call) :
    ∃ result hp' q', hp.next call = some (result, hp') ∧ Queue.Serves q call result q' ∧
      hp'.Valid ∧ hp'.Represents q' := by
  have linked := valid.linked
  cases call with
  | insert elm key dat =>
      obtain ⟨hp', run, valid', -, live, own, others⟩ := insert_spec valid ok key dat
      exact ⟨none, hp', _, by rw [next, run, Option.map_some], .insert (rep.of_not_live ok), valid',
        rep.insert live own others⟩
  | delete elm =>
      obtain ⟨i, below, rfl⟩ := ok
      have alive := linked.alive i below
      obtain ⟨hp', run, valid', -, live, same⟩ := delete_spec valid alive
      exact ⟨_, hp', _, by rw [next, run, Option.map_some], .delete (rep.of_live alive), valid',
        rep.erase live same⟩
  | update elm key dat =>
      obtain ⟨i, below, rfl⟩ := ok
      have alive := linked.alive i below
      obtain ⟨hp', run, valid', -, live, own, others⟩ := update_spec valid alive key dat
      exact ⟨_, hp', _, by rw [next, run, Option.map_some], .update (rep.of_live alive), valid',
        rep.set alive live own others⟩
  | extractmin =>
      rcases Nat.eq_zero_or_pos hp.last with empty | nonempty
      · have no_rows : q.rows = [] := by
          rw [← List.length_eq_zero_iff, ← rep.last_eq linked, empty]
        refine ⟨none, hp, q, ?_, .extractmin_empty no_rows, valid, rep⟩
        rw [next, heap_extractmin, if_pos empty.le]
      · obtain ⟨elm, hp', alive, least, run, deleted⟩ := extractmin_spec valid nonempty
        obtain ⟨other, run', valid', -, live, same⟩ := delete_spec valid alive
        cases deleted.symm.trans run'
        refine ⟨_, hp', _, run, .extractmin (rep.of_live alive) fun row member => ?_, valid',
          rep.erase live same⟩
        obtain ⟨row_alive, row_eq⟩ := rep.live_of_row member
        rw [row_eq]
        exact least row.1 row_alive

/-- Every proper run of the heap succeeds and is a run of the queue. -/
theorem execute_run {calls : List (HeapCall ρ κ δ)} (valid : hp.Valid) (rep : hp.Represents q)
    (ok : LabelledRun.Allowed step Proper hp calls) :
    ∃ results hp' q', hp.execute calls = some (results, hp') ∧ Queue.Run q calls results q' ∧
      hp'.Valid ∧ hp'.Represents q' := by
  induction calls generalizing hp q with
  | nil => exact ⟨[], hp, q, rfl, .nil q, valid, rep⟩
  | cons call calls ih =>
      obtain ⟨result, middle, q', run, serves, valid', rep'⟩ := next_serves valid rep ok.1
      obtain ⟨results, hp', q'', later, queue_run, valid'', rep''⟩ :=
        ih valid' rep' (ok.2 middle (by rw [step, run, Option.map_some]))
      refine ⟨result :: results, hp', q'', ?_, .cons serves queue_run, valid'', rep''⟩
      simp only [execute, run, Option.bind_some, later, Option.map_some]

/-- The heap is a correct addressable priority queue. -/
theorem heap_queue (initSize : ℤ) (nodes : ℕ → ρ) (block : ρ → heap_node κ δ)
    (calls : List (HeapCall ρ κ δ))
    (ok : LabelledRun.Allowed step Proper (new_heap initSize nodes block) calls) :
    ∃ results hp q, (new_heap initSize nodes block).execute calls = some (results, hp) ∧
      Queue.Run Table.empty calls results q ∧
      (∀ i < hp.last, (hp.block (hp.nodes (Parent i))).key ≤ (hp.block (hp.nodes i)).key) ∧
      (∀ n, hp.live n = true ↔ ∃ i < hp.last, hp.nodes i = n) ∧
      (∀ n, hp.live n = true → hp.nodes (hp.block n).id = n) ∧
      hp.Represents q ∧ hp.contents = q.contents ∧
      (0 < hp.last → ∃ n hp', hp.heap_extractmin = some (some (hp.block n).data, hp') ∧
        hp.live n = true ∧ ∀ p, hp.live p = true → (hp.block n).key ≤ (hp.block p).key) := by
  have rep : (new_heap initSize nodes block).Represents Table.empty := fun p => rfl
  obtain ⟨results, hp, q, run, queue_run, valid, rep'⟩ :=
    execute_run (valid_new_heap initSize nodes block) rep ok
  have linked := valid.linked
  refine ⟨results, hp, q, run, queue_run, fun i below => ?_, fun n => ⟨linked.held n, ?_⟩,
    fun n alive => ?_, rep', rep'.contents_eq linked, fun nonempty => ?_⟩
  · rcases Nat.eq_zero_or_pos i with rfl | positive
    · exact le_rfl
    · exact valid.ordered i positive below
  · rintro ⟨i, below, rfl⟩
    exact linked.alive i below
  · obtain ⟨i, below, rfl⟩ := linked.held n alive
    rw [linked.id_nodes i below]
  · obtain ⟨elm, hp', alive, least, removed, -⟩ := extractmin_spec valid nonempty
    exact ⟨elm, hp', removed, alive, least⟩

/-- Three nodes, the middle one deleted and the last one given a smaller key. -/
def sample : List (HeapCall ℕ ℕ ℕ) :=
  [.insert 10 5 50, .insert 11 7 70, .insert 12 6 60, .delete 11, .update 12 4 40, .extractmin]

instance (hp : Heap ρ κ δ) (call : HeapCall ρ κ δ) : Decidable (hp.Proper call) :=
  match call with
  | .insert elm _ _ => inferInstanceAs (Decidable (hp.live elm = false))
  | .delete elm | .update elm _ _ =>
      inferInstanceAs (Decidable (∃ i < hp.last, hp.nodes i = elm))
  | .extractmin => .isTrue trivial

theorem heap_queue_sample :
    ∃ results hp q, (new_heap 0 id fun _ => ⟨0, 0, 0⟩).execute sample = some (results, hp) ∧
      Queue.Run Table.empty sample results q ∧ hp.contents = q.contents := by
  obtain ⟨results, hp, q, run, queue_run, -, -, -, -, same, -⟩ :=
    heap_queue 0 id (fun _ => ⟨0, 0, 0⟩) sample (by decide)
  exact ⟨results, hp, q, run, queue_run, same⟩

end Heap

end Squid.Repl
