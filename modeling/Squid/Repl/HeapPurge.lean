import Squid.Repl.HeapPolicy

/-!
# Purge sessions of the heap policy

While a session is active, the policy nodes of the entries it has set aside keep naming nodes that
have been freed, and no call may follow them.  The count of the policy is not adjusted when a
session returns an entry.
-/

namespace Squid.Repl

open List Option Function

variable {ρ κ ε : Type} [DecidableEq ρ] [DecidableEq ε] [LinearOrder κ]

namespace HeapPolicyData

/-- The nodes of the heap are those of the managed entries, apart from the entries set aside;
`returned` is the number of entries that purging has returned. -/
structure Holds (memory : Bool) (heap : HeapPolicyData ρ κ ε) (aside : List ε) (returned : ℕ) :
    Prop where
  valid : heap.theHeap.Valid
  named : ∀ entry ∉ aside, ∀ n, heap.data (policyNode memory entry) = some n ↔
    heap.theHeap.live n = true ∧ (heap.theHeap.block n).data = entry
  apart : ∀ n, heap.theHeap.live n = true → (heap.theHeap.block n).data ∉ aside
  stale : ∀ entry ∈ aside, (heap.data (policyNode memory entry)).isSome
  distinct : aside.Nodup
  counted : heap.count = heap.theHeap.last + aside.length + returned
  guessed : heap.type = policyType memory ∨
    heap.type = .TYPE_UNKNOWN ∧ heap.theHeap.last = 0 ∧ aside = []

variable {memory : Bool} {heap : HeapPolicyData ρ κ ε} {aside : List ε} {returned : ℕ}
  {entry : ε} {n : ρ}

namespace Holds

section

variable (holds : Holds memory heap aside returned)
include holds

omit [DecidableEq ρ] [DecidableEq ε] in
theorem pos_of_live (alive : heap.theHeap.live n = true) : 0 < heap.theHeap.last := by
  obtain ⟨i, inside, -⟩ := holds.valid.linked.held n alive
  exact Nat.zero_lt_of_lt inside

omit [DecidableEq ρ] [DecidableEq ε] in
/-- The node of an entry is the one that its policy node names. -/
theorem eq_of_data {n' : ρ} (alive : heap.theHeap.live n = true)
    (alive' : heap.theHeap.live n' = true)
    (same : (heap.theHeap.block n).data = (heap.theHeap.block n').data) : n = n' := by
  have named := (holds.named _ (holds.apart n alive) n).mpr ⟨alive, rfl⟩
  have named' := (holds.named _ (holds.apart n' alive') n').mpr ⟨alive', rfl⟩
  rw [same, named'] at named
  exact (some.inj named).symm

omit [DecidableEq ε] in
/-- The heap after a node was deleted, whose entry is set aside or leaves the policy. -/
theorem deleted (alive : heap.theHeap.live n = true)
    (entry_eq : (heap.theHeap.block n).data = entry) :
    ∃ theHeap, heap.theHeap.heap_delete n = some (entry, theHeap) ∧ theHeap.Valid ∧
      theHeap.last + 1 = heap.theHeap.last ∧
      ∀ n' entry', theHeap.live n' = true ∧ (theHeap.block n').data = entry' ↔
        (heap.theHeap.live n' = true ∧ (heap.theHeap.block n').data = entry') ∧ entry' ≠ entry := by
  subst entry_eq
  obtain ⟨theHeap, run, valid, last, live, same⟩ := Heap.delete_spec holds.valid alive
  refine ⟨theHeap, run, valid, last, fun n' entry' => ?_⟩
  rw [live, (same n').2]
  by_cases own : n' = n
  · subst own
    rw [update_self]
    constructor
    · rintro ⟨dead, -⟩
      cases dead
    · rintro ⟨⟨-, rfl⟩, differ⟩
      exact absurd rfl differ
  · rw [update_of_ne own]
    refine ⟨fun both => ⟨both, ?_⟩, And.left⟩
    rintro rfl
    exact own (holds.eq_of_data both.1 alive both.2)

end

end Holds

/-- The entries whose policy node is set. -/
def managed (memory : Bool) (heap : HeapPolicyData ρ κ ε) (entry : ε) : Bool :=
  (heap.data (policyNode memory entry)).isSome

omit [DecidableEq ρ] [LinearOrder κ] in
/-- Setting the policy node of an entry changes it alone. -/
theorem update_policyNode (data : RemovalPolicyNode ε → Option ρ) (entry entry' : ε)
    (value : Option ρ) :
    update data (policyNode memory entry) value (policyNode memory entry') =
      if entry' = entry then value else data (policyNode memory entry') := by
  by_cases same : entry' = entry
  · rw [if_pos same, same, update_self]
  · rw [if_neg same, update_of_ne fun nodes => same (policyNode_injective memory nodes)]

omit [DecidableEq ρ] [LinearOrder κ] in
theorem managed_of_update {heap' : HeapPolicyData ρ κ ε} {value : Option ρ}
    (data : heap'.data = update heap.data (policyNode memory entry) value) :
    heap'.managed memory = update (heap.managed memory) entry value.isSome := by
  funext entry'
  rw [managed, data, update_policyNode]
  by_cases same : entry' = entry
  · rw [if_pos same, same, update_self]
  · rw [if_neg same, update_of_ne same, managed]

section

variable (holds : Holds memory heap aside returned)
include holds

/-- `heap_remove` of an entry that is not set aside. -/
theorem heap_remove_spec (present : entry ∉ aside) :
    ∃ heap', heap.heap_remove (policyNode memory entry) = some heap' ∧
      Holds memory heap' aside returned ∧ heap'.nwalkers = heap.nwalkers ∧
      heap'.managed memory = update (heap.managed memory) entry false := by
  cases found : heap.data (policyNode memory entry) with
  | none =>
      refine ⟨heap, by rw [heap_remove, found], holds, rfl, ?_⟩
      have unmanaged : heap.managed memory entry = false := by rw [managed, found, isSome_none]
      rw [← unmanaged, update_eq_self]
  | some n =>
      obtain ⟨alive, own⟩ := (holds.named entry present n).mp found
      obtain ⟨theHeap, run, valid, last, nodes⟩ := holds.deleted alive own
      refine ⟨{ heap with
          theHeap := theHeap
          count := heap.count - 1
          data := update heap.data (policyNode memory entry) none },
        by rw [heap_remove, found]; simp only [run, bind_eq_bind, bind_some],
        ⟨valid, fun entry' absent n' => ?_, fun n' alive' => ?_, fun entry' set_aside => ?_,
          holds.distinct, ?_, ?_⟩, rfl, managed_of_update
          (show _ = update heap.data (policyNode memory entry) none from rfl)⟩
      · change update heap.data (policyNode memory entry) none (policyNode memory entry') =
          some n' ↔ theHeap.live n' = true ∧ (theHeap.block n').data = entry'
        rw [nodes, update_policyNode, ← holds.named entry' absent]
        by_cases same : entry' = entry
        · simp [same]
        · simp [same]
      · exact ((nodes n' _).mp ⟨alive', rfl⟩).1.2 ▸ holds.apart n' ((nodes n' _).mp ⟨alive', rfl⟩).1.1
      · change (update heap.data (policyNode memory entry) none
          (policyNode memory entry')).isSome
        rw [update_policyNode, if_neg fun same : entry' = entry => present (same ▸ set_aside)]
        exact holds.stale entry' set_aside
      · change heap.count - 1 = (theHeap.last : ℤ) + aside.length + returned
        rw [holds.counted, ← last]
        omega
      · refine .inl (holds.guessed.resolve_right fun ⟨_, empty, _⟩ => ?_)
        omega

omit [DecidableEq ε] in
/-- `heap_referenced` of an entry that is not set aside. -/
theorem heap_referenced_spec (present : entry ∉ aside) (key : κ) :
    ∃ heap', heap.heap_referenced entry (policyNode memory entry) key = some heap' ∧
      Holds memory heap' aside returned ∧ heap'.nwalkers = heap.nwalkers ∧
      heap'.managed memory = heap.managed memory := by
  cases found : heap.data (policyNode memory entry) with
  | none => exact ⟨heap, by rw [heap_referenced, found], holds, rfl, rfl⟩
  | some n =>
      obtain ⟨alive, own⟩ := (holds.named entry present n).mp found
      obtain ⟨theHeap, run, valid, last, live, new, others⟩ :=
        Heap.update_spec holds.valid alive key entry
      have data (n' : ρ) : (theHeap.block n').data = (heap.theHeap.block n').data := by
        by_cases same : n' = n
        · rw [same, new.2, own]
        · exact (others n' same).2
      refine ⟨{ heap with theHeap := theHeap },
        by rw [heap_referenced, found]; simp only [run, bind_eq_bind, bind_some],
        ⟨valid, fun entry' absent n' => ?_, fun n' alive' => ?_, holds.stale, holds.distinct, ?_, ?_⟩,
        rfl, rfl⟩
      · change _ ↔ theHeap.live n' = true ∧ (theHeap.block n').data = entry'
        rw [live, data]
        exact holds.named entry' absent n'
      · change (theHeap.block n').data ∉ aside
        change theHeap.live n' = true at alive'
        rw [data]
        rw [live] at alive'
        exact holds.apart n' alive'
      · change heap.count = (theHeap.last : ℤ) + aside.length + returned
        rw [last]
        exact holds.counted
      · change _ ∨ _ ∧ theHeap.last = 0 ∧ _
        rw [last]
        exact holds.guessed

/-- The heap after a node was inserted for an entry that has none. -/
theorem Holds.inserted (unused : heap.theHeap.live n = false)
    (absent : ∀ n', heap.theHeap.live n' = true → (heap.theHeap.block n').data ≠ entry) (key : κ) :
    ∃ theHeap, heap.theHeap.heap_insert n key entry = some theHeap ∧ theHeap.Valid ∧
      theHeap.last = heap.theHeap.last + 1 ∧
      ∀ n' entry', theHeap.live n' = true ∧ (theHeap.block n').data = entry' ↔
        if entry' = entry then n' = n
        else heap.theHeap.live n' = true ∧ (heap.theHeap.block n').data = entry' := by
  obtain ⟨theHeap, run, valid, last, live, new, others⟩ :=
    Heap.insert_spec holds.valid unused key entry
  refine ⟨theHeap, run, valid, last, fun n' entry' => ?_⟩
  rw [live]
  by_cases own : n' = n
  · subst own
    rw [update_self, new.2]
    by_cases same : entry' = entry
    · simp [same]
    · simp [same, Ne.symm same, unused]
  · rw [update_of_ne own, (others n' own).2]
    by_cases same : entry' = entry
    · rw [if_pos same, same, iff_false_right own, not_and]
      exact absent n'
    · rw [if_neg same]

/-- `heap_add` of an entry without a node. -/
theorem heap_add_spec (fresh : heap.data (policyNode memory entry) = none) (special : Bool)
    (unused : heap.theHeap.live n = false) (key : κ) :
    ∃ heap', heap.heap_add entry (policyNode memory entry) special n key = some heap' ∧
      Holds memory heap' aside returned ∧ heap'.nwalkers = heap.nwalkers ∧
      heap'.managed memory = if special then heap.managed memory
        else update (heap.managed memory) entry true := by
  cases special with
  | true => exact ⟨heap, by rw [heap_add, fresh]; rfl, holds, rfl, rfl⟩
  | false =>
      have present : entry ∉ aside := by
        intro set_aside
        have stale := holds.stale entry set_aside
        rw [fresh] at stale
        cases stale
      have absent (n' : ρ) (alive : heap.theHeap.live n' = true) :
          (heap.theHeap.block n').data ≠ entry := by
        intro same
        have named := (holds.named entry present n').mpr ⟨alive, same⟩
        rw [fresh] at named
        cases named
      obtain ⟨theHeap, run, valid, last, nodes⟩ := holds.inserted unused absent key
      have guess : (if heap.type = .TYPE_UNKNOWN then
          repl_guessType entry (policyNode memory entry) else some heap.type) =
            some (policyType memory) := by
        rcases holds.guessed with known | ⟨unknown, -⟩
        · rw [known, repl_guessType_policyNode]
          split <;> rfl
        · rw [if_pos unknown, repl_guessType_policyNode]
      refine ⟨{ heap with
          theHeap := theHeap
          count := heap.count + 1
          type := policyType memory
          data := update heap.data (policyNode memory entry) (some n) }, ?_,
        ⟨valid, fun entry' not_aside n' => ?_, fun n' alive' => ?_, fun entry' set_aside => ?_,
          holds.distinct, ?_, .inl rfl⟩, rfl, managed_of_update
            (show _ = update heap.data (policyNode memory entry) (some n) from rfl)⟩
      · rw [heap_add, fresh, if_neg (by simp), if_neg (by simp), run]
        simp only [guess, bind_eq_bind, bind_some]
      · change update heap.data (policyNode memory entry) (some n)
          (policyNode memory entry') = some n' ↔
            theHeap.live n' = true ∧ (theHeap.block n').data = entry'
        rw [nodes, update_policyNode, ← holds.named entry' not_aside]
        by_cases same : entry' = entry
        · rw [if_pos same, if_pos same, some_inj, eq_comm]
        · rw [if_neg same, if_neg same]
      · have found := (nodes n' _).mp ⟨alive', rfl⟩
        by_cases same : (theHeap.block n').data = entry
        · rwa [← same] at present
        · rw [if_neg same] at found
          exact found.2 ▸ holds.apart n' found.1
      · change (update heap.data (policyNode memory entry) (some n)
          (policyNode memory entry')).isSome
        rw [update_policyNode, if_neg fun same : entry' = entry => present (same ▸ set_aside)]
        exact holds.stale entry' set_aside
      · change heap.count + 1 = (theHeap.last : ℤ) + aside.length + returned
        rw [holds.counted, last]
        omega

omit [DecidableEq ε] in
/-- An extracted entry is set aside: its policy node is stale from now on. -/
theorem Holds.set_aside {theHeap : Heap ρ κ ε} (alive : heap.theHeap.live n = true)
    (own : (heap.theHeap.block n).data = entry)
    (run : heap.theHeap.heap_delete n = some (entry, theHeap)) :
    Holds memory { heap with theHeap := theHeap } (aside ++ [entry]) returned := by
  have present : entry ∉ aside := own ▸ holds.apart n alive
  obtain ⟨_, run', valid, last, nodes⟩ := holds.deleted alive own
  cases run.symm.trans run'
  refine ⟨valid, fun entry' absent n' => ?_, fun n' alive' => ?_, fun entry' member => ?_, ?_, ?_, ?_⟩
  · rw [mem_append, mem_singleton, not_or] at absent
    change heap.data (policyNode memory entry') = some n' ↔
      theHeap.live n' = true ∧ (theHeap.block n').data = entry'
    rw [nodes, holds.named entry' absent.1]
    exact (and_iff_left absent.2).symm
  · have found := (nodes n' _).mp ⟨alive', rfl⟩
    rw [mem_append, mem_singleton, not_or]
    exact ⟨found.1.2 ▸ holds.apart n' found.1.1, found.2⟩
  · rw [mem_append, mem_singleton] at member
    rcases member with member | rfl
    · exact holds.stale entry' member
    · change (heap.data (policyNode memory entry')).isSome
      rw [(holds.named entry' present n).mpr ⟨alive, own⟩, isSome_some]
  · exact nodup_append.mpr ⟨holds.distinct, nodup_singleton entry,
      fun a member b single same => present (mem_singleton.mp single ▸ same ▸ member)⟩
  · change heap.count = (theHeap.last : ℤ) + (aside ++ [entry]).length + returned
    rw [holds.counted, ← last, length_append, length_singleton]
    omega
  · refine .inl (holds.guessed.resolve_right fun ⟨_, empty, _⟩ => ?_)
    omega

/-- An extracted entry is returned: its policy node is cleared, and the count stays. -/
theorem Holds.taken {theHeap : Heap ρ κ ε} (alive : heap.theHeap.live n = true)
    (own : (heap.theHeap.block n).data = entry)
    (run : heap.theHeap.heap_delete n = some (entry, theHeap)) :
    Holds memory ({ heap with theHeap := theHeap }.setPolicyNode entry none) aside (returned + 1) ∧
      ({ heap with theHeap := theHeap }.setPolicyNode entry none).managed memory =
        update (heap.managed memory) entry false := by
  have present : entry ∉ aside := own ▸ holds.apart n alive
  obtain ⟨_, run', valid, last, nodes⟩ := holds.deleted alive own
  cases run.symm.trans run'
  have known : heap.type = policyType memory := by
    refine holds.guessed.resolve_right fun ⟨_, empty, _⟩ => ?_
    omega
  have cleared : ({ heap with theHeap := theHeap }.setPolicyNode entry none).data =
      update heap.data (policyNode memory entry) none := by
    rw [setPolicyNode, known, updateNode_policyType]
  refine ⟨⟨valid, fun entry' absent n' => ?_, fun n' alive' => ?_, fun entry' member => ?_,
    holds.distinct, ?_, .inl known⟩, managed_of_update cleared⟩
  · change _ ↔ theHeap.live n' = true ∧ (theHeap.block n').data = entry'
    rw [cleared, nodes, update_policyNode, ← holds.named entry' absent]
    by_cases same : entry' = entry
    · simp [same]
    · simp [same]
  · have found := (nodes n' _).mp ⟨alive', rfl⟩
    exact found.1.2 ▸ holds.apart n' found.1.1
  · rw [cleared, update_policyNode, if_neg fun same : entry' = entry => present (same ▸ member)]
    exact holds.stale entry' member
  · change heap.count = (theHeap.last : ℤ) + aside.length + (returned + 1 : ℕ)
    rw [holds.counted, ← last]
    omega

end

/-- What a call of `heap_purgeNext` does: it sets aside all entries, where they are locked, or
returns one that is not. -/
inductive Purges (memory : Bool) (locked : ε → Bool) (heap heap' : HeapPolicyData ρ κ ε)
    (aside' : List ε) (returned : ℕ) : Option ε → Prop
  | none (holds : Holds memory heap' aside' returned)
      (managed : heap'.managed memory = heap.managed memory)
      (all : ∀ n, heap.theHeap.live n = true → locked (heap.theHeap.block n).data = true) :
      Purges memory locked heap heap' aside' returned none
  | some {entry : ε} (holds : Holds memory heap' aside' (returned + 1))
      (managed : heap'.managed memory = update (heap.managed memory) entry false)
      (free : locked entry = false)
      (held : ∃ n, heap.theHeap.live n = true ∧ (heap.theHeap.block n).data = entry) :
      Purges memory locked heap heap' aside' returned (some entry)

theorem purgeLoop_spec {locked : ε → Bool} (holds : Holds memory heap aside returned) {turns : ℕ}
    (enough : heap.theHeap.last < turns) :
    ∃ result heap' aside',
      heap.purgeLoop locked turns aside = some (result, heap', aside') ∧
      heap'.nwalkers = heap.nwalkers ∧ Purges memory locked heap heap' aside' returned result := by
  induction turns generalizing heap aside with
  | zero => cases enough
  | succ turns ih =>
      rcases Nat.eq_zero_or_pos heap.theHeap.last with empty | nonempty
      · refine ⟨none, heap, aside, if_pos empty, rfl, .none holds rfl fun n alive => ?_⟩
        exact absurd (holds.pos_of_live alive) (empty ▸ Nat.lt_irrefl 0)
      · obtain ⟨n, theHeap, alive, -, extract, run⟩ := Heap.extractmin_spec holds.valid nonempty
        obtain ⟨_, run', valid, last, nodes⟩ := holds.deleted alive rfl
        cases run.symm.trans run'
        rw [purgeLoop, if_neg nonempty.ne', extract]
        simp only [bind_eq_bind, bind_some]
        cases state : locked (heap.theHeap.block n).data with
        | true =>
            rw [if_pos rfl]
            obtain ⟨result, heap', aside', later, nwalkers, purges⟩ :=
              ih (holds.set_aside alive rfl run) (show theHeap.last < turns by omega)
            refine ⟨result, heap', aside', later, nwalkers, ?_⟩
            cases purges with
            | none holds' managed all =>
                refine .none holds' managed fun n' alive' => ?_
                by_cases same : (heap.theHeap.block n').data = (heap.theHeap.block n).data
                · rw [same, state]
                · have found := (nodes n' _).mpr ⟨⟨alive', rfl⟩, same⟩
                  rw [← found.2]
                  exact all n' found.1
            | some holds' managed free held =>
                obtain ⟨n', alive', own'⟩ := held
                have found := ((nodes n' _).mp ⟨alive', own'⟩).1
                exact .some holds' managed free ⟨n', found⟩
        | false =>
            rw [if_neg Bool.false_ne_true]
            obtain ⟨holds', managed⟩ := holds.taken alive rfl run
            exact ⟨_, _, _, rfl, rfl, .some holds' managed state ⟨n, alive, rfl⟩⟩

/-- An entry set aside is put back into the heap. -/
theorem Holds.put_back (holds : Holds memory heap (entry :: aside) returned)
    (unused : heap.theHeap.live n = false) (key : κ) :
    ∃ theHeap, heap.theHeap.heap_insert n key entry = some theHeap ∧
      Holds memory ({ heap with theHeap := theHeap }.setPolicyNode entry (some n)) aside returned ∧
      ({ heap with theHeap := theHeap }.setPolicyNode entry (some n)).managed memory =
        heap.managed memory ∧
      ∀ n', theHeap.live n' = true → n' = n ∨ heap.theHeap.live n' = true := by
  have distinct := nodup_cons.mp holds.distinct
  have absent (n' : ρ) (alive : heap.theHeap.live n' = true) :
      (heap.theHeap.block n').data ≠ entry := by
    rintro rfl
    exact holds.apart n' alive List.mem_cons_self
  obtain ⟨theHeap, run, valid, last, nodes⟩ := holds.inserted unused absent key
  have known : heap.type = policyType memory := by
    refine holds.guessed.resolve_right fun ⟨_, _, empty⟩ => ?_
    cases empty
  have named : ({ heap with theHeap := theHeap }.setPolicyNode entry (some n)).data =
      update heap.data (policyNode memory entry) (some n) := by
    rw [setPolicyNode, known, updateNode_policyType]
  refine ⟨theHeap, run, ⟨valid, fun entry' not_aside n' => ?_, fun n' alive' => ?_,
    fun entry' set_aside => ?_, distinct.2, ?_, .inl known⟩, ?_, fun n' alive' => ?_⟩
  · change _ ↔ theHeap.live n' = true ∧ (theHeap.block n').data = entry'
    rw [named, nodes, update_policyNode]
    by_cases same : entry' = entry
    · rw [if_pos same, if_pos same, some_inj, eq_comm]
    · rw [if_neg same, if_neg same]
      exact holds.named entry' (mem_cons.not.mpr (not_or.mpr ⟨same, not_aside⟩)) n'
  · have found := (nodes n' _).mp ⟨alive', rfl⟩
    by_cases same : (theHeap.block n').data = entry
    · exact same ▸ distinct.1
    · rw [if_neg same] at found
      exact found.2 ▸ fun member => holds.apart n' found.1 (List.mem_cons_of_mem entry member)
  · rw [named, update_policyNode]
    split
    · rfl
    · exact holds.stale entry' (List.mem_cons_of_mem entry set_aside)
  · change heap.count = (theHeap.last : ℤ) + aside.length + returned
    rw [holds.counted, last, length_cons]
    omega
  · have was : heap.managed memory entry = true := holds.stale entry List.mem_cons_self
    rw [managed_of_update named, isSome_some, ← was, update_eq_self]
  · have found := (nodes n' _).mp ⟨alive', rfl⟩
    split at found
    · exact .inl found
    · exact .inr found.1

/-- The blocks that `xmalloc` returns to `heap_purgeDone`: enough of them, and none in use. -/
structure Blocks (heap : HeapPolicyData ρ κ ε) (aside : List ε) (blocks : List (ρ × κ)) : Prop where
  enough : aside.length ≤ blocks.length
  distinct : (blocks.map Prod.fst).Nodup
  unused : ∀ block ∈ blocks, heap.theHeap.live block.1 = false

/-- `heap_purgeDone` puts every entry set aside back into the heap. -/
theorem reinsert_spec {blocks : List (ρ × κ)} (holds : Holds memory heap aside returned)
    (given : Blocks heap aside blocks) :
    ∃ heap', heap.reinsert aside blocks = some heap' ∧ Holds memory heap' [] returned ∧
      heap'.nwalkers = heap.nwalkers ∧ heap'.managed memory = heap.managed memory := by
  induction aside generalizing heap blocks with
  | nil => exact ⟨heap, rfl, holds, rfl, rfl⟩
  | cons entry aside ih =>
      cases blocks with
      | nil => exact absurd given.enough (Nat.not_succ_le_zero _)
      | cons block blocks =>
          obtain ⟨n, key⟩ := block
          obtain ⟨theHeap, run, holds', kept, live⟩ :=
            holds.put_back (given.unused (n, key) List.mem_cons_self) key
          have distinct := nodup_cons.mp given.distinct
          have given' : Blocks ({ heap with theHeap := theHeap }.setPolicyNode entry (some n))
              aside blocks := by
            refine ⟨Nat.le_of_succ_le_succ given.enough, distinct.2, fun block member => ?_⟩
            rw [← Bool.not_eq_true]
            intro alive
            rcases live block.1 alive with same | alive
            · exact distinct.1 (same ▸ List.mem_map_of_mem member)
            · rw [given.unused block (List.mem_cons_of_mem _ member)] at alive
              cases alive
          obtain ⟨heap', later, done, nwalkers, managed⟩ := ih holds' given'
          refine ⟨heap', ?_, done, nwalkers, managed.trans kept⟩
          rw [reinsert, run]
          exact later

end HeapPolicyData

/-! ### Runs -/

namespace HeapPolicyState

open HeapPolicyData

variable {memory : Bool} {state : HeapPolicyState ρ κ ε} {call : HeapPolicyCall ρ κ ε}
  {calls : List (HeapPolicyCall ρ κ ε)}

/-- The entries that the active session has set aside. -/
def aside (state : HeapPolicyState ρ κ ε) : List ε := state.walker.getD []

/-- The entry of the node in a cell of the heap. -/
def entryAt (state : HeapPolicyState ρ κ ε) (i : ℕ) : ε :=
  (state.heap.theHeap.block (state.heap.theHeap.nodes i)).data

/-- `heap_add` asserts that the policy node is null, `xmalloc` returns blocks that are not in use,
and the calls of a session come in order. -/
def Proper (memory : Bool) (state : HeapPolicyState ρ κ ε) : HeapPolicyCall ρ κ ε → Prop
  | .add entry _ elm _ =>
      state.heap.data (policyNode memory entry) = none ∧ state.heap.theHeap.live elm = false
  | .remove _ | .referenced _ _ => True
  | .purgeInit => state.walker = none
  | .purgeNext _ => state.walker.isSome
  | .purgeDone blocks => state.walker.isSome ∧ Blocks state.heap state.aside blocks

/-- No call follows the policy node of an entry that is set aside. -/
def Untouched (state : HeapPolicyState ρ κ ε) : HeapPolicyCall ρ κ ε → Prop
  | .remove entry | .referenced entry _ => entry ∉ state.aside
  | .add _ _ _ _ | .purgeInit | .purgeNext _ | .purgeDone _ => True

/-- A session looks for an entry only while all entries in the heap are locked. -/
def Unreturned (state : HeapPolicyState ρ κ ε) : HeapPolicyCall ρ κ ε → Prop
  | .purgeNext locked => ∀ i < state.heap.theHeap.last, locked (state.entryAt i) = true
  | .add _ _ _ _ | .remove _ | .referenced _ _ | .purgeInit | .purgeDone _ => True

instance decidableBlocks (heap : HeapPolicyData ρ κ ε) (aside : List ε) (blocks : List (ρ × κ)) :
    Decidable (Blocks heap aside blocks) :=
  decidable_of_iff (aside.length ≤ blocks.length ∧ (blocks.map Prod.fst).Nodup ∧
      ∀ block ∈ blocks, heap.theHeap.live block.1 = false)
    ⟨fun all => ⟨all.1, all.2.1, all.2.2⟩, fun all => ⟨all.enough, all.distinct, all.unused⟩⟩

instance decidableProper (memory : Bool) (state : HeapPolicyState ρ κ ε)
    (call : HeapPolicyCall ρ κ ε) : Decidable (state.Proper memory call) :=
  match call with
  | .add entry _ elm _ => inferInstanceAs (Decidable
      (state.heap.data (policyNode memory entry) = none ∧ state.heap.theHeap.live elm = false))
  | .remove _ | .referenced _ _ => .isTrue trivial
  | .purgeInit => inferInstanceAs (Decidable (state.walker = none))
  | .purgeNext _ => inferInstanceAs (Decidable (state.walker.isSome = true))
  | .purgeDone blocks =>
      inferInstanceAs (Decidable
        (state.walker.isSome = true ∧ Blocks state.heap state.aside blocks))

instance decidableUntouched (state : HeapPolicyState ρ κ ε) (call : HeapPolicyCall ρ κ ε) :
    Decidable (state.Untouched call) :=
  match call with
  | .remove entry | .referenced entry _ => inferInstanceAs (Decidable (entry ∉ state.aside))
  | .add _ _ _ _ | .purgeInit | .purgeNext _ | .purgeDone _ => .isTrue trivial

/-- How a call changes which entries are managed, by what it is asked to do and what it returns. -/
def account (managed : ε → Bool) (call : HeapPolicyCall ρ κ ε) (result : Option ε) : ε → Bool :=
  match call, result with
  | .add entry special _ _, _ => if special then managed else update managed entry true
  | .remove entry, _ => update managed entry false
  | .purgeNext _, some entry => update managed entry false
  | _, _ => managed

/-- The entries that are managed after a run. -/
def accounts : (ε → Bool) → List (HeapPolicyCall ρ κ ε) → List (Option ε) → ε → Bool
  | managed, call :: calls, result :: results => accounts (account managed call result) calls results
  | managed, _, _ => managed

/-- A session returns no entry that it finds locked. -/
def Unlocked : HeapPolicyCall ρ κ ε → Option ε → Prop
  | .purgeNext locked, some entry => locked entry = false
  | _, _ => True

/-- What every run keeps. -/
structure Kept (memory : Bool) (state : HeapPolicyState ρ κ ε) (returned : ℕ) : Prop where
  holds : Holds memory state.heap state.aside returned
  walkers : state.heap.nwalkers = if state.walker.isSome then 1 else 0

variable {returned : ℕ}

/-- One call. -/
theorem next_spec (kept : Kept memory state returned) (proper : state.Proper memory call)
    (untouched : state.Untouched call) :
    ∃ result state' returned', state.next memory call = some (result, state') ∧
      Kept memory state' returned' ∧ Unlocked call result ∧
      state'.heap.managed memory = account (state.heap.managed memory) call result ∧
      returned ≤ returned' ∧ (returned' = returned ↔ state.Unreturned call) := by
  obtain ⟨heap, walker⟩ := state
  obtain ⟨holds, walkers⟩ := kept
  cases call with
  | add entry special elm key =>
      obtain ⟨heap', run, holds', nwalkers, managed⟩ :=
        heap_add_spec holds proper.1 special proper.2 key
      exact ⟨none, _, returned, by rw [next, run, map_some], ⟨holds', nwalkers.trans walkers⟩,
        trivial, managed, Nat.le_refl _, iff_of_true rfl trivial⟩
  | remove entry =>
      obtain ⟨heap', run, holds', nwalkers, managed⟩ := heap_remove_spec holds untouched
      exact ⟨none, _, returned, by rw [next, run, map_some], ⟨holds', nwalkers.trans walkers⟩,
        trivial, managed, Nat.le_refl _, iff_of_true rfl trivial⟩
  | referenced entry key =>
      obtain ⟨heap', run, holds', nwalkers, managed⟩ := heap_referenced_spec holds untouched key
      exact ⟨none, _, returned, by rw [next, run, map_some], ⟨holds', nwalkers.trans walkers⟩,
        trivial, managed, Nat.le_refl _, iff_of_true rfl trivial⟩
  | purgeInit =>
      change walker = none at proper
      subst proper
      refine ⟨none, _, returned, rfl, ⟨?_, ?_⟩, trivial, rfl, Nat.le_refl _, iff_of_true rfl trivial⟩
      · exact ⟨holds.valid, holds.named, holds.apart, holds.stale, holds.distinct, holds.counted,
          holds.guessed⟩
      · change heap.nwalkers + 1 = 1
        change heap.nwalkers = 0 at walkers
        omega
  | purgeNext locked =>
      obtain ⟨aside, rfl⟩ := isSome_iff_exists.mp proper
      have held := holds.valid.linked
      obtain ⟨result, heap', aside', run, nwalkers, purges⟩ :=
        purgeLoop_spec holds (Nat.lt_succ_self heap.theHeap.last)
      have turn : next memory ⟨heap, some aside⟩ (.purgeNext locked) =
          some (result, ⟨heap', some aside'⟩) := by
        rw [next, bind_eq_bind, bind_some, heap_purgeNext]
        exact congrArg (Option.bind · _) run
      cases purges with
      | none holds' managed all =>
          refine ⟨none, _, returned, turn, ⟨holds', nwalkers.trans walkers⟩, trivial, managed,
            Nat.le_refl _, iff_of_true rfl fun i inside => ?_⟩
          exact all _ (held.alive i inside)
      | @some entry holds' managed free found =>
          refine ⟨some entry, _, returned + 1, turn, ⟨holds', nwalkers.trans walkers⟩, free, managed,
            Nat.le_succ _, iff_of_false (Nat.succ_ne_self _) fun all => ?_⟩
          obtain ⟨n, alive, rfl⟩ := found
          obtain ⟨i, inside, rfl⟩ := held.held n alive
          exact Bool.false_ne_true (free.symm.trans (all i inside))
  | purgeDone blocks =>
      obtain ⟨active, given⟩ := proper
      obtain ⟨aside, rfl⟩ := isSome_iff_exists.mp active
      change heap.nwalkers = 1 at walkers
      have holds₀ : Holds memory { heap with nwalkers := heap.nwalkers - 1 } aside returned :=
        ⟨holds.valid, holds.named, holds.apart, holds.stale, holds.distinct, holds.counted,
          holds.guessed⟩
      obtain ⟨heap', run, holds', nwalkers, managed⟩ :=
        reinsert_spec holds₀ ⟨given.enough, given.distinct, given.unused⟩
      refine ⟨none, ⟨heap', none⟩, returned, ?_, ⟨holds', ?_⟩, trivial, managed, Nat.le_refl _,
        iff_of_true rfl trivial⟩
      · rw [next, bind_eq_bind, bind_some, heap_purgeDone, if_pos (show 0 < heap.nwalkers by omega),
          run]
        rfl
      · rw [nwalkers]
        change heap.nwalkers - 1 = 0
        omega

theorem execute_spec (kept : Kept memory state returned) (ok : LabelledRun.Allowed (step memory)
      (fun state call => state.Proper memory call ∧ state.Untouched call) state calls) :
    ∃ results state' returned', state.execute memory calls = some (results, state') ∧
      Kept memory state' returned' ∧ List.Forall₂ Unlocked calls results ∧
      state'.heap.managed memory = accounts (state.heap.managed memory) calls results ∧
      returned ≤ returned' ∧
      (returned' = returned ↔ LabelledRun.Allowed (step memory) Unreturned state calls) := by
  induction calls generalizing state returned with
  | nil =>
      exact ⟨[], state, returned, rfl, kept, .nil, rfl, Nat.le_refl _, iff_of_true rfl trivial⟩
  | cons call calls ih =>
      obtain ⟨result, middle, returned₁, run, kept₁, unlocked, managed, more, returned_iff⟩ :=
        next_spec kept ok.1.1 ok.1.2
      have turn : step memory state call = some middle := by rw [step, run, map_some]
      obtain ⟨results, state', returned', later, kept', all_unlocked, managed', more', returned_iff'⟩ :=
        ih kept₁ (ok.2 middle turn)
      refine ⟨result :: results, state', returned', ?_, kept', .cons unlocked all_unlocked, ?_,
        more.trans more', ?_⟩
      · simp only [execute, run, bind_some, later, map_some]
      · rw [managed', managed, accounts]
      · rw [LabelledRun.allowed_cons_iff turn, ← returned_iff, ← returned_iff']
        omega

/-- A policy before any call. -/
def initial (nodes : ℕ → ρ) (block : ρ → heap_node κ ε) : HeapPolicyState ρ κ ε :=
  ⟨createRemovalPolicy_heap nodes block, none⟩

/-- The policy node of an entry names the one node of the heap that holds the entry, and it is set
for the managed entries. -/
structure Bookkept (memory : Bool) (state : HeapPolicyState ρ κ ε) (managed : ε → Bool) : Prop where
  named : ∀ entry n, state.heap.data (policyNode memory entry) = some n ↔
    ∃ i < state.heap.theHeap.last, state.heap.theHeap.nodes i = n ∧ state.entryAt i = entry
  once : ∀ i < state.heap.theHeap.last, ∀ j < state.heap.theHeap.last,
    state.entryAt i = state.entryAt j → i = j
  managed_iff : ∀ entry,
    managed entry = true ↔ state.heap.data (policyNode memory entry) ≠ none

omit [DecidableEq ρ] [DecidableEq ε] in
theorem kept_initial (memory : Bool) (nodes : ℕ → ρ) (block : ρ → heap_node κ ε) :
    Kept memory (initial nodes block) 0 := by
  have valid : (Heap.new_heap 1000 nodes block).Valid := Heap.valid_new_heap 1000 nodes block
  refine ⟨⟨valid, fun entry _ n => ?_, fun n alive => ?_, fun entry set_aside => ?_,
    nodup_nil, rfl, .inr ⟨rfl, rfl, rfl⟩⟩, rfl⟩
  · refine iff_of_false (fun named => ?_) fun found => ?_
    · cases named
    · cases found.1
  · cases alive
  · cases set_aside

omit [DecidableEq ρ] [DecidableEq ε] in
theorem Kept.bookkept (kept : Kept memory state returned) (idle : state.walker = none) :
    Bookkept memory state (state.heap.managed memory) := by
  have empty : state.aside = [] := by rw [aside, idle, getD_none]
  have linked := kept.holds.valid.linked
  have holds := kept.holds
  rw [empty] at holds
  refine ⟨fun entry n => ?_, fun i inside j inside' same => ?_, fun entry => ?_⟩
  · rw [holds.named entry not_mem_nil n]
    constructor
    · rintro ⟨alive, rfl⟩
      obtain ⟨i, inside, rfl⟩ := linked.held n alive
      exact ⟨i, inside, rfl, rfl⟩
    · rintro ⟨i, inside, rfl, rfl⟩
      exact ⟨linked.alive i inside, rfl⟩
  · exact linked.injective inside inside'
      (holds.eq_of_data (linked.alive i inside) (linked.alive j inside') same)
  · exact isSome_iff_ne_none

/-- In every run that does not follow the policy node of an entry set aside, nothing fails, no
locked entry is returned or lost and the nodes are those of the managed entries whenever no session
is active.  Then the count is right exactly if no session has found an unlocked entry. -/
theorem heap_policy (memory : Bool) (nodes : ℕ → ρ) (block : ρ → heap_node κ ε)
    (calls : List (HeapPolicyCall ρ κ ε))
    (ok : LabelledRun.Allowed (step memory)
      (fun state call => state.Proper memory call ∧ state.Untouched call) (initial nodes block)
      calls) :
    ∃ results state, (initial nodes block).execute memory calls = some (results, state) ∧
      List.Forall₂ Unlocked calls results ∧
      (state.walker = none →
        Bookkept memory state (accounts (fun _ => false) calls results) ∧
        (state.heap.count = state.heap.theHeap.last ↔
          LabelledRun.Allowed (step memory) Unreturned (initial nodes block) calls)) := by
  obtain ⟨results, state, returned, run, kept, unlocked, managed, -, returned_iff⟩ :=
    execute_spec (kept_initial memory nodes block) ok
  refine ⟨results, state, run, unlocked, fun idle => ⟨?_, ?_⟩⟩
  · have bookkept := kept.bookkept idle
    rw [managed] at bookkept
    exact bookkept
  · have counted := kept.holds.counted
    have empty : state.aside = [] := by rw [aside, idle, getD_none]
    rw [empty, length_nil] at counted
    rw [← returned_iff, counted]
    omega

/-- Two entries, both locked during a session. -/
def lockedSession : List (HeapPolicyCall ℕ ℕ ℕ) :=
  [.add 1 false 10 5, .add 2 false 20 3, .purgeInit, .purgeNext fun _ => true,
    .purgeDone [(30, 4), (40, 6)]]

theorem heap_policy_lockedSession :
    ∃ results state, (initial id fun _ => ⟨0, 0, 0⟩).execute false lockedSession =
        some (results, state) ∧
      List.Forall₂ Unlocked lockedSession results ∧
      (state.walker = none →
        Bookkept false state (accounts (fun _ => false) lockedSession results) ∧
        (state.heap.count = state.heap.theHeap.last ↔
          LabelledRun.Allowed (step false) Unreturned (initial id fun _ => ⟨0, 0, 0⟩)
            lockedSession)) := by
  apply heap_policy false id (fun _ => ⟨0, 0, 0⟩) lockedSession
  decide

/-- An entry that a session returns stays in the count. -/
def returnedSession : List (HeapPolicyCall ℕ ℕ ℕ) :=
  [.add 1 false 10 5, .purgeInit, .purgeNext fun _ => false, .purgeDone []]

theorem heap_policy_returnedSession :
    ¬ ∀ calls : List (HeapPolicyCall ℕ ℕ ℕ),
      LabelledRun.Allowed (step false) (Proper false) (initial id fun _ => ⟨0, 0, 0⟩) calls →
      ∃ results state, (initial id fun _ => ⟨0, 0, 0⟩).execute false calls =
          some (results, state) ∧
        List.Forall₂ Unlocked calls results ∧
        (state.walker = none →
          Bookkept false state (accounts (fun _ => false) calls results) ∧
          state.heap.count = state.heap.theHeap.last) := by
  intro always
  obtain ⟨results, state, run, -, kept⟩ := always returnedSession (by decide)
  have value : ((initial id fun _ => ⟨0, 0, 0⟩).execute false returnedSession).map
      (fun (_, state) => (state.walker, state.heap.count, state.heap.theHeap.last)) =
        some (none, 1, 0) := by
    decide
  rw [run, map_some, some_inj, Prod.mk.injEq, Prod.mk.injEq] at value
  have count := (kept value.1).2
  rw [value.2.1, value.2.2] at count
  exact absurd count (by decide)

end HeapPolicyState

end Squid.Repl
