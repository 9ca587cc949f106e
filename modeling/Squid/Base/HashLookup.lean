import Mathlib.Data.List.Find
import Squid.Base.HashWalk

/-!
# Lookups in hash tables

A hash table holds what was joined and not removed since.  `hash_lookup` finds the newest link that
has the key, whatever walks went on in between.
-/

namespace Squid.Base.hash_table

variable {ρ κ : Type} [DecidableEq ρ]

/-- The loop of `hash_lookup`, given the number of turns that it may take; `none` if the assertion
fails. -/
def lookupFrom (hid : hash_table ρ κ) (cmp : κ → κ → ℤ) (k : κ) :
    ℕ → Option ρ → Option (Option ρ)
  | _, none => some none
  | 0, some _ => none
  | turns + 1, some walker =>
      if cmp k (hid.link walker).key = 0 then some (some walker)
      else if some walker = (hid.link walker).next then none
      else hid.lookupFrom cmp k turns (hid.link walker).next

/-- `hash_lookup`; no chain is longer than the number of links. -/
def hash_lookup (hid : hash_table ρ κ) (cmp : κ → κ → ℤ) (k : κ) : Option (Option ρ) := do
  let head ← hid.bucket (hid.hash k)
  hid.lookupFrom cmp k hid.count.toNat head

/-- The links that are joined, each with its key, after an operation: the newest comes first. -/
def entered (entries : List (ρ × κ)) : Call ρ κ → List (ρ × κ)
  | .join lnk key => (lnk, key) :: entries
  | .remove hl => entries.filter (·.1 ≠ hl)
  | _ => entries

variable {hid hid' : hash_table ρ κ} {chains : ℕ → List ρ} {entries : List (ρ × κ)}

/-- The links of a slot, the newest first. -/
def ofSlot (hid : hash_table ρ κ) (entries : List (ρ × κ)) (i : ℕ) : List ρ :=
  (entries.filter fun entry => hid.hash entry.2 = i).map Prod.fst

/-- The table holds the entries. -/
structure Holds (hid : hash_table ρ κ) (entries : List (ρ × κ)) : Prop where
  inv : hid.Inv
  chain : ∀ {chains}, hid.Chained chains → ∀ i < hid.size, chains i = hid.ofSlot entries i
  key : ∀ entry ∈ entries, (hid.link entry.1).key = entry.2

omit [DecidableEq ρ] in
theorem Chained.unique {others : ℕ → List ρ} (chained : hid.Chained chains)
    (same : hid.Chained others) {i : ℕ} (inside : i < hid.size) : chains i = others i :=
  (chained.links i inside).unique (same.links i inside)

omit [DecidableEq ρ] in
theorem hash_next_bucket_keeps (hid : hash_table ρ κ) :
    hid.hash_next_bucket.link = hid.link ∧ hid.hash_next_bucket.hash = hid.hash := by
  induction hid using hash_next_bucket.induct with
  | case1 hid at_end more ih =>
      rw [hash_next_bucket_of_none at_end, if_pos more]
      exact ih
  | case2 hid at_end no_more =>
      rw [hash_next_bucket_of_none at_end, if_neg no_more]
      exact ⟨rfl, rfl⟩
  | case3 hid at_link => rw [hash_next_bucket, if_neg at_link]; exact ⟨rfl, rfl⟩

/-- A removal changes no key. -/
theorem unlink_keeps {hl : ρ} {turns : ℕ} {P : Place ρ}
    (run : hid.unlink hl turns P = some hid') :
    (∀ p, (hid'.link p).key = (hid.link p).key) ∧ hid'.hash = hid.hash := by
  induction turns generalizing P with
  | zero => cases run
  | succ turns ih =>
      rw [unlink, Option.bind_eq_bind, Option.bind_eq_some_iff] at run
      obtain ⟨target, -, run⟩ := run
      cases target with
      | none => cases run
      | some p =>
          dsimp only at run
          split at run
          · exact ih run
          · have key := @assign_key _ _ hid _ (hid.link hl).next P
            have hash := (@assign_rest _ _ hid _ (hid.link hl).next P).2.1
            cases run
            dsimp only
            generalize hid.assign (hid.link hl).next P = assigned at key hash ⊢
            split
            · split
              · obtain ⟨link, same⟩ :=
                  hash_next_bucket_keeps { assigned with next := (assigned.link hl).next }
                rw [link, same]
                exact ⟨key, hash⟩
              · exact ⟨key, hash⟩
            · exact ⟨key, hash⟩

section

variable (holds : hid.Holds entries)
include holds

theorem Holds.join {lnk : ρ} {key : κ} (ok : hid.Proper (.join lnk key))
    (run : hid.hash_join lnk key = some hid') : hid'.Holds ((lnk, key) :: entries) := by
  obtain ⟨chains, rest, chained, counted, cursor⟩ := holds.inv
  have fresh : ∀ j < hid.size, lnk ∉ chains j := fun j inside member =>
    ok _ chained.lists (List.mem_flatMap.mpr ⟨j, List.mem_range.mpr inside, member⟩)
  have inv := holds.inv.step ok run
  obtain ⟨joined, chained'⟩ := join_spec chained key fresh
  cases run.symm.trans joined
  refine ⟨inv, fun others i inside => ?_, ?_⟩
  · rw [others.unique chained' inside, ofSlot]
    rcases eq_or_ne i (hid.hash key) with rfl | differ
    · have first : decide ((hid.joined lnk key).hash (lnk, key).2 = hid.hash key) = true :=
        decide_eq_true rfl
      rw [Function.update_self, holds.chain chained _ inside, List.filter_cons, if_pos first]
      rfl
    · rw [Function.update_of_ne differ, holds.chain chained i inside]
      exact (congrArg (List.map Prod.fst)
        (List.filter_cons_of_neg (by simpa using Ne.symm differ))).symm
  · intro entry member
    change (Function.update hid.link lnk ⟨key, _⟩ entry.1).key = entry.2
    rcases List.mem_cons.mp member with rfl | member
    · rw [Function.update_self]
    · have other : entry.1 ≠ lnk := by
        intro same
        rw [← same] at fresh
        have inside := chained.hash_lt entry.2
        refine fresh _ inside ?_
        rw [holds.chain chained _ inside]
        exact List.mem_map.mpr ⟨entry, List.mem_filter.mpr ⟨member, by simp⟩, rfl⟩
      rw [Function.update_of_ne other]
      exact holds.key entry member

theorem Holds.remove {hl : ρ} (ok : hid.Proper (.remove hl))
    (run : hid.hash_remove_link hl = some hid') : hid'.Holds (entries.filter (·.1 ≠ hl)) := by
  obtain ⟨chains, rest, chained, counted, cursor⟩ := holds.inv
  have inv := holds.inv.step ok run
  obtain ⟨items, lists, member⟩ := ok
  rw [lists.unique chained.lists] at member
  obtain ⟨i, inside, at_i⟩ := List.mem_flatMap.mp member
  obtain ⟨key, hash⟩ := unlink_keeps run
  obtain ⟨after, removed, size_eq, chained', -⟩ :=
    remove_spec chained counted (List.mem_range.mp inside) at_i cursor
  cases run.symm.trans removed
  refine ⟨inv, fun others j inside => ?_, fun entry member => ?_⟩
  · rw [others.unique chained' inside, without, holds.chain chained j (size_eq ▸ inside), ofSlot,
      ofSlot, hash, List.filter_map, List.filter_filter, List.filter_filter]
    refine congrArg _ (List.filter_congr fun entry _ => ?_)
    simp [Bool.and_comm, bne, beq_eq_decide]
  · rw [key]
    exact holds.key entry (List.mem_of_mem_filter member)

omit [DecidableEq ρ] in
theorem Holds.same (inv : hid'.Inv) (same : SameLinks hid hid') : hid'.Holds entries := by
  obtain ⟨chains, -, chained, -⟩ := holds.inv
  refine ⟨inv, fun others i inside => ?_, fun entry member => ?_⟩
  · rw [others.unique (chained.same same) inside, ofSlot, same.hash_eq]
    exact holds.chain chained i (same.size_eq ▸ inside)
  · rw [same.link_eq]
    exact holds.key entry member

/-- Each operation does to the entries what it does to the table. -/
theorem Holds.after_step {call : Call ρ κ} (ok : hid.Proper call)
    (run : hid.step call = some hid') :
    hid'.Holds (entered entries call) ∧ hid'.hash = hid.hash := by
  have inv := holds.inv.step ok run
  obtain ⟨chains, rest, chained, -, cursor⟩ := holds.inv
  have unchanged (same : SameLinks hid hid') : hid'.Holds entries ∧ hid'.hash = hid.hash :=
    ⟨holds.same inv same, same.hash_eq⟩
  cases call with
  | join lnk key =>
      refine ⟨holds.join ok run, ?_⟩
      obtain ⟨head, -, made⟩ := Option.bind_eq_some_iff.mp run
      cases made
      rfl
  | remove hl => exact ⟨holds.remove ok run, (unlink_keeps run).2⟩
  | first =>
      by_cases idle : hid.next = none
      · obtain ⟨after, started, same, -⟩ := first_spec chained idle
        cases run.symm.trans started
        exact unchanged same
      · rw [hash_table.step, hash_first, if_neg idle] at run
        cases run
  | next =>
      cases Option.some.inj run
      cases rest with
      | nil =>
          rw [next_of_nil cursor]
          exact ⟨holds, rfl⟩
      | cons p rest =>
          obtain ⟨after, returned, same, -⟩ := next_of_cons chained cursor
          rw [returned] at unchanged ⊢
          exact unchanged same
  | last =>
      cases Option.some.inj run
      exact unchanged ⟨rfl, rfl, rfl, rfl, rfl⟩

theorem Holds.after_run {history : List (Call ρ κ)}
    (ok : LabelledRun.Allowed step Proper hid history)
    (run : LabelledRun.exec step hid history = some hid') :
    hid'.Holds (history.foldl entered entries) ∧ hid'.hash = hid.hash := by
  induction history generalizing hid entries with
  | nil =>
      cases run
      exact ⟨holds, rfl⟩
  | cons call history ih =>
      rw [LabelledRun.exec_cons, Option.bind_eq_some_iff] at run
      obtain ⟨middle, first, later⟩ := run
      obtain ⟨holds', hash⟩ := holds.after_step ok.1 first
      obtain ⟨final, same⟩ := ih holds' (ok.2 middle first) later
      exact ⟨final, same.trans hash⟩

end

/-- The loop finds the first link of the chain that has the key. -/
theorem lookupFrom_eq {cmp : κ → κ → ℤ} {k : κ} {nodes : List ρ} {turns : ℕ}
    {head : Option ρ} (links : LinkedList.Links hid.nexts head nodes)
    (enough : nodes.length ≤ turns) :
    hid.lookupFrom cmp k turns head =
      some (nodes.find? fun p => cmp k (hid.link p).key = 0) := by
  induction nodes generalizing head turns with
  | nil =>
      cases links
      rw [lookupFrom, List.find?_nil]
  | cons p nodes ih =>
      have distinct := links.nodup
      obtain ⟨rfl, behind⟩ := links
      cases turns with
      | zero => cases enough
      | succ turns =>
          have differ : some p ≠ hid.nexts p := by
            intro loop
            rw [← loop] at behind
            obtain ⟨back, rfl, -⟩ := LinkedList.links_some_iff.mp behind
            exact (List.nodup_cons.mp distinct).1 List.mem_cons_self
          rw [lookupFrom]
          by_cases here : cmp k (hid.link p).key = 0
          · rw [if_pos here, List.find?_cons_of_pos (by simpa using here)]
          · rw [if_neg here, if_neg differ, List.find?_cons_of_neg (by simpa using here)]
            exact ih behind (Nat.le_of_succ_le_succ enough)

/-- In every reachable table, whatever walks are under way, a lookup returns the newest link that
has the key and was not removed, and null if there is none. -/
theorem hash_lookup_newest (cmp : κ → κ → ℤ) (hash_sz : ℕ) (hash_func : κ → ℕ → ℕ)
    (link : ρ → hash_link ρ κ) (bounded : ∀ key size, 0 < size → hash_func key size < size)
    (respects : ∀ k key size, cmp k key = 0 → hash_func k size = hash_func key size)
    (history : List (Call ρ κ))
    (ok : LabelledRun.Allowed step Proper (hash_create hash_sz hash_func link) history)
    (hid : hash_table ρ κ)
    (reached : LabelledRun.exec step (hash_create hash_sz hash_func link) history = some hid)
    (k : κ) : hid.hash_lookup cmp k =
      some (((history.foldl entered []).find? fun entry => cmp k entry.2 = 0).map Prod.fst) := by
  have created : (hash_create hash_sz hash_func link).Holds [] := by
    refine ⟨inv_hash_create bounded, fun chained i inside => ?_, fun _ => nofun⟩
    exact LinkedList.links_none_iff.mp (chained.links i inside)
  obtain ⟨holds, hash⟩ := created.after_run ok reached
  generalize history.foldl entered [] = entries at holds ⊢
  obtain ⟨chains, -, chained, counted, -⟩ := holds.inv
  have inside := chained.hash_lt k
  have few := @chain_length_le _ chains _ _ inside
  rw [Counted] at counted
  rw [hash_lookup, bucket, if_pos inside]
  refine (lookupFrom_eq (chained.links _ inside) (by omega)).trans ?_
  have agree : ∀ entry ∈ entries, decide (decide (hid.hash entry.2 = hid.hash k) = true ∧
      decide (cmp k (hid.link entry.1).key = 0) = true) = decide (cmp k entry.2 = 0) := by
    intro entry member
    rw [holds.key entry member]
    by_cases same : cmp k entry.2 = 0
    · rw [hash]
      simp [same, hash_create, respects k entry.2 _ same]
    · simp [same]
  rw [holds.chain chained _ inside, ofSlot, List.find?_map, List.find?_filter]
  exact congrArg (fun found => some (Option.map Prod.fst found)) (List.find?_congr agree)

/-- The links 8 and 7 have the key 6; during a walk the newer one is removed. -/
theorem hash_lookup_newest_equal :
    ∃ hid : hash_table ℕ ℕ,
      LabelledRun.exec step (hash_create 3 (fun key size => key % size) fun _ => ⟨0, none⟩)
        [.join 8 6, .join 9 3, .join 7 6, .first, .next, .remove 7] = some hid ∧
      hid.next = some 9 ∧ hid.hash_lookup (fun k key : ℕ => k - key) 6 = some (some 8) := by
  have fresh {hid : hash_table ℕ ℕ} {items : List ℕ} {x : ℕ} (lists : hid.Lists items)
      (new : x ∉ items) : ∀ others, hid.Lists others → x ∉ others :=
    fun others same => same.unique lists ▸ new
  have ok : LabelledRun.Allowed step Proper
      (hash_create 3 (fun key size : ℕ => key % size) fun _ : ℕ => ⟨0, none⟩)
      [.join 8 6, .join 9 3, .join 7 6, .first, .next, .remove 7] := by
    refine .cons (fresh ⟨fun _ => [], by decide, rfl⟩ (by decide)) rfl
      (.cons (fresh ⟨fun i => [[8], [], []].getD i [], by decide, rfl⟩ (by decide)) rfl
        (.cons (fresh ⟨fun i => [[9, 8], [], []].getD i [], by decide, rfl⟩ (by decide)) rfl
          (.cons trivial rfl (.cons trivial rfl (.cons ?_ rfl trivial)))))
    exact ⟨_, ⟨fun i => [[7, 9, 8], [], []].getD i [], by decide, rfl⟩, by decide⟩
  refine ⟨_, rfl, rfl, hash_lookup_newest (fun k key : ℕ => k - key) 3
    (fun key size : ℕ => key % size) (fun _ => ⟨0, none⟩)
    (fun key size positive => Nat.mod_lt key positive) ?_ _ ok _ rfl 6⟩
  intro k key size same
  rw [show k = key by omega]

end Squid.Base.hash_table
