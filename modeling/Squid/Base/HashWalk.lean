import Squid.Base.HashTable

/-!
# Walks over hash tables

A walk may be interleaved with removals of any members.  What it returns is what a reader of a
plain list of the members returns who strikes out the removed ones, so every member that stays is
returned once, none after its removal, and the walk ends.
-/

namespace Squid.Base.hash_table

open List Option

/-- What may happen between `hash_first` and the end of a walk. -/
inductive WalkCall (ρ : Type) where
  | next
  | remove (hl : ρ)
deriving DecidableEq

/-- What a walk does, in order: the results of `hash_next` and the links removed. -/
inductive Event (ρ : Type) where
  | returned (item : Option ρ)
  | removed (hl : ρ)
deriving DecidableEq

variable {ρ κ : Type} [DecidableEq ρ]

/-! ### Reading a list with struck out items -/

/-- Read a list of pending items, striking out the removed ones. -/
def reading : List ρ → List (WalkCall ρ) → List (Event ρ)
  | _, [] => []
  | [], .next :: calls => .returned none :: reading [] calls
  | p :: pending, .next :: calls => .returned (some p) :: reading pending calls
  | pending, .remove hl :: calls =>
      .removed hl :: reading (pending.filter (· != hl)) calls

variable {pending : List ρ} {calls : List (WalkCall ρ)} {x : ρ}

/-- Only pending items are returned. -/
theorem mem_of_returned (event : .returned (some x) ∈ reading pending calls) : x ∈ pending := by
  induction calls generalizing pending with
  | nil => simp [reading] at event
  | cons call calls ih =>
      cases call with
      | next =>
          cases pending with
          | nil =>
              have later := (mem_cons.mp event).resolve_left (by simp)
              exact ih later
          | cons p pending =>
              rcases mem_cons.mp event with now | later
              · cases now
                exact mem_cons_self
              · exact mem_cons_of_mem p (ih later)
      | remove hl =>
          have later : Event.returned (some x) ∈ reading (pending.filter (· != hl)) calls := by
            cases pending <;> exact (mem_cons.mp event).resolve_left (by simp)
          exact mem_of_mem_filter (ih later)

theorem reading_remove (pending : List ρ) (hl : ρ) (calls : List (WalkCall ρ)) :
    reading pending (.remove hl :: calls) =
      .removed hl :: reading (pending.filter (· != hl)) calls := by
  cases pending <;> rfl

/-- No item is returned twice. -/
theorem count_returned_le (distinct : pending.Nodup) :
    (reading pending calls).count (.returned (some x)) ≤ 1 := by
  induction calls generalizing pending with
  | nil => simp [reading]
  | cons call calls ih =>
      cases call with
      | next =>
          cases pending with
          | nil =>
              rw [reading, count_cons_of_ne (by simp)]
              exact ih distinct
          | cons p pending =>
              rw [reading]
              rw [nodup_cons] at distinct
              rcases eq_or_ne p x with rfl | differ
              · rw [count_cons_self, count_eq_zero.mpr fun again =>
                  distinct.1 (mem_of_returned again)]
              · rw [count_cons_of_ne (by simpa using differ)]
                exact ih distinct.2
      | remove hl =>
          rw [reading_remove, count_cons_of_ne (by simp)]
          exact ih (distinct.filter _)

/-- A reader who comes to the end has returned every item that was not struck out. -/
theorem returned_of_ended (member : x ∈ pending) (stays : .remove x ∉ calls)
    (ended : .returned none ∈ reading pending calls) :
    .returned (some x) ∈ reading pending calls := by
  induction calls generalizing pending with
  | nil => simp [reading] at ended
  | cons call calls ih =>
      have stays' : WalkCall.remove x ∉ calls := fun later => stays (mem_cons_of_mem _ later)
      cases call with
      | next =>
          cases pending with
          | nil => cases member
          | cons p pending =>
              have ended' := (mem_cons.mp ended).resolve_left (by simp)
              rcases mem_cons.mp member with rfl | later
              · exact mem_cons_self
              · exact mem_cons_of_mem _ (ih later stays' ended')
      | remove hl =>
          rw [reading_remove] at ended ⊢
          have ended' := (mem_cons.mp ended).resolve_left (by simp)
          have other : x ≠ hl := by
            rintro rfl
            exact stays mem_cons_self
          exact mem_cons_of_mem _ (ih (mem_filter.mpr ⟨member, by simpa⟩) stays' ended')

/-- A reader comes to the end when it reads more often than there are items. -/
theorem ended_of_count (often : pending.length < calls.count .next) :
    .returned none ∈ reading pending calls := by
  induction calls generalizing pending with
  | nil => simp at often
  | cons call calls ih =>
      cases call with
      | next =>
          cases pending with
          | nil => exact mem_cons_self
          | cons p pending =>
              rw [count_cons_self, length_cons] at often
              exact mem_cons_of_mem _ (ih (by omega))
      | remove hl =>
          rw [reading_remove]
          rw [count_cons_of_ne (by simp)] at often
          exact mem_cons_of_mem _ (ih ((List.length_filter_le _ _).trans_lt often))

variable {back front : List (Event ρ)}

/-- Behind an event the walk reads on: nothing behind the end, and no item that was removed. -/
theorem reading_behind {event : Event ρ} (trace : reading pending calls = front ++ event :: back) :
    ∃ left later, back = reading left later ∧ (event = .returned none → left = []) ∧
      ∀ x, event = .removed x → x ∉ left := by
  induction calls generalizing pending front with
  | nil => simp [reading] at trace
  | cons call calls ih =>
      cases call with
      | next =>
          cases pending <;> rw [reading] at trace <;> cases front
          case nil.nil =>
            obtain ⟨rfl, rfl⟩ := List.cons.inj trace
            exact ⟨[], calls, rfl, fun _ => rfl, nofun⟩
          case cons.nil p pending =>
            obtain ⟨rfl, rfl⟩ := List.cons.inj trace
            exact ⟨pending, calls, rfl, nofun, nofun⟩
          all_goals exact ih (List.cons.inj trace).2
      | remove hl =>
          rw [reading_remove] at trace
          cases front with
          | nil =>
              obtain ⟨rfl, rfl⟩ := List.cons.inj trace
              exact ⟨_, calls, rfl, nofun, by rintro x ⟨⟩; simp⟩
          | cons first front => exact ih (List.cons.inj trace).2

/-- After its removal an item is not returned. -/
theorem not_returned_after_removed (trace : reading pending calls = front ++ .removed x :: back) :
    .returned (some x) ∉ back := by
  obtain ⟨left, later, rfl, -, gone⟩ := reading_behind trace
  exact fun event => gone x rfl (mem_of_returned event)

/-- After the end nothing more is returned. -/
theorem not_returned_after_end (trace : reading pending calls = front ++ .returned none :: back) :
    .returned (some x) ∉ back := by
  obtain ⟨left, later, rfl, ended, -⟩ := reading_behind trace
  exact fun event => absurd (ended rfl ▸ mem_of_returned event) not_mem_nil

/-! ### The walk of the table -/

/-- One step of a walk; `none` where an assertion fails. -/
def turn (hid : hash_table ρ κ) : WalkCall ρ → Option (Event ρ × hash_table ρ κ)
  | .next => some (.returned hid.hash_next.1, hid.hash_next.2)
  | .remove hl => (hid.hash_remove_link hl).map fun hid => (.removed hl, hid)

/-- The walk after `hash_first`, with what it does. -/
def walk (hid : hash_table ρ κ) : List (WalkCall ρ) → Option (List (Event ρ) × hash_table ρ κ)
  | [] => some ([], hid)
  | call :: calls => do
      let (event, hid) ← hid.turn call
      let (events, hid) ← hid.walk calls
      some (event :: events, hid)

/-- The links of the table, bucket by bucket. -/
def Lists (hid : hash_table ρ κ) (items : List ρ) : Prop :=
  ∃ chains : ℕ → List ρ,
    (∀ i < hid.size, LinkedList.Links hid.nexts (hid.buckets i) (chains i)) ∧
      items = (List.range hid.size).flatMap chains

/-- Only members are removed. -/
def ProperWalk : List ρ → List (WalkCall ρ) → Prop
  | _, [] => True
  | items, .next :: calls => ProperWalk items calls
  | items, .remove hl :: calls => hl ∈ items ∧ ProperWalk (items.filter (· != hl)) calls

/-- The members that a walk leaves. -/
def staying (items : List ρ) (calls : List (WalkCall ρ)) : List ρ :=
  items.filter fun item => .remove item ∉ calls

variable {hid hid' : hash_table ρ κ} {chains : ℕ → List ρ} {items rest : List ρ}

omit [DecidableEq ρ] in
theorem Chained.lists (chained : hid.Chained chains) :
    hid.Lists ((List.range hid.size).flatMap chains) := ⟨chains, chained.links, rfl⟩

omit [DecidableEq ρ] in
/-- The links determine the listing. -/
theorem Lists.unique {others : List ρ} (lists : hid.Lists items) (same : hid.Lists others) :
    items = others := by
  obtain ⟨chains, links, rfl⟩ := lists
  obtain ⟨chains', links', rfl⟩ := same
  refine flatMap_congr fun i member => ?_
  exact (links i (mem_range.mp member)).unique (links' i (mem_range.mp member))

omit [DecidableEq ρ] in
theorem Chained.nodup (chained : hid.Chained chains) :
    ((List.range hid.size).flatMap chains).Nodup := by
  rw [nodup_flatMap]
  refine ⟨fun i member => (chained.links i (mem_range.mp member)).nodup, ?_⟩
  refine nodup_range.imp_of_mem fun {i j} at_i at_j differ => ?_
  refine disjoint_left.mpr fun p in_i in_j => differ ?_
  exact chained.same_slot (mem_range.mp at_i) (mem_range.mp at_j) in_i in_j

theorem staying_remove (items : List ρ) (hl : ρ) (calls : List (WalkCall ρ)) :
    staying items (.remove hl :: calls) = staying (items.filter (· != hl)) calls := by
  rw [staying, staying, List.filter_filter]
  refine filter_congr fun item _ => ?_
  by_cases same : item = hl <;> by_cases later : WalkCall.remove item ∈ calls <;>
    simp [same, later, bne]

theorem staying_next (items : List ρ) (calls : List (WalkCall ρ)) :
    staying items (.next :: calls) = staying items calls := by
  refine filter_congr fun item _ => ?_
  simp

/-- The walk reads the list of what the cursor has still to return. -/
theorem walk_spec (chained : hid.Chained chains) (counted : hid.Counted chains)
    (cursor : hid.Cursor chains rest)
    (ok : ProperWalk ((List.range hid.size).flatMap chains) calls) :
    ∃ hid' chains', hid.walk calls = some (reading rest calls, hid') ∧ hid'.Chained chains' ∧
      hid'.Counted chains' ∧ (List.range hid'.size).flatMap chains' =
        staying ((List.range hid.size).flatMap chains) calls := by
  induction calls generalizing hid chains rest with
  | nil =>
      refine ⟨hid, chains, ?_, chained, counted, ?_⟩
      · cases rest <;> rfl
      · rw [staying, filter_eq_self.mpr fun item _ => by simp]
  | cons call calls ih =>
      cases call with
      | next =>
          rw [staying_next]
          cases rest with
          | nil =>
              obtain ⟨hid', chains', run, chained', counted', same⟩ := ih chained counted cursor ok
              refine ⟨hid', chains', ?_, chained', counted', same⟩
              simp only [walk, turn, next_of_nil cursor, run, bind_eq_bind, bind_some]
              rfl
          | cons p rest =>
              obtain ⟨middle, returned, moved, cursor'⟩ := next_of_cons chained cursor
              obtain ⟨hid', chains', run, chained', counted', same⟩ :=
                ih (chained.same moved) (counted.same moved) cursor' (moved.size_eq ▸ ok)
              refine ⟨hid', chains', ?_, chained', counted', by rw [same, moved.size_eq]⟩
              simp only [walk, turn, returned, run, bind_eq_bind, bind_some]
              rfl
      | remove hl =>
          obtain ⟨member, ok⟩ := ok
          obtain ⟨i, inside, at_i⟩ := mem_flatMap.mp member
          obtain ⟨middle, removed, size_eq, chained', counted', cursor'⟩ :=
            remove_spec chained counted (mem_range.mp inside) at_i cursor
          rw [filter_flatMap, ← size_eq] at ok
          obtain ⟨hid', chains', run, chained'', counted'', same⟩ :=
            ih chained' counted' cursor' ok
          refine ⟨hid', chains', ?_, chained'', counted'', ?_⟩
          · simp only [walk, turn, removed, run, map_some, bind_eq_bind, bind_some, reading_remove]
          · rw [same, staying_remove, filter_flatMap, size_eq]

/-! ### Reachable tables -/

/-- The operations on a table. -/
inductive Call (ρ κ : Type) where
  | join (lnk : ρ) (key : κ)
  | remove (hl : ρ)
  | first
  | next
  | last

/-- The table after one operation; `none` where an assertion fails. -/
def step (hid : hash_table ρ κ) : Call ρ κ → Option (hash_table ρ κ)
  | .join lnk key => hid.hash_join lnk key
  | .remove hl => hid.hash_remove_link hl
  | .first => hid.hash_first
  | .next => some hid.hash_next.2
  | .last => some hid.hash_last

/-- A link is joined when it is not in the table and removed when it is. -/
def Proper (hid : hash_table ρ κ) : Call ρ κ → Prop
  | .join lnk _ => ∀ items, hid.Lists items → lnk ∉ items
  | .remove hl => ∃ items, hid.Lists items ∧ hl ∈ items
  | .first | .next | .last => True

/-- What every operation keeps. -/
def Inv (hid : hash_table ρ κ) : Prop :=
  ∃ chains rest, hid.Chained chains ∧ hid.Counted chains ∧ hid.Cursor chains rest

omit [DecidableEq ρ] in
theorem inv_hash_create {hash_sz : ℕ} {hash_func : κ → ℕ → ℕ} {link : ρ → hash_link ρ κ}
    (bounded : ∀ key size, 0 < size → hash_func key size < size) :
    (hash_create hash_sz hash_func link).Inv := by
  have positive : 0 < (hash_create hash_sz hash_func link).size := by
    change 0 < if hash_sz = 0 then DEFAULT_HASH_SIZE else hash_sz
    rw [DEFAULT_HASH_SIZE]
    split <;> omega
  refine ⟨fun _ => [], [], ⟨positive, fun key => bounded key _ positive, fun i _ => rfl,
    fun i _ p member => absurd member not_mem_nil⟩, ?_, .inl ⟨rfl, rfl⟩⟩
  change (0 : ℤ) = ((List.flatMap _ _).length : ℤ)
  simp

theorem Inv.step {call : Call ρ κ} (inv : hid.Inv) (ok : hid.Proper call)
    (run : hid.step call = some hid') : hid'.Inv := by
  obtain ⟨chains, rest, chained, counted, cursor⟩ := inv
  cases call with
  | join lnk key =>
      have fresh : ∀ j < hid.size, lnk ∉ chains j := fun j inside member =>
        ok _ chained.lists (mem_flatMap.mpr ⟨j, mem_range.mpr inside, member⟩)
      obtain ⟨joined, chained'⟩ := join_spec chained key fresh
      cases run.symm.trans joined
      have counted' := counted.joined lnk (chained.hash_lt key)
      obtain ⟨at_end, -⟩ | ⟨p, front, back, at_link, inside, chain, -⟩ := cursor
      · exact ⟨_, [], chained', counted', .inl ⟨at_end, rfl⟩⟩
      · by_cases here : hid.current_slot = hid.hash key
        · refine ⟨_, _, chained', counted', .inr ⟨p, lnk :: front, back, at_link, inside, ?_, rfl⟩⟩
          change Function.update chains _ _ hid.current_slot = _
          rw [here, Function.update_self, ← here, chain]
          rfl
        · refine ⟨_, _, chained', counted', .inr ⟨p, front, back, at_link, inside, ?_, rfl⟩⟩
          change Function.update chains _ _ hid.current_slot = _
          rw [Function.update_of_ne here, chain]
  | remove hl =>
      obtain ⟨items, lists, member⟩ := ok
      rw [lists.unique chained.lists] at member
      obtain ⟨i, inside, at_i⟩ := mem_flatMap.mp member
      obtain ⟨after, removed, -, chained', counted', cursor'⟩ :=
        remove_spec chained counted (mem_range.mp inside) at_i cursor
      cases run.symm.trans removed
      exact ⟨_, _, chained', counted', cursor'⟩
  | first =>
      by_cases idle : hid.next = none
      · obtain ⟨after, started, same, cursor'⟩ := first_spec chained idle
        cases run.symm.trans started
        exact ⟨_, _, chained.same same, counted.same same, cursor'⟩
      · rw [hash_table.step, hash_first, if_neg idle] at run
        cases run
  | next =>
      cases some.inj run
      cases rest with
      | nil =>
          rw [next_of_nil cursor]
          exact ⟨_, _, chained, counted, cursor⟩
      | cons p rest =>
          obtain ⟨after, returned, same, cursor'⟩ := next_of_cons chained cursor
          rw [returned]
          exact ⟨_, _, chained.same same, counted.same same, cursor'⟩
  | last =>
      cases some.inj run
      have same : SameLinks hid hid.hash_last := ⟨rfl, rfl, rfl, rfl, rfl⟩
      exact ⟨_, [], chained.same same, counted.same same, .inl ⟨rfl, rfl⟩⟩

/-- A walk over any reachable table, interleaved with any removals of members, returns every
member that stays once, none after its removal, and ends. -/
theorem hash_walk (hash_sz : ℕ) (hash_func : κ → ℕ → ℕ) (link : ρ → hash_link ρ κ)
    (bounded : ∀ key size, 0 < size → hash_func key size < size) (history : List (Call ρ κ))
    (ok : LabelledRun.Allowed step Proper (hash_create hash_sz hash_func link) history)
    (hid : hash_table ρ κ)
    (reached : LabelledRun.exec step (hash_create hash_sz hash_func link) history = some hid) :
    ∃ items, hid.Lists items ∧ hid.count = items.length ∧
      (hid.next = none → ∃ started, hid.hash_first = some started ∧
        ∀ calls, ProperWalk items calls → ∃ trace ended, started.walk calls = some (trace, ended) ∧
          ended.Lists (staying items calls) ∧ ended.count = (staying items calls).length ∧
          (∀ item ∈ staying items calls, .returned none ∈ trace →
            trace.count (.returned (some item)) = 1) ∧
          (∀ item, .returned (some item) ∈ trace →
            item ∈ items ∧ trace.count (.returned (some item)) = 1) ∧
          (∀ front back item, trace = front ++ .removed item :: back →
            .returned (some item) ∉ back) ∧
          (∀ front back item, trace = front ++ .returned none :: back →
            .returned (some item) ∉ back) ∧
          (items.length < calls.count .next → .returned none ∈ trace)) := by
  obtain ⟨chains, rest, chained, counted, -⟩ := LabelledRun.invariant_of_allowed
    (fun inv allowed run => Inv.step inv allowed run) (inv_hash_create bounded) ok reached
  refine ⟨_, chained.lists, counted, fun idle => ?_⟩
  obtain ⟨started, first, same, cursor⟩ := first_spec chained idle
  refine ⟨started, first, fun calls ok => ?_⟩
  obtain ⟨ended, chains', run, chained', counted', left⟩ :=
    walk_spec (chained.same same) (counted.same same) cursor (same.size_eq ▸ ok)
  rw [same.size_eq] at left
  have distinct := chained.nodup
  have once {item : ρ} (event : .returned (some item) ∈ reading _ calls) :
      (reading _ calls).count (.returned (some item)) = 1 :=
    le_antisymm (count_returned_le distinct) (count_pos_iff.mpr event)
  refine ⟨_, ended, run, left ▸ chained'.lists, ?_, fun item stays ended => ?_,
    fun item event => ⟨mem_of_returned event, once event⟩,
    fun front back item trace => not_returned_after_removed trace,
    fun front back item trace => not_returned_after_end trace, ended_of_count⟩
  · rw [← left]
    exact counted'
  · obtain ⟨member, unremoved⟩ := mem_filter.mp stays
    exact once (returned_of_ended member (of_decide_eq_true unremoved) ended)

/-- The links 8 and 5 share a bucket, and a walk removes 8 when it is about to return it. -/
theorem hash_walk_three :
    ∃ (hid started ended : hash_table ℕ ℕ) (trace : List (Event ℕ)),
      LabelledRun.exec step (hash_create 3 (fun key size => key % size) fun _ => ⟨0, none⟩)
        [.join 5 5, .join 4 4, .join 8 8] = some hid ∧ hid.Lists [4, 8, 5] ∧
      hid.hash_first = some started ∧
      started.walk [.next, .remove 8, .next, .next, .next] = some (trace, ended) ∧
      trace.count (.returned (some 4)) = 1 ∧ trace.count (.returned (some 5)) = 1 ∧
      (∀ front back, trace = front ++ .removed 8 :: back → .returned (some 8) ∉ back) ∧
      .returned none ∈ trace := by
  have fresh {hid : hash_table ℕ ℕ} {items : List ℕ} {x : ℕ} (lists : hid.Lists items)
      (new : x ∉ items) : ∀ others, hid.Lists others → x ∉ others :=
    fun others same => same.unique lists ▸ new
  obtain ⟨items, lists, -, all⟩ := hash_walk 3 (fun key size => key % size)
    (fun _ : ℕ => ⟨0, none⟩) (fun key size positive => Nat.mod_lt key positive)
    [.join 5 5, .join 4 4, .join 8 8]
    (.cons (fresh ⟨fun _ => [], by decide, rfl⟩ (by decide)) rfl
      (.cons (fresh ⟨fun i => [[], [], [5]].getD i [], by decide, rfl⟩ (by decide)) rfl
        (.cons (fresh ⟨fun i => [[], [4], [5]].getD i [], by decide, rfl⟩ (by decide)) rfl
          trivial))) _ rfl
  obtain rfl : items = [4, 8, 5] :=
    lists.unique ⟨fun i => [[], [4], [8, 5]].getD i [], by decide, rfl⟩
  obtain ⟨started, first, every⟩ := all rfl
  obtain ⟨trace, ended, run, -, -, once, -, gone, -, ends⟩ :=
    every [.next, .remove 8, .next, .next, .next] ⟨by decide, trivial⟩
  have finished := ends (by decide)
  exact ⟨_, started, ended, trace, rfl, lists, first, run, once 4 (by decide) finished,
    once 5 (by decide) finished, fun front back => gone front back 8, finished⟩

end Squid.Base.hash_table
