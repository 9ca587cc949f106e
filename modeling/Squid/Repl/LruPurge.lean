import Mathlib.Data.List.Forall2
import Mathlib.Data.List.ReduceOption
import Squid.Repl.LruPolicy

/-!
# Purge sessions of the LRU policy

A purge walker scans the list from its head.  It takes the node of an unlocked entry out of the
list and moves that of a locked entry behind the others, so that the next node to scan is always
the head; it knows the end of its walk by the node at which it started.
-/

namespace Squid.Repl

open Squid.Base List Option

variable {ρ ε : Type} [DecidableEq ρ] [DecidableEq ε]

/-- The `RemovalPurgeWalker` and its `LruPurgeData`. -/
structure LruPurgeWalker (ρ : Type) where
  scanned : ℤ
  max_scan : ℤ
  locked : ℤ
  current : Option ρ
  start : Option ρ

namespace LruPolicyData

/-- What a turn of the loop of `lru_purgeNext` leaves: the policy and the walker, and the entry
where it returns. -/
abbrev PurgeTurn (ρ ε : Type) :=
  (Option ε × LruPolicyData ρ ε × LruPurgeWalker ρ) ⊕ (LruPolicyData ρ ε × LruPurgeWalker ρ)

/-- From the label `try_again` of `lru_purgeNext` to the next `goto`. -/
def purgeTurn (locked : ε → Bool) (lru : LruPolicyData ρ ε) (walker : LruPurgeWalker ρ) :
    Option (PurgeTurn ρ ε) :=
  match walker.current with
  | none => some (.inl (none, lru, walker))
  | some lru_node =>
      if walker.max_scan ≤ walker.scanned then some (.inl (none, lru, walker))
      else do
        let next ← lru.pool.get lru.pool.next lru_node
        let walker := { walker with
          scanned := walker.scanned + 1
          current := if next = walker.start then none else next }
        let entry ← ← lru.pool.get lru.pool.data lru_node
        let (pool, list) ← lru.pool.dlinkDelete lru_node lru.list
        if locked entry then
          let walker := { walker with locked := walker.locked + 1 }
          let (pool, list) ← pool.dlinkAddTail entry lru_node list
          some (.inr ({ lru with list := list, pool := pool }, walker))
        else
          let pool ← freeOne pool lru_node
          let lru := { lru with list := list, count := lru.count - 1, pool := pool }
          some (.inl (some entry, lru.setPolicyNode entry none, walker))

variable {lru' : LruPolicyData ρ ε}

theorem scanned_of_purgeTurn {locked : ε → Bool} {lru : LruPolicyData ρ ε}
    {walker walker' : LruPurgeWalker ρ}
    (turn : lru.purgeTurn locked walker = some (.inr (lru', walker'))) :
    walker.scanned < walker.max_scan ∧ walker'.scanned = walker.scanned + 1 ∧
      walker'.max_scan = walker.max_scan := by
  rw [purgeTurn] at turn
  split at turn
  · cases turn
  · split at turn
    · cases turn
    · case isFalse more =>
        simp only [bind_eq_bind, bind_eq_some_iff] at turn
        obtain ⟨next, -, data, -, entry, -, pool, -, turn⟩ := turn
        split at turn
        · obtain ⟨pool', -, turn⟩ := bind_eq_some_iff.mp turn
          cases turn
          exact ⟨by omega, rfl, rfl⟩
        · obtain ⟨pool', -, turn⟩ := bind_eq_some_iff.mp turn
          cases turn

/-- `lru_purgeNext`, with the lock state of the entries. -/
def lru_purgeNext (locked : ε → Bool) (lru : LruPolicyData ρ ε) (walker : LruPurgeWalker ρ) :
    Option (Option ε × LruPolicyData ρ ε × LruPurgeWalker ρ) :=
  match _again : lru.purgeTurn locked walker with
  | none => none
  | some (.inl result) => some result
  | some (.inr (lru, walker)) => lru.lru_purgeNext locked walker
termination_by (walker.max_scan - walker.scanned).toNat
decreasing_by
  obtain ⟨more, scanned, max_scan⟩ := scanned_of_purgeTurn _again
  omega

def lru_purgeInit (lru : LruPolicyData ρ ε) (max_scan : ℤ) :
    LruPolicyData ρ ε × LruPurgeWalker ρ :=
  ({ lru with nwalkers := lru.nwalkers + 1 },
    { scanned := 0, max_scan := max_scan, locked := 0, current := lru.list.head,
      start := lru.list.head })

/-- `lru_purgeDone`; the assertion fails without a walker. -/
def lru_purgeDone (lru : LruPolicyData ρ ε) : Option (LruPolicyData ρ ε) :=
  if 0 < lru.nwalkers then some { lru with nwalkers := lru.nwalkers - 1 } else none

/-- The calls of `lru_purgeNext` in a session, each with the lock state that it finds. -/
def purgeCalls (lru : LruPolicyData ρ ε) (walker : LruPurgeWalker ρ) :
    List (ε → Bool) → Option (List (Option ε) × LruPolicyData ρ ε × LruPurgeWalker ρ)
  | [] => some ([], lru, walker)
  | locked :: locks => do
      let (result, lru, walker) ← lru.lru_purgeNext locked walker
      let (results, lru, walker) ← lru.purgeCalls walker locks
      some (result :: results, lru, walker)

/-- A session: the entries returned and the number of scans. -/
def purgeSession (lru : LruPolicyData ρ ε) (max_scan : ℤ) (locks : List (ε → Bool)) :
    Option ((List (Option ε) × ℤ) × LruPolicyData ρ ε) := do
  let (lru, walker) := lru.lru_purgeInit max_scan
  let (results, lru, walker) ← lru.purgeCalls walker locks
  let lru ← lru.lru_purgeDone
  some ((results, walker.scanned), lru)

/-! ### The walk over the items -/

/-- A walk over the items of the list, from the head. -/
structure Sweep (ρ ε : Type) where
  items : List (ρ × ε)
  active : Bool
  scanned : ℤ

omit [DecidableEq ε] in
/-- Whether the walk goes on with the item in front. -/
def goesOn (start : Option ρ) : List (ρ × ε) → Bool
  | [] => false
  | item :: _ => decide (some item.1 ≠ start)

/-- What one call of `lru_purgeNext` does to the walk, and what it returns. -/
inductive Scan (locked : ε → Bool) (start : Option ρ) (max_scan : ℤ) :
    Sweep ρ ε → Option ε → Sweep ρ ε → Prop
  | stop {sweep : Sweep ρ ε} (idle : sweep.active = false ∨ max_scan ≤ sweep.scanned) :
      Scan locked start max_scan sweep none sweep
  | take {item : ρ × ε} {rest : List (ρ × ε)} {scanned : ℤ} (more : scanned < max_scan)
      (free : locked item.2 = false) :
      Scan locked start max_scan ⟨item :: rest, true, scanned⟩ (some item.2)
        ⟨rest, goesOn start rest, scanned + 1⟩
  | skip {item : ρ × ε} {rest : List (ρ × ε)} {scanned : ℤ} {result : Option ε}
      {sweep : Sweep ρ ε} (more : scanned < max_scan) (held : locked item.2 = true)
      (later : Scan locked start max_scan
        ⟨rest ++ [item], goesOn start rest, scanned + 1⟩ result sweep) :
      Scan locked start max_scan ⟨item :: rest, true, scanned⟩ result sweep

/-- The walker of the source is at the front of the walk. -/
structure Walks (memory : Bool) (lru : LruPolicyData ρ ε) (walker : LruPurgeWalker ρ)
    (sweep : Sweep ρ ε) : Prop where
  holds : Holds memory lru sweep.items
  scanned : walker.scanned = sweep.scanned
  idle : sweep.active = false → walker.current = none
  front : sweep.active = true → ∃ item rest, sweep.items = item :: rest ∧
    walker.current = some item.1

variable {memory : Bool} {lru : LruPolicyData ρ ε} {walker : LruPurgeWalker ρ}
  {sweep : Sweep ρ ε} {item : ρ × ε} {rest : List (ρ × ε)}

omit [DecidableEq ε] in
/-- The link behind the item in front, unless it leads back to the start. -/
theorem current_eq (holds : Holds memory lru (item :: rest)) (start : Option ρ) :
    (if lru.pool.next item.1 = start then none else lru.pool.next item.1) =
      if goesOn start rest then rest.head?.map Prod.fst else none := by
  have linked := holds.linked
  have next : lru.pool.next item.1 = (rest.map Prod.fst).head? :=
    @Dlinked.next_eq ρ ε lru.pool lru.list [] (rest.map Prod.fst) item.1 linked
  rw [next]
  cases rest with
  | nil =>
      rw [goesOn]
      split <;> rfl
  | cons other rest =>
      rw [goesOn, List.map_cons, List.head?_cons, List.head?_cons, map_some]
      by_cases again : some other.1 = start
      · simp [again]
      · simp [again]

omit [DecidableEq ε] in
/-- The walker behind a scan, in front of what is left of the items. -/
theorem walks_next {items back : List (ρ × ε)} (holds : Holds memory lru' items)
    (behind : items = rest ++ back) (next : LruPurgeWalker ρ) (current : next.current =
      if goesOn walker.start rest then rest.head?.map Prod.fst else none) :
    Walks memory lru' next ⟨items, goesOn walker.start rest, next.scanned⟩ := by
  refine ⟨holds, rfl, fun ended => ?_, fun more => ?_⟩
  · change goesOn walker.start rest = false at ended
    rw [current, ended]
    rfl
  · change goesOn walker.start rest = true at more
    cases rest with
    | nil => cases more
    | cons item rest => exact ⟨item, rest ++ back, behind, by rw [current, if_pos more]; rfl⟩

theorem purgeTurn_stop (locked : ε → Bool) (walks : Walks memory lru walker sweep)
    (idle : sweep.active = false ∨ walker.max_scan ≤ sweep.scanned) :
    lru.purgeTurn locked walker = some (.inl (none, lru, walker)) := by
  rw [purgeTurn]
  cases current : walker.current with
  | none => rfl
  | some lru_node =>
      rcases idle with idle | scanned
      · rw [walks.idle idle] at current
        cases current
      · exact if_pos (by rwa [walks.scanned])

variable {scanned : ℤ}

theorem purgeTurn_take {locked : ε → Bool}
    (walks : Walks memory lru walker ⟨item :: rest, true, scanned⟩)
    (more : scanned < walker.max_scan) (free : locked item.2 = false) :
    ∃ lru' walker', lru.purgeTurn locked walker = some (.inl (some item.2, lru', walker')) ∧
      Walks memory lru' walker' ⟨rest, goesOn walker.start rest, scanned + 1⟩ ∧
      walker'.start = walker.start ∧ walker'.max_scan = walker.max_scan ∧
      lru'.nwalkers = lru.nwalkers := by
  obtain ⟨lru_node, entry⟩ := item
  obtain ⟨_, _, same, current⟩ := walks.front rfl
  cases same
  have holds : Holds memory lru ([] ++ (lru_node, entry) :: rest) := walks.holds
  have alive := holds.linked.alive lru_node (by simp)
  have own := holds.owner (lru_node, entry) (by simp)
  have at_scan : walker.scanned = scanned := walks.scanned
  have cleared : updateNode lru.type lru.data entry none =
      Function.update lru.data (policyNode memory entry) none := by
    rw [holds.type_eq, updateNode_policyType]
  obtain ⟨pool, list, freed, run, free', holds'⟩ := holds.release
  have turn : lru.purgeTurn locked walker = some (.inl (some entry, { lru with
      list := list
      count := lru.count - 1
      pool := freed
      data := Function.update lru.data (policyNode memory entry) none }, { walker with
      scanned := walker.scanned + 1
      current := if lru.pool.next lru_node = walker.start then none
        else lru.pool.next lru_node })) := by
    rw [purgeTurn, current]
    simp only [if_neg (show ¬ walker.max_scan ≤ walker.scanned by omega),
      DlinkMemory.get_eq alive, own, bind_eq_bind, bind_some, run, free, free',
      setPolicyNode, cleared, Bool.false_eq_true, if_false]
  refine ⟨_, _, turn, ?_, rfl, rfl, rfl⟩
  rw [← at_scan]
  exact walks_next holds' (List.append_nil rest).symm _ (current_eq walks.holds walker.start)

theorem purgeTurn_skip {locked : ε → Bool}
    (walks : Walks memory lru walker ⟨item :: rest, true, scanned⟩)
    (more : scanned < walker.max_scan) (held : locked item.2 = true) :
    ∃ lru' walker', lru.purgeTurn locked walker = some (.inr (lru', walker')) ∧
      Walks memory lru' walker' ⟨rest ++ [item], goesOn walker.start rest, scanned + 1⟩ ∧
      walker'.start = walker.start ∧ walker'.max_scan = walker.max_scan ∧
      lru'.nwalkers = lru.nwalkers := by
  obtain ⟨lru_node, entry⟩ := item
  obtain ⟨_, _, same, current⟩ := walks.front rfl
  cases same
  have holds : Holds memory lru ([] ++ (lru_node, entry) :: rest) := walks.holds
  have alive := holds.linked.alive lru_node (by simp)
  have own := holds.owner (lru_node, entry) (by simp)
  have at_scan : walker.scanned = scanned := walks.scanned
  obtain ⟨pool, list, pool', list', run, run', holds'⟩ := holds.move
  have turn : lru.purgeTurn locked walker = some (.inr ({ lru with
      list := list'
      pool := pool' }, { walker with
      scanned := walker.scanned + 1
      locked := walker.locked + 1
      current := if lru.pool.next lru_node = walker.start then none
        else lru.pool.next lru_node })) := by
    rw [purgeTurn, current]
    simp only [if_neg (show ¬ walker.max_scan ≤ walker.scanned by omega), DlinkMemory.get_eq alive,
      own, bind_eq_bind, bind_some, run, run', held, if_true]
  refine ⟨_, _, turn, ?_, rfl, rfl, rfl⟩
  rw [← at_scan]
  exact walks_next holds' rfl _ (current_eq walks.holds walker.start)

/-- One call of `lru_purgeNext` is a scan. -/
theorem lru_purgeNext_spec (locked : ε → Bool) (walks : Walks memory lru walker sweep) :
    ∃ result lru' walker' sweep',
      lru.lru_purgeNext locked walker = some (result, lru', walker') ∧
      Scan locked walker.start walker.max_scan sweep result sweep' ∧
      Walks memory lru' walker' sweep' ∧ walker'.start = walker.start ∧
      walker'.max_scan = walker.max_scan ∧ lru'.nwalkers = lru.nwalkers := by
  have stop {lru : LruPolicyData ρ ε} {walker : LruPurgeWalker ρ} {sweep : Sweep ρ ε}
      (walks : Walks memory lru walker sweep)
      (idle : sweep.active = false ∨ walker.max_scan ≤ sweep.scanned) :
      ∃ result lru' walker' sweep',
        lru.lru_purgeNext locked walker = some (result, lru', walker') ∧
        Scan locked walker.start walker.max_scan sweep result sweep' ∧
        Walks memory lru' walker' sweep' ∧ walker'.start = walker.start ∧
        walker'.max_scan = walker.max_scan ∧ lru'.nwalkers = lru.nwalkers := by
    refine ⟨none, lru, walker, sweep, ?_, .stop idle, walks, rfl, rfl, rfl⟩
    rw [lru_purgeNext, purgeTurn_stop locked walks idle]
  induction fuel : (walker.max_scan - walker.scanned).toNat generalizing lru walker sweep with
  | zero =>
      exact stop walks (.inr (by rw [← walks.scanned]; omega))
  | succ n ih =>
      rw [walks.scanned] at fuel
      have more : sweep.scanned < walker.max_scan := by omega
      obtain ⟨items, active, scanned⟩ := sweep
      cases active with
      | false => exact stop walks (.inl rfl)
      | true =>
          obtain ⟨item, rest, same, -⟩ := walks.front rfl
          change items = item :: rest at same
          change (walker.max_scan - scanned).toNat = n + 1 at fuel
          subst same
          cases lock : locked item.2 with
          | false =>
              obtain ⟨lru', walker', turn, walks', start, max_scan, nwalkers⟩ :=
                purgeTurn_take walks more lock
              refine ⟨some item.2, lru', walker', _, ?_, .take more lock, walks', start, max_scan,
                nwalkers⟩
              rw [lru_purgeNext, turn]
          | true =>
              obtain ⟨lru', walker', turn, walks', start, max_scan, nwalkers⟩ :=
                purgeTurn_skip walks more lock
              have less : (walker'.max_scan - walker'.scanned).toNat = n := by
                rw [walks'.scanned, max_scan]
                change (walker.max_scan - (scanned + 1)).toNat = n
                omega
              obtain ⟨result, lru'', walker'', sweep', later, scan, walks'', start', max_scan',
                nwalkers'⟩ := ih walks' less
              rw [start, max_scan] at scan
              refine ⟨result, lru'', walker'', sweep', ?_, .skip more lock scan, walks'',
                start'.trans start, max_scan'.trans max_scan, nwalkers'.trans nwalkers⟩
              rw [lru_purgeNext, turn]
              exact later

/-- The walk has ended, or the scans are used up. -/
def Sweep.Idle (max_scan : ℤ) (sweep : Sweep ρ ε) : Prop :=
  sweep.active = false ∨ max_scan ≤ sweep.scanned

variable {locked : ε → Bool} {locks : List (ε → Bool)} {start : Option ρ} {max_scan : ℤ}
  {result : Option ε} {results : List (Option ε)} {sweep' : Sweep ρ ε}

omit [DecidableEq ε] in
/-- A scan loses no entry, returns an unlocked one, and counts what it looked at. -/
theorem Scan.conserves (scan : Scan locked start max_scan sweep result sweep') :
    (sweep.items.map Prod.snd).Perm (result.toList ++ sweep'.items.map Prod.snd) ∧
      (∀ entry ∈ result, locked entry = false) ∧
      sweep.scanned + result.toList.length ≤ sweep'.scanned ∧
      sweep'.scanned ≤ max sweep.scanned max_scan ∧ (result = none → sweep'.Idle max_scan) := by
  induction scan with
  | stop idle =>
      exact ⟨List.Perm.refl _, by simp, by simp, Int.le_max_left _ _, fun _ => idle⟩
  | take more free =>
      refine ⟨List.Perm.refl _, ?_, by simp, ?_, by simp⟩
      · rintro _ ⟨⟩
        exact free
      · exact Int.le_trans (Int.add_one_le_iff.mpr more) (Int.le_max_right _ _)
  | @skip item rest scanned result sweep more held later ih =>
      obtain ⟨perm, free, counted, bounded, ended⟩ := ih
      change (scanned + 1) + _ ≤ _ at counted
      change _ ≤ max (scanned + 1) _ at bounded
      refine ⟨?_, free, ?_, ?_, ended⟩
      · refine List.Perm.trans ?_ perm
        rw [List.map_append, List.map_cons, List.map_singleton]
        exact (List.perm_append_singleton _ _).symm
      · change scanned + _ ≤ _
        omega
      · change _ ≤ max scanned _
        omega

omit [DecidableEq ε] in
/-- A walk that has ended stays as it is. -/
theorem Scan.of_idle (scan : Scan locked start max_scan sweep result sweep')
    (idle : sweep.Idle max_scan) : result = none ∧ sweep' = sweep := by
  cases scan with
  | stop => exact ⟨rfl, rfl⟩
  | take more | skip more =>
      rcases idle with ended | used
      · cases ended
      · exact absurd more (Int.not_lt.mpr used)

/-- The scans of the calls of a session. -/
inductive Sweeps (start : Option ρ) (max_scan : ℤ) :
    Sweep ρ ε → List (ε → Bool) → List (Option ε) → Sweep ρ ε → Prop
  | nil (sweep : Sweep ρ ε) : Sweeps start max_scan sweep [] [] sweep
  | cons {sweep middle sweep' : Sweep ρ ε} {locked : ε → Bool} {locks : List (ε → Bool)}
      {result : Option ε} {results : List (Option ε)}
      (scan : Scan locked start max_scan sweep result middle)
      (later : Sweeps start max_scan middle locks results sweep') :
      Sweeps start max_scan sweep (locked :: locks) (result :: results) sweep'

section

variable (sweeps : Sweeps start max_scan sweep locks results sweep')
include sweeps

omit [DecidableEq ε] in
theorem Sweeps.of_idle (idle : sweep.Idle max_scan) :
    results = List.replicate results.length none ∧ sweep' = sweep := by
  induction sweeps with
  | nil => exact ⟨rfl, rfl⟩
  | cons scan later ih =>
      obtain ⟨rfl, rfl⟩ := scan.of_idle idle
      obtain ⟨none_left, same⟩ := ih idle
      exact ⟨by rw [length_cons, replicate_succ, ← none_left], same⟩

omit [DecidableEq ε] in
theorem Sweeps.conserves :
    (sweep.items.map Prod.snd).Perm (results.reduceOption ++ sweep'.items.map Prod.snd) ∧
      List.Forall₂ (fun locked result => ∀ entry ∈ result, locked entry = false) locks results ∧
      sweep.scanned + results.reduceOption.length ≤ sweep'.scanned ∧
      sweep'.scanned ≤ max sweep.scanned max_scan := by
  induction sweeps with
  | nil => exact ⟨List.Perm.refl _, .nil, by simp, Int.le_max_left _ _⟩
  | @cons _ _ _ _ _ result results scan later ih =>
      obtain ⟨perm, free, counted, bounded, -⟩ := scan.conserves
      obtain ⟨perm', free', counted', bounded'⟩ := ih
      have returned : (result :: results).reduceOption = result.toList ++ results.reduceOption := by
        cases result <;> rfl
      rw [returned, List.append_assoc, length_append]
      refine ⟨perm.trans (perm'.append_left _), .cons free free', ?_, ?_⟩
      · omega
      · omega

omit [DecidableEq ε] in
/-- Once nothing was returned, nothing more is. -/
theorem Sweeps.answers :
    (∃ k, results = results.reduceOption.map some ++ List.replicate k none) ∧
      (none ∈ results → sweep'.Idle max_scan) := by
  induction sweeps with
  | nil => exact ⟨⟨0, rfl⟩, by simp⟩
  | @cons _ _ _ _ _ result results scan later ih =>
      cases result with
      | none =>
          have idle := scan.conserves.2.2.2.2 rfl
          obtain ⟨none_left, rfl⟩ := later.of_idle idle
          refine ⟨⟨results.length + 1, ?_⟩, fun _ => idle⟩
          rw [none_left]
          simp [replicate_succ]
      | some entry =>
          obtain ⟨⟨k, split⟩, ended⟩ := ih
          refine ⟨⟨k, ?_⟩, fun member => ended (by simpa using member)⟩
          rw [reduceOption_cons_of_some, List.map_cons, cons_append, ← split]

end

/-- The lap over the list with a fixed lock state: what has been passed, what is left, and the
locked entries behind it. -/
structure Lap (locked : ε → Bool) (all passed left kept : List (ρ × ε)) (sweep : Sweep ρ ε) :
    Prop where
  split : all = passed ++ left
  items : sweep.items = left ++ kept
  held : kept.Perm (passed.filter fun item => locked item.2)
  ended : sweep.active = false → left = []

variable {kept left passed : List (ρ × ε)}

omit [DecidableEq ε] in
/-- The walk goes on while something is left of the lap: only the first item is the start. -/
theorem goesOn_of_left (distinct : ((passed ++ item :: left).map Prod.fst).Nodup)
    (ended : goesOn ((passed ++ item :: left).head?.map Prod.fst) (left ++ kept) = false) :
    left = [] := by
  cases left with
  | nil => rfl
  | cons next left =>
      change decide (some next.1 ≠ _) = false at ended
      have back := not_not.mp (of_decide_eq_false ended)
      cases passed with
      | nil =>
          rw [List.nil_append, List.head?_cons, map_some, some_inj] at back
          simp [back] at distinct
      | cons first passed =>
          rw [cons_append, List.head?_cons, map_some, some_inj] at back
          simp [back] at distinct

variable {all : List (ρ × ε)}

omit [DecidableEq ε] in
/-- With a fixed lock state a scan passes items in order, and returns the first unlocked one. -/
theorem Scan.lap (scan : Scan locked (all.head?.map Prod.fst) max_scan sweep result sweep')
    (distinct : (all.map Prod.fst).Nodup) (lap : Lap locked all passed left kept sweep) :
    ∃ passed' left' kept', Lap locked all passed' left' kept' sweep' ∧
      (passed'.map Prod.snd).filter (fun entry => !locked entry) =
        (passed.map Prod.snd).filter (fun entry => !locked entry) ++ result.toList := by
  induction scan generalizing passed left kept with
  | stop => exact ⟨passed, left, kept, lap, (List.append_nil _).symm⟩
  | @take item rest scanned more free =>
      have items := lap.items
      cases left with
      | nil =>
          have member : item ∈ passed.filter fun item => locked item.2 := by
            rw [← lap.held.mem_iff, ← List.nil_append kept, ← items]
            exact List.mem_cons_self
          rw [(mem_filter.mp member).2] at free
          cases free
      | cons next left =>
          cases items
          have split := lap.split
          refine ⟨passed ++ [item], left, kept, ⟨?_, rfl, ?_, fun ended => ?_⟩, ?_⟩
          · rw [split, append_cons]
          · rw [filter_append, filter_singleton, free]
            exact lap.held.trans (List.Perm.of_eq (List.append_nil _).symm)
          · rw [split] at distinct ended
            exact goesOn_of_left distinct ended
          · rw [List.map_append, filter_append, List.map_singleton, filter_singleton, free]
            rfl
  | @skip item rest scanned result sweep more held later ih =>
      have items := lap.items
      cases left with
      | nil =>
          have kept_eq : kept = item :: rest := items.symm
          refine ih ⟨lap.split, rfl, ?_, fun _ => rfl⟩
          refine List.Perm.trans ?_ lap.held
          rw [kept_eq]
          exact List.perm_append_singleton _ _
      | cons next left =>
          cases items
          have split := lap.split
          have lap' : Lap locked all (passed ++ [item]) left (kept ++ [item])
              ⟨left ++ kept ++ [item], goesOn (all.head?.map Prod.fst) (left ++ kept),
                scanned + 1⟩ := by
            refine ⟨?_, List.append_assoc .., ?_, fun ended => ?_⟩
            · rw [split, append_cons]
            · rw [filter_append, filter_singleton, held]
              exact lap.held.append_right _
            · rw [split] at distinct ended
              exact goesOn_of_left distinct ended
          obtain ⟨passed', left', kept', lap'', returned⟩ := ih lap'
          refine ⟨passed', left', kept', lap'', returned.trans ?_⟩
          rw [List.map_append, filter_append, List.map_singleton, filter_singleton, held]
          exact congrArg (· ++ _) (List.append_nil _)

omit [DecidableEq ε] in
theorem Sweeps.lap (sweeps : Sweeps (all.head?.map Prod.fst) max_scan sweep locks results sweep')
    (distinct : (all.map Prod.fst).Nodup) (fixed : ∀ l ∈ locks, l = locked)
    (lap : Lap locked all passed left kept sweep) :
    ∃ passed' left' kept', Lap locked all passed' left' kept' sweep' ∧
      (passed'.map Prod.snd).filter (fun entry => !locked entry) =
        (passed.map Prod.snd).filter (fun entry => !locked entry) ++ results.reduceOption := by
  induction sweeps generalizing passed left kept with
  | nil => exact ⟨passed, left, kept, lap, (List.append_nil _).symm⟩
  | @cons _ _ _ _ _ result results scan later ih =>
      obtain rfl := fixed _ List.mem_cons_self
      obtain ⟨passed', left', kept', lap', returned⟩ := scan.lap distinct lap
      obtain ⟨passed'', left'', kept'', lap'', returned'⟩ :=
        ih (fun l member => fixed l (List.mem_cons_of_mem _ member)) lap'
      refine ⟨passed'', left'', kept'', lap'', ?_⟩
      rw [returned', returned, List.append_assoc]
      cases result <;> rfl

/-! ### Sessions and runs -/

/-- What a purge session does to the entries in list order: which entry each call returned, how
many scans there were, and the entries left. -/
structure Purged (max_scan : ℤ) (locks : List (ε → Bool)) (before : List ε)
    (results : List (Option ε)) (scanned : ℤ) (after : List ε) : Prop where
  /-- The entries are those returned and those left, so that none is returned again. -/
  conserved : before.Perm (results.reduceOption ++ after)
  /-- No entry is returned that the call finds locked. -/
  unlocked : List.Forall₂ (fun locked result => ∀ entry ∈ result, locked entry = false) locks results
  /-- The session is over when a call returns nothing. -/
  ended : ∃ k, results = results.reduceOption.map some ++ List.replicate k none
  counted : results.reduceOption.length ≤ scanned
  bounded : scanned ≤ max 0 max_scan
  /-- With a fixed lock state the unlocked entries are returned in list order. -/
  ordered : ∀ locked : ε → Bool, (∀ l ∈ locks, l = locked) →
    results.reduceOption <+: before.filter fun entry => !locked entry
  /-- With a fixed lock state only the number of scans ends the session before the last of them. -/
  complete : ∀ locked : ε → Bool, (∀ l ∈ locks, l = locked) → none ∈ results →
    scanned < max_scan → results.reduceOption = before.filter fun entry => !locked entry

theorem purgeCalls_spec (walks : Walks memory lru walker sweep) (locks : List (ε → Bool)) :
    ∃ results lru' walker' sweep',
      lru.purgeCalls walker locks = some (results, lru', walker') ∧
      Sweeps walker.start walker.max_scan sweep locks results sweep' ∧
      Walks memory lru' walker' sweep' ∧ lru'.nwalkers = lru.nwalkers := by
  induction locks generalizing lru walker sweep with
  | nil => exact ⟨[], lru, walker, sweep, rfl, .nil sweep, walks, rfl⟩
  | cons locked locks ih =>
      obtain ⟨result, lru₁, walker₁, sweep₁, run, scan, walks₁, start, max_scan, nwalkers⟩ :=
        lru_purgeNext_spec locked walks
      obtain ⟨results, lru₂, walker₂, sweep₂, later, sweeps, walks₂, nwalkers'⟩ := ih walks₁
      rw [start, max_scan] at sweeps
      refine ⟨result :: results, lru₂, walker₂, sweep₂, ?_, .cons scan sweeps, walks₂,
        nwalkers'.trans nwalkers⟩
      rw [purgeCalls, run]
      simp only [bind_eq_bind, bind_some, later]

variable {items : List (ρ × ε)}

section

variable (holds : Holds memory lru items)
include holds

omit [DecidableEq ρ] [DecidableEq ε] in
theorem Holds.with_nwalkers (nwalkers : ℤ) : Holds memory { lru with nwalkers := nwalkers } items :=
  ⟨holds.linked, holds.owner, holds.named, holds.counted, holds.guessed, holds.allocated⟩

omit [DecidableEq ρ] [DecidableEq ε] in
theorem walks_purgeInit (max_scan : ℤ) :
    Walks memory (lru.lru_purgeInit max_scan).1 (lru.lru_purgeInit max_scan).2
      ⟨items, !items.isEmpty, 0⟩ := by
  have head : lru.list.head = (items.map Prod.fst).head? := holds.linked.forward.head_eq
  refine ⟨holds.with_nwalkers _, rfl, fun ended => ?_, fun more => ?_⟩
  · cases items with
    | nil => exact head
    | cons item items => cases ended
  · cases items with
    | nil => cases more
    | cons item items => exact ⟨item, items, rfl, head⟩

omit [DecidableEq ε] in
/-- What the scans of a session do to the entries. -/
theorem Sweeps.purged
    (sweeps : Sweeps (items.head?.map Prod.fst) max_scan ⟨items, !items.isEmpty, 0⟩ locks results
      sweep') :
    Purged max_scan locks (items.map Prod.snd) results sweep'.scanned
      (sweep'.items.map Prod.snd) := by
  obtain ⟨conserved, unlocked, counted, bounded⟩ := sweeps.conserves
  obtain ⟨ended, idle⟩ := sweeps.answers
  change (0 : ℤ) + _ ≤ _ at counted
  have distinct := holds.linked.nodup
  have lap₀ (locked : ε → Bool) :
      Lap locked items [] items [] ⟨items, !items.isEmpty, 0⟩ := by
    refine ⟨rfl, (List.append_nil items).symm, List.Perm.refl _, fun empty => ?_⟩
    cases items with
    | nil => rfl
    | cons item items => cases empty
  refine ⟨conserved, unlocked, ended, by omega, bounded, fun locked fixed => ?_,
    fun locked fixed none_mem more => ?_⟩
  · obtain ⟨passed, left, kept, lap, returned⟩ := sweeps.lap distinct fixed (lap₀ locked)
    rw [List.map_nil, filter_nil, List.nil_append] at returned
    rw [lap.split, List.map_append, filter_append, ← returned]
    exact prefix_append _ _
  · obtain ⟨passed, left, kept, lap, returned⟩ := sweeps.lap distinct fixed (lap₀ locked)
    rw [List.map_nil, filter_nil, List.nil_append] at returned
    have nothing_left := lap.ended ((idle none_mem).resolve_right (Int.not_le.mpr more))
    rw [lap.split, nothing_left, List.append_nil, ← returned]

theorem purgeSession_spec (walkers : 0 ≤ lru.nwalkers) (max_scan : ℤ) (locks : List (ε → Bool)) :
    ∃ results scanned lru' items',
      lru.purgeSession max_scan locks = some ((results, scanned), lru') ∧
      Holds memory lru' items' ∧ lru'.nwalkers = lru.nwalkers ∧
      Purged max_scan locks (items.map Prod.snd) results scanned (items'.map Prod.snd) := by
  obtain ⟨results, lru', walker', sweep', run, sweeps, walks, nwalkers⟩ :=
    purgeCalls_spec (walks_purgeInit holds max_scan) locks
  change lru'.nwalkers = lru.nwalkers + 1 at nwalkers
  have start : (lru.lru_purgeInit max_scan).2.start = items.head?.map Prod.fst := by
    rw [← List.head?_map]
    exact holds.linked.forward.head_eq
  rw [start] at sweeps
  refine ⟨results, walker'.scanned, { lru' with nwalkers := lru'.nwalkers - 1 }, sweep'.items, ?_,
    walks.holds.with_nwalkers _, ?_, ?_⟩
  · rw [purgeSession]
    simp only [run, bind_eq_bind, bind_some, lru_purgeDone,
      if_pos (show 0 < lru'.nwalkers by omega)]
  · change lru'.nwalkers - 1 = lru.nwalkers
    omega
  · rw [walks.scanned]
    exact Sweeps.purged holds sweeps

end

end LruPolicyData

/-- The calls of a policy; a session of `purge` calls `lru_purgeNext` once for each lock state. -/
inductive LruCall (ρ ε : Type) where
  | add (entry : ε) (lru_node : ρ)
  | remove (entry : ε)
  | referenced (entry : ε)
  | purge (max_scan : ℤ) (locks : List (ε → Bool))

/-- What the calls do to the entries in list order, and what they return. -/
inductive LruServes : List ε → LruCall ρ ε → Option (List (Option ε) × ℤ) → List ε → Prop
  | add {entries : List ε} {entry : ε} {lru_node : ρ} (fresh : entry ∉ entries) :
      LruServes entries (.add entry lru_node) none (entries ++ [entry])
  | remove {entries : List ε} (entry : ε) :
      LruServes entries (.remove entry) none (entries.erase entry)
  | referenced {entries : List ε} {entry : ε} (held : entry ∈ entries) :
      LruServes entries (.referenced entry) none (entries.erase entry ++ [entry])
  | unknown {entries : List ε} {entry : ε} (absent : entry ∉ entries) :
      LruServes entries (.referenced entry) none entries
  | purge {before after : List ε} {max_scan scanned : ℤ} {locks : List (ε → Bool)}
      {results : List (Option ε)}
      (purged : LruPolicyData.Purged max_scan locks before results scanned after) :
      LruServes before (.purge max_scan locks) (some (results, scanned)) after

/-- The calls of a run, with their results. -/
inductive LruRun : List ε → List (LruCall ρ ε) → List (Option (List (Option ε) × ℤ)) → List ε → Prop
  | nil (entries : List ε) : LruRun entries [] [] entries
  | cons {before middle after : List ε} {call : LruCall ρ ε} {calls : List (LruCall ρ ε)}
      {result : Option (List (Option ε) × ℤ)} {results : List (Option (List (Option ε) × ℤ))}
      (serves : LruServes before call result middle) (later : LruRun middle calls results after) :
      LruRun before (call :: calls) (result :: results) after

namespace LruPolicyData

/-- One call on a policy that is given the one kind of policy nodes. -/
def next (memory : Bool) (lru : LruPolicyData ρ ε) :
    LruCall ρ ε → Option (Option (List (Option ε) × ℤ) × LruPolicyData ρ ε)
  | .add entry lru_node =>
      (lru.lru_add entry (policyNode memory entry) lru_node).map fun lru => (none, lru)
  | .remove entry => (lru.lru_remove entry (policyNode memory entry)).map fun lru => (none, lru)
  | .referenced entry =>
      (lru.lru_referenced entry (policyNode memory entry)).map fun lru => (none, lru)
  | .purge max_scan locks =>
      (lru.purgeSession max_scan locks).map fun (result, lru) => (some result, lru)

/-- `lru_add` asserts that the policy node is null; the pool gives out a block that is not in
use. -/
def Proper (memory : Bool) (lru : LruPolicyData ρ ε) : LruCall ρ ε → Prop
  | .add entry lru_node =>
      lru.data (policyNode memory entry) = none ∧ lru.pool.live lru_node = false
  | .remove _ | .referenced _ | .purge _ _ => True

/-- A run of calls with the results. -/
def execute (memory : Bool) (lru : LruPolicyData ρ ε) :
    List (LruCall ρ ε) → Option (List (Option (List (Option ε) × ℤ)) × LruPolicyData ρ ε)
  | [] => some ([], lru)
  | call :: calls =>
      (lru.next memory call).bind fun (result, lru) =>
        (lru.execute memory calls).map fun (results, lru) => (result :: results, lru)

/-- The policy after one call. -/
def step (memory : Bool) (lru : LruPolicyData ρ ε) (call : LruCall ρ ε) :
    Option (LruPolicyData ρ ε) :=
  (lru.next memory call).map Prod.snd

variable {items : List (ρ × ε)}

/-- One call serves the entries in list order. -/
theorem next_serves {call : LruCall ρ ε} (holds : Holds memory lru items)
    (walkers : 0 ≤ lru.nwalkers) (ok : lru.Proper memory call) :
    ∃ result lru' items', lru.next memory call = some (result, lru') ∧
      LruServes (items.map Prod.snd) call result (items'.map Prod.snd) ∧
      Holds memory lru' items' ∧ 0 ≤ lru'.nwalkers := by
  cases call with
  | add entry lru_node =>
      obtain ⟨lru', run, holds', nwalkers⟩ := lru_add_spec holds ok.1 ok.2
      refine ⟨none, lru', _, by rw [next, run, map_some], ?_, holds',
        Int.le_trans walkers (Int.le_of_eq nwalkers.symm)⟩
      rw [List.map_append, List.map_singleton]
      exact .add (holds.unlinked_iff.mpr ok.1)
  | remove entry =>
      obtain ⟨lru', items', run, holds', nwalkers, entries⟩ := lru_remove_spec holds entry
      refine ⟨none, lru', items', by rw [next, run, map_some], ?_, holds',
        Int.le_trans walkers (Int.le_of_eq nwalkers.symm)⟩
      rw [entries]
      exact .remove entry
  | referenced entry =>
      obtain ⟨lru', items', run, holds', nwalkers, entries⟩ := lru_referenced_spec holds entry
      refine ⟨none, lru', items', by rw [next, run, map_some], ?_, holds',
        Int.le_trans walkers (Int.le_of_eq nwalkers.symm)⟩
      rw [entries]
      by_cases held : entry ∈ items.map Prod.snd
      · rw [if_pos held]
        exact .referenced held
      · rw [if_neg held]
        exact .unknown held
  | purge max_scan locks =>
      obtain ⟨results, scanned, lru', items', run, holds', nwalkers, purged⟩ :=
        purgeSession_spec holds walkers max_scan locks
      exact ⟨some (results, scanned), lru', items', by rw [next, run, map_some],
        .purge purged, holds', Int.le_trans walkers (Int.le_of_eq nwalkers.symm)⟩

theorem execute_serves {calls : List (LruCall ρ ε)} (holds : Holds memory lru items)
    (walkers : 0 ≤ lru.nwalkers)
    (ok : LabelledRun.Allowed (step memory) (Proper memory) lru calls) :
    ∃ results lru' items', lru.execute memory calls = some (results, lru') ∧
      LruRun (items.map Prod.snd) calls results (items'.map Prod.snd) ∧
      Holds memory lru' items' := by
  induction calls generalizing lru items with
  | nil => exact ⟨[], lru, items, rfl, .nil _, holds⟩
  | cons call calls ih =>
      obtain ⟨result, middle, items₁, run, serves, holds₁, walkers₁⟩ :=
        next_serves holds walkers ok.1
      obtain ⟨results, lru', items', later, served, holds'⟩ :=
        ih holds₁ walkers₁ (ok.2 middle (by rw [step, run, map_some]))
      refine ⟨result :: results, lru', items', ?_, .cons serves served, holds'⟩
      simp only [execute, run, bind_some, later, map_some]

/-- The bookkeeping of the policy survives every run: the count is the length of the list, an
entry is in the list once if its policy node is set and else not at all, and the sessions return
what they should. -/
theorem lru_policy (memory : Bool) (data : ρ → Option ε) (prev next : ρ → Option ρ)
    (calls : List (LruCall ρ ε))
    (ok : LabelledRun.Allowed (step memory) (Proper memory)
      (createRemovalPolicy_lru data prev next) calls) :
    ∃ results lru nodes entries,
      (createRemovalPolicy_lru data prev next).execute memory calls = some (results, lru) ∧
      LruRun [] calls results entries ∧ Dlinked lru.pool lru.list nodes ∧
      nodes.map lru.pool.data = entries.map some ∧ lru.count = entries.length ∧
      (∀ entry, entries.count entry =
        if lru.data (policyNode memory entry) = none then 0 else 1) ∧
      ∀ entry lru_node, lru.data (policyNode memory entry) = some lru_node →
        lru_node ∈ nodes ∧ lru.pool.data lru_node = some entry := by
  obtain ⟨results, lru, items, run, served, holds⟩ := execute_serves
    (holds_createRemovalPolicy_lru memory data prev next) (Int.le_refl 0) ok
  refine ⟨results, lru, items.map Prod.fst, items.map Prod.snd, run, served, holds.linked, ?_, ?_,
    fun entry => ?_, fun entry lru_node named => ?_⟩
  · rw [List.map_map, List.map_map]
    exact map_congr_left fun item member => holds.owner item member
  · rw [holds.counted, length_map]
  · by_cases absent : lru.data (policyNode memory entry) = none
    · rw [if_pos absent]
      exact count_eq_zero.mpr (holds.unlinked_iff.mpr absent)
    · rw [if_neg absent]
      refine count_eq_one_of_mem holds.entries_nodup ?_
      exact Classical.not_not.mp fun missing => absent (holds.unlinked_iff.mp missing)
  · have member := (holds.named entry lru_node).mp named
    exact ⟨List.mem_map_of_mem member, holds.owner _ member⟩

/-- Two entries, the first one referenced again, and a session that finds the second one locked. -/
def lruSample : List (LruCall ℕ ℕ) :=
  [.add 1 10, .add 2 20, .referenced 1, .purge 5 [fun entry => entry == 2, fun entry => entry == 2]]

theorem lru_policy_sample :
    ∃ results lru nodes entries,
      (createRemovalPolicy_lru (fun _ => none) (fun _ => none) fun _ => none).execute true
        lruSample = some (results, lru) ∧
      LruRun [] lruSample results entries ∧ Dlinked lru.pool lru.list nodes ∧
      nodes.map lru.pool.data = entries.map some ∧ lru.count = entries.length := by
  have ok : LabelledRun.Allowed (step true) (Proper true)
      (createRemovalPolicy_lru (fun _ => none) (fun _ => none) fun _ => none) lruSample :=
    .cons ⟨rfl, rfl⟩ rfl (.cons ⟨rfl, rfl⟩ rfl (.cons trivial rfl ⟨trivial, fun _ _ => trivial⟩))
  obtain ⟨results, lru, nodes, entries, run, served, linked, owners, count, -, -⟩ :=
    lru_policy true (fun _ => none) (fun _ => none) (fun _ => none) lruSample ok
  exact ⟨results, lru, nodes, entries, run, served, linked, owners, count⟩

end LruPolicyData

end Squid.Repl
