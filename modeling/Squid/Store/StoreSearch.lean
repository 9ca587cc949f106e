import Mathlib.Data.List.Flatten
import Mathlib.Data.List.GetD
import Mathlib.Data.List.Induction
import Mathlib.Data.List.Perm.Basic
import Mathlib.Order.Nat
import Mathlib.Algebra.Order.Group.Nat

/-!
# Walking the whole index

`StoreSearchHashIndex` copies one bucket of `store_table` after the other and hands out its
entries from the back.  `storeDigestRebuildStep` and `storeCleanup` walk through it, some entries
in each call, and stop where `isDone` holds: that is a statement about buckets.
-/

namespace Squid

open List

variable {α : Type}

/-- `store_table`: the chain of each bucket. -/
abbrev StoreTable (α : Type) := List (List α)

/-- `StoreSearchHashIndex`. -/
structure StoreSearch (α : Type) where
  /-- The bucket to be copied next. -/
  bucket : ℕ
  /-- The entries of the last copied bucket that are left, the current one at the back. -/
  entries : List α

namespace StoreSearch

/-- `StoreSearchHashIndex::StoreSearchHashIndex`. -/
def start : StoreSearch α := ⟨0, []⟩

/-- `StoreSearchHashIndex::isDone`. -/
def isDone (table : StoreTable α) (s : StoreSearch α) : Bool := table.length ≤ s.bucket

/-- `StoreSearchHashIndex::currentItem`. -/
def currentItem (s : StoreSearch α) : Option α := s.entries.getLast?

/-- `StoreSearchHashIndex::copyBucket`. -/
def copyBucket (table : StoreTable α) (s : StoreSearch α) : StoreSearch α :=
  ⟨s.bucket + 1, table.getD s.bucket []⟩

/-- The loop of `next`, for at most as many turns as there are buckets left. -/
def copyBuckets (table : StoreTable α) : ℕ → StoreSearch α → StoreSearch α
  | 0, s => s
  | turns + 1, s =>
      if !isDone table s && s.entries.isEmpty then copyBuckets table turns (copyBucket table s) else s

/-- `StoreSearchHashIndex::next`. -/
def next (table : StoreTable α) (s : StoreSearch α) : StoreSearch α :=
  copyBuckets table (table.length - s.bucket) { s with entries := s.entries.dropLast }

/-- The loop of `storeDigestRebuildStep` and `storeCleanup`: the entries that are visited. -/
def visit (table : StoreTable α) : ℕ → StoreSearch α → List α × StoreSearch α
  | 0, s => ([], s)
  | count + 1, s =>
      if isDone table s then ([], s)
      else
        match (next table s).currentItem with
        | none => ([], next table s)
        | some e => ((visit table count (next table s)).1.cons e,
          (visit table count (next table s)).2)

/-! ## What is left of a search -/

/-- The current entry and those behind it, in the order of the search. -/
def upcoming (table : StoreTable α) (s : StoreSearch α) : List α :=
  s.entries.reverse ++ (table.drop s.bucket).flatMap List.reverse

/-- The entries behind the current one. -/
def pending (table : StoreTable α) (s : StoreSearch α) : List α :=
  s.entries.dropLast.reverse ++ (table.drop s.bucket).flatMap List.reverse

/-- When the last bucket has been copied, all its entries are there. -/
structure Valid (table : StoreTable α) (s : StoreSearch α) : Prop where
  within : s.bucket ≤ table.length
  last : s.bucket = table.length → s.entries = table.getLast?.getD []

theorem valid_start (table : StoreTable α) : Valid table start := by
  refine ⟨Nat.zero_le _, fun none => ?_⟩
  obtain rfl := eq_nil_of_length_eq_zero none.symm
  rfl

theorem pending_start (table : StoreTable α) : pending table start = table.flatMap List.reverse :=
    rfl

variable {s : StoreSearch α} {table : StoreTable α}

theorem isDone_iff (valid : Valid table s) : isDone table s = true ↔ s.bucket = table.length := by
  rw [isDone, decide_eq_true_iff]
  exact ⟨fun done => le_antisymm valid.within done, fun done => done.ge⟩

theorem pending_of_isDone (valid : Valid table s) (done : isDone table s = true) :
    pending table s = (table.getLast?.getD []).dropLast.reverse := by
  have atEnd := (isDone_iff valid).1 done
  rw [pending, valid.last atEnd, atEnd, drop_length, flatMap_nil, List.append_nil]

theorem copyBuckets_of_isDone (done : isDone table s = true) (turns : ℕ) :
    copyBuckets table turns s = s := by
  cases turns with
  | zero => rfl
  | succ turns => simp [copyBuckets, done]

theorem upcoming_copyBucket (inside : s.bucket < table.length) (empty : s.entries = []) :
    upcoming table (copyBucket table s) = upcoming table s := by
  simp only [upcoming, copyBucket, empty, drop_eq_getElem_cons inside, flatMap_cons,
    reverse_nil, List.nil_append]
  rw [getD_eq_getElem _ _ inside]

/-- Buckets are copied up to one that has an entry. -/
theorem copyBuckets_spec {table : StoreTable α} {turns : ℕ} {s : StoreSearch α}
    (inside : s.bucket < table.length) (enough : table.length - s.bucket ≤ turns) :
    Valid table (copyBuckets table turns s) ∧
      upcoming table (copyBuckets table turns s) = upcoming table s ∧
      ((copyBuckets table turns s).entries = [] →
        (copyBuckets table turns s).bucket = table.length) := by
  induction turns generalizing s with
  | zero => omega
  | succ turns ih =>
      have notDone : isDone table s = false := by simpa [isDone] using inside
      by_cases empty : s.entries = []
      · have turn : copyBuckets table (turns + 1) s =
            copyBuckets table turns (copyBucket table s) := by
          simp [copyBuckets, notDone, empty]
        have same := upcoming_copyBucket inside empty
        rw [turn]
        by_cases more : s.bucket + 1 < table.length
        · obtain ⟨valid, kept, full⟩ := ih (s := copyBucket table s) more (by
            show table.length - (s.bucket + 1) ≤ turns
            omega)
          exact ⟨valid, kept.trans same, full⟩
        · have atEnd : s.bucket + 1 = table.length := by omega
          have done : isDone table (copyBucket table s) = true := decide_eq_true atEnd.ge
          rw [copyBuckets_of_isDone done]
          refine ⟨⟨atEnd.le, fun _ => ?_⟩, same, fun _ => atEnd⟩
          show table.getD s.bucket [] = table.getLast?.getD []
          rw [List.getLast?_eq_getElem?, ← atEnd, Nat.add_sub_cancel, getD_eq_getElem?_getD]
      · have stop : copyBuckets table (turns + 1) s = s := by simp [copyBuckets, empty]
        rw [stop]
        exact ⟨⟨inside.le, fun atEnd => absurd atEnd inside.ne⟩, rfl, fun none => absurd none empty⟩

/-- `next` goes to the first of the entries that are left. -/
theorem next_spec (notDone : isDone table s = false) :
    Valid table (next table s) ∧
      ((next table s).currentItem = none ∧ isDone table (next table s) = true ∧
          pending table s = [] ∧ pending table (next table s) = [] ∨
        ∃ e, (next table s).currentItem = some e ∧
          pending table s = e :: pending table (next table s)) := by
  have inside : s.bucket < table.length := by simpa [isDone] using notDone
  obtain ⟨valid, kept, full⟩ :=
    @copyBuckets_spec _ table (table.length - s.bucket) { s with entries := s.entries.dropLast } inside
      le_rfl
  have before : upcoming table (next table s) = pending table s := kept
  refine ⟨valid, ?_⟩
  cases shape : (next table s).entries using List.reverseRecOn with
  | nil =>
      have atEnd : (next table s).bucket = table.length := full shape
      have none : upcoming table (next table s) = [] := by simp [upcoming, shape, atEnd]
      refine .inl ⟨by simp [currentItem, shape], (isDone_iff valid).2 atEnd, before ▸ none, ?_⟩
      simp [pending, shape, atEnd]
  | append_singleton front e =>
      refine .inr ⟨e, by simp [currentItem, shape], ?_⟩
      rw [← before]
      simp [upcoming, pending, shape]

/-- The loop visits entries in order, and as many as it may unless the search is done. -/
theorem visit_spec (count : ℕ) (valid : Valid table s) :
    Valid table (visit table count s).2 ∧
      pending table s = (visit table count s).1 ++ pending table (visit table count s).2 ∧
      (isDone table (visit table count s).2 = true ∨ (visit table count s).1.length = count) := by
  induction count generalizing s with
  | zero => exact ⟨valid, rfl, .inr rfl⟩
  | succ count ih =>
      rw [visit]
      cases done : isDone table s with
      | true => simpa [done] using valid
      | false =>
          obtain ⟨validNext, result⟩ := next_spec done
          rcases result with ⟨none, doneNext, before, after⟩ | ⟨e, some, before⟩
          · simp only [none, Bool.false_eq_true, if_false]
            exact ⟨validNext, by rw [before, after]; rfl, .inl doneNext⟩
          · obtain ⟨validAfter, rest, progress⟩ := ih validNext
            simp only [some, Bool.false_eq_true, if_false]
            refine ⟨validAfter, by rw [before, rest]; rfl, progress.imp_right fun all => ?_⟩
            rw [length_cons, all]

end StoreSearch

/-! ## Rebuilding the digest -/

open StoreSearch

/--
The calls of `storeDigestRebuildStep` in a rebuild, each with its limit: what is passed to
`storeDigestAdd`, and whether `storeDigestRebuildFinish` is called, which ends the rebuild.
-/
def storeDigestRebuildSteps (table : StoreTable α) : List ℕ → StoreSearch α → List α × Bool
  | [], _ => ([], false)
  | count :: counts, s =>
      if isDone table (visit table count s).2 then ((visit table count s).1, true)
      else
        ((visit table count s).1 ++ (storeDigestRebuildSteps table counts (visit table count s).2).1,
          (storeDigestRebuildSteps table counts (visit table count s).2).2)

variable {counts : List ℕ} {s : StoreSearch α} {table : StoreTable α}

/-- A rebuild that finishes has left out what was behind the last entry of the last bucket. -/
theorem storeDigestRebuildSteps_spec (valid : Valid table s)
    (finished : (storeDigestRebuildSteps table counts s).2 = true) :
    pending table s = (storeDigestRebuildSteps table counts s).1 ++
      (table.getLast?.getD []).dropLast.reverse := by
  induction counts generalizing s with
  | nil => cases finished
  | cons count counts ih =>
      obtain ⟨validAfter, rest, -⟩ := visit_spec count valid
      rw [storeDigestRebuildSteps] at finished ⊢
      cases done : isDone table (visit table count s).2 with
      | true =>
          simp only [if_true]
          rw [rest, pending_of_isDone validAfter done]
      | false =>
          simp only [done, Bool.false_eq_true, if_false] at finished ⊢
          rw [rest, ih validAfter finished, List.append_assoc]

/-- Enough calls that may visit an entry finish the rebuild. -/
theorem storeDigestRebuildSteps_finishes (valid : Valid table s)
    (enough : (pending table s).length < counts.countP (0 < ·)) :
    (storeDigestRebuildSteps table counts s).2 = true := by
  induction counts generalizing s with
  | nil => simp at enough
  | cons count counts ih =>
      obtain ⟨validAfter, rest, progress⟩ := visit_spec count valid
      rw [storeDigestRebuildSteps]
      cases done : isDone table (visit table count s).2 with
      | true => rfl
      | false =>
          refine ih validAfter ?_
          have visited := progress.resolve_left (by simp [done])
          rw [rest, length_append, visited, countP_cons] at enough
          split at enough
          · rename_i positive
            have := of_decide_eq_true positive
            omega
          · omega

/-! ## Validating the entries -/

/-- What `storeCleanup` keeps between its calls, and the flags of the entries. -/
structure StoreCleanup (α : Type) where
  currentSearch : Option (StoreSearch α)
  /-- The entries with `ENTRY_VALIDATED`. -/
  isValidated : α → Bool
  /-- `store_errors`. -/
  storeErrors : ℕ
  validated : ℕ
  /-- The entries that were visited, as a record only. -/
  visited : List α

section Cleanup

variable [DecidableEq α] (swapFilen : α → ℤ) (doubleCheck : Option (α → Bool))

/-- The body of the loop of `storeCleanup`; `doubleCheck` is there with `opt_store_doublecheck`. -/
def cleanupEntry (c : StoreCleanup α) (e : α) : StoreCleanup α :=
  if c.isValidated e then { c with visited := c.visited ++ [e] }
  else if swapFilen e < 0 then { c with visited := c.visited ++ [e] }
  else
    { c with
      visited := c.visited ++ [e]
      storeErrors := if doubleCheck.any (· e) then c.storeErrors + 1 else c.storeErrors
      isValidated := Function.update c.isValidated e true
      validated := c.validated + 1 }

/-- The search that a call of `storeCleanup` goes on with. -/
def StoreCleanup.search (table : StoreTable α) (c : StoreCleanup α) : StoreSearch α :=
  match c.currentSearch with
  | none => start
  | some s => if isDone table s then start else s

/-- `storeCleanup`: whether it reports completion, and does not schedule another call. -/
def storeCleanup (table : StoreTable α) (c : StoreCleanup α) : StoreCleanup α × Bool :=
  if isDone table (visit table 500 (c.search table)).2 then
    ({ (visit table 500 (c.search table)).1.foldl (cleanupEntry swapFilen doubleCheck) c with
        currentSearch := none }, true)
  else
    ({ (visit table 500 (c.search table)).1.foldl (cleanupEntry swapFilen doubleCheck) c with
        currentSearch := some (visit table 500 (c.search table)).2 }, false)

/-- The calls of `storeCleanup` in a validation, at most that many; `none` if there are more. -/
def storeCleanups (table : StoreTable α) : ℕ → StoreCleanup α → Option (StoreCleanup α)
  | 0, _ => none
  | calls + 1, c =>
      if (storeCleanup swapFilen doubleCheck table c).2 then
        some (storeCleanup swapFilen doubleCheck table c).1
      else storeCleanups table calls (storeCleanup swapFilen doubleCheck table c).1

/-- The search is one that a call can go on with. -/
def StoreCleanup.Valid (table : StoreTable α) (c : StoreCleanup α) : Prop :=
  ∀ s, c.currentSearch = some s → isDone table s = false

variable {c : StoreCleanup α} {table : StoreTable α}

omit [DecidableEq α] in
theorem StoreCleanup.search_eq (valid : c.Valid table) :
    c.search table = c.currentSearch.getD start := by
  unfold StoreCleanup.search
  cases found : c.currentSearch with
  | none => rfl
  | some s => simp [valid s found]

/-- The search does not matter for the entries. -/
theorem foldl_cleanupEntry_search (entries : List α) (c : StoreCleanup α)
    (search : Option (StoreSearch α)) :
    entries.foldl (cleanupEntry swapFilen doubleCheck) { c with currentSearch := search } =
      { entries.foldl (cleanupEntry swapFilen doubleCheck) c with currentSearch := search } := by
  induction entries generalizing c with
  | nil => rfl
  | cons e entries ih =>
      have step : cleanupEntry swapFilen doubleCheck { c with currentSearch := search } e =
          { cleanupEntry swapFilen doubleCheck c e with currentSearch := search } := by
        unfold cleanupEntry
        split
        · rfl
        · split <;> rfl
      rw [foldl_cons, foldl_cons, step, ih]

theorem visited_foldl (entries : List α) (c : StoreCleanup α) :
    (entries.foldl (cleanupEntry swapFilen doubleCheck) c).visited = c.visited ++ entries := by
  induction entries generalizing c with
  | nil => simp
  | cons e entries ih =>
      have step : (cleanupEntry swapFilen doubleCheck c e).visited = c.visited ++ [e] := by
        unfold cleanupEntry
        split
        · rfl
        · split <;> rfl
      rw [foldl_cons, ih, step, List.append_assoc, singleton_append]

/-- Every entry with a file that is visited, or was validated before, is validated. -/
theorem isValidated_foldl {entries : List α} {e : α} (member : e ∈ entries ∨ c.isValidated e = true)
    (file : 0 ≤ swapFilen e) :
    (entries.foldl (cleanupEntry swapFilen doubleCheck) c).isValidated e = true := by
  induction entries generalizing c with
  | nil => simpa using member
  | cons other entries ih =>
      rw [foldl_cons]
      refine ih ?_
      rw [mem_cons] at member
      unfold cleanupEntry
      split
      · rename_i already
        rcases member with (rfl | later) | before
        · exact .inr already
        · exact .inl later
        · exact .inr before
      · split
        · rename_i noFile
          rcases member with (rfl | later) | before
          · omega
          · exact .inl later
          · exact .inr before
        · rcases member with (rfl | later) | before
          · exact .inr (Function.update_self ..)
          · exact .inl later
          · refine .inr ?_
            by_cases same : e = other
            · rw [same]
              exact Function.update_self ..
            · exact (Function.update_of_ne same ..).trans before

/-- A validation is a walk with a limit of 500 entries a call. -/
theorem storeCleanups_eq (calls : ℕ) (valid : c.Valid table) :
    storeCleanups swapFilen doubleCheck table calls c =
      if (storeDigestRebuildSteps table (List.replicate calls 500) (c.search table)).2 then
        some { (storeDigestRebuildSteps table (List.replicate calls 500) (c.search table)).1.foldl
          (cleanupEntry swapFilen doubleCheck) c with currentSearch := none }
      else none := by
  induction calls generalizing c with
  | zero => rfl
  | succ calls ih =>
      rw [replicate_succ, storeDigestRebuildSteps, storeCleanups, storeCleanup]
      cases done : isDone table (visit table 500 (c.search table)).2 with
      | true => rfl
      | false =>
          have validAfter : StoreCleanup.Valid table
              { (visit table 500 (c.search table)).1.foldl (cleanupEntry swapFilen doubleCheck) c with
                currentSearch := some (visit table 500 (c.search table)).2 } := by
            rintro s ⟨⟩
            exact done
          simp only [Bool.false_eq_true, if_false]
          rw [ih validAfter, StoreCleanup.search_eq validAfter, foldl_append]
          generalize (visit table 500 (c.search table)).1.foldl (cleanupEntry swapFilen doubleCheck) c = d
          rw [foldl_cleanupEntry_search]
          rfl

/-- Nothing is visited, and no search has begun. -/
def StoreCleanup.begin (isValidated : α → Bool) : StoreCleanup α := ⟨none, isValidated, 0, 0, []⟩

omit [DecidableEq α] in
/-- What is missing when a walk is finished. -/
theorem perm_flatten_iff {visited : List α}
    (rest : pending table start = visited ++ (table.getLast?.getD []).dropLast.reverse) :
    visited.Perm table.flatten ↔ (table.getLast?.getD []).length ≤ 1 := by
  have all : (pending table start).Perm table.flatten := by
    rw [pending_start, ← flatMap_id]
    exact List.Perm.flatMap_left table fun bucket _ => reverse_perm bucket
  rw [rest] at all
  refine ⟨fun complete => ?_, fun short => ?_⟩
  · have whole := all.length_eq
    rw [length_append, length_reverse, length_dropLast, complete.length_eq] at whole
    omega
  · have none : (table.getLast?.getD []).dropLast = [] := by
      rw [← length_eq_zero_iff, length_dropLast]
      omega
    simpa [none] using all

/--
A digest rebuild passes every entry to `storeDigestAdd` exactly once and then finishes, and a
validation visits every entry exactly once and then reports completion, exactly if the last bucket
has at most one entry.
-/
theorem walks_complete_iff (table : StoreTable α) (isValidated : α → Bool) :
    ((∀ counts, table.flatten.length < counts.countP (0 < ·) →
        (storeDigestRebuildSteps table counts start).2 = true) ∧
      (∀ counts, (storeDigestRebuildSteps table counts start).2 = true →
        (storeDigestRebuildSteps table counts start).1.Perm table.flatten) ∧
      (∃ calls, (storeCleanups swapFilen doubleCheck table calls (.begin isValidated)).isSome) ∧
      ∀ calls after, storeCleanups swapFilen doubleCheck table calls (.begin isValidated) =
        some after →
        after.visited.Perm table.flatten ∧
          ∀ e ∈ table.flatten, 0 ≤ swapFilen e → after.isValidated e = true) ↔
      (table.getLast?.getD []).length ≤ 1 := by
  have all : (pending table start).length = table.flatten.length := by
    rw [pending_start, length_flatMap, length_flatten]
    simp
  have finishes : ∀ counts, table.flatten.length < counts.countP (0 < ·) →
      (storeDigestRebuildSteps table counts start).2 = true := by
    intro counts enough
    exact storeDigestRebuildSteps_finishes (valid_start table) (by rwa [all])
  have calls : (storeDigestRebuildSteps table (List.replicate (table.flatten.length + 1) 500)
      start).2 = true := finishes _ (by simp [countP_replicate])
  have cleanups : ∀ calls, storeCleanups swapFilen doubleCheck table calls (.begin isValidated) =
      if (storeDigestRebuildSteps table (List.replicate calls 500) start).2 then
        some { (storeDigestRebuildSteps table (List.replicate calls 500) start).1.foldl
          (cleanupEntry swapFilen doubleCheck) (.begin isValidated) with currentSearch := none }
      else none := fun calls => storeCleanups_eq swapFilen doubleCheck calls (by rintro s ⟨⟩)
  refine ⟨fun complete => ?_, fun short => ⟨finishes, ?_, ?_, ?_⟩⟩
  · exact (perm_flatten_iff (storeDigestRebuildSteps_spec (valid_start table) calls)).1
      (complete.2.1 _ calls)
  · intro counts finished
    exact (perm_flatten_iff (storeDigestRebuildSteps_spec (valid_start table) finished)).2 short
  · refine ⟨table.flatten.length + 1, ?_⟩
    rw [cleanups, if_pos calls]
    rfl
  · intro calls after run
    rw [cleanups] at run
    split at run
    · rename_i finished
      obtain rfl := Option.some.inj run
      have visited := (perm_flatten_iff (storeDigestRebuildSteps_spec (valid_start table) finished)).2
        short
      refine ⟨?_, fun e member file => ?_⟩
      · exact (List.Perm.of_eq (visited_foldl swapFilen doubleCheck _ (.begin isValidated))).trans
          visited
      · exact isValidated_foldl swapFilen doubleCheck (.inl (visited.mem_iff.2 member)) file
    · cases run

end Cleanup

/-- A digest rebuild with one bucket that has two entries misses the first. -/
theorem walks_incomplete :
    (storeDigestRebuildSteps [[(0 : ℕ), 1]] [50] start).2 = true ∧
      ¬ (storeDigestRebuildSteps [[(0 : ℕ), 1]] [50] start).1.Perm [[0, 1]].flatten ∧
      ∃ after, storeCleanups (fun _ : ℕ => 1) none [[0, 1]] 1 (.begin fun _ => false) = some after ∧
        after.isValidated 0 = false := by
  refine ⟨by decide, by decide, _, rfl, by decide⟩

end Squid
