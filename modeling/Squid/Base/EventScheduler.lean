import Squid.Library.LabelledRun
import Mathlib.Algebra.Ring.Int.Defs
import Mathlib.Data.Prod.Lex
import Mathlib.Data.List.Nodup
import Mathlib.Order.Defs.LinearOrder
import Mathlib.Tactic.Common

/-!
# Timed events

`EventScheduler` keeps the events that are due later in one list.  It is a stable queue ordered by
time, and no event leaves it twice; but `cancel` steps past the neighbour of every event that it
deletes.
-/

namespace Squid

open List

universe u

/-- `ev_entry`, with the null pointer as `none`. -/
structure EvEntry (T F A : Type u) where
  name : String
  func : F
  arg : Option A
  when : T
  weight : ℤ
  cbdata : Bool
  /-- How many events were scheduled before this one. -/
  serial : ℕ
  deriving DecidableEq

/-- `EventScheduler`, with what has happened so far. -/
structure EventScheduler (T F A : Type u) where
  tasks : List (EvEntry T F A) := []
  /-- The events scheduled, in order. -/
  scheduled : List (EvEntry T F A) := []
  /-- The events dispatched, in order, each with the reading of the clock. -/
  dispatched : List (EvEntry T F A × T) := []

namespace EventScheduler

variable {T F A : Type u}

/-! ## Deleting and looking up -/

/-- The events that `cancel` looks for: a null `arg` stands for any. -/
def Selected (func : F) (arg : Option A) (event : EvEntry T F A) : Prop :=
  event.func = func ∧ (arg = none ∨ event.arg = arg)

variable {event : EvEntry T F A} {func : F}

theorem selected_none : Selected func none event ↔ event.func = func := by
  simp [Selected]

/-- Not two events of the function one after the other. -/
def Apart (func : F) (event neighbour : EvEntry T F A) : Prop :=
  ¬ (event.func = func ∧ neighbour.func = func)

theorem isChain_apart_cons {next : List (EvEntry T F A)} (other : event.func ≠ func) :
    (event :: next).IsChain (Apart func) ↔ next.IsChain (Apart func) := by
  cases next with
  | nil => simp
  | cons neighbour next => simp [Apart, other]

section Cancel

variable [DecidableEq F] [DecidableEq A]

instance (func : F) (arg : Option A) : DecidablePred (Selected (T := T) func arg) :=
  fun _ => inferInstanceAs (Decidable (_ ∧ _))

/-- The loop of `cancel`, with whether it was left by `return`. -/
def cancelLoop (func : F) (arg : Option A) :
    List (EvEntry T F A) → List (EvEntry T F A) × Bool
  | [] => ([], false)
  | event :: next =>
      if Selected func arg event then
        match arg, next with
        | some _, next => (next, true)
        | none, [] => ([], false)
        -- `*E` is the neighbour by now, and the loop goes on behind it.
        | none, neighbour :: next =>
            let (later, returned) := cancelLoop func arg next
            (neighbour :: later, returned)
      else
        let (later, returned) := cancelLoop func arg next
        (event :: later, returned)

/-- `EventScheduler::cancel`, with whether it calls `debug_trap`. -/
def cancel (scheduler : EventScheduler T F A) (func : F) (arg : Option A) :
    EventScheduler T F A × Bool :=
  let (tasks, returned) := cancelLoop func arg scheduler.tasks
  ({ scheduler with tasks }, !returned && arg.isSome)

/-- `EventScheduler::find`. -/
def find (scheduler : EventScheduler T F A) (func : F) (arg : Option A) : Bool :=
  scheduler.tasks.any fun event => event.func = func ∧ event.arg = arg

theorem cancelLoop_sublist (func : F) (arg : Option A) (tasks : List (EvEntry T F A)) :
    (cancelLoop func arg tasks).1.Sublist tasks := by
  fun_induction cancelLoop func arg tasks with
  | case1 => exact List.Sublist.refl _
  | case2 event chosen value next => exact sublist_cons_self event next
  | case3 event chosen => exact nil_sublist _
  | case4 event chosen neighbour next no_arg later returned result ih =>
      exact (ih.cons_cons neighbour).cons event
  | case5 event next chosen later returned result ih =>
      rw [result] at ih
      exact ih.cons_cons event

/-- With an argument the loop deletes the first event that is looked for, and tells whether there
was one. -/
theorem cancelLoop_some (func : F) (value : A) (tasks : List (EvEntry T F A)) :
    cancelLoop func (some value) tasks =
      (tasks.eraseP (Selected func (some value) ·), tasks.any (Selected func (some value) ·)) := by
  induction tasks with
  | nil => rfl
  | cons event next ih =>
      rw [cancelLoop]
      split
      next chosen => simp [chosen]
      next chosen => simp [chosen, ih]

/-- Without an argument the loop deletes all the events of the function just when no two of them
are neighbours. -/
theorem cancelLoop_none_iff (func : F) (tasks : List (EvEntry T F A)) :
    (cancelLoop func none tasks).1 = tasks.filter (·.func ≠ func) ↔
      tasks.IsChain (Apart func) := by
  fun_induction cancelLoop func (none : Option A) tasks with
  | case1 => simp
  | case2 event chosen value next impossible => cases impossible
  | case3 event chosen => simp [selected_none.1 chosen]
  | case4 event chosen neighbour next no_arg later returned result ih =>
      have this_func : event.func = func := selected_none.1 chosen
      rw [isChain_cons_cons, filter_cons_of_neg (by simpa using this_func)]
      by_cases neighbour_func : neighbour.func = func
      · have gone : neighbour ∉ next.filter (·.func ≠ func) := by simp [neighbour_func]
        rw [filter_cons_of_neg (by simpa using neighbour_func)]
        refine iff_of_false (fun equal => gone ?_) fun chain =>
          chain.1 ⟨this_func, neighbour_func⟩
        exact equal ▸ mem_cons_self
      · rw [filter_cons_of_pos (by simpa using neighbour_func),
          isChain_apart_cons neighbour_func, ← ih]
        simp [Apart, neighbour_func]
  | case5 event next chosen later returned result ih =>
      have other : event.func ≠ func := fun same => chosen (selected_none.2 same)
      rw [result] at ih
      rw [isChain_apart_cons other, filter_cons_of_pos (by simpa using other), ← ih]
      simp

end Cancel

/-! ## Adding and dispatching -/

section Clock

variable [LinearOrder T]

/-- The loop of `schedule`: insert after the last event with the same or an earlier time. -/
def insertEvent (event : EvEntry T F A) : List (EvEntry T F A) → List (EvEntry T F A)
  | [] => [event]
  | other :: next =>
      if event.when < other.when then event :: other :: next
      else other :: insertEvent event next

/-- `EventScheduler::schedule` at the time `current_dtime`. -/
def schedule [Add T] [Zero T] (scheduler : EventScheduler T F A) (current_dtime : T)
    (name : String) (func : F) (arg : Option A) (when : T) (weight : ℤ) (cbdata : Bool) :
    EventScheduler T F A :=
  let timestamp := if 0 < when then current_dtime + when else 0
  let event := ⟨name, func, arg, timestamp, weight, cbdata, scheduler.scheduled.length⟩
  { scheduler with
    tasks := insertEvent event scheduler.tasks
    scheduled := scheduler.scheduled ++ [event] }

/-- `EVENT_IDLE`. -/
def eventIdle : ℤ := -1

/-- `EventScheduler::checkDelay`, where `milliseconds` is the time from one moment to another
as an `int`. -/
def checkDelay (milliseconds : T → T → ℤ) (scheduler : EventScheduler T F A) (current_dtime : T) :
    ℤ :=
  match scheduler.tasks with
  | [] => eventIdle
  | event :: _ => max 0 (milliseconds current_dtime event.when)

/-- Whether no event is dispatched after this one, where `valid` is `cbdataReferenceValid`. -/
def heavy (valid : Option A → Bool) (event : EvEntry T F A) : Bool :=
  event.weight != 0 && (!event.cbdata || valid event.arg)

/-- The loop of `checkEvents`: the events dispatched, and those left. -/
def dispatchLoop (valid : Option A → Bool) (current_dtime : T) :
    List (EvEntry T F A) → List (EvEntry T F A) × List (EvEntry T F A)
  | [] => ([], [])
  | event :: next =>
      if current_dtime < event.when then ([], event :: next)
      else if heavy valid event then ([event], next)
      else
        let (later, left) := dispatchLoop valid current_dtime next
        (event :: later, left)

/-- `EventScheduler::checkEvents`. -/
def checkEvents (milliseconds : T → T → ℤ) (scheduler : EventScheduler T F A) (current_dtime : T)
    (valid : Option A → Bool) : EventScheduler T F A × ℤ :=
  let (events, tasks) := dispatchLoop valid current_dtime scheduler.tasks
  let after : EventScheduler T F A :=
    { scheduler with
      tasks
      dispatched := scheduler.dispatched ++ events.map fun event => (event, current_dtime) }
  (after, checkDelay milliseconds after current_dtime)

/-- Earlier in time, or at the same time and scheduled earlier. -/
def Before (event other : EvEntry T F A) : Prop :=
  event.when < other.when ∨ event.when = other.when ∧ event.serial < other.serial

theorem insertEvent_perm (event : EvEntry T F A) (tasks : List (EvEntry T F A)) :
    (insertEvent event tasks).Perm (event :: tasks) := by
  induction tasks with
  | nil => exact List.Perm.refl _
  | cons other tasks ih =>
      rw [insertEvent]
      split
      · exact List.Perm.refl _
      · exact (ih.cons other).trans (List.Perm.swap event other tasks)

/-- An event scheduled after all those of an ordered list goes to its place. -/
theorem insertEvent_sorted {event : EvEntry T F A} {tasks : List (EvEntry T F A)}
    (sorted : tasks.Pairwise Before) (newest : ∀ other ∈ tasks, other.serial < event.serial) :
    (insertEvent event tasks).Pairwise Before := by
  induction tasks with
  | nil => exact pairwise_singleton Before event
  | cons other tasks ih =>
      obtain ⟨first, rest⟩ := pairwise_cons.1 sorted
      rw [insertEvent]
      split
      next earlier =>
        refine pairwise_cons.2 ⟨fun later member => ?_, sorted⟩
        rcases mem_cons.1 member with same | member
        · exact .inl (same ▸ earlier)
        · rcases first later member with before | ⟨same, -⟩
          · exact .inl (earlier.trans before)
          · exact .inl (same ▸ earlier)
      next notEarlier =>
        refine pairwise_cons.2 ⟨fun later member => ?_, ih rest fun old member =>
          newest old (mem_cons_of_mem other member)⟩
        rcases mem_cons.1 ((insertEvent_perm event tasks).mem_iff.1 member) with same | member
        · subst same
          rcases (not_lt.1 notEarlier).lt_or_eq with before | same
          · exact .inl before
          · exact .inr ⟨same, newest other mem_cons_self⟩
        · exact first later member

/-- The events dispatched are those at the front, and they are due. -/
theorem dispatchLoop_spec (valid : Option A → Bool) (current_dtime : T)
    (tasks : List (EvEntry T F A)) :
    (dispatchLoop valid current_dtime tasks).1 ++ (dispatchLoop valid current_dtime tasks).2 =
        tasks ∧
      ∀ event ∈ (dispatchLoop valid current_dtime tasks).1, event.when ≤ current_dtime := by
  induction tasks with
  | nil => simp [dispatchLoop]
  | cons event next ih =>
      rw [dispatchLoop]
      split
      · simp
      next notLater =>
        have due : event.when ≤ current_dtime := not_lt.1 notLater
        split
        · simpa using due
        · simpa [due] using ih

/-! ## What holds between calls -/

/-- What holds between any two calls. -/
structure Good (scheduler : EventScheduler T F A) : Prop where
  /-- The list is ordered by time, and for one time as the events were scheduled. -/
  sorted : scheduler.tasks.Pairwise Before
  /-- Every event in the list and every one dispatched has been scheduled. -/
  logged : ∀ event ∈ scheduler.dispatched.map Prod.fst ++ scheduler.tasks,
    scheduler.scheduled[event.serial]? = some event
  /-- No event has been dispatched twice, nor is one still in the list. -/
  once : (scheduler.dispatched.map Prod.fst ++ scheduler.tasks).Nodup
  /-- No event has been dispatched before its time. -/
  due : ∀ moment ∈ scheduler.dispatched, moment.1.when ≤ moment.2

theorem good_empty : Good ({} : EventScheduler T F A) :=
  ⟨List.Pairwise.nil, by simp, nodup_nil, by simp⟩

variable {scheduler : EventScheduler T F A}

theorem Good.schedule [Add T] [Zero T] (good : Good scheduler) (current_dtime : T) (name : String)
    (func : F) (arg : Option A) (when : T) (weight : ℤ) (cbdata : Bool) :
    Good (scheduler.schedule current_dtime name func arg when weight cbdata) := by
  have older : ∀ event ∈ scheduler.dispatched.map Prod.fst ++ scheduler.tasks,
      event.serial < scheduler.scheduled.length := fun event member =>
    (List.getElem?_eq_some_iff.1 (good.logged event member)).1
  rw [EventScheduler.schedule]
  generalize (if 0 < when then current_dtime + when else 0) = timestamp
  generalize made : (⟨name, func, arg, timestamp, weight, cbdata, scheduler.scheduled.length⟩ :
    EvEntry T F A) = event
  have newest : event.serial = scheduler.scheduled.length := by rw [← made]
  have moved : (scheduler.dispatched.map Prod.fst ++ insertEvent event scheduler.tasks).Perm
      (event :: (scheduler.dispatched.map Prod.fst ++ scheduler.tasks)) :=
    ((insertEvent_perm event scheduler.tasks).append_left _).trans perm_middle
  refine ⟨insertEvent_sorted good.sorted ?_, ?_, ?_, good.due⟩
  · intro other member
    rw [newest]
    exact older other (mem_append_right _ member)
  · intro other member
    rcases mem_cons.1 (moved.mem_iff.1 member) with same | member
    · rw [same, newest, List.getElem?_concat_length]
    · rw [List.getElem?_append_left (older other member)]
      exact good.logged other member
  · refine moved.nodup_iff.2 (nodup_cons.2 ⟨fun member => ?_, good.once⟩)
    exact (older event member).ne newest

theorem Good.cancel [DecidableEq F] [DecidableEq A] (good : Good scheduler) (func : F)
    (arg : Option A) : Good (scheduler.cancel func arg).1 := by
  have fewer := cancelLoop_sublist func arg scheduler.tasks
  have fewerEvents := fewer.append_left (scheduler.dispatched.map Prod.fst)
  exact ⟨good.sorted.sublist fewer, fun event member =>
    good.logged event (fewerEvents.subset member), good.once.sublist fewerEvents, good.due⟩

theorem Good.checkEvents (good : Good scheduler) (milliseconds : T → T → ℤ) (current_dtime : T)
    (valid : Option A → Bool) :
    Good (scheduler.checkEvents milliseconds current_dtime valid).1 := by
  obtain ⟨parts, due⟩ := dispatchLoop_spec valid current_dtime scheduler.tasks
  rw [EventScheduler.checkEvents]
  generalize dispatchLoop valid current_dtime scheduler.tasks = result at parts due ⊢
  obtain ⟨events, tasks⟩ := result
  dsimp only at parts due ⊢
  have same : (scheduler.dispatched ++ events.map fun event => (event, current_dtime)).map
      Prod.fst ++ tasks = scheduler.dispatched.map Prod.fst ++ scheduler.tasks := by
    rw [← parts]
    simp [Function.comp_def]
  have fewer : tasks.Sublist scheduler.tasks := parts ▸ sublist_append_right events tasks
  refine ⟨good.sorted.sublist fewer, ?_, ?_, ?_⟩
  · rw [same]
    exact good.logged
  · rw [same]
    exact good.once
  · intro moment member
    rcases mem_append.1 member with earlier | now
    · exact good.due moment earlier
    · obtain ⟨event, first, rfl⟩ := List.mem_map.1 now
      exact due event first

end Clock

/-! ## Runs -/

/-- A call of the scheduler, with what it reads from its surroundings. -/
inductive Call (T F A : Type u)
  | schedule (current_dtime : T) (name : String) (func : F) (arg : Option A) (when : T)
      (weight : ℤ) (cbdata : Bool)
  | cancel (func : F) (arg : Option A)
  | find (func : F) (arg : Option A)
  | checkEvents (current_dtime : T) (valid : Option A → Bool)

variable [DecidableEq F] [DecidableEq A] [LinearOrder T] [Add T] [Zero T]

/-- What a call leaves behind. -/
def call (milliseconds : T → T → ℤ) (scheduler : EventScheduler T F A) :
    Call T F A → EventScheduler T F A
  | .schedule current_dtime name func arg when weight cbdata =>
      scheduler.schedule current_dtime name func arg when weight cbdata
  | .cancel func arg => (scheduler.cancel func arg).1
  | .find _ _ => scheduler
  | .checkEvents current_dtime valid => (scheduler.checkEvents milliseconds current_dtime valid).1

/-- The step of a run: every call can be made at any time. -/
def next (milliseconds : T → T → ℤ) (scheduler : EventScheduler T F A) (label : Call T F A) :
    Option (EventScheduler T F A) :=
  some (scheduler.call milliseconds label)

theorem Good.next {milliseconds : T → T → ℤ} {before after : EventScheduler T F A}
    {label : Call T F A} (good : Good before)
    (step : next milliseconds before label = some after) : Good after := by
  cases Option.some.inj step
  cases label with
  | schedule current_dtime name func arg when weight cbdata =>
      exact good.schedule current_dtime name func arg when weight cbdata
  | cancel func arg => exact good.cancel func arg
  | find func arg => exact good
  | checkEvents current_dtime valid => exact good.checkEvents milliseconds current_dtime valid

/-- After any calls the list is ordered and stable and no event has been dispatched early or
twice.  `cancel` with an argument deletes the first event that is looked for; without one it
deletes the events of the function just when no two of them are neighbours. -/
theorem reachable_spec (milliseconds : T → T → ℤ) {scheduler : EventScheduler T F A}
    (reach : LabelledRun.Reachable (next milliseconds) {} scheduler) :
    Good scheduler ∧
      (∀ func value, (scheduler.cancel func (some value)).1.tasks =
        scheduler.tasks.eraseP fun event => event.func = func ∧ event.arg = some value) ∧
      ∀ func, (scheduler.cancel func none).1.tasks =
          scheduler.tasks.filter (fun event => event.func ≠ func) ↔
        scheduler.tasks.IsChain fun event neighbour =>
          ¬ (event.func = func ∧ neighbour.func = func) := by
  refine ⟨reach.invariant Good.next good_empty, fun func value => ?_, fun func => ?_⟩
  · rw [cancel, cancelLoop_some]
    simp [Selected]
  · exact cancelLoop_none_iff func scheduler.tasks

/-- Two functions take turns, so that `cancel` finds every event of one of them. -/
theorem reachable_spec_turns :
    ∃ scheduler : EventScheduler ℤ ℕ ℕ,
      LabelledRun.exec (next fun _ _ => 0) {}
          [.schedule 100 "stat" 7 none 2 1 false, .schedule 100 "prune" 8 none 1 0 false,
            .schedule 100 "clean" 8 (some 3) 3 0 true, .checkEvents 101 fun _ => true,
            .schedule 50 "stat" 7 (some 4) 60 1 false] = some scheduler ∧
        Good scheduler ∧
        (scheduler.cancel 7 none).1.tasks = scheduler.tasks.filter (fun event => event.func ≠ 7) ∧
        scheduler.tasks.map (·.serial) = [0, 2, 3] := by
  have spec := reachable_spec (T := ℤ) (F := ℕ) (A := ℕ) (fun _ _ => 0)
    ⟨[.schedule 100 "stat" 7 none 2 1 false, .schedule 100 "prune" 8 none 1 0 false,
      .schedule 100 "clean" 8 (some 3) 3 0 true, .checkEvents 101 fun _ => true,
      .schedule 50 "stat" 7 (some 4) 60 1 false], rfl⟩
  exact ⟨_, rfl, spec.1, (spec.2.2 7).2 (by decide), by decide⟩

/-- Of two timers of one function the second stays. -/
theorem not_cancelled_twoTimers :
    ∃ scheduler : EventScheduler ℤ ℕ ℕ,
      LabelledRun.exec (next fun _ _ => 0) {}
          [.schedule 100 "stat" 7 none 2 1 false, .schedule 100 "stat" 7 none 3 1 false] =
        some scheduler ∧
      (scheduler.cancel 7 none).1.tasks ≠
        scheduler.tasks.filter (fun event => event.func ≠ 7) :=
  ⟨_, rfl, by decide⟩

end EventScheduler
end Squid
