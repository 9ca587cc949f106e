import Squid.Store.MemStoreMoves

/-!
# The shared memory cache neither leaks nor double-frees pages

A page moves from the free stack into the hands of a process, from there into a slot that becomes
`Readable`, and back.  Whatever is counted about pages is therefore conserved: the proof states this
for every way of counting that the operations of the stack respect, and derives from it where each
page is, that `push` always finds room and that every page is valid.
-/

namespace Squid
namespace MemStore

open Ipc Interleaving LabelledRun Option Function

variable {config : Config}

/-! ## The page of a slot -/

/-- The page number a `Readable` slot names, zero for other slots. -/
def slotPage (slot : StoreMapSlot Extras) : ℕ :=
  if slot.state = .Readable then slot.extras.page.number else 0

section SlotPage

variable {shared shared' : StoreMap.Shared config.entryLimit Extras}
  {own own' : StoreMap.Process config.entryLimit} {i : Fin config.entryLimit} {pc : StoreMap.Pc}

/-- An operation that goes on makes no slot `Readable` and changes no extra data of one, except
that of a `Readable` slot it cleans. -/
theorem proceedAt_readable
    (unread : ∀ keepLocked, pc = .freeLocked keepLocked .clean → (shared.slots i).state ≠ .Readable)
    (readable : ((StoreMap.proceedAt (some cleanReadable) shared own i pc).1.slots i).state =
      .Readable) :
    (shared.slots i).state = .Readable ∧
      ((StoreMap.proceedAt (some cleanReadable) shared own i pc).1.slots i).extras =
        (shared.slots i).extras := by
  cases pc with
  | freeLocked keepLocked position =>
      cases position with
      | clean => simp_all [StoreMap.proceedAt, StoreMap.proceedFreeLocked]
      | unlock =>
          cases keepLocked <;>
            simpa [StoreMap.proceedAt, StoreMap.proceedFreeLocked] using readable
      | empty => simp [StoreMap.proceedAt, StoreMap.proceedFreeLocked] at readable
      | _ => simpa [StoreMap.proceedAt, StoreMap.proceedFreeLocked] using readable
  | writeState => simp [StoreMap.proceedAt] at readable
  | readAssert key => cases key <;> simpa [StoreMap.proceedAt] using readable
  | closeWriteUnlock lockForReading =>
      cases lockForReading <;> simpa [StoreMap.proceedAt] using readable
  | _ =>
      simp only [StoreMap.proceedAt] at readable ⊢
      first
        | (split at readable <;> simp_all)
        | simpa using readable

/-- Only `freeLocked` takes a `Readable` slot out of that state. -/
theorem proceedAt_unreadable (knows : StoreMap.Knows (shared.slots i).state pc)
    (readable : (shared.slots i).state = .Readable)
    (other : ∀ keepLocked, pc ≠ .freeLocked keepLocked .empty) :
    ((StoreMap.proceedAt (some cleanReadable) shared own i pc).1.slots i).state = .Readable := by
  cases pc with
  | freeLocked keepLocked position =>
      cases position with
      | clean => simp [StoreMap.proceedAt, StoreMap.proceedFreeLocked, readable]
      | empty => exact absurd rfl (other keepLocked)
      | unlock =>
          cases keepLocked <;> simpa [StoreMap.proceedAt, StoreMap.proceedFreeLocked] using readable
      | _ => simpa [StoreMap.proceedAt, StoreMap.proceedFreeLocked] using readable
  | writeState => simp [StoreMap.Knows, readable] at knows
  | readAssert key => cases key <;> simpa [StoreMap.proceedAt] using readable
  | closeWriteUnlock lockForReading =>
      cases lockForReading <;> simpa [StoreMap.proceedAt] using readable
  | _ =>
      simp only [StoreMap.proceedAt]
      first
        | (split <;> simp [readable])
        | simpa using readable

/-- `cleanReadable` has returned, and the slot is not `Empty` yet. -/
def Cleaned (own : StoreMap.Process config.entryLimit) (i : Fin config.entryLimit) : Prop :=
  ∃ keepLocked, own.pc = some (i, .freeLocked keepLocked .unmark) ∨
    own.pc = some (i, .freeLocked keepLocked .empty)

/-- `freeLocked` alone leads past `cleanReadable`. -/
theorem cleaned_of_proceedAt {j : Fin config.entryLimit}
    (cleaned : Cleaned (StoreMap.proceedAt (some cleanReadable) shared own i pc).2 j) :
    j = i ∧ ∃ keepLocked, pc = .freeLocked keepLocked .clean ∨ pc =
      .freeLocked keepLocked .unmark := by
  obtain ⟨keepLocked, after⟩ := cleaned
  have here : j = i := by
    rcases after with at_unmark | at_empty
    · exact (StoreMap.proceedAt_own _ shared own i pc).after j _ at_unmark
    · exact (StoreMap.proceedAt_own _ shared own i pc).after j _ at_empty
  refine ⟨here, ?_⟩
  cases pc with
  | freeLocked keepLocked' position =>
      cases position with
      | clean => exact ⟨keepLocked', .inl rfl⟩
      | unmark => exact ⟨keepLocked', .inr rfl⟩
      | uncount =>
          cases keepLocked' <;>
            simp [StoreMap.proceedAt, StoreMap.proceedFreeLocked, StoreMap.Process.goto,
              StoreMap.Process.finish] at after
      | _ =>
          simp [StoreMap.proceedAt, StoreMap.proceedFreeLocked, StoreMap.Process.goto] at after
  | readAssert key =>
      cases key <;>
        simp [StoreMap.proceedAt, StoreMap.Process.goto, StoreMap.Process.returnReading] at after
  | closeWriteUnlock lockForReading =>
      cases lockForReading <;>
        simp [StoreMap.proceedAt, StoreMap.Process.goto, StoreMap.Process.finish] at after
  | _ =>
      simp only [StoreMap.proceedAt] at after
      first
        | (split at after <;>
            simp [StoreMap.Process.goto, StoreMap.Process.returnReading] at after)
        | simp [StoreMap.Process.goto, StoreMap.Process.finish, StoreMap.Process.returnReading,
            StoreMap.Process.returnWriting] at after

/-- Past `cleanReadable` the slot stays `Readable` only for as long as `freeLocked` is there. -/
theorem cleaned_or_empty (at_pc : own.pc = some (i, pc)) (cleaned : Cleaned own i) :
    Cleaned (StoreMap.proceedAt (some cleanReadable) shared own i pc).2 i ∨
      ((StoreMap.proceedAt (some cleanReadable) shared own i pc).1.slots i).state = .Empty := by
  obtain ⟨keepLocked, at_unmark | at_empty⟩ := cleaned
  · rw [at_pc, some.injEq, Prod.mk.injEq] at at_unmark
    obtain ⟨-, rfl⟩ := at_unmark
    exact .inl ⟨keepLocked, .inr rfl⟩
  · rw [at_pc, some.injEq, Prod.mk.injEq] at at_empty
    obtain ⟨-, rfl⟩ := at_empty
    exact .inr (by simp [StoreMap.proceedAt, StoreMap.proceedFreeLocked])

/-- No operation begins past `cleanReadable`. -/
theorem not_cleaned_of_enters {action : StoreMap.Action config.entryLimit Extras}
    (idle : own.pc = none) (enters : StoreMap.Enters shared own i action shared' own')
    (j : Fin config.entryLimit) : ¬ Cleaned own' j := by
  rintro ⟨keepLocked, after⟩
  cases enters with
  | set | setExtras => simp [idle] at after
  | openForWriting | free | abortIo =>
      simp only [StoreMap.Process.goto, some.injEq, Prod.mk.injEq] at after
      split at after <;> simp at after
  | openForReading | openForReadingAt | closeForWriting | closeForReading =>
      simp [StoreMap.Process.goto] at after

/-- Entering an operation leaves states and extra data alone, unless it says otherwise. -/
theorem enters_harmless {action : StoreMap.Action config.entryLimit Extras}
    (harmless : (∀ i extras, action ≠ .setExtras i extras) ∧
      ∀ i lockForReading, action ≠ .closeForWriting i lockForReading)
    (idle : own.pc = none) (enters : StoreMap.Enters shared own i action shared' own')
    (j : Fin config.entryLimit) :
    (shared'.slots j).state = (shared.slots j).state ∧
      (shared'.slots j).extras = (shared.slots j).extras := by
  by_cases here : j = i
  · subst here
    cases enters with
    | setExtras extras => exact absurd rfl (harmless.1 _ extras)
    | closeForWriting lockForReading => exact absurd rfl (harmless.2 _ lockForReading)
    | _ => simp
  · rw [(StoreMap.enters_frame idle enters).slots j here]
    exact ⟨rfl, rfl⟩

end SlotPage

/-! ## Conservation -/

/-- A way of counting pages that the operations of the page stack respect. -/
structure Measure (params : PageStack.Params) where
  /-- What the stack counts for. -/
  memory : PageStack.Shared params → ℤ
  /-- What a user of the stack counts for. -/
  hands : PageStack.Process → ℤ
  /-- What a page counts for where it is neither. -/
  page : ℕ → ℤ
  step : ∀ {stack stack' own own' action},
    PageStack.localStep stack own action = some (stack', own') →
      memory stack' + hands own' = memory stack + hands own
  hold : ∀ own (held : PageId), held.number ≠ 0 →
    hands { own with held := held :: own.held } = hands own + page held.number
  hands_empty : hands {} = 0
  page_zero : page 0 = 0
  page_nonneg : ∀ number, 0 ≤ page number
  hands_nonneg : ∀ own, 0 ≤ hands own

/-- How often a page number occurs. -/
def Measure.copies (params : PageStack.Params) {number : ℕ} (positive : number ≠ 0) :
    Measure params where
  memory stack := PageStack.itemCopies stack number
  hands own := own.copies number
  page other := if other = number then 1 else 0
  step local_step := (PageStack.localStep_effect local_step).copies number positive
  hold own held _ := by
    simp only [PageStack.Process.copies, PageStack.Process.numbers, List.count_append,
      List.map_cons, List.count_cons, beq_iff_eq]
    split <;> push_cast <;> ring
  hands_empty := rfl
  page_zero := if_neg positive.symm
  page_nonneg other := by split <;> simp
  hands_nonneg own := PageStack.copies_nonneg number own

/-- What is missing from `theSize`. -/
def Measure.size (params : PageStack.Params) : Measure params where
  memory stack := stack.theSize
  hands := PageStack.Process.units
  page number := if number = 0 then 0 else 1
  step local_step := (PageStack.localStep_effect local_step).size
  hold own held positive := by
    simp only [PageStack.Process.units, List.length_cons, if_neg positive]
    split <;> push_cast <;> ring
  hands_empty := rfl
  page_zero := if_pos rfl
  page_nonneg number := by split <;> simp
  hands_nonneg := PageStack.units_nonneg

/-- The number of a page, zero where there is none. -/
def numberOf (page : Option PageId) : ℕ := page.elim 0 PageId.number

@[simp]
theorem numberOf_none : numberOf none = 0 := rfl

@[simp]
theorem numberOf_some (page : PageId) : numberOf (some page) = page.number := rfl

/-- What a process counts for.  The page it is cleaning from a slot is still in the slot. -/
def Measure.process (measure : Measure config.pool) (own : Process config) : ℤ :=
  measure.hands own.stack + measure.page (numberOf own.pc.page) -
    measure.page (numberOf own.cleaning)

/-- What the slots count for. -/
def Measure.slots (measure : Measure config.pool)
    (map : StoreMap.Shared config.entryLimit Extras) : ℤ :=
  ∑ i, measure.page (slotPage (map.slots i))

/-- What a process knows about the slots under its exclusive lock. -/
structure Linked (map : StoreMap.Shared config.entryLimit Extras) (own : Process config) :
    Prop where
  /-- The slot being written names the page. -/
  stored : ∀ i page, own.pc.Stores i page →
    own.map.writing i = true ∧ (map.slots i).extras.page = page
  /-- The slot being cleaned names the page. -/
  cleaning : ∀ page, own.cleaning = some page → ∃ i keepLocked,
    own.map.pc = some (i, .freeLocked keepLocked .clean) ∧ (map.slots i).state = .Readable ∧
      (map.slots i).extras.page = page ∧ PageStack.pageIdIsValid config.pool page = true
  /-- A slot that was cleaned names no page. -/
  cleaned : ∀ i, Cleaned own.map i → slotPage (map.slots i) = 0

theorem Measure.slots_congr (measure : Measure config.pool)
    {map map' : StoreMap.Shared config.entryLimit Extras}
    (same : ∀ i, slotPage (map'.slots i) = slotPage (map.slots i)) :
    measure.slots map' = measure.slots map := by
  simp only [Measure.slots, same]

theorem Measure.slots_update (measure : Measure config.pool)
    {map map' : StoreMap.Shared config.entryLimit Extras} {i : Fin config.entryLimit}
    (same : ∀ j, j ≠ i → map'.slots j = map.slots j) :
    measure.slots map' = measure.slots map +
      (measure.page (slotPage (map'.slots i)) - measure.page (slotPage (map.slots i))) := by
  have update : ∀ j, slotPage (map'.slots j) =
      update (fun j => slotPage (map.slots j)) i (slotPage (map'.slots i)) j := by
    intro j
    by_cases here : j = i
    · subst here
      simp
    · simp [here, same j here]
  calc measure.slots map'
      = ∑ j, measure.page
          (Function.update (fun j => slotPage (map.slots j)) i (slotPage (map'.slots i)) j) :=
        Finset.sum_congr rfl fun j _ => congrArg measure.page (update j)
    _ = _ := sum_update measure.page _ i _

section Moves

variable {shared shared' : Shared config} {own own' : Process config}

variable {i : Fin config.entryLimit} {pc : StoreMap.Pc}

theorem MapMove.proceed (step : MapMove shared own .proceed shared' own')
    (at_pc : own.map.pc = some (i, pc)) :
    shared'.map = (StoreMap.proceedAt (some cleanReadable) shared.map own.map i pc).1 ∧
      own'.map = (StoreMap.proceedAt (some cleanReadable) shared.map own.map i pc).2 := by
  have moved := step.1
  simp only [StoreMap.localStep, at_pc, some.injEq] at moved
  exact ⟨by rw [moved], by rw [moved]⟩

theorem MapMove.enters {action : StoreMap.Action config.entryLimit Extras}
    (step : MapMove shared own action shared' own') (idle : own.map.pc = none) :
    ∃ i, StoreMap.Enters shared.map own.map i action shared'.map own'.map := by
  obtain ⟨i, pc, at_pc, -⟩ | ⟨-, enters⟩ := StoreMap.localStep_cases step.1
  · simp [idle] at at_pc
  · exact enters

/-- A map operation that goes on, and is not about to clean, leaves the pages of all slots. -/
theorem MapMove.slotPage_proceed (step : MapMove shared own .proceed shared' own')
    (at_pc : own.map.pc = some (i, pc)) (unread : ∀ keepLocked, pc = .freeLocked keepLocked .clean →
      (shared.map.slots i).state ≠ .Readable) (view : StoreMap.View i (shared.map.slots i) own.map)
    (linked : Linked shared.map own) (j : Fin config.entryLimit) :
    slotPage (shared'.map.slots j) = slotPage (shared.map.slots j) := by
  rw [(step.proceed at_pc).1]
  by_cases here : j = i
  · subst here
    by_cases after : ((StoreMap.proceedAt (some cleanReadable) shared.map own.map j pc).1.slots
        j).state = .Readable
    · obtain ⟨before, same⟩ := proceedAt_readable unread after
      simp only [slotPage, after, before, same]
    · have gone : slotPage (shared.map.slots j) = 0 := by
        by_cases before : (shared.map.slots j).state = .Readable
        · by_cases emptying : ∃ keepLocked, pc = .freeLocked keepLocked .empty
          · obtain ⟨keepLocked, rfl⟩ := emptying
            exact linked.cleaned j ⟨keepLocked, .inr at_pc⟩
          · exact absurd (proceedAt_unreadable (view.knows pc at_pc) before
              fun keepLocked same => emptying ⟨keepLocked, same⟩) after
        · exact if_neg before
      rw [gone, slotPage, if_neg after]
  · rw [StoreMap.proceedAt_slots _ _ _ _ _ here]

/-- `cleanReadable` has returned the page, and the slot no longer names it. -/
theorem MapMove.slotPage_cleaned {keepLocked : Bool}
    (step : MapMove shared own .proceed shared' own')
    (at_clean : own.map.pc = some (i, .freeLocked keepLocked .clean))
    (readable : (shared.map.slots i).state = .Readable)
    (valid : PageStack.pageIdIsValid config.pool (shared.map.slots i).extras.page = true) :
    slotPage (shared'.map.slots i) = 0 := by
  rw [(step.proceed at_clean).1]
  simp [StoreMap.proceedAt, StoreMap.proceedFreeLocked, readable, slotPage, cleanReadable,
    isSet_of_valid valid]

/-- What `setExtras` does to the slots. -/
theorem MapMove.setExtras {extras : Extras}
    (step : MapMove shared own (.setExtras i extras) shared' own') (idle : own.map.pc = none) :
    own.map.writing i = true ∧ own'.map = own.map ∧
      shared'.map = shared.map.modify i fun slot => { slot with extras } := by
  have moved := step.1
  simp only [StoreMap.localStep, idle, Option.ite_none_right_eq_some, some.injEq,
    Prod.mk.injEq] at moved
  exact ⟨moved.1, moved.2.2.symm, moved.2.1.symm⟩

/-- What `closeForWriting` does to the slots in its first step. -/
theorem MapMove.closeForWriting {lockForReading : Bool}
    (step : MapMove shared own (.closeForWriting i lockForReading) shared' own')
    (idle : own.map.pc = none) :
    (∀ j, j ≠ i → shared'.map.slots j = shared.map.slots j) ∧
      shared'.map.slots i = { shared.map.slots i with state := .Readable } := by
  have moved := step.1
  simp only [StoreMap.localStep, idle, Option.ite_none_right_eq_some, some.injEq,
    Prod.mk.injEq] at moved
  rw [← moved.2.1]
  exact ⟨fun j elsewhere => by simp [elsewhere], by simp⟩

theorem MapMove.slotPage_setExtras {extras : Extras}
    (step : MapMove shared own (.setExtras i extras) shared' own') (idle : own.map.pc = none)
    (view : StoreMap.View i (shared.map.slots i) own.map) (j : Fin config.entryLimit) :
    slotPage (shared'.map.slots j) = slotPage (shared.map.slots j) := by
  obtain ⟨writing, -, map⟩ := step.setExtras idle
  by_cases here : j = i
  · subst here
    simp [slotPage, map, view.writing writing]
  · simp [map, here]

/-- What holds of one process in every reachable state. -/
structure Healthy (shared : Shared config) (own : Process config) : Prop where
  stage : Stage own
  sound : PageStack.Sound config.pool own.stack
  room : own.stack.pc ≠ .idle → shared.stack.theSize < config.pool.theCapacity
  known : ∀ page ∈ own.stack.held, page.number ≤ config.pool.theCapacity
  valid : ∀ page, own.pc.page = some page → PageStack.pageIdIsValid config.pool page = true
  linked : Linked shared.map own
  view : ∀ i, StoreMap.View i (shared.map.slots i) own.map
  /-- A `Readable` slot that the process has locked names a page, unless the process cleaned it. -/
  readable : ∀ i, (shared.map.slots i).state = .Readable →
    (StoreMap.lockProcess i own.map).exclusive = true ∨ 0 < own.map.reading i →
      PageStack.pageIdIsValid config.pool (shared.map.slots i).extras.page = true ∨
        Cleaned own.map i

variable {page : PageId}

theorem number_ne_zero (valid : PageStack.pageIdIsValid config.pool page = true) :
    page.number ≠ 0 := by
  simp only [PageStack.pageIdIsValid, Bool.and_eq_true, bne_iff_ne, ne_eq] at valid
  exact valid.1.2

/-- The slot that `freeLocked` is about to clean names a page. -/
theorem Healthy.cleanable (healthy : Healthy shared own) {keepLocked : Bool}
    (at_clean : own.map.pc = some (i, .freeLocked keepLocked .clean))
    (readable : (shared.map.slots i).state = .Readable) :
    PageStack.pageIdIsValid config.pool (shared.map.slots i).extras.page = true := by
  have locked := StoreMap.exclusive_of_holds at_clean rfl
  refine (healthy.readable i readable (.inl locked)).resolve_right ?_
  rintro ⟨keepLocked', at_unmark | at_empty⟩
  · simp [at_clean] at at_unmark
  · simp [at_clean] at at_empty

/-- `pagePointer` is always given a valid page. -/
theorem Healthy.points (healthy : Healthy shared own) (page : PageId)
    (points : Points shared own page) : PageStack.pageIdIsValid config.pool page = true := by
  rcases points with mine | ⟨i, copying, rfl⟩
  · exact healthy.valid page mine
  · have reading := healthy.stage.opened copying
    have idle : own.map.pc = none :=
      (healthy.stage.resting (by rw [copying]; rfl) (by rw [copying]; rfl)).1
    refine (healthy.readable i ((healthy.view i).reading reading) (.inr reading)).resolve_right ?_
    rintro ⟨keepLocked, at_pc⟩
    simp [idle] at at_pc

theorem Linked.cleaning_eq_none {map : StoreMap.Shared config.entryLimit Extras}
    (linked : Linked map own) (idle : own.map.pc = none) : own.cleaning = none := by
  cases cleaning : own.cleaning with
  | none => rfl
  | some page =>
      obtain ⟨i, keepLocked, at_clean, -⟩ := linked.cleaning page cleaning
      simp [idle] at at_clean

/-- The page that `PutPage` is given moves into the hands of the process. -/
theorem PutMove.conserves (measure : Measure config.pool)
    (step : PutMove shared own page shared' own') (positive : page.number ≠ 0) :
    measure.memory shared'.stack + measure.hands own'.stack =
      measure.memory shared.stack + measure.hands own.stack + measure.page page.number := by
  have moved := measure.step step.1
  have held := measure.hold own.stack page positive
  dsimp only at moved held
  omega

/-- Whatever a measure counts, no move of a process changes the total. -/
theorem Move.conserves (measure : Measure config.pool) (move : Move shared own shared' own')
    (healthy : Healthy shared own) :
    measure.memory shared'.stack + measure.slots shared'.map + measure.process own' =
      measure.memory shared.stack + measure.slots shared.map + measure.process own := by
  have zero := measure.page_zero
  cases move with
  | position map stack own_map own_stack cleaning page stores =>
      rw [map, stack, Measure.process, Measure.process, own_stack, cleaning, page]
  | popped page map stack own_map own_stack own_stack' cleaning page_before page_after stores =>
      have positive : page.number ≠ 0 := (healthy.sound.held page (by simp [own_stack])).2
      have held := measure.hold {} page positive
      simp only [Measure.process, map, stack, own_stack, own_stack', cleaning, page_before,
        page_after, numberOf_none, numberOf_some]
      dsimp only at held
      omega
  | stack action step map own_map cleaning page stores =>
      have moved := measure.step step
      simp only [Measure.process, map, cleaning, page]
      omega
  | put page step valid cleaning page_before page_after stores =>
      have moved := step.conserves measure (number_ne_zero valid)
      simp only [Measure.process, step.2.1, cleaning, page_before, page_after, numberOf_none,
        numberOf_some]
      omega
  | clean i keepLocked at_clean readable none_before cleaning step unset pc =>
      have valid := healthy.cleanable at_clean readable
      have put := step (isSet_of_valid valid)
      have moved := put.conserves measure (number_ne_zero valid)
      simp only [Measure.process, put.2.1, pc, none_before, cleaning, numberOf_none, numberOf_some]
      omega
  | cleaned i keepLocked page at_clean before after step pc =>
      obtain ⟨j, keepLocked', at_j, readable, same, valid⟩ := healthy.linked.cleaning page before
      rw [at_clean, some.injEq, Prod.mk.injEq] at at_j
      obtain ⟨rfl, -⟩ := at_j
      subst same
      have frame : ∀ j, j ≠ i → shared'.map.slots j = shared.map.slots j := by
        intro j elsewhere
        rw [(step.proceed at_clean).1, StoreMap.proceedAt_slots _ _ _ _ _ elsewhere]
      have slots := measure.slots_update frame
      have now := step.slotPage_cleaned at_clean readable valid
      have was : slotPage (shared.map.slots i) = (shared.map.slots i).extras.page.number :=
        if_pos readable
      rw [now, was] at slots
      simp only [Measure.process, step.2.1, step.2.2, pc, before, after, numberOf_none,
        numberOf_some]
      omega
  | proceedMap i map_pc at_pc unread none_before cleaning step pc =>
      have slots := measure.slots_congr
        (step.slotPage_proceed at_pc unread (healthy.view i) healthy.linked)
      simp only [Measure.process, step.2.1, step.2.2, slots, pc, none_before, cleaning]
  | enter action harmless idle cleaning step page stores =>
      obtain ⟨i, enters⟩ := step.enters idle
      have same : ∀ j, slotPage (shared'.map.slots j) = slotPage (shared.map.slots j) := by
        intro j
        obtain ⟨state, extras⟩ := enters_harmless harmless idle enters j
        simp only [slotPage, state, extras]
      have slots := measure.slots_congr same
      simp only [Measure.process, step.2.1, step.2.2, slots, page, cleaning]
  | store i extras idle cleaning step before after stores =>
      have slots := measure.slots_congr (step.slotPage_setExtras idle (healthy.view i))
      simp only [Measure.process, step.2.1, step.2.2, slots, before, after, cleaning]
  | close i page idle cleaning step before after =>
      obtain ⟨written, named⟩ := healthy.linked.stored i page (.inr before)
      have slots := measure.slots_update (step.closeForWriting idle).1
      have was : slotPage (shared.map.slots i) = 0 :=
        if_neg (by simp [(healthy.view i).writing written])
      have now : slotPage (shared'.map.slots i) = page.number := by
        simp [slotPage, (step.closeForWriting idle).2, named]
      rw [now, was] at slots
      simp only [Measure.process, step.2.1, step.2.2, before, after, cleaning, Pc.page,
        numberOf_none, numberOf_some]
      omega

/-- For the map, a move is a step or nothing. -/
theorem Move.map (move : Move shared own shared' own') (healthy : Healthy shared own) :
    (shared'.map = shared.map ∧ own'.map = own.map) ∨
      ∃ action, StoreMap.localStep config.entryLimit_pos (some cleanReadable) shared.map own.map
        action = some (shared'.map, own'.map) := by
  cases move with
  | position map stack own_map => exact .inl ⟨map, own_map⟩
  | popped page map stack own_map => exact .inl ⟨map, own_map⟩
  | stack action step map own_map => exact .inl ⟨map, own_map⟩
  | put page step => exact .inl step.2
  | clean i keepLocked at_clean readable none_before cleaning step =>
      exact .inl (step (isSet_of_valid (healthy.cleanable at_clean readable))).2
  | cleaned i keepLocked page at_clean before after step
  | proceedMap i map_pc at_pc unread none_before cleaning step
  | enter action harmless idle cleaning step | store i extras idle cleaning step
  | close i page idle cleaning step => exact .inr ⟨_, step.1⟩

theorem PutMove.sound (step : PutMove shared own page shared' own') (healthy : Healthy shared own)
    (valid : PageStack.pageIdIsValid config.pool page = true) :
    PageStack.Sound config.pool own'.stack := by
  simp only [PageStack.pageIdIsValid, Bool.and_eq_true, beq_iff_eq, bne_iff_ne, ne_eq,
    decide_eq_true_eq] at valid
  have sound : PageStack.Sound config.pool
      { pc := own.stack.pc, held := page :: own.stack.held } :=
    ⟨healthy.sound.position, List.forall_mem_cons.2 ⟨valid.1, healthy.sound.held⟩⟩
  exact PageStack.localStep_sound sound healthy.room
    (List.forall_mem_cons.2 ⟨valid.2, healthy.known⟩) step.1

theorem Move.sound (move : Move shared own shared' own') (healthy : Healthy shared own) :
    PageStack.Sound config.pool own'.stack := by
  have sound := healthy.sound
  cases move with
  | position map stack own_map own_stack => rwa [own_stack]
  | popped page map stack own_map own_stack own_stack' =>
      rw [own_stack']
      exact ⟨trivial, by simp⟩
  | stack action step => exact PageStack.localStep_sound sound healthy.room healthy.known step
  | put page step valid => exact step.sound healthy valid
  | clean i keepLocked at_clean readable none_before cleaning step =>
      have valid := healthy.cleanable at_clean readable
      exact (step (isSet_of_valid valid)).sound healthy valid
  | cleaned i keepLocked page at_clean before after step
  | proceedMap i map_pc at_pc unread none_before cleaning step
  | enter action harmless idle cleaning step | store i extras idle cleaning step
  | close i page idle cleaning step => rwa [step.2.2]

theorem Move.valid (move : Move shared own shared' own') (healthy : Healthy shared own)
    (page : PageId) (mine : own'.pc.page = some page) :
    PageStack.pageIdIsValid config.pool page = true := by
  have valid := healthy.valid page
  cases move with
  | position map stack own_map own_stack cleaning same => exact valid (same ▸ mine)
  | popped taken map stack own_map own_stack own_stack' cleaning page_before page_after =>
      rw [page_after, some.injEq] at mine
      subst mine
      have member : taken ∈ own.stack.held := by simp [own_stack]
      have handed := healthy.sound.held taken member
      have inside := healthy.known taken member
      simp [PageStack.pageIdIsValid, handed, inside]
  | stack action step map own_map cleaning same => exact valid (same ▸ mine)
  | put taken step taken_valid cleaning page_before page_after => simp [page_after] at mine
  | clean i keepLocked at_clean readable none_before cleaning step unset pc =>
      exact valid (pc ▸ mine)
  | cleaned i keepLocked taken at_clean before after step pc => exact valid (pc ▸ mine)
  | proceedMap i map_pc at_pc unread none_before cleaning step pc => exact valid (pc ▸ mine)
  | enter action harmless idle cleaning step same => exact valid (same ▸ mine)
  | store i extras idle cleaning step before after => exact valid (before.trans (after ▸ mine))
  | close i taken idle cleaning step before after => simp [after, Pc.page] at mine

/-- What a process knows about the slots holds for as long as these and its own part stay. -/
theorem Linked.of_same {map map' : StoreMap.Shared config.entryLimit Extras}
    (linked : Linked map own) (same : map' = map) (own_map : own'.map = own.map)
    (cleaning : own'.cleaning = own.cleaning)
    (stores : ∀ i page, own'.pc.Stores i page → own.pc.Stores i page) : Linked map' own' := by
  subst same
  refine ⟨?_, ?_, ?_⟩
  · intro i page now
    rw [own_map]
    exact linked.stored i page (stores i page now)
  · rw [own_map, cleaning]
    exact linked.cleaning
  · rw [own_map]
    exact linked.cleaned

/-- A process inside a map operation stores no page. -/
theorem Stage.not_stores (stage : Stage own) (at_pc : own.map.pc = some (i, pc))
    (j : Fin config.entryLimit) (page : PageId) : ¬ own.pc.Stores j page := by
  refine not_stores_of_page ?_ j page
  cases stage with
  | rested map | popping e k pc map | popped e k pc map | putting k pc map => simp [map] at at_pc
  | mapping call | cleaning call => exact page_of_callsMap call

theorem Move.linked (move : Move shared own shared' own') (healthy : Healthy shared own) :
    Linked shared'.map own' := by
  have linked := healthy.linked
  cases move with
  | position map stack own_map own_stack cleaning page stores =>
      exact linked.of_same map own_map cleaning stores
  | popped page map stack own_map own_stack own_stack' cleaning page_before page_after stores
  | stack action step map own_map cleaning page stores =>
      exact linked.of_same map own_map cleaning fun i page now => absurd now (stores i page)
  | put page step valid cleaning page_before page_after stores =>
      exact linked.of_same step.2.1 step.2.2 cleaning fun i page now => absurd now (stores i page)
  | clean i keepLocked at_clean readable none_before cleaning step unset pc =>
      have valid := healthy.cleanable at_clean readable
      obtain ⟨-, map, own_map⟩ := step (isSet_of_valid valid)
      refine ⟨?_, ?_, ?_⟩
      · rw [pc]
        intro j page now
        exact absurd now (healthy.stage.not_stores at_clean j page)
      · rw [map, own_map, cleaning]
        rintro page same
        cases same
        exact ⟨i, keepLocked, at_clean, readable, rfl, valid⟩
      · rw [map, own_map]
        exact linked.cleaned
  | cleaned i keepLocked page at_clean before after step pc =>
      obtain ⟨j, keepLocked', at_j, readable, rfl, valid⟩ := linked.cleaning page before
      rw [at_clean, some.injEq, Prod.mk.injEq] at at_j
      obtain ⟨rfl, -⟩ := at_j
      refine ⟨?_, by simp [after], ?_⟩
      · rw [pc]
        intro j page now
        exact absurd now (healthy.stage.not_stores at_clean j page)
      · intro j cleaned
        rw [(step.proceed at_clean).2] at cleaned
        obtain ⟨rfl, -⟩ := cleaned_of_proceedAt cleaned
        exact step.slotPage_cleaned at_clean readable valid
  | proceedMap i map_pc at_pc unread none_before cleaning step pc =>
      refine ⟨?_, by simp [cleaning], ?_⟩
      · rw [pc]
        intro j page now
        exact absurd now (healthy.stage.not_stores at_pc j page)
      · intro j cleaned
        rw [step.slotPage_proceed at_pc unread (healthy.view i) linked]
        rw [(step.proceed at_pc).2] at cleaned
        obtain ⟨rfl, keepLocked, rfl | rfl⟩ := cleaned_of_proceedAt cleaned
        · exact if_neg (unread keepLocked rfl)
        · exact linked.cleaned j ⟨keepLocked, .inl at_pc⟩
  | enter action harmless idle cleaning step page stores =>
      obtain ⟨i, enters⟩ := step.enters idle
      refine ⟨?_, ?_, fun j now => absurd now (not_cleaned_of_enters idle enters j)⟩
      · intro j page now
        obtain ⟨before, own_map⟩ := stores j page now
        rw [own_map, (enters_harmless harmless idle enters j).2]
        exact linked.stored j page before
      · simp [cleaning, linked.cleaning_eq_none idle]
  | store i extras idle cleaning step before after stores =>
      obtain ⟨writing, own_map, map⟩ := step.setExtras idle
      refine ⟨?_, ?_, ?_⟩
      · intro j page now
        obtain ⟨rfl, rfl⟩ := stores j page now
        rw [own_map, map]
        exact ⟨writing, by simp⟩
      · simp [cleaning, linked.cleaning_eq_none idle]
      · rintro j ⟨keepLocked, at_pc⟩
        simp [own_map, idle] at at_pc
  | close i page idle cleaning step before after =>
      obtain ⟨j, enters⟩ := step.enters idle
      refine ⟨?_, ?_, fun j now => absurd now (not_cleaned_of_enters idle enters j)⟩
      · rintro j page (⟨e, now⟩ | now) <;> simp [after] at now
      · simp [cleaning, linked.cleaning_eq_none idle]

/-- A slot that is `Readable` after a move names a page or is being emptied, unless it was
`Readable` and named the same page before. -/
theorem Move.readable (move : Move shared own shared' own') (healthy : Healthy shared own)
    (i : Fin config.entryLimit) (readable : (shared'.map.slots i).state = .Readable) :
    PageStack.pageIdIsValid config.pool (shared'.map.slots i).extras.page = true ∨
      Cleaned own'.map i ∨
      ((shared.map.slots i).state = .Readable ∧
        (shared'.map.slots i).extras = (shared.map.slots i).extras ∧
        ¬ Cleaned own.map i) := by
  have unmoved : shared'.map = shared.map → own'.map = own.map →
      Cleaned own'.map i ∨ ((shared.map.slots i).state = .Readable ∧
        (shared'.map.slots i).extras = (shared.map.slots i).extras ∧ ¬ Cleaned own.map i) := by
    intro map own_map
    by_cases cleaned : Cleaned own.map i
    · exact .inl (own_map ▸ cleaned)
    · exact .inr ⟨map ▸ readable, by rw [map], cleaned⟩
  cases move with
  | position map stack own_map | popped page map stack own_map | stack action step map own_map =>
      exact .inr (unmoved map own_map)
  | put page step => exact .inr (unmoved step.2.1 step.2.2)
  | clean j keepLocked at_clean before none_before cleaning step =>
      obtain ⟨-, map, own_map⟩ := step (isSet_of_valid (healthy.cleanable at_clean before))
      exact .inr (unmoved map own_map)
  | cleaned j keepLocked page at_clean before after step pc =>
      obtain ⟨map, own_map⟩ := step.proceed at_clean
      by_cases here : i = j
      · subst here
        exact .inr (.inl ⟨keepLocked, .inl (by rw [own_map]; rfl)⟩)
      · refine .inr (.inr ?_)
        have same : shared'.map.slots i = shared.map.slots i := by
          rw [map, StoreMap.proceedAt_slots _ _ _ _ _ here]
        refine ⟨same ▸ readable, by rw [same], ?_⟩
        rintro ⟨keepLocked', at_pc⟩
        simp [at_clean] at at_pc
  | proceedMap j map_pc at_pc unread none_before cleaning step pc =>
      obtain ⟨map, own_map⟩ := step.proceed at_pc
      by_cases here : i = j
      · subst here
        rw [map] at readable
        obtain ⟨before, same⟩ := proceedAt_readable unread readable
        by_cases cleaned : Cleaned own.map i
        · rcases cleaned_or_empty at_pc cleaned with still | empty
          · exact .inr (.inl (by rwa [own_map]))
          · simp [readable] at empty
        · exact .inr (.inr ⟨before, by rw [map, same], cleaned⟩)
      · have same : shared'.map.slots i = shared.map.slots i := by
          rw [map, StoreMap.proceedAt_slots _ _ _ _ _ here]
        refine .inr (.inr ⟨same ▸ readable, by rw [same], ?_⟩)
        rintro ⟨keepLocked', elsewhere⟩
        simp [at_pc, Ne.symm here] at elsewhere
  | enter action harmless idle cleaning step page stores =>
      obtain ⟨j, enters⟩ := step.enters idle
      obtain ⟨state, extras⟩ := enters_harmless harmless idle enters i
      refine .inr (.inr ⟨state ▸ readable, extras, ?_⟩)
      rintro ⟨keepLocked, at_pc⟩
      simp [idle] at at_pc
  | store j extras idle cleaning step before after stores =>
      obtain ⟨writing, own_map, map⟩ := step.setExtras idle
      by_cases here : i = j
      · subst here
        simp [map, (healthy.view i).writing writing] at readable
      · have same : shared'.map.slots i = shared.map.slots i := by simp [map, here]
        refine .inr (.inr ⟨same ▸ readable, by rw [same], ?_⟩)
        rintro ⟨keepLocked, at_pc⟩
        simp [idle] at at_pc
  | close j page idle cleaning step before after =>
      obtain ⟨frame, slot⟩ := step.closeForWriting idle
      by_cases here : i = j
      · subst here
        left
        rw [slot, (healthy.linked.stored i page (.inr before)).2]
        exact healthy.valid page (by rw [before]; rfl)
      · refine .inr (.inr ⟨frame i here ▸ readable, by rw [frame i here], ?_⟩)
        rintro ⟨keepLocked, at_pc⟩
        simp [idle] at at_pc

end Moves

/-! ## The invariant of the whole cache -/

section System

variable {P : Type*} [Fintype P]

/-- The map and its users. -/
def mapSystem (system : System config P) : StoreMap.System P config.entryLimit Extras where
  memory := system.memory.map
  process p := (system.process p).map

/-- What a measure counts in the whole system. -/
def Measure.total (measure : Measure config.pool) (system : System config P) : ℤ :=
  measure.memory system.memory.stack + measure.slots system.memory.map +
    ∑ p, measure.process (system.process p)

/-- What holds in every reachable state of the cache. -/
structure Invariant (system : System config P) : Prop where
  map : StoreMap.Invariant (mapSystem system)
  stage : ∀ p, Stage (system.process p)
  sound : ∀ p, PageStack.Sound config.pool (system.process p).stack
  valid : ∀ p page, (system.process p).pc.page = some page →
    PageStack.pageIdIsValid config.pool page = true
  linked : ∀ p, Linked system.memory.map (system.process p)
  /-- A `Readable` slot names a page until `cleanReadable` returned it. -/
  readable : ∀ i, (system.memory.map.slots i).state = .Readable →
    PageStack.pageIdIsValid config.pool (system.memory.map.slots i).extras.page = true ∨
      ∃ p, Cleaned (system.process p).map i
  /-- Whatever is counted about pages is what it was when all of them were free. -/
  conserved : ∀ measure : Measure config.pool,
    measure.total system = measure.memory (PageStack.construct config.pool)

theorem invariant_initial : Invariant (initial config P) := by
  have map : StoreMap.Invariant (StoreMap.initial P config.entryLimit ({} : Extras)) :=
    StoreMap.invariant_initial _
  refine ⟨map, ?_, ?_, ?_, ?_, ?_, ?_⟩
  · exact fun p => .rested rfl rfl rfl trivial
  · exact fun p => ⟨trivial, by simp [initial]⟩
  · simp [initial, Pc.page]
  · refine fun p => ⟨?_, by simp [initial], ?_⟩
    · rintro i page (⟨e, now⟩ | now) <;> simp [initial] at now
    · rintro i ⟨keepLocked, now⟩
      simp [initial] at now
  · simp [initial]
  · intro measure
    simp [Measure.total, Measure.slots, Measure.process, initial, slotPage, Pc.page,
      measure.page_zero, measure.hands_empty]

/-- The process has handed the page of slot `i` to `PutPage`. -/
def Process.Cleans (own : Process config) (i : Fin config.entryLimit) : Prop :=
  own.cleaning ≠ none ∧ ∃ keepLocked, own.map.pc = some (i, .freeLocked keepLocked .clean)

section Holdings

variable {system : System config P}

variable {i : Fin config.entryLimit}

/-- At most one process has the exclusive lock of a slot. -/
theorem Invariant.exclusive_unique (inv : Invariant system) {p q : P}
    (mine : (StoreMap.lockProcess i (system.process p).map).exclusive = true)
    (theirs : (StoreMap.lockProcess i (system.process q).map).exclusive = true) : p = q :=
  (inv.map.lock i).claimant_unique p q (.inl mine) (.inl theirs)

variable {own : Process config}

theorem Process.Cleans.exclusive (cleans : own.Cleans i) :
    (StoreMap.lockProcess i own.map).exclusive = true := by
  obtain ⟨-, keepLocked, at_clean⟩ := cleans
  exact StoreMap.exclusive_of_holds at_clean rfl

theorem Cleaned.exclusive {own : StoreMap.Process config.entryLimit} (cleaned : Cleaned own i) :
    (StoreMap.lockProcess i own).exclusive = true := by
  obtain ⟨keepLocked, at_unmark | at_empty⟩ := cleaned
  · exact StoreMap.exclusive_of_holds at_unmark rfl
  · exact StoreMap.exclusive_of_holds at_empty rfl

open Classical in
/-- What the process is cleaning is the page of the slot it cleans. -/
theorem Invariant.cleaning_eq (inv : Invariant system) (measure : Measure config.pool) (p : P) :
    measure.page (numberOf (system.process p).cleaning) =
      ∑ i, if (system.process p).Cleans i then
        measure.page (slotPage (system.memory.map.slots i)) else 0 := by
  cases cleaning : (system.process p).cleaning with
  | none =>
      rw [numberOf_none, measure.page_zero]
      exact (Finset.sum_eq_zero fun i _ => if_neg fun cleans => cleans.1 cleaning).symm
  | some page =>
      obtain ⟨i, keepLocked, at_clean, readable, named, -⟩ := (inv.linked p).cleaning page cleaning
      have slot : slotPage (system.memory.map.slots i) = page.number := by
        rw [slotPage, if_pos readable, named]
      rw [Finset.sum_eq_single i, if_pos ⟨by simp [cleaning], keepLocked, at_clean⟩, slot,
        numberOf_some]
      · intro j _ different
        refine if_neg ?_
        rintro ⟨-, keepLocked', elsewhere⟩
        rw [at_clean, some.injEq, Prod.mk.injEq] at elsewhere
        exact different elsewhere.1.symm
      · simp

open Classical in
/-- The total, with every page in one place only: the free stack, a slot that no process is
cleaning, or the hands of a process. -/
theorem Invariant.total_eq (inv : Invariant system) (measure : Measure config.pool) :
    measure.memory system.memory.stack +
        (∑ i, if ∃ p, (system.process p).Cleans i then 0
          else measure.page (slotPage (system.memory.map.slots i))) +
        ∑ p, (measure.hands (system.process p).stack +
          measure.page (numberOf (system.process p).pc.page)) =
      measure.memory (PageStack.construct config.pool) := by
  rw [← inv.conserved measure, Measure.total, Measure.slots]
  have cleaning : ∑ p, measure.page (numberOf (system.process p).cleaning) =
      ∑ i, if ∃ p, (system.process p).Cleans i then
        measure.page (slotPage (system.memory.map.slots i)) else 0 := by
    rw [Finset.sum_congr rfl fun p _ => inv.cleaning_eq measure p, Finset.sum_comm]
    refine Finset.sum_congr rfl fun i _ => sum_of_unique ?_ _
    exact fun p q mine theirs => inv.exclusive_unique mine.exclusive theirs.exclusive
  have slots : (∑ i, if ∃ p, (system.process p).Cleans i then 0
        else measure.page (slotPage (system.memory.map.slots i))) +
      (∑ i, if ∃ p, (system.process p).Cleans i then
        measure.page (slotPage (system.memory.map.slots i)) else 0) =
      ∑ i, measure.page (slotPage (system.memory.map.slots i)) := by
    rw [← Finset.sum_add_distrib]
    refine Finset.sum_congr rfl fun i _ => ?_
    split <;> simp
  simp only [Measure.process, Finset.sum_sub_distrib]
  omega

theorem Invariant.hands_le (inv : Invariant system) (measure : Measure config.pool) (p : P) :
    measure.memory system.memory.stack + measure.hands (system.process p).stack ≤
      measure.memory (PageStack.construct config.pool) := by
  classical
  rw [← inv.total_eq measure]
  have slots : 0 ≤ ∑ i, if ∃ p, (system.process p).Cleans i then 0
      else measure.page (slotPage (system.memory.map.slots i)) := by
    refine Finset.sum_nonneg fun i _ => ?_
    split
    · exact le_rfl
    · exact measure.page_nonneg _
  have hands : ∀ own : Process config,
      0 ≤ measure.hands own.stack + measure.page (numberOf own.pc.page) := by
    intro own
    have := measure.hands_nonneg own.stack
    have := measure.page_nonneg (numberOf own.pc.page)
    omega
  have mine := weight_le_sum hands system.process p
  have := measure.page_nonneg (numberOf (system.process p).pc.page)
  omega

theorem Invariant.healthy (inv : Invariant system) (p : P) :
    Healthy system.memory (system.process p) := by
  refine ⟨inv.stage p, inv.sound p, ?_, ?_, inv.valid p, inv.linked p, inv.map.view p, ?_⟩
  · intro busy
    have total : system.memory.stack.theSize + (system.process p).stack.units ≤
        config.pool.theCapacity := inv.hands_le (.size config.pool) p
    have positive := PageStack.units_pos busy
    omega
  · intro page member
    have positive := ((inv.sound p).held page member).2
    have total : PageStack.itemCopies system.memory.stack page.number +
        (system.process p).stack.copies page.number ≤
          PageStack.itemCopies (PageStack.construct config.pool) page.number :=
      inv.hands_le (.copies config.pool positive) p
    have items := PageStack.itemCopies_nonneg system.memory.stack page.number
    have mine : page.number ∈ (system.process p).stack.numbers :=
      List.mem_append_right _ (List.mem_map_of_mem member)
    have counted := List.count_pos_iff.mpr mine
    by_contra outside
    rw [PageStack.itemCopies_construct positive, if_neg outside] at total
    simp only [PageStack.Process.copies] at total
    omega
  · intro i readable locked
    refine (inv.readable i readable).imp id ?_
    rintro ⟨q, cleaned⟩
    rcases locked with mine | reading
    · rwa [inv.exclusive_unique mine cleaned.exclusive]
    · have unread := (inv.map.lock i).excluded q p cleaned.exclusive
      have bound := StoreMap.reading_le_shared i (system.process p).map
      simp only [StoreMap.lockSystem, mapSystem] at unread
      omega

/-- A move of another process leaves what the slots store under the lock of a process. -/
theorem Invariant.content_eq (inv : Invariant system) {p q : P} {shared : Shared config}
    (different : q ≠ p)
    (moved : StoreMap.localStep config.entryLimit_pos (some cleanReadable) system.memory.map
      (system.process p).map action = some (shared.map, own.map))
    (locked : (StoreMap.lockProcess i (system.process q).map).exclusive = true) :
    (shared.map.slots i).content = (system.memory.map.slots i).content := by
  obtain ⟨j, frame, effect⟩ := StoreMap.Invariant.localStep_effect inv.map moved
  by_cases here : i = j
  · subst here
    refine effect.content.resolve_right fun mine => ?_
    exact different (inv.exclusive_unique locked mine)
  · exact congrArg StoreMapSlot.content (frame.slots i here)

theorem Linked.of_content {map map' : StoreMap.Shared config.entryLimit Extras}
    (linked : Linked map own) (same : ∀ i, (StoreMap.lockProcess i own.map).exclusive = true →
      (map'.slots i).content = (map.slots i).content) : Linked map' own := by
  have state : ∀ i, (StoreMap.lockProcess i own.map).exclusive = true →
      (map'.slots i).state = (map.slots i).state :=
        fun i locked => congrArg Prod.fst (same i locked)
  have extras : ∀ i, (StoreMap.lockProcess i own.map).exclusive = true →
      (map'.slots i).extras = (map.slots i).extras := fun i locked =>
    congrArg (fun content => content.2.2.2) (same i locked)
  refine ⟨?_, ?_, ?_⟩
  · intro i page stores
    obtain ⟨writing, named⟩ := linked.stored i page stores
    rw [extras i (StoreMap.exclusive_of_writing writing)]
    exact ⟨writing, named⟩
  · intro page cleaning
    obtain ⟨i, keepLocked, at_clean, readable, named, valid⟩ := linked.cleaning page cleaning
    have locked := StoreMap.exclusive_of_holds at_clean rfl
    refine ⟨i, keepLocked, at_clean, ?_, ?_, valid⟩
    · rw [state i locked, readable]
    · rw [extras i locked, named]
  · intro i cleaned
    rw [slotPage, state i cleaned.exclusive, extras i cleaned.exclusive]
    exact linked.cleaned i cleaned

end Holdings

section Steps

variable [DecidableEq P] {before after : System config P}

theorem Invariant.map_step (inv : Invariant before) {p : P} {shared : Shared config}
    {own : Process config}
    (moved : (shared.map = before.memory.map ∧ own.map = (before.process p).map) ∨
      ∃ action, StoreMap.localStep config.entryLimit_pos (some cleanReadable) before.memory.map
        (before.process p).map action = some (shared.map, own.map)) :
    StoreMap.Invariant
      (mapSystem { memory := shared, process := update before.process p own }) := by
  have process : (fun q => (update before.process p own q).map) =
      update (fun q => (before.process q).map) p own.map :=
    comp_update Process.map before.process p own
  simp only [mapSystem, process]
  rcases moved with ⟨map, own_map⟩ | ⟨action, map_step⟩
  · rw [map, own_map, update_eq_self]
    exact inv.map
  · exact StoreMap.invariant_step inv.map
      (interleave_eq_some.mpr ⟨_, _, map_step, rfl⟩ :
        StoreMap.next config.entryLimit_pos (some cleanReadable) (mapSystem before) (p, action) =
          some _)

theorem invariant_step {label : P × Action config} (inv : Invariant before)
    (moved : step before label = some after) : Invariant after := by
  obtain ⟨p, action⟩ := label
  obtain ⟨shared, own, local_step, rfl⟩ := interleave_eq_some.mp moved
  have healthy := inv.healthy p
  obtain ⟨move, stage⟩ := localStep_move (inv.stage p) healthy.points local_step
  have map_move := move.map healthy
  refine ⟨?_, ?_, ?_, ?_, ?_, ?_, ?_⟩
  · exact inv.map_step map_move
  · exact (forall_update_iff _ fun _ => Stage).2 ⟨stage, fun q _ => inv.stage q⟩
  · exact (forall_update_iff _ fun _ (own : Process config) =>
      PageStack.Sound config.pool own.stack).2
      ⟨move.sound healthy, fun q _ => inv.sound q⟩
  · exact (forall_update_iff _ fun _ (own : Process config) =>
      ∀ page, own.pc.page = some page →
      PageStack.pageIdIsValid config.pool page = true).2
      ⟨move.valid healthy, fun q _ => inv.valid q⟩
  · refine (forall_update_iff _ fun _ => Linked shared.map).2
      ⟨move.linked healthy, fun q different => ?_⟩
    rcases map_move with ⟨same, -⟩ | ⟨map_action, map_step⟩
    · rw [same]
      exact inv.linked q
    · exact (inv.linked q).of_content fun i locked => inv.content_eq different map_step locked
  · intro i readable
    rcases move.readable healthy i readable with valid | cleaned | ⟨readable_before, same, unclean⟩
    · exact .inl valid
    · exact .inr ⟨p, by simpa using cleaned⟩
    · rcases inv.readable i readable_before with valid | ⟨q, cleaned⟩
      · exact .inl (by rwa [same])
      · refine .inr ⟨q, ?_⟩
        have different : q ≠ p := by
          rintro rfl
          exact unclean cleaned
        simpa [different] using cleaned
  · intro measure
    rw [← inv.conserved measure]
    have local_total := move.conserves measure healthy
    have total := sum_update measure.process before.process p own
    simp only [Measure.total]
    omega

theorem invariant_reachable {system : System config P}
    (reach : Reachable step (initial config P) system) : Invariant system :=
  reach.invariant invariant_step invariant_initial

end Steps

/-! ## Where the pages are -/

/-- The page numbers in the hands of a process. -/
def Process.numbers (own : Process config) : List ℕ :=
  (own.pc.page.map PageId.number).toList ++ own.stack.numbers

/-- The process runs a `keep` that has called `GetPage` and whose slot is not `Readable` yet, or a
`PutPage`. -/
def Process.Handles (own : Process config) : Prop :=
  own.pc.page ≠ none ∨ own.pc.callsStack = true ∨ own.cleaning ≠ none

/-- The slot is `Readable`, and its page has not been handed to `PutPage`. -/
def Live (system : System config P) (i : Fin config.entryLimit) : Prop :=
  (system.memory.map.slots i).state = .Readable ∧
    ∀ p, ¬ (system.process p).Cleans i ∧ ¬ Cleaned (system.process p).map i

/-- The places where a page can be: an item of the free stack, the extra data of a slot or the
hands of a process. -/
abbrev Place (config : Config) (P : Type*) :=
  Fin config.pool.theCapacity ⊕ Fin config.entryLimit ⊕ P

/-- The page is at the place. -/
def At (system : System config P) (number : ℕ) : Place config P → Prop
  | .inl j => system.memory.stack.theItems j = number
  | .inr (.inl i) => Live system i ∧ (system.memory.map.slots i).extras.page.number = number
  | .inr (.inr p) => number ∈ (system.process p).numbers

theorem Stage.handles {own : Process config} (stage : Stage own) (busy : own.numbers ≠ []) :
    own.Handles := by
  unfold Process.Handles
  cases stage with
  | rested map stack cleaning | mapping call stack cleaning =>
      left
      rintro empty
      simp [Process.numbers, empty, stack, PageStack.Process.numbers, PageStack.Pc.page] at busy
  | cleaning call i keepLocked map page cleaning => simp [cleaning]
  | popping e i pc | popped e i pc | putting i pc => simp [pc, Pc.callsStack]

section Places

variable {system : System config P}

variable {number : ℕ}

theorem live_iff (inv : Invariant system) (positive : number ≠ 0) (i : Fin config.entryLimit) :
    (Live system i ∧ (system.memory.map.slots i).extras.page.number = number) ↔
      (¬ ∃ p, (system.process p).Cleans i) ∧ slotPage (system.memory.map.slots i) = number := by
  constructor
  · rintro ⟨⟨readable, untouched⟩, named⟩
    exact ⟨fun ⟨p, cleans⟩ => (untouched p).1 cleans, by rw [slotPage, if_pos readable, named]⟩
  · rintro ⟨unclean, named⟩
    have readable : (system.memory.map.slots i).state = .Readable := by
      by_contra other
      rw [slotPage, if_neg other] at named
      exact positive named.symm
    refine ⟨⟨readable, fun p => ⟨fun cleans => unclean ⟨p, cleans⟩, fun cleaned => ?_⟩⟩, ?_⟩
    · exact positive (named.symm.trans ((inv.linked p).cleaned i cleaned))
    · rwa [slotPage, if_pos readable] at named

theorem mem_numbers_iff (own : Process config) (positive : number ≠ 0) :
    number ∈ own.numbers ↔
      0 < own.stack.copies number + if numberOf own.pc.page = number then 1 else 0 := by
  have hands : number ∈ own.stack.numbers ↔ 0 < own.stack.copies number := by
    simp [PageStack.Process.copies, List.count_pos_iff]
  have nonneg := PageStack.copies_nonneg number own.stack
  cases page : own.pc.page with
  | none => simp [Process.numbers, page, hands, positive.symm]
  | some page' =>
      simp only [Process.numbers, page, map_some, toList_some, List.cons_append,
        List.nil_append, List.mem_cons, hands, numberOf_some]
      by_cases same : page'.number = number
      · simp only [same, true_or, if_true, true_iff]
        omega
      · simp [same, Ne.symm same]

open Classical in
/-- How often a page number occurs at a place. -/
noncomputable def weightAt (system : System config P) (number : ℕ) : Place config P → ℤ
  | .inl j => if system.memory.stack.theItems j = number then 1 else 0
  | .inr (.inl i) =>
      if ∃ p, (system.process p).Cleans i then 0
      else if slotPage (system.memory.map.slots i) = number then 1 else 0
  | .inr (.inr p) =>
      (system.process p).stack.copies number +
        if numberOf (system.process p).pc.page = number then 1 else 0

theorem weightAt_nonneg (system : System config P) (number : ℕ) (place : Place config P) :
    0 ≤ weightAt system number place := by
  rcases place with j | i | p
  · simp only [weightAt]
    split <;> simp
  · simp only [weightAt]
    split
    · exact le_rfl
    · split <;> simp
  · have nonneg := PageStack.copies_nonneg number (system.process p).stack
    simp only [weightAt]
    split <;> omega

theorem Invariant.at_iff (inv : Invariant system) (positive : number ≠ 0) (place : Place config P) :
    At system number place ↔ 0 < weightAt system number place := by
  rcases place with j | i | p
  · simp only [At, weightAt]
    split <;> simp_all
  · rw [At, live_iff inv positive i, weightAt]
    split
    · simp_all
    · split <;> simp_all
  · exact mem_numbers_iff _ positive

theorem Invariant.existsUnique_at (inv : Invariant system) (positive : 1 ≤ number)
    (inside : number ≤ config.pool.theCapacity) : ∃! place, At system number place := by
  have nonzero : number ≠ 0 := by omega
  have total : ∑ place, weightAt system number place = 1 := by
    have pages := inv.total_eq (.copies config.pool nonzero)
    simp only [Measure.copies, PageStack.itemCopies_construct nonzero, if_pos inside] at pages
    rw [Fintype.sum_sum_type, Fintype.sum_sum_type, ← add_assoc]
    exact pages
  simpa only [inv.at_iff nonzero] using
    existsUnique_of_sum_eq_one (weightAt_nonneg system number) total

theorem Invariant.live_valid (inv : Invariant system) {i : Fin config.entryLimit}
    (live : Live system i) :
    PageStack.pageIdIsValid config.pool (system.memory.map.slots i).extras.page = true := by
  refine (inv.readable i live.1).resolve_right ?_
  rintro ⟨p, cleaned⟩
  exact (live.2 p).2 cleaned

end Places

/-- The shared memory cache neither leaks nor double-frees pages, whatever the number of processes
and the interleaving of their steps.  A page is outside of the free stack exactly when a `Readable`
slot names it whose page has not been handed to `PutPage`, or when it is in the hands of a process
that runs a `keep` or a `PutPage`; it is in one of these places only.  No two such slots have the
same page, the page of each is valid, and no `Must` on pages fails. -/
theorem pages_accounted [DecidableEq P] {system : System config P}
    (reach : Reachable step (initial config P) system) :
    (∀ number, 1 ≤ number → number ≤ config.pool.theCapacity →
      ((¬ ∃ j, system.memory.stack.theItems j = number) ↔
        (∃ i, Live system i ∧ (system.memory.map.slots i).extras.page.number = number) ∨
          ∃ p, number ∈ (system.process p).numbers) ∧
      ∃! place, At system number place) ∧
    (∀ i, Live system i →
      PageStack.pageIdIsValid config.pool (system.memory.map.slots i).extras.page = true) ∧
    (∀ i j, Live system i → Live system j →
      (system.memory.map.slots i).extras.page = (system.memory.map.slots j).extras.page → i = j) ∧
    (∀ p, (system.process p).numbers ≠ [] → (system.process p).Handles) ∧
    ∀ p, (system.process p).pc ≠ .mustFailed ∧
      ∀ page, (system.process p).stack.pc ≠ .invalid page ∧
        (system.process p).stack.pc ≠ .exhausted page := by
  have inv := invariant_reachable reach
  refine ⟨?_, fun i => inv.live_valid, ?_, fun p => (inv.stage p).handles, ?_⟩
  · intro number positive inside
    obtain ⟨place, here, unique⟩ := inv.existsUnique_at positive inside
    refine ⟨⟨?_, ?_⟩, place, here, unique⟩
    · intro taken
      rcases place with j | i | p
      · exact absurd ⟨j, here⟩ taken
      · exact .inl ⟨i, here⟩
      · exact .inr ⟨p, here⟩
    · rintro elsewhere ⟨j, free⟩
      have at_item := unique (.inl j) free
      rcases elsewhere with ⟨i, slot⟩ | ⟨p, hands⟩
      · have at_slot := unique (.inr (.inl i)) slot
        simp [← at_item] at at_slot
      · have at_hands := unique (.inr (.inr p)) hands
        simp [← at_item] at at_hands
  · intro i j live_i live_j same
    have valid := inv.live_valid live_i
    have positive := number_ne_zero valid
    simp only [PageStack.pageIdIsValid, Bool.and_eq_true, decide_eq_true_eq] at valid
    have one := (inv.existsUnique_at (by omega) valid.2).unique
      (show At system _ (.inr (.inl i)) from ⟨live_i, rfl⟩)
      (show At system _ (.inr (.inl j)) from ⟨live_j, by rw [same]⟩)
    simpa using one
  · intro p
    refine ⟨(inv.stage p).not_mustFailed, fun page => ?_⟩
    have position := (inv.sound p).position
    constructor <;> intro failed <;> simp [failed, PageStack.Pc.Sound] at position

end System

/-! ## Between `copyToShm` and `closeForWriting` -/

/-- The process is inside `copyToShm`. -/
def Pc.copying : Pc config → Bool
  | .keepAvailable _ _ | .keepGet _ _ | .keepPop _ _ | .keepLevel _ _ _ => true
  | .keepCopy _ _ _ | .keepPut _ => true
  | .idle | .keepOpen _ | .keepSet _ _ _ | .keepClose _ _ | .keepAbort _ | .keepEnd => false
  | .getOpen _ | .getCopy _ | .getClose _ _ | .freeing | .mustFailed => false

/-- A cache of two entries and one page. -/
def twoEntries : Config where
  maxInMemObjSize := 100
  pageLimit := 1
  pool :=
    { theCapacity := 1
      thePoolId := 1
      capacity_pos := Nat.one_pos
      capacity_lt := Nat.one_lt_two_pow (by decide)
      poolId_pos := Nat.one_pos }
  entryLimit := 2
  entryLimit_pos := Nat.two_pos

/-- `considerKeeping` of a small entry, up to the return of `copyToShm`. -/
def keepRun (p : Bool) (key : UInt64) : List (Bool × Action twoEntries) :=
  (p, .considerKeeping
      { key := (key, 0), memoryCachable := true, complete := true, endOffset := 3
        expectedReplySize := 3 }) ::
    (List.replicate 14 (p, .proceed) ++ [(p, .copied 3)])

/-- An entry is stored and freed, up to the return of `PutPage`, and another one is stored. -/
def reuseRun : List (Bool × Action twoEntries) :=
  keepRun false 0 ++ List.replicate 4 (false, .proceed) ++
    [(false, .free (StoreMap.slotIndexByKey Nat.two_pos (0, 0)))] ++
    List.replicate 8 (false, .proceed) ++ keepRun true 1 ++ List.replicate 2 (true, .proceed)

/-- Right after `copyToShm` has returned, its page is neither free nor in a `Readable` slot nor
held by a `copyToShm`.  And right before `freeLocked` goes on after `PutPage`, another slot may be
`Readable` with the page that its slot still names. -/
theorem pages_outside_copyToShm :
    (∃ system : System twoEntries Bool, Reachable step (initial twoEntries Bool) system ∧
      ¬ ((¬ ∃ j, system.memory.stack.theItems j = 1) ↔
        (∃ i, (system.memory.map.slots i).state = .Readable ∧
          (system.memory.map.slots i).extras.page.number = 1) ∨
        ∃ p, (system.process p).pc.copying = true ∧ 1 ∈ (system.process p).numbers)) ∧
    ∃ system : System twoEntries Bool, Reachable step (initial twoEntries Bool) system ∧
      ∃ i j, i ≠ j ∧ (system.memory.map.slots i).state = .Readable ∧
        (system.memory.map.slots j).state = .Readable ∧
        (system.memory.map.slots i).extras.page = { pool := 1, number := 1 } ∧
        (system.memory.map.slots j).extras.page = { pool := 1, number := 1 } := by
  refine ⟨⟨_, ⟨keepRun false 0, rfl⟩, ?_⟩, ⟨_, ⟨reuseRun, rfl⟩, ?_⟩⟩
  · decide
  · refine ⟨⟨0, Nat.two_pos⟩, ⟨1, Nat.one_lt_two⟩, ?_, rfl, rfl, rfl, rfl⟩
    decide

theorem pages_accounted_keepRun :
    ∃ system, exec step (initial twoEntries Bool) (keepRun false 0) = some system ∧
      (¬ ∃ j, system.memory.stack.theItems j = 1) ∧ ∃! place, At system 1 place := by
  refine ⟨_, rfl, by decide, ?_⟩
  exact ((pages_accounted ⟨keepRun false 0, rfl⟩).1 1 (by decide) (by decide)).2

end MemStore
end Squid
