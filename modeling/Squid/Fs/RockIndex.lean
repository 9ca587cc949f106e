import Squid.Ipc.StoreMap

/-!
# Entries loaded into the Rock index

While a Rock `cache_dir` is being rebuilt, `Rock::SwapDir::addEntry` puts an entry into the slot of
the map that its key selects.  An entry that was found in another cell is refused, but only after
the slot has been opened for writing.
-/

namespace Squid
namespace Rock

open Ipc Ipc.StoreMap

variable {limit : ℕ}

structure DbCellHeader where
  payloadSize : ℤ := 0
  reserved : ℤ := 0

/-- What `StoreMapSlot::set` takes from a `StoreEntry`. -/
structure LoadedEntry where
  key : CacheKey
  /-- The fields from `timestamp` to `flags`. -/
  basics : Basics

/-- The map of a Rock `cache_dir`. -/
abbrev DirMap (limit : ℕ) := Shared limit DbCellHeader

namespace DirMap

/-- `ReadWriteLock::lockExclusive` of a slot. -/
def lockExclusive (map : DirMap limit) (i : Fin limit) : Bool × DirMap limit :=
  let entered := enterExclusive map i
  if (map.slots i).lock.writers = 0 then
    if (entered.slots i).lock.readers = 0 then (true, entered)
    else (false, leaveExclusive entered i)
  else (false, leaveExclusive entered i)

/-- `StoreMap::freeLocked` with `keepLocked`; a Rock map has no `cleaner`. -/
def freeLocked (map : DirMap limit) (i : Fin limit) : DirMap limit :=
  let map := map.modify i fun slot => { slot with waitingToBeFreed := false }
  let map := map.modify i fun slot => { slot with state := .Empty }
  { map with count := map.count - 1 }

/-- `StoreMap::openForWriting`: the slot, if it could be locked; a failed assertion is the outer
`none`. -/
def openForWriting (limit_pos : 0 < limit) (map : DirMap limit) (key : CacheKey) :
    Option (Option (Fin limit) × DirMap limit) :=
  let i := slotIndexByKey limit_pos key
  match map.lockExclusive i with
  | (false, map) => some (none, map)
  | (true, map) =>
      if (map.slots i).state = .Writeable then none
      else
        let map :=
          if (map.slots i).waitingToBeFreed = true ∨ (map.slots i).state = .Readable then
            map.freeLocked i
          else map
        if (map.slots i).state ≠ .Empty then none
        else
          let map := { map with count := map.count + 1 }
          some (some i, map.modify i fun slot => { slot with state := .Writeable })

/-- `StoreMap::closeForWriting` without a lock for reading. -/
def closeForWriting (map : DirMap limit) (i : Fin limit) : Option (DirMap limit) :=
  if (map.slots i).state ≠ .Writeable then none
  else
    let map := map.modify i fun slot => { slot with state := .Readable }
    if (map.slots i).lock.writers ≤ 0 then none else some (leaveExclusive map i)

/-- `StoreMapSlot::set` and the assignment of the header to `extras`. -/
def fill (map : DirMap limit) (i : Fin limit) (header : DbCellHeader) (source : LoadedEntry) :
    DirMap limit :=
  let map := map.modify i fun slot => { slot with key := source.key, basics := source.basics }
  map.modify i fun slot => { slot with extras := header }

/-- `Rock::SwapDir::addEntry`. -/
def addEntry (limit_pos : 0 < limit) (map : DirMap limit) (filen : ℤ) (header : DbCellHeader)
    (source : LoadedEntry) : Option (Bool × DirMap limit) :=
  match map.openForWriting limit_pos source.key with
  | none => none
  | some (none, map) => some (false, map)
  | some (some newLocation, map) =>
      -- else some other, newer entry got into our cell
      let map := if filen = newLocation.val then map.fill newLocation header source else map
      (map.closeForWriting newLocation).map fun map => (decide (filen = newLocation.val), map)

/-! ## What a call leaves behind -/

/-- Nobody has the slot locked. -/
def Unlocked (map : DirMap limit) (i : Fin limit) : Prop :=
  (map.slots i).lock.writers = 0 ∧ (map.slots i).lock.readers = 0

instance (map : DirMap limit) (i : Fin limit) : Decidable (map.Unlocked i) :=
  inferInstanceAs (Decidable (_ ∧ _))

variable {i : Fin limit} {map : DirMap limit}

theorem Unlocked.lock_eq (unlocked : map.Unlocked i) : (map.slots i).lock = ⟨0, 0⟩ := by
  obtain ⟨writers, readers⟩ := unlocked
  calc (map.slots i).lock = ⟨(map.slots i).lock.readers, (map.slots i).lock.writers⟩ := rfl
    _ = ⟨0, 0⟩ := by rw [writers, readers]

/-- The content that `addEntry` leaves in the slot it has opened. -/
def loaded (slot : StoreMapSlot DbCellHeader) (fits : Bool) (header : DbCellHeader)
    (source : LoadedEntry) : StoreMapSlot DbCellHeader :=
  if fits then
    { slot with
      waitingToBeFreed := false
      key := source.key
      basics := source.basics
      extras := header
      state := .Readable }
  else { slot with waitingToBeFreed := false, state := .Readable }

/-- What `addEntry` adds to the number of entries. -/
def gain (slot : StoreMapSlot DbCellHeader) : ℤ :=
  if slot.state = .Empty ∧ slot.waitingToBeFreed = false then 1 else 0

/-- The map that `addEntry` leaves where it has opened a slot. -/
def load (map : DirMap limit) (i : Fin limit) (fits : Bool) (header : DbCellHeader)
    (source : LoadedEntry) : DirMap limit where
  count := map.count + gain (map.slots i)
  slots := Function.update map.slots i (loaded (map.slots i) fits header source)

theorem enter_leave (map : DirMap limit) (i : Fin limit) :
    leaveExclusive (enterExclusive map i) i = map := by
  simp [Shared.modifyLock, Shared.modify]

theorem lockExclusive_of_unlocked (unlocked : map.Unlocked i) :
    map.lockExclusive i = (true, enterExclusive map i) := by
  simp [lockExclusive, unlocked.1, unlocked.2]

theorem lockExclusive_of_locked (locked : ¬ map.Unlocked i) :
    map.lockExclusive i = (false, map) := by
  rw [lockExclusive, enter_leave]
  by_cases writers : (map.slots i).lock.writers = 0
  · have readers : (map.slots i).lock.readers ≠ 0 := fun none => locked ⟨writers, none⟩
    simp [writers, readers]
  · simp [writers]

variable {limit_pos : 0 < limit}

variable {key : CacheKey}

/-- A slot that `addEntry` may open, with its lock free. -/
theorem openForWriting_of_unlocked (unlocked : map.Unlocked (slotIndexByKey limit_pos key))
    (notWriteable : (map.slots (slotIndexByKey limit_pos key)).state ≠ .Writeable) :
    map.openForWriting limit_pos key =
      some (some (slotIndexByKey limit_pos key), {
        count := map.count + gain (map.slots (slotIndexByKey limit_pos key))
        slots := Function.update map.slots (slotIndexByKey limit_pos key) {
          map.slots (slotIndexByKey limit_pos key) with
          lock := ⟨0, 1⟩
          waitingToBeFreed := false
          state := .Writeable } }) := by
  generalize target : slotIndexByKey limit_pos key = i at *
  have lock := unlocked.lock_eq
  rw [openForWriting, target, lockExclusive_of_unlocked unlocked]
  cases waiting : (map.slots i).waitingToBeFreed with
  | true => simp [notWriteable, waiting, freeLocked, Shared.modifyLock, Shared.modify, gain, lock]
  | false =>
      cases state : (map.slots i).state with
      | Empty => simp [waiting, state, Shared.modifyLock, Shared.modify, gain, lock]
      | Writeable => exact absurd state notWriteable
      | Readable =>
          simp [waiting, state, freeLocked, Shared.modifyLock, Shared.modify, gain, lock]

variable {source : LoadedEntry}

theorem addEntry_of_locked (locked : ¬ map.Unlocked (slotIndexByKey limit_pos source.key))
    (filen : ℤ) (header : DbCellHeader) :
    map.addEntry limit_pos filen header source = some (false, map) := by
  have refused : map.openForWriting limit_pos source.key = some (none, map) := by
    rw [openForWriting, lockExclusive_of_locked locked]
  rw [addEntry, refused]

/-- Whatever the file number, the slot of the key becomes readable. -/
theorem addEntry_of_unlocked (unlocked : map.Unlocked (slotIndexByKey limit_pos source.key))
    (notWriteable : (map.slots (slotIndexByKey limit_pos source.key)).state ≠ .Writeable)
    (filen : ℤ) (header : DbCellHeader) :
    map.addEntry limit_pos filen header source =
      some (decide (filen = (slotIndexByKey limit_pos source.key).val),
        map.load (slotIndexByKey limit_pos source.key)
          (filen = (slotIndexByKey limit_pos source.key).val) header source) := by
  rw [addEntry, openForWriting_of_unlocked unlocked notWriteable]
  generalize slotIndexByKey limit_pos source.key = i at *
  have lock := unlocked.lock_eq
  by_cases fits : filen = i.val
  · simp [fits, fill, closeForWriting, Shared.modifyLock, Shared.modify, load, loaded, lock]
  · simp [fits, closeForWriting, Shared.modifyLock, Shared.modify, load, loaded, lock]

variable {after : DirMap limit} {filen : ℤ}

/-- The call stops at an assertion only where an unlocked slot is being written. -/
theorem notWriteable_of_addEntry {header : DbCellHeader} {result : Bool}
    (added : map.addEntry limit_pos filen header source = some (result, after))
    (unlocked : map.Unlocked (slotIndexByKey limit_pos source.key)) :
    (map.slots (slotIndexByKey limit_pos source.key)).state ≠ .Writeable := by
  intro writeable
  have stopped : map.openForWriting limit_pos source.key = none := by
    rw [openForWriting, lockExclusive_of_unlocked unlocked]
    simp [writeable]
  rw [addEntry, stopped] at added
  cases added

/-! ## The call as steps of a process -/

/-- The steps of one process that is alone with the map. -/
def alone (limit_pos : 0 < limit) (state : DirMap limit × Process limit)
    (action : Action limit DbCellHeader) : Option (DirMap limit × Process limit) :=
  localStep limit_pos none state.1 state.2 action

variable {own : Process limit} {start : DirMap limit × Process limit}

theorem proceed_alone {pc : Pc}
    (reach : LabelledRun.Reachable (alone limit_pos) start (map, own.goto i pc)) :
    LabelledRun.Reachable (alone limit_pos) start
      (proceedAt none map (own.goto i pc) i pc) :=
  reach.step (show alone limit_pos _ .proceed = some _ from rfl)

/-- Where a process between two calls begins a call or fills a slot. -/
theorem alone_idle (idle : own.pc = none) (action : Action limit DbCellHeader) :
    alone limit_pos (map, own) action =
      localStep limit_pos none map { own with pc := none } action := by
  obtain ⟨writing, reading, pc⟩ := own
  cases idle
  rfl

@[simp]
theorem goto_goto (own : Process limit) (i : Fin limit) (pc later : Pc) :
    (own.goto i pc).goto i later = own.goto i later := rfl

@[simp]
theorem goto_returnWriting (own : Process limit) (i : Fin limit) (pc : Pc) :
    (own.goto i pc).returnWriting i = own.returnWriting i := rfl

theorem openForWriting_alone (idle : own.pc = none)
    (unlocked : map.Unlocked (slotIndexByKey limit_pos key)) {opened : DirMap limit}
    {result : Option (Fin limit)}
    (open_ : map.openForWriting limit_pos key = some (result, opened)) :
    LabelledRun.Reachable (alone limit_pos) (map, own)
      (opened, own.returnWriting (slotIndexByKey limit_pos key)) := by
  have locked : LabelledRun.Reachable (alone limit_pos) (map, own)
      (enterExclusive map (slotIndexByKey limit_pos key),
        own.goto (slotIndexByKey limit_pos key) .writeTest) :=
    (LabelledRun.Reachable.refl _).step ((alone_idle idle (.openForWriting key)).trans
      (congrArg (fun pc => some (enterExclusive map (slotIndexByKey limit_pos key),
        own.goto (slotIndexByKey limit_pos key) pc)) (if_pos unlocked.1)))
  rw [openForWriting, lockExclusive_of_unlocked unlocked] at open_
  have readers : ((enterExclusive map (slotIndexByKey limit_pos key)).slots
      (slotIndexByKey limit_pos key)).lock.readers = 0 := by simpa using unlocked.2
  generalize slotIndexByKey limit_pos key = i at *
  generalize enterExclusive map i = entered at *
  dsimp only at open_
  have tested : LabelledRun.Reachable (alone limit_pos) (map, own)
      (entered, own.goto i .writeLocked) := by
    simpa only [proceedAt, readers, if_true, goto_goto] using proceed_alone locked
  have checked := proceed_alone tested
  simp only [proceedAt, goto_goto] at checked
  generalize freed_eq : (if (entered.slots i).waitingToBeFreed = true ∨
    (entered.slots i).state = .Readable then freeLocked entered i else entered) = freed at open_
  have emptied : LabelledRun.Reachable (alone limit_pos) (map, own)
      (freed, own.goto i .writeCount) := by
    rw [← freed_eq]
    split
    next used =>
      rw [if_pos used] at checked
      have unmark := proceed_alone checked
      have empty := proceed_alone unmark
      have unlock := proceed_alone empty
      have uncount := proceed_alone unlock
      exact proceed_alone uncount
    next unused => rwa [if_neg unused] at checked
  have counted := proceed_alone (proceed_alone emptied)
  by_cases writing : (entered.slots i).state = .Writeable
  · rw [if_pos writing] at open_
    cases open_
  rw [if_neg writing] at open_
  by_cases empty : (freed.slots i).state = .Empty
  · rw [if_neg (not_not.2 empty)] at open_
    cases open_
    exact counted
  · rw [if_pos empty] at open_
    cases open_

theorem fill_alone (reach : LabelledRun.Reachable (alone limit_pos) start (map, own))
    (idle : own.pc = none) (writing : own.writing i = true) (header : DbCellHeader)
    (source : LoadedEntry) :
    LabelledRun.Reachable (alone limit_pos) start (map.fill i header source, own) := by
  obtain ⟨opened, reading, pc⟩ := own
  cases idle
  have set_ := reach.step (show alone limit_pos _ (.set i source.key source.basics) = some _ from
    if_pos writing)
  rw [fill]
  exact set_.step (show alone limit_pos _ (.setExtras i header) = some _ from if_pos writing)

theorem closeForWriting_alone (reach : LabelledRun.Reachable (alone limit_pos) start (map, own))
    (idle : own.pc = none) (writing : own.writing i = true)
    (closed : map.closeForWriting i = some after) :
    LabelledRun.Reachable (alone limit_pos) start (after, (own.endWriting i).finish) := by
  have readable := reach.step (show alone limit_pos _ (.closeForWriting i false) = some
      (map.modify i fun slot => { slot with state := .Readable },
        (own.endWriting i).goto i (.closeWriteUnlock false)) from
    (alone_idle idle _).trans (if_pos writing))
  have unlocked := proceed_alone readable
  rw [closeForWriting] at closed
  split at closed
  · cases closed
  · dsimp only at closed
    split at closed
    · cases closed
    · cases closed
      exact unlocked

/-- A call of `addEntry` that nothing interrupts is a run of the protocol of the map. -/
theorem addEntry_alone {limit_pos : 0 < limit} {map after : DirMap limit} {own : Process limit}
    {filen : ℤ} {header : DbCellHeader} {source : LoadedEntry} {result : Bool}
    (idle : own.pc = none)
    (added : map.addEntry limit_pos filen header source = some (result, after)) :
    ∃ final, LabelledRun.Reachable (alone limit_pos) (map, own) (after, final) ∧
      final.pc = none := by
  by_cases unlocked : map.Unlocked (slotIndexByKey limit_pos source.key)
  · have notWriteable := notWriteable_of_addEntry added unlocked
    have open_ := openForWriting_of_unlocked unlocked notWriteable
    have opened := openForWriting_alone idle unlocked open_
    rw [addEntry, open_] at added
    generalize slotIndexByKey limit_pos source.key = i at *
    have writing : (own.returnWriting i).writing i = true := by simp [Process.returnWriting]
    dsimp only at added
    obtain ⟨closed, closes, same⟩ := Option.map_eq_some_iff.1 added
    cases same
    refine ⟨((own.returnWriting i).endWriting i).finish, ?_, rfl⟩
    split at closes
    · exact closeForWriting_alone (fill_alone opened rfl writing header source) rfl writing closes
    · exact closeForWriting_alone opened rfl writing closes
  · rw [addEntry_of_locked unlocked] at added
    cases added
    have entered : LabelledRun.Reachable (alone limit_pos) (map, own)
        (enterExclusive map (slotIndexByKey limit_pos source.key),
          own.goto (slotIndexByKey limit_pos source.key)
            (if (map.slots (slotIndexByKey limit_pos source.key)).lock.writers = 0 then .writeTest
              else .writeUndo)) :=
      (LabelledRun.Reachable.refl _).step (alone_idle idle (.openForWriting source.key))
    generalize slotIndexByKey limit_pos source.key = i at *
    refine ⟨own.finish, ?_, rfl⟩
    have undone : LabelledRun.Reachable (alone limit_pos) (map, own)
        (enterExclusive map i, own.goto i .writeUndo) := by
      split at entered
      next writers =>
        have readers : ((enterExclusive map i).slots i).lock.readers ≠ 0 := by
          simpa using fun none => unlocked ⟨writers, none⟩
        simpa only [proceedAt, readers, if_false, goto_goto] using proceed_alone entered
      next => exact entered
    have left := proceed_alone undone
    rw [proceedAt, enter_leave] at left
    exact left

/-- The index is as it was. -/
def Unchanged (before after : DirMap limit) : Prop :=
  after.count = before.count ∧
    ∀ i, (after.slots i).state = (before.slots i).state ∧
      (after.slots i).key = (before.slots i).key ∧
      (after.slots i).basics = (before.slots i).basics ∧
      (after.slots i).extras = (before.slots i).extras

/-- The entry is in the slot of its file number and nothing else has changed; the slot counts as
an entry from now on, unless it did before. -/
def Entered (before after : DirMap limit) (filen : ℤ) (header : DbCellHeader)
    (source : LoadedEntry) : Prop :=
  ∃ i : Fin limit, filen = i.val ∧ (after.slots i).state = .Readable ∧
    (after.slots i).key = source.key ∧ (after.slots i).basics = source.basics ∧
    (after.slots i).extras = header ∧ (∀ j, j ≠ i → after.slots j = before.slots j) ∧
    after.count = before.count + if (before.slots i).state = .Empty then 1 else 0

theorem load_unchanged_iff (map : DirMap limit) (i : Fin limit) (header : DbCellHeader)
    (source : LoadedEntry) :
    Unchanged map (map.load i false header source) ↔ (map.slots i).state = .Readable := by
  constructor
  · rintro ⟨-, same⟩
    have state := (same i).1
    simpa [load, loaded] using state.symm
  · intro readable
    refine ⟨by simp [load, gain, readable], fun j => ?_⟩
    by_cases here : j = i
    · subst here
      simp [load, loaded, readable]
    · simp [load, here]

theorem load_entered_iff (notWriteable : (map.slots i).state ≠ .Writeable) (fits : filen = i.val)
    (header : DbCellHeader) (source : LoadedEntry) :
    Entered map (map.load i true header source) filen header source ↔
      (map.slots i).state = .Readable ∨ (map.slots i).waitingToBeFreed = false := by
  have counted : gain (map.slots i) = (if (map.slots i).state = .Empty then 1 else 0) ↔
      (map.slots i).state = .Readable ∨ (map.slots i).waitingToBeFreed = false := by
    cases state : (map.slots i).state with
    | Empty => simp [gain, state]
    | Writeable => exact absurd state notWriteable
    | Readable => simp [gain, state]
  rw [← counted]
  constructor
  · rintro ⟨j, position, -, -, -, -, -, total⟩
    obtain rfl : i = j := Fin.ext (by omega)
    exact add_left_cancel total
  · intro total
    refine ⟨i, fits, ?_, ?_, ?_, ?_, fun j other => by simp [load, other], by rw [load, total]⟩
    all_goals simp [load, loaded]

/-- An entry is refused without a trace or entered just when the slot of its key is locked, or
holds a readable entry, or is the one of the file number and not waiting to be freed. -/
theorem addEntry_intact_iff (limit_pos : 0 < limit) {map after : DirMap limit} {filen : ℤ}
    {header : DbCellHeader} {source : LoadedEntry} {result : Bool}
    (added : map.addEntry limit_pos filen header source = some (result, after)) :
    ((result = false → Unchanged map after) ∧
        (result = true → Entered map after filen header source)) ↔
      (map.Unlocked (slotIndexByKey limit_pos source.key) →
        (map.slots (slotIndexByKey limit_pos source.key)).state = .Readable ∨
          filen = (slotIndexByKey limit_pos source.key).val ∧
            (map.slots (slotIndexByKey limit_pos source.key)).waitingToBeFreed = false) := by
  by_cases unlocked : map.Unlocked (slotIndexByKey limit_pos source.key)
  · have notWriteable := notWriteable_of_addEntry added unlocked
    rw [addEntry_of_unlocked unlocked notWriteable] at added
    rw [imp_iff_right unlocked]
    generalize slotIndexByKey limit_pos source.key = i at *
    cases added
    by_cases fits : filen = i.val
    · simpa [fits] using load_entered_iff notWriteable fits header source
    · simpa [fits] using load_unchanged_iff map i header source
  · rw [addEntry_of_locked unlocked] at added
    cases added
    refine iff_of_true ⟨fun _ => ⟨rfl, fun _ => ⟨rfl, rfl, rfl, rfl⟩⟩, fun impossible => ?_⟩
      fun open_ => absurd open_ unlocked
    cases impossible

/-- A new map of two slots. -/
def newMap : DirMap 2 := { count := 0, slots := fun _ => { extras := {} } }

/-- The entry comes from the cell that its key selects. -/
theorem addEntry_intact_iff_ownCell :
    ∃ after, newMap.addEntry Nat.zero_lt_two 1 ⟨500, 0⟩ ⟨(4, 3), {}⟩ = some (true, after) ∧
      Entered newMap after 1 ⟨500, 0⟩ ⟨(4, 3), {}⟩ :=
  ⟨_, rfl, ((addEntry_intact_iff Nat.zero_lt_two rfl).2 (by decide)).2 rfl⟩

/-- A process alone with a new map makes the call in steps. -/
theorem addEntry_alone_ownCell :
    ∃ after final, newMap.addEntry Nat.zero_lt_two 1 ⟨500, 0⟩ ⟨(4, 3), {}⟩ = some (true, after) ∧
      LabelledRun.Reachable (alone Nat.zero_lt_two) (newMap, {}) (after, final) := by
  obtain ⟨final, reach, -⟩ := @addEntry_alone 2 Nat.zero_lt_two newMap _ {} 1 ⟨500, 0⟩
    ⟨(4, 3), {}⟩ true rfl rfl
  exact ⟨_, final, rfl, reach⟩

/-- An entry from another cell is refused, and the slot of its key becomes a readable entry under
a key of zeros. -/
theorem not_unchanged_otherCell :
    ∃ after, newMap.addEntry Nat.zero_lt_two 0 ⟨500, 0⟩ ⟨(4, 3), {}⟩ = some (false, after) ∧
      (after.slots 1).state = .Readable ∧ (after.slots 1).key = (0, 0) ∧ after.count = 1 ∧
      ¬ Unchanged newMap after :=
  ⟨_, rfl, by decide, by decide, by decide, fun same => absurd same.1 (by decide)⟩

end DirMap
end Rock
end Squid
