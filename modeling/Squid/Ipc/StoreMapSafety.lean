import Squid.Ipc.StoreMapLocks

/-!
# The slot protocol of `StoreMap` is safe

The exclusive lock of a slot guards its state and its data, a shared lock keeps both as they are.
The invariant says what a process may rely on at every position of every operation; it holds in
every reachable state, so no assertion of the map fails and an entry that is open for reading does
not change.
-/

namespace Squid
namespace Ipc

/-- What a slot stores: its state, key, metadata and extra data. -/
def StoreMapSlot.content {Extras : Type*} (slot : StoreMapSlot Extras) :
    SlotState × CacheKey × Basics × Extras :=
  (slot.state, slot.key, slot.basics, slot.extras)

namespace StoreMap

open Interleaving LabelledRun

variable {limit : ℕ} {Extras : Type*}

/-- What an operation knows about the state of its slot. -/
def Knows (state : SlotState) : Pc → Prop
  | .writeLocked | .readEmpty _ => state ≠ .Writeable
  | .writeCount | .writeState => state = .Empty
  | .freeLocked _ .unlock | .freeLocked true .uncount => state = .Empty
  | .closeWriteUnlock _ | .closeWriteSwitch => state = .Readable
  | .readWaiting _ | .readAssert _ | .readKey _ => state = .Readable
  | .closeReadCheck | .closeReadUnlock => state = .Readable
  | .abortWriting => state = .Writeable
  | .writeTest | .writeUndo | .readTest _ | .readUndo | .readRelease => True
  | .freeTest | .freeUndo | .freeMark | .freeLocked false .uncount => True
  | .freeLocked _ .clean | .freeLocked _ .unmark | .freeLocked _ .empty => True

/-- What a process knows about the state of slot `i`. -/
structure View (i : Fin limit) (slot : StoreMapSlot Extras) (own : Process limit) : Prop where
  /-- A slot open for writing is `Writeable`. -/
  writing : own.writing i = true → slot.state = .Writeable
  /-- A slot open for reading is `Readable`. -/
  reading : 0 < own.reading i → slot.state = .Readable
  /-- The operation in progress relies on the state. -/
  knows : ∀ pc, own.pc = some (i, pc) → Knows slot.state pc

/-- The process will finish the write that made slot `i` `Writeable`. -/
def Writer (i : Fin limit) (own : Process limit) : Prop :=
  own.writing i = true ∨
    ∃ position ∈ [FreePc.clean, FreePc.unmark, FreePc.empty],
      own.pc = some (i, .freeLocked false position)

/-- What the slot's lock guarantees to a process about to step on slot `i`. -/
structure Guarded (i : Fin limit) (slot : StoreMapSlot Extras) (own : Process limit) : Prop where
  /-- The holder of the exclusive lock does not also read. -/
  unread : (lockProcess i own).exclusive = true → own.reading i = 0
  /-- Without writers the slot is not being written. -/
  unwritten : slot.lock.writers = 0 → slot.state ≠ .Writeable
  /-- A first writer in `openForWriting` has no writer before it. -/
  writeTest : own.pc = some (i, .writeTest) → own.writing i = false ∧ slot.state ≠ .Writeable
  /-- A first writer in `free` has no writer before it. -/
  freeTest : own.pc = some (i, .freeTest) → own.writing i = false

/-- Everything the system's invariant needs to know about a step on slot `i`. -/
structure Effect (i : Fin limit) (slot : StoreMapSlot Extras) (own : Process limit)
    (slot' : StoreMapSlot Extras) (own' : Process limit) : Prop where
  coherent : Coherent own'
  view : View i slot' own'
  /-- Only the holder of the exclusive lock changes what the slot stores. -/
  content : slot'.content = slot.content ∨ (lockProcess i own).exclusive = true
  /-- A slot is `Writeable` only on behalf of a process that will finish the write. -/
  writer : slot'.state = .Writeable →
    Writer i own' ∨ (slot.state = .Writeable ∧ ¬ Writer i own)

/-! ## The shapes of a step -/

section Shapes

variable {i : Fin limit} {slot slot' : StoreMapSlot Extras} {own own' : Process limit} {pc : Pc}

/-- A step that leaves the state of the slot as it is. -/
theorem effect_of_state (state : slot'.state = slot.state)
    (content : slot'.content = slot.content ∨ (lockProcess i own).exclusive = true)
    (coherent : Coherent own') (view : View i slot own') (writer : Writer i own → Writer i own') :
    Effect i slot own slot' own' := by
  refine ⟨coherent, ⟨?_, ?_, ?_⟩, content, ?_⟩
  · rw [state]
    exact view.writing
  · rw [state]
    exact view.reading
  · rw [state]
    exact view.knows
  · rw [state]
    intro written
    by_cases mine : Writer i own
    · exact .inl (writer mine)
    · exact .inr ⟨written, mine⟩

theorem effect_of_content (same : slot'.content = slot.content) (coherent : Coherent own')
    (view : View i slot own') (writer : Writer i own → Writer i own') :
    Effect i slot own slot' own' :=
  effect_of_state (congrArg Prod.fst same) (.inl same) coherent view writer

/-- What the process has opened when it stands at a position on slot `i`. -/
def Entitled (i : Fin limit) (own : Process limit) : Pc → Prop
  | .abortWriting => own.writing i = true
  | .closeReadCheck => 0 < own.reading i
  | pc => if holdsExclusive pc then own.writing i = false else True

theorem coherent_goto (entitled : Entitled i own pc) : Coherent (own.goto i pc) := by
  constructor <;> simp only [Process.goto, Option.some.injEq, Prod.mk.injEq]
  · rintro j _ ⟨rfl, rfl⟩ locked
    cases pc with
    | abortWriting | closeReadCheck => cases locked
    | _ => simpa only [Entitled, if_pos locked] using entitled
  · rintro j ⟨rfl, rfl⟩
    exact entitled
  · rintro j ⟨rfl, rfl⟩
    exact entitled

theorem coherent_idle (idle : own.pc = none) : Coherent own := by
  constructor <;> simp [idle]

theorem View.goto (view : View i slot own) (knows : Knows slot.state pc) :
    View i slot (own.goto i pc) := by
  refine ⟨view.writing, view.reading, ?_⟩
  intro _ at_pc
  cases at_pc
  exact knows

theorem View.finish (view : View i slot own) : View i slot own.finish :=
  ⟨view.writing, view.reading, by simp [Process.finish]⟩

/-- An operation goes on without touching what the slot stores. -/
theorem effect_goto (view : View i slot own) (same : slot'.content = slot.content)
    (knows : Knows slot.state pc) (entitled : Entitled i own pc)
    (writer : Writer i own → Writer i (own.goto i pc)) :
    Effect i slot own slot' (own.goto i pc) :=
  effect_of_content same (coherent_goto entitled) (view.goto knows) writer

/-- An operation returns without touching what the slot stores. -/
theorem effect_finish (view : View i slot own) (same : slot'.content = slot.content)
    (writer : Writer i own → own.writing i = true) : Effect i slot own slot' own.finish :=
  effect_of_content same (coherent_idle rfl) view.finish fun mine => .inl (writer mine)

/-- An operation returns with the slot opened for reading. -/
theorem effect_returnReading (view : View i slot own) (same : slot'.content = slot.content)
    (readable : slot.state = .Readable) (writer : Writer i own → own.writing i = true) :
    Effect i slot own slot' (own.returnReading i) :=
  effect_of_content same (coherent_idle rfl)
    ⟨view.writing, fun _ => readable, by simp [Process.returnReading]⟩
    fun mine => .inl (writer mine)

end Shapes

variable {i : Fin limit} {own : Process limit} {shared : Shared limit Extras}

theorem enters_effect {shared' : Shared limit Extras} {own' : Process limit}
    {action : Action limit Extras} (idle : own.pc = none) (view : View i (shared.slots i) own)
    (guarded : Guarded i (shared.slots i) own) (enters : Enters shared own i action shared' own') :
    Effect i (shared.slots i) own (shared'.slots i) own' := by
  have lock := lockProcess_idle i idle
  have open_writer : Writer i own → own.writing i = true := by simp [Writer, idle]
  have writer : ∀ pc, Writer i own → Writer i (own.goto i pc) := fun _ mine =>
    .inl (open_writer mine)
  cases enters with
  | openForWriting | free =>
      split <;>
        exact effect_goto view (by simp [StoreMapSlot.content]) trivial trivial (writer _)
  | openForReading | openForReadingAt =>
      exact effect_goto view (by simp [StoreMapSlot.content]) trivial trivial (writer _)
  | closeForWriting lockForReading writing =>
      have unread := guarded.unread (by simp [lock, writing])
      refine ⟨coherent_goto (by simp [Entitled, holdsExclusive]), ⟨?_, ?_, ?_⟩, ?_, ?_⟩
      · simp [Process.goto]
      · simp
      · simp [Process.goto, Knows]
      · simp [lock, writing]
      · simp
  | abortIo opened =>
      split
      · rename_i written
        refine effect_goto view rfl written ?_ (writer _)
        rcases opened with writing | reading
        · exact writing
        · simp [view.reading reading] at written
      · rename_i unwritten
        have reading : 0 < own.reading i := by
          rcases opened with writing | reading
          · exact absurd (view.writing writing) unwritten
          · exact reading
        exact effect_goto view rfl (view.reading reading) reading (writer _)
  | closeForReading reading =>
      have readable := view.reading reading
      have unwriting : own.writing i = false := by
        by_contra writing
        simp [view.writing (by simpa using writing)] at readable
      refine effect_of_content rfl (coherent_goto trivial)
        ⟨view.writing, fun _ => readable, ?_⟩ ?_
      · intro _ at_pc
        cases at_pc
        exact readable
      · simp [Writer, idle, unwriting]
  | set key basics writing | setExtras extras writing =>
      exact effect_of_state (by simp) (.inr (by simp [lock, writing])) (coherent_idle idle) view id

theorem proceedFreeLocked_clean_state (cleaner : Option (Extras → Extras))
    (shared : Shared limit Extras) (own : Process limit) (i : Fin limit) (keepLocked : Bool) :
    ((proceedFreeLocked cleaner shared own i keepLocked .clean).1.slots i).state =
      (shared.slots i).state := by
  cases cleaner with
  | none => rfl
  | some cleanReadable =>
      simp only [proceedFreeLocked]
      split <;> simp

variable {cleaner : Option (Extras → Extras)}

theorem proceedFreeLocked_effect {keepLocked : Bool} {position : FreePc}
    (at_pc : own.pc = some (i, .freeLocked keepLocked position)) (coherent : Coherent own)
    (view : View i (shared.slots i) own) (guarded : Guarded i (shared.slots i) own) :
    Effect i (shared.slots i) own
      ((proceedFreeLocked cleaner shared own i keepLocked position).1.slots i)
      (proceedFreeLocked cleaner shared own i keepLocked position).2 := by
  have lock := lockProcess_at at_pc
  have unopened := coherent.exclusive i _ at_pc
  have known := view.knows _ at_pc
  cases position with
  | clean =>
      refine effect_of_state (proceedFreeLocked_clean_state cleaner shared own i keepLocked)
        (.inr (by simp [lock, holdsExclusive]))
        (coherent_goto (unopened rfl)) (view.goto trivial) ?_
      simp [proceedFreeLocked, Writer, at_pc, Process.goto]
  | unmark =>
      refine effect_goto view (by simp [proceedFreeLocked, StoreMapSlot.content]) trivial
        (unopened rfl) ?_
      simp [Writer, at_pc, Process.goto]
  | empty =>
      have closed := unopened rfl
      have unread := guarded.unread (by simp [lock, holdsExclusive])
      refine ⟨coherent_goto closed, ⟨?_, ?_, ?_⟩,
        .inr (by simp [lock, holdsExclusive]), ?_⟩
      · simp [proceedFreeLocked, Process.goto, closed]
      · simp [proceedFreeLocked, Process.goto, unread]
      · simp [proceedFreeLocked, Process.goto, Knows]
      · simp [proceedFreeLocked]
  | unlock =>
      refine effect_goto view ?_ ?_ ?_ ?_
      · cases keepLocked <;> simp [proceedFreeLocked, StoreMapSlot.content]
      · cases keepLocked
        · trivial
        · exact known
      · cases keepLocked
        · trivial
        · exact unopened rfl
      · simp [Writer, at_pc, unopened rfl]
  | uncount =>
      cases keepLocked
      · exact effect_finish view rfl (by simp [Writer, at_pc])
      · exact effect_goto view rfl known (unopened rfl)
          (by simp [Writer, at_pc, unopened rfl])

theorem proceedAt_effect {pc : Pc} (at_pc : own.pc = some (i, pc)) (coherent : Coherent own)
    (view : View i (shared.slots i) own) (guarded : Guarded i (shared.slots i) own) :
    Effect i (shared.slots i) own ((proceedAt cleaner shared own i pc).1.slots i)
      (proceedAt cleaner shared own i pc).2 := by
  have lock := lockProcess_at at_pc
  have unopened := coherent.exclusive i _ at_pc
  have known := view.knows _ at_pc
  by_cases freeing : ∃ keepLocked position, pc = .freeLocked keepLocked position
  · obtain ⟨keepLocked, position, rfl⟩ := freeing
    exact proceedFreeLocked_effect at_pc coherent view guarded
  have open_writer : Writer i own → own.writing i = true := by
    rintro (writing | ⟨position, _, freed⟩)
    · exact writing
    · rw [at_pc, Option.some.injEq, Prod.mk.injEq] at freed
      exact absurd ⟨_, _, freed.2⟩ freeing
  have writer : ∀ pc', Writer i own → Writer i (own.goto i pc') := fun _ mine =>
    .inl (open_writer mine)
  cases pc with
  | freeLocked keepLocked position => exact absurd ⟨_, _, rfl⟩ freeing
  | writeTest =>
      obtain ⟨unwriting, unwritten⟩ := guarded.writeTest at_pc
      simp only [proceedAt]
      split
      · exact effect_goto view rfl unwritten unwriting (writer _)
      · exact effect_goto view rfl trivial trivial (writer _)
  | freeTest =>
      have unwriting := guarded.freeTest at_pc
      simp only [proceedAt]
      split
      · exact effect_goto view rfl trivial unwriting (writer _)
      · exact effect_goto view rfl trivial trivial (writer _)
  | readTest key =>
      simp only [proceedAt]
      split
      · rename_i free
        exact effect_goto view rfl (guarded.unwritten free) trivial (writer _)
      · exact effect_goto view rfl trivial trivial (writer _)
  | writeLocked =>
      simp only [proceedAt]
      split
      · exact effect_goto view rfl trivial (unopened rfl) (writer _)
      · rename_i unused
        have empty : (shared.slots i).state = .Empty := by
          cases state : (shared.slots i).state with
          | Empty => rfl
          | Writeable => exact absurd state known
          | Readable => exact absurd (.inr state) unused
        exact effect_goto view rfl empty (unopened rfl) (writer _)
  | writeCount =>
      exact effect_goto view rfl known (unopened rfl) (writer _)
  | writeState =>
      have unread := guarded.unread (by simp [lock, holdsExclusive])
      refine ⟨coherent_idle rfl, ⟨?_, ?_, ?_⟩, .inr (by simp [lock, holdsExclusive]), ?_⟩
      · simp [proceedAt]
      · simp [proceedAt, Process.returnWriting, unread]
      · simp [proceedAt, Process.returnWriting]
      · exact fun _ => .inl (.inl (by simp [proceedAt, Process.returnWriting]))
  | closeWriteUnlock lockForReading =>
      cases lockForReading
      · exact effect_finish view (by simp [proceedAt, StoreMapSlot.content]) open_writer
      · exact effect_goto view (by simp [proceedAt, StoreMapSlot.content]) known
          (unopened rfl) (writer _)
  | closeWriteSwitch =>
      exact effect_returnReading view (by simp [proceedAt, StoreMapSlot.content]) known
        open_writer
  | abortWriting =>
      refine effect_of_content rfl (coherent_goto (by simp [Entitled, holdsExclusive])) ⟨?_,
        view.reading, ?_⟩ ?_
      · simp [proceedAt, Process.goto]
      · intro _ freeing
        cases freeing
        trivial
      · exact fun _ => .inr ⟨.clean, by simp, rfl⟩
  | closeReadCheck =>
      refine effect_of_content rfl (coherent_goto trivial)
        ⟨view.writing, fun _ => known, ?_⟩ (fun mine => .inl (open_writer mine))
      intro _ closing
      cases closing
      exact known
  | writeUndo | readUndo | readRelease | closeReadUnlock | freeMark =>
      exact effect_finish view (by simp [proceedAt, StoreMapSlot.content]) open_writer
  | freeUndo =>
      exact effect_goto view (by simp [proceedAt, StoreMapSlot.content]) trivial trivial (writer _)
  | readEmpty key =>
      simp only [proceedAt]
      split
      · exact effect_goto view rfl trivial trivial (writer _)
      · rename_i used
        have readable : (shared.slots i).state = .Readable := by
          cases state : (shared.slots i).state with
          | Empty => exact absurd state used
          | Writeable => exact absurd state known
          | Readable => rfl
        exact effect_goto view rfl readable trivial (writer _)
  | readWaiting key =>
      simp only [proceedAt]
      split
      · exact effect_goto view rfl trivial trivial (writer _)
      · exact effect_goto view rfl known trivial (writer _)
  | readAssert key =>
      cases key with
      | none => exact effect_returnReading view rfl known open_writer
      | some key => exact effect_goto view rfl known trivial (writer _)
  | readKey key =>
      simp only [proceedAt]
      split
      · exact effect_returnReading view rfl known open_writer
      · exact effect_goto view rfl trivial trivial (writer _)

/-! ## The invariant of the whole map -/

section Locks

variable {i : Fin limit} {own : Process limit}

theorem reading_le_shared (i : Fin limit) (own : Process limit) :
    own.reading i ≤ (lockProcess i own).shared := by
  unfold lockProcess
  split
  · exact le_rfl
  · split <;> simp

theorem exclusive_of_writing (writing : own.writing i = true) :
    (lockProcess i own).exclusive = true := by
  unfold lockProcess
  split
  · exact writing
  · split <;> simp [writing]

theorem exclusive_of_holds {pc : Pc} (at_pc : own.pc = some (i, pc))
    (holds : holdsExclusive pc = true) : (lockProcess i own).exclusive = true := by
  simp [lockProcess_at at_pc, holds]

theorem Writer.exclusive (writer : Writer i own) : (lockProcess i own).exclusive = true := by
  rcases writer with writing | ⟨position, member, freeing⟩
  · exact exclusive_of_writing writing
  · apply exclusive_of_holds freeing
    cases position <;> simp_all [holdsExclusive]

/-- A process without a lock relies on nothing. -/
theorem view_of_unlocked (coherent : Coherent own)
    (exclusive : (lockProcess i own).exclusive = false) (shared : (lockProcess i own).shared = 0)
    (slot : StoreMapSlot Extras) : View i slot own := by
  have unwriting : own.writing i = false := by
    by_contra writing
    simp [exclusive_of_writing (by simpa using writing)] at exclusive
  have unread : own.reading i = 0 := by
    have := reading_le_shared i own
    omega
  refine ⟨by simp [unwriting], by simp [unread], ?_⟩
  intro pc at_pc
  have unlocked : holdsExclusive pc = false ∧ holdsShared pc = 0 := by
    simpa [lockProcess_at at_pc, unwriting, unread] using And.intro exclusive shared
  cases pc with
  | abortWriting => simp [coherent.aborting i at_pc] at unwriting
  | closeReadCheck => exact absurd (coherent.closing i at_pc) (by omega)
  | freeLocked keepLocked position =>
      cases keepLocked <;> cases position <;> simp_all [Knows, holdsExclusive]
  | _ => first | trivial | simp [holdsExclusive, holdsShared] at unlocked

end Locks

section System

variable {P : Type*} {limit_pos : 0 < limit} {cleaner : Option (Extras → Extras)}

/-- What holds in every reachable state of the map and its users. -/
structure Invariant [Fintype P] (system : System P limit Extras) : Prop where
  /-- Every slot's lock keeps its own invariant. -/
  lock : ∀ i, ReadWriteLock.Invariant (lockSystem i system)
  /-- Open slots agree with the operations in progress. -/
  coherent : ∀ p, Coherent (system.process p)
  /-- What the processes rely on is true. -/
  view : ∀ p i, View i (system.memory.slots i) (system.process p)
  /-- A `Writeable` slot has a process that will finish the write. -/
  writer : ∀ i, (system.memory.slots i).state = .Writeable → ∃ p, Writer i (system.process p)

section Guards

variable [Fintype P] {system : System P limit Extras}

theorem Invariant.guarded (inv : Invariant system) (p : P) (i : Fin limit) :
    Guarded i (system.memory.slots i) (system.process p) := by
  have lock := inv.lock i
  -- a process that tests `readers` is the only claimant, so nobody is writing
  have testing : (lockProcess i (system.process p)).pc = .lockExclusiveTest →
      (system.process p).writing i = false ∧ (system.memory.slots i).state ≠ .Writeable := by
    intro testing
    have unlocked := (lock.coherent p).testing testing
    constructor
    · by_contra writing
      have held := exclusive_of_writing (by simpa using writing)
      exact absurd (held.symm.trans unlocked) (by simp)
    · intro written
      obtain ⟨q, writer⟩ := inv.writer i written
      cases lock.claimant_unique p q (.inr testing) (.inl writer.exclusive)
      exact absurd (writer.exclusive.symm.trans unlocked) (by simp)
  refine ⟨?_, ?_, ?_, ?_⟩
  · intro held
    have unread := lock.excluded p p held
    have bound := reading_le_shared i (system.process p)
    simp only [lockSystem] at unread
    omega
  · intro free written
    obtain ⟨q, writer⟩ := inv.writer i written
    exact lock.not_claims free q (.inl writer.exclusive)
  · intro at_pc
    exact testing (by simp [lockProcess_at at_pc, lockPc])
  · intro at_pc
    exact (testing (by simp [lockProcess_at at_pc, lockPc])).1

variable {p : P}

theorem Invariant.localStep_effect (inv : Invariant system) {action : Action limit Extras}
    (step : localStep limit_pos cleaner system.memory (system.process p) action =
      some (shared, own)) :
    ∃ i, Frame i system.memory (system.process p) shared own ∧
      Effect i (system.memory.slots i) (system.process p) (shared.slots i) own := by
  obtain ⟨i, pc, at_pc, _, rfl, rfl⟩ | ⟨idle, i, enters⟩ := localStep_cases step
  · exact ⟨i, proceedAt_frame at_pc,
      proceedAt_effect at_pc (inv.coherent p) (inv.view p i) (inv.guarded p i)⟩
  · exact ⟨i, enters_frame idle enters,
      enters_effect idle (inv.view p i) (inv.guarded p i) enters⟩

/-- A slot changes only under the exclusive lock, which nobody shares. -/
theorem Invariant.view_other (inv : Invariant system) {q : P} (different : q ≠ p)
    (held : (lockProcess i (system.process p)).exclusive = true) (slot : StoreMapSlot Extras) :
    View i slot (system.process q) := by
  have lock := inv.lock i
  refine view_of_unlocked (inv.coherent q) ?_ (lock.excluded p q held) slot
  by_contra theirs
  rw [Bool.not_eq_false] at theirs
  exact different (lock.claimant_unique q p (.inl theirs) (.inl held))

end Guards

theorem invariant_initial [Fintype P] (zeroed : Extras) : Invariant (initial P limit zeroed) := by
  refine ⟨fun i => ReadWriteLock.invariant_initial, fun p => coherent_idle rfl, fun p i => ?_, ?_⟩
  · constructor <;> simp [initial]
  · simp [initial]

variable {j : Fin limit} {own' : Process limit} {shared' : Shared limit Extras}

theorem Frame.view (frame : Frame i shared own shared' own') (ne : j ≠ i)
    (view : View j (shared.slots j) own) : View j (shared'.slots j) own' := by
  rw [frame.slots j ne]
  refine ⟨?_, ?_, ?_⟩
  · rw [frame.writing j ne]
    exact view.writing
  · rw [frame.reading j ne]
    exact view.reading
  · intro pc at_pc
    exact absurd (frame.after j pc at_pc) ne

theorem Frame.writer (frame : Frame i shared own shared' own') (ne : j ≠ i)
    (writer : Writer j own) : Writer j own' := by
  rcases writer with writing | ⟨position, _, freeing⟩
  · exact .inl ((frame.writing j ne).trans writing)
  · exact absurd (frame.before j _ freeing) ne

theorem invariant_step [Fintype P] [DecidableEq P] {before after : System P limit Extras}
    {label : P × Action limit Extras} (inv : Invariant before)
    (step : next limit_pos cleaner before label = some after) : Invariant after := by
  have locks := lockInvariant_step inv.coherent step
  obtain ⟨p, action⟩ := label
  obtain ⟨shared, own, local_step, rfl⟩ := interleave_eq_some.mp step
  obtain ⟨i, frame, effect⟩ := inv.localStep_effect local_step
  refine ⟨fun j => locks j (inv.lock j), ?_, ?_, ?_⟩
  · intro q
    by_cases same : q = p
    · subst same
      simpa using effect.coherent
    · simpa [same] using inv.coherent q
  · intro q j
    by_cases same : q = p <;> by_cases here : j = i
    · subst same here
      simpa using effect.view
    · subst same
      simpa using frame.view here (inv.view q j)
    · subst here
      simp only [Function.update_of_ne same]
      rcases effect.content with unchanged | held
      · have view := inv.view q j
        have state : (shared.slots j).state = (before.memory.slots j).state :=
          congrArg Prod.fst unchanged
        exact ⟨state ▸ view.writing, state ▸ view.reading, state ▸ view.knows⟩
      · exact inv.view_other same held _
    · simpa [same, frame.slots j here] using inv.view q j
  · intro j written
    have kept : ∀ q, q ≠ p → Writer j (before.process q) →
        ∃ r, Writer j (Function.update before.process p own r) := by
      intro q different writer
      refine ⟨q, ?_⟩
      rw [Function.update_of_ne different]
      exact writer
    have mine : Writer j own → ∃ r, Writer j (Function.update before.process p own r) := by
      intro writer
      exact ⟨p, by simpa using writer⟩
    by_cases here : j = i
    · subst here
      rcases effect.writer written with writer | ⟨was_written, not_mine⟩
      · exact mine writer
      · obtain ⟨q, writer⟩ := inv.writer j was_written
        refine kept q ?_ writer
        rintro rfl
        exact not_mine writer
    · obtain ⟨q, writer⟩ := inv.writer j (frame.slots j here ▸ written)
      by_cases same : q = p
      · subst same
        exact mine (frame.writer here writer)
      · exact kept q same writer

theorem invariant_reachable [Fintype P] [DecidableEq P] {system : System P limit Extras}
    {zeroed : Extras}
    (reach : Reachable (next limit_pos cleaner) (initial P limit zeroed) system) :
    Invariant system :=
  reach.invariant invariant_step (invariant_initial zeroed)

/-! ## Assertions and open entries -/

section Safety

variable [Fintype P] {system : System P limit Extras}

variable {i : Fin limit} {p : P}

theorem Invariant.assertsAt (inv : Invariant system) {pc : Pc}
    (at_pc : (system.process p).pc = some (i, pc)) : AssertsAt (system.memory.slots i) pc := by
  have known := (inv.view p i).knows pc at_pc
  have lock := lockProcess_at at_pc
  have writers : holdsExclusive pc = true → 0 < (system.memory.slots i).lock.writers := by
    intro holds
    have positive := ReadWriteLock.writerUnits_pos (.inl (exclusive_of_holds at_pc holds))
    exact lt_of_lt_of_le positive ((inv.lock i).writerUnits_le p)
  have readers : 0 < holdsShared pc → 0 < (system.memory.slots i).lock.readers := by
    intro holds
    have share := ReadWriteLock.shared_le_readerUnits (lockProcess i (system.process p))
    have bound : ReadWriteLock.readerUnits (lockProcess i (system.process p)) ≤
        (system.memory.slots i).lock.readers := (inv.lock i).readerUnits_le p
    rw [lock] at share bound
    dsimp only at share
    omega
  cases pc with
  | writeLocked | writeCount | abortWriting | readAssert | closeReadCheck => exact known
  | closeWriteSwitch => exact writers rfl
  | readRelease | closeReadUnlock => exact readers (by simp [holdsShared])
  | closeWriteUnlock lockForReading =>
      cases lockForReading
      · exact writers rfl
      · trivial
  | freeLocked keepLocked position =>
      cases keepLocked <;> cases position <;> first | trivial | exact writers rfl
  | _ => trivial

/-- Under the invariant no step of any process trips an `assert`. -/
theorem Invariant.asserts (inv : Invariant system) (p : P) (action : Action limit Extras)
    (step : localStep limit_pos cleaner system.memory (system.process p) action =
      some (shared, own)) : Asserts system.memory (system.process p) action := by
  obtain ⟨i, pc, at_pc, rfl, _⟩ | ⟨_, i, enters⟩ := localStep_cases step
  · intro j pc at_j
    exact inv.assertsAt at_j
  · cases enters with
    | closeForWriting lockForReading writing => exact (inv.view p i).writing writing
    | closeForReading reading => exact (inv.view p i).reading reading
    | _ => trivial

variable [DecidableEq P]

variable {after : System P limit Extras}

/-- No step changes a slot that some process has open for reading. -/
theorem Invariant.content_eq (inv : Invariant system) {label : P × Action limit Extras}
    (step : next limit_pos cleaner system label = some after)
    (reading : 0 < (system.process p).reading i) :
    (after.memory.slots i).content = (system.memory.slots i).content := by
  obtain ⟨q, action⟩ := label
  obtain ⟨shared, own, local_step, rfl⟩ := interleave_eq_some.mp step
  obtain ⟨j, frame, effect⟩ := inv.localStep_effect local_step
  by_cases here : i = j
  · subst here
    rcases effect.content with same | held
    · exact same
    · have unread := (inv.lock i).excluded q p held
      have bound := reading_le_shared i (system.process p)
      simp only [lockSystem] at unread
      omega
  · exact congrArg StoreMapSlot.content (frame.slots i here)

/-- A slot keeps what it stores for as long as one process has it open for reading. -/
theorem Invariant.content_eq_of_run (inv : Invariant system)
    {labels : List (P × Action limit Extras)}
    (held : Allowed (next limit_pos cleaner) (fun state _ => 0 < (state.process p).reading i)
      system labels) (run : exec (next limit_pos cleaner) system labels = some after) :
    (after.memory.slots i).content = (system.memory.slots i).content := by
  have kept : Invariant after ∧
      (after.memory.slots i).content = (system.memory.slots i).content := by
    refine @invariant_of_allowed _ _ _ (fun state => Invariant state ∧
      (state.memory.slots i).content = (system.memory.slots i).content) _ ?_ _ _ _ ⟨inv, rfl⟩
      held run
    rintro before label later ⟨inv, same⟩ reading step
    exact ⟨invariant_step inv step, (inv.content_eq step reading).trans same⟩
  exact kept.2

/-- `openForReading` that returns a slot has checked its key. -/
theorem Invariant.opened (inv : Invariant system) {key : CacheKey} {opened : System P limit Extras}
    (at_key : (system.process p).pc = some (i, .readKey key))
    (step : next limit_pos cleaner system (p, .proceed) = some opened)
    (returned : (opened.process p).pc = none) :
    0 < (opened.process p).reading i ∧ (opened.memory.slots i).state = .Readable ∧
      (opened.memory.slots i).key = key := by
  have known : (system.memory.slots i).state = .Readable := (inv.view p i).knows _ at_key
  obtain ⟨shared, own, local_step, rfl⟩ := interleave_eq_some.mp step
  simp only [localStep, at_key, proceedAt, Option.some.injEq] at local_step
  simp only [Function.update_self] at returned ⊢
  split at local_step
  · rename_i same
    cases local_step
    exact ⟨by simp [Process.returnReading], known, same⟩
  · cases local_step
    simp [Process.goto] at returned

/-- The slot protocol of `StoreMap` is safe, whatever the number of processes and the interleaving
of their steps.  No assertion fails.  Once `openForReading` returned a slot, the slot is `Readable`
with the requested key, and until the process has closed the slot its state, key, metadata and
extra data stay what they are. -/
theorem slot_protocol_safe {zeroed : Extras}
    (reach : Reachable (next limit_pos cleaner) (initial P limit zeroed) system) :
    (∀ p action, (next limit_pos cleaner system (p, action)).isSome →
      Asserts system.memory (system.process p) action) ∧
    ∀ p i key opened, (system.process p).pc = some (i, .readKey key) →
      next limit_pos cleaner system (p, .proceed) = some opened →
      (opened.process p).pc = none →
        0 < (opened.process p).reading i ∧ (opened.memory.slots i).state = .Readable ∧
        (opened.memory.slots i).key = key ∧
        ∀ labels later,
          Allowed (next limit_pos cleaner) (fun state _ => 0 < (state.process p).reading i)
            opened labels →
          exec (next limit_pos cleaner) opened labels = some later →
            (later.memory.slots i).content = (opened.memory.slots i).content := by
  have inv := invariant_reachable reach
  constructor
  · intro p action enabled
    obtain ⟨after, step⟩ := Option.isSome_iff_exists.mp enabled
    obtain ⟨shared, own, local_step, _⟩ := interleave_eq_some.mp step
    exact inv.asserts p action local_step
  · intro p i key opened at_key step returned
    obtain ⟨reading, readable, same⟩ := inv.opened at_key step returned
    refine ⟨reading, readable, same, ?_⟩
    intro labels later held run
    exact (invariant_step inv step).content_eq_of_run held run

/-- One process stores an entry, which another one looks up. -/
def lookupRun : List (Bool × Action 1 ℕ) :=
  [(false, .openForWriting (1, 2)), (false, .proceed), (false, .proceed), (false, .proceed),
    (false, .proceed), (false, .set (Fin.last 0) (1, 2) {}), (false, .setExtras (Fin.last 0) 7),
    (false, .closeForWriting (Fin.last 0) false), (false, .proceed),
    (true, .openForReading (1, 2)), (true, .proceed), (true, .proceed), (true, .proceed),
    (true, .proceed)]

/-- The first process frees the entry while the other one reads it. -/
def freeRun : List (Bool × Action 1 ℕ) :=
  [(false, .free (Fin.last 0)), (false, .proceed), (false, .proceed), (false, .proceed)]

theorem slot_protocol_safe_lookup :
    ∃ system opened later : System Bool 1 ℕ,
      exec (next Nat.one_pos none) (initial Bool 1 0) lookupRun = some system ∧
      next Nat.one_pos none system (true, .proceed) = some opened ∧
      exec (next Nat.one_pos none) opened freeRun = some later ∧
      (later.memory.slots 0).waitingToBeFreed = true ∧
      (later.memory.slots 0).content = (opened.memory.slots 0).content := by
  refine ⟨_, _, _, rfl, rfl, rfl, rfl, ?_⟩
  have reach : Reachable (next Nat.one_pos none) (initial Bool 1 0) _ := ⟨lookupRun, rfl⟩
  refine ((slot_protocol_safe reach).2 true 0 (1, 2) _ rfl rfl rfl).2.2.2 freeRun _ ?_ rfl
  exact .cons Nat.one_pos rfl (.cons Nat.one_pos rfl (.cons Nat.one_pos rfl
    (.cons Nat.one_pos rfl trivial)))

end Safety

end System

end StoreMap
end Ipc
end Squid
