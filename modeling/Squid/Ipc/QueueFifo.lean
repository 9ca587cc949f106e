import Squid.Ipc.Queue
import Mathlib.Data.List.Infix
import Mathlib.Data.Nat.ModEq

/-!
# Item order in `Ipc::OneToOneUniQueue`

The slot of an item is its 32-bit counter value modulo the capacity, scaled on `unsigned int`.
Items are returned in the order they were pushed exactly when the slots of any fewer than
`theCapacity` successive items are apart, across the wrap of the counter as well.
-/

namespace Squid
namespace Ipc
namespace OneToOneUniQueue

open LabelledRun List Option

variable {params : Params}

/-- The slots selected by two counter values share no byte of an item. -/
def SlotsApart (params : Params) (i j : ℕ) : Prop :=
  pos params i + params.itemSize ≤ pos params j ∨ pos params j + params.itemSize ≤ pos params i

/-- No item overwrites one of the `theCapacity - 1` items before it. -/
def Separated (params : Params) : Prop :=
  ∀ count distance, 0 < distance → distance < params.theCapacity →
    SlotsApart params (count % 2 ^ 32) ((count + distance) % 2 ^ 32)

/-- In every run the values popped so far are a prefix of the values pushed so far. -/
def Fifo (params : Params) : Prop :=
  ∀ buffer labels (state : State params),
    exec next (initial params buffer) labels = some state → state.popped <+: state.pushed

/-! ## The buffer -/

theorem load_store_same (buffer : ℕ → UInt8) (offset : ℕ) (value : Value params) :
    load (store buffer offset value) offset = value := by
  funext index
  simp [load, store]

theorem load_store_apart {buffer : ℕ → UInt8} {offset other : ℕ} (value : Value params)
    (apart : other + params.itemSize ≤ offset ∨ offset + params.itemSize ≤ other) :
    (load (store buffer offset value) other : Value params) = load buffer other := by
  funext index
  have bound := index.isLt
  have outside : ¬ (offset ≤ other + index ∧ other + index - offset < params.itemSize) := by
    omega
  simp only [load, store, dif_neg outside]

/-! ## Separated slots keep the order -/

/-- Items whose copy is complete but not yet counted in `theSize`. -/
def copying : WriterPc params → ℕ
  | .increment _ _ => 1
  | .idle | .sampleEmpty _ | .copy _ _ | .testBlocked | .raiseSignal => 0

/-- Items taken out of the buffer but still counted in `theSize`. -/
def taking : ReaderPc params → ℕ
  | .decrement _ => 1
  | .waiting | .clearUnblock | .clearSignal | .testEmpty | .block | .retestEmpty | .unblock
  | .copy => 0

/-- The writer passed the test of `full` and has not stored its item. -/
def HasRoom : WriterPc params → Prop
  | .sampleEmpty _ | .copy _ _ | .increment _ _ => True
  | .idle | .testBlocked | .raiseSignal => False

/-- The reader passed a test of `empty` and has not removed its item. -/
def HasItem : ReaderPc params → Prop
  | .unblock | .copy | .decrement _ => True
  | .waiting | .clearUnblock | .clearSignal | .testEmpty | .block | .retestEmpty => False

/-- The invariant of both sides' counters, the buffer and the history. -/
structure Ordered (state : State params) : Prop where
  /-- `theIn` counts the copied items. -/
  in_eq : state.queue.theIn = (state.pushed.length + copying state.writerPc) % 2 ^ 32
  /-- `theOut` counts the taken items. -/
  out_eq : state.queue.theOut = (state.popped.length + taking state.readerPc) % 2 ^ 32
  /-- `theSize` counts the items pushed and not popped. -/
  size_eq : state.queue.theSize = (state.pushed.length : ℤ) - state.popped.length
  /-- Only pushed items are popped. -/
  popped_le : state.popped.length ≤ state.pushed.length
  /-- The queue is never overfull. -/
  pushed_le : state.pushed.length ≤ state.popped.length + params.theCapacity
  /-- A writer past the test of `full` has room for its item. -/
  room : HasRoom state.writerPc →
    state.pushed.length < state.popped.length + params.theCapacity
  /-- A reader past the test of `empty` has an item to take. -/
  item : HasItem state.readerPc → state.popped.length < state.pushed.length
  /-- The order is right so far. -/
  isPrefix : state.popped <+: state.pushed
  /-- Every queued item is in its slot. -/
  stored : ∀ index, state.popped.length ≤ index → index < state.pushed.length →
    state.pushed[index]? = some (load state.queue.theBuffer (pos params (index % 2 ^ 32)))
  /-- So is the item about to be counted. -/
  storing : ∀ value wasEmpty, state.writerPc = .increment value wasEmpty →
    load state.queue.theBuffer (pos params (state.pushed.length % 2 ^ 32)) = value
  /-- The reader took the oldest item. -/
  taken : ∀ value, state.readerPc = .decrement value →
    state.pushed[state.popped.length]? = some value

theorem ordered_initial (buffer : ℕ → UInt8) : Ordered (initial params buffer) := by
  constructor <;> simp [initial, copying, taking, HasRoom, HasItem]

variable {after before : State params}

theorem enterPush_ordered {value : Value params} (ordered : Ordered before)
    (step : enterPush before value = some after) : Ordered after := by
  cases pc : before.writerPc <;> simp only [enterPush, pc, reduceCtorEq] at step
  split at step <;> rename_i full <;> cases step
  · exact ordered
  · have in_eq := ordered.in_eq
    rw [pc] at in_eq
    refine { ordered with in_eq, room := fun _ => ?_, storing := by simp }
    have size_eq := ordered.size_eq
    have pushed_le := ordered.pushed_le
    simp only
    omega

theorem writerStep_ordered (separated : Separated params) (ordered : Ordered before)
    (step : writerStep before = some after) : Ordered after := by
  obtain ⟨in_eq, out_eq, size_eq, popped_le, pushed_le, room, item, isPrefix, stored, storing,
    taken⟩ := ordered
  cases pc : before.writerPc with
  | idle => simp [writerStep, pc] at step
  | sampleEmpty value =>
      simp only [writerStep, pc, some.injEq] at step
      subst step
      rw [pc] at in_eq
      exact ⟨in_eq, out_eq, size_eq, popped_le, pushed_le, fun _ => room (pc ▸ trivial), item,
        isPrefix, stored, by simp, taken⟩
  | copy value wasEmpty =>
      simp only [writerStep, pc, some.injEq] at step
      subst step
      have space := room (pc ▸ trivial)
      rw [pc] at in_eq
      simp only [copying, Nat.add_zero] at in_eq
      refine ⟨?_, out_eq, size_eq, popped_le, pushed_le, fun _ => space, item, isPrefix, ?_, ?_,
        taken⟩
      · simp only [copying, in_eq]
        omega
      · intro index lower upper
        dsimp only at lower upper
        rw [stored index lower upper]
        -- the item is fewer than `theCapacity` items older than the one being stored
        have apart := separated index (before.pushed.length - index) (by omega) (by omega)
        rw [Nat.add_sub_cancel' (by omega)] at apart
        simp only [in_eq]
        rw [load_store_apart value apart]
      · intro stored_value _ same
        cases same
        simp only [in_eq]
        exact load_store_same _ _ value
  | increment value wasEmpty =>
      have space := room (pc ▸ trivial)
      have own := storing value wasEmpty pc
      rw [pc] at in_eq
      simp only [copying] at in_eq
      -- the three ways to return differ in the writer's position and the notification only
      have core : ∀ writerPc inFlight, copying writerPc = 0 → ¬ HasRoom writerPc →
          (∀ value wasEmpty, writerPc ≠ .increment value wasEmpty) →
          Ordered
            { before with
              queue := { before.queue with theSize := before.queue.theSize + 1 }
              pushed := before.pushed ++ [value]
              writerPc
              inFlight } := by
        intro writerPc inFlight counted not_room not_increment
        refine ⟨?_, out_eq, ?_, ?_, ?_, fun has => absurd has not_room, ?_, ?_, ?_,
          fun value wasEmpty same => absurd same (not_increment value wasEmpty), ?_⟩
        · simp [counted, in_eq]
        · simp [size_eq]
          omega
        · simp
          omega
        · simp
          omega
        · intro has
          have := item has
          simp
          omega
        · exact isPrefix.trans (prefix_append _ _)
        · intro index lower upper
          simp only [length_append, length_singleton] at lower upper
          by_cases old : index < before.pushed.length
          · simp only [List.getElem?_append_left old]
            exact stored index lower old
          · obtain rfl : index = before.pushed.length := by omega
            rw [List.getElem?_concat_length]
            exact congrArg some own.symm
        · intro taken_value same
          have earlier := taken taken_value same
          have bound := (List.getElem?_eq_some_iff.mp earlier).1
          simpa [List.getElem?_append_left bound] using earlier
      simp only [writerStep, pc] at step
      split at step
      · split at step <;> cases step
        · exact core _ _ rfl (by simp [HasRoom]) (by simp)
        · exact core _ _ rfl (by simp [HasRoom]) (by simp)
      · cases step
        exact core _ _ rfl (by simp [HasRoom]) (by simp)
  | testBlocked =>
      rw [pc] at in_eq
      simp only [writerStep, pc] at step
      split at step <;> cases step <;>
        exact ⟨in_eq, out_eq, size_eq, popped_le, pushed_le, fun has => has.elim, item, isPrefix,
          stored, by simp, taken⟩
  | raiseSignal =>
      rw [pc] at in_eq
      simp only [writerStep, pc, some.injEq] at step
      subst step
      exact ⟨in_eq, out_eq, size_eq, popped_le, pushed_le, fun has => has.elim, item, isPrefix,
        stored, by simp, taken⟩

theorem readerStep_ordered (ordered : Ordered before) (step : readerStep before = some after) :
    Ordered after := by
  obtain ⟨in_eq, out_eq, size_eq, popped_le, pushed_le, room, item, isPrefix, stored, storing,
    taken⟩ := ordered
  -- all steps but the last two move the reader without touching what the invariant speaks about
  have move : ∀ readerPc reader lastPop, taking readerPc = taking before.readerPc →
      (HasItem readerPc → before.popped.length < before.pushed.length) →
      (∀ value, readerPc ≠ .decrement value) →
      Ordered { before with readerPc, reader, lastPop } := by
    intro readerPc reader lastPop same has not_decrement
    exact ⟨in_eq, by rw [out_eq, same], size_eq, popped_le, pushed_le, room, has, isPrefix, stored,
      storing, fun value taking => absurd taking (not_decrement value)⟩
  cases pc : before.readerPc with
  | waiting => simp [readerStep, pc] at step
  | clearUnblock | clearSignal =>
      simp only [readerStep, pc, some.injEq] at step
      subst step
      exact move _ _ _ (by rw [pc]; rfl) (fun has => has.elim) (by simp)
  | testEmpty =>
      simp only [readerStep, pc] at step
      split at step <;> rename_i empty
      · split at step <;> cases step <;>
          exact move _ _ _ (by rw [pc]; rfl) (fun has => has.elim) (by simp)
      · have some_item : before.popped.length < before.pushed.length := by omega
        split at step <;> cases step <;>
          exact move _ _ _ (by rw [pc]; rfl) (fun _ => some_item) (by simp)
  | block =>
      simp only [readerStep, pc, some.injEq] at step
      subst step
      exact move _ _ _ (by rw [pc]; rfl) (fun has => has.elim) (by simp)
  | retestEmpty =>
      simp only [readerStep, pc] at step
      split at step <;> rename_i empty <;> cases step
      · exact move _ _ _ (by rw [pc]; rfl) (fun has => has.elim) (by simp)
      · exact move _ _ _ (by rw [pc]; rfl) (fun _ => by omega) (by simp)
  | unblock =>
      simp only [readerStep, pc, some.injEq] at step
      subst step
      exact move _ _ _ (by rw [pc]; rfl) (fun _ => item (pc ▸ trivial)) (by simp)
  | copy =>
      simp only [readerStep, pc, some.injEq] at step
      subst step
      have some_item := item (pc ▸ trivial)
      rw [pc] at out_eq
      simp only [taking, Nat.add_zero] at out_eq
      refine ⟨in_eq, ?_, size_eq, popped_le, pushed_le, room, fun _ => some_item, isPrefix, stored,
        storing, ?_⟩
      · simp only [taking, out_eq]
        omega
      · intro value same
        cases same
        simp only [out_eq]
        exact stored _ le_rfl some_item
  | decrement value =>
      simp only [readerStep, pc, some.injEq] at step
      subst step
      have some_item := item (pc ▸ trivial)
      have oldest := taken value pc
      rw [pc] at out_eq
      refine ⟨in_eq, ?_, ?_, ?_, ?_, ?_, fun has => has.elim, ?_, ?_, storing, by simp⟩
      · simp only [taking, length_append, length_singleton] at out_eq ⊢
        omega
      · simp [size_eq]
        omega
      · simp
        omega
      · simp
        omega
      · intro has
        have := room has
        simp
        omega
      · -- the popped value is the first one after the popped prefix
        obtain ⟨rest, split⟩ := isPrefix
        have head : rest[0]? = some value := by
          rwa [← split, List.getElem?_append_right le_rfl, Nat.sub_self] at oldest
        cases rest with
        | nil => simp at head
        | cons first rest =>
            simp only [length_cons, Nat.zero_lt_succ, List.getElem?_eq_getElem,
              getElem_cons_zero, some.injEq] at head
            exact ⟨rest, by simp [← split, head]⟩
      · intro index lower upper
        simp only [length_append, length_singleton] at lower upper
        exact stored index (by omega) upper

theorem next_ordered (separated : Separated params) {label : Label params}
    (ordered : Ordered before) (step : next before label = some after) : Ordered after := by
  cases label with
  | push value => exact enterPush_ordered ordered step
  | writer => exact writerStep_ordered separated ordered step
  | reader => exact readerStep_ordered ordered step
  | receive =>
      simp only [next] at step
      split at step
      · rename_i pc _
        have out_eq := ordered.out_eq
        rw [pc] at out_eq
        cases step
        split <;>
          exact { ordered with out_eq, item := fun has => has.elim, taken := by simp }
      · cases step
  | poll =>
      simp only [next] at step
      split at step
      · rename_i pc
        have out_eq := ordered.out_eq
        rw [pc] at out_eq
        cases step
        exact { ordered with out_eq, item := fun has => has.elim, taken := by simp }
      · cases step

theorem fifo_of_separated (separated : Separated params) : Fifo params := by
  intro buffer labels state run
  have ordered : Ordered state :=
    invariant (fun inv step => next_ordered separated inv step) (ordered_initial buffer) run
  exact ordered.isPrefix

/-! ## Slots that are not apart break the order -/

/-- Nothing is queued and nothing is in progress after `count` items went through. -/
structure Quiet (count : ℕ) (state : State params) : Prop where
  writerPc : state.writerPc = .idle
  readerPc : state.readerPc = .waiting
  theIn : state.queue.theIn = count % 2 ^ 32
  theOut : state.queue.theOut = count % 2 ^ 32
  theSize : state.queue.theSize = 0
  popBlocked : state.reader.popBlocked = 1
  pushed : state.pushed.length = count
  popped : state.popped.length = count

/-- A full `push` into an empty queue, in the calls with and without a reader. -/
def pushEmptyRun (value : Value params) : List (Label params) :=
  if params.hasReader then
    [.push value, .writer, .writer, .writer, .writer, .writer]
  else
    [.push value, .writer, .writer, .writer]

/-- A full successful `pop` by a waiting reader. -/
def popRun (params : Params) : List (Label params) :=
  if params.hasReader then
    [.poll, .reader, .reader, .reader, .reader]
  else
    [.poll, .reader, .reader, .reader]

/-- A full unsuccessful `pop` after a successful one. -/
def popEmptyRun (params : Params) : List (Label params) :=
  if params.hasReader then [.reader, .reader, .reader] else [.reader]

/-- What `push` leaves behind, notifications apart. -/
structure PushedTo (before : State params) (value : Value params) (after : State params) :
  Prop where
  writerPc : after.writerPc = .idle
  readerPc : after.readerPc = before.readerPc
  theIn : after.queue.theIn = (before.queue.theIn + 1) % 2 ^ 32
  theOut : after.queue.theOut = before.queue.theOut
  theSize : after.queue.theSize = before.queue.theSize + 1
  theBuffer : after.queue.theBuffer =
    store before.queue.theBuffer (pos params before.queue.theIn) value
  popBlocked : after.reader.popBlocked = before.reader.popBlocked
  pushed : after.pushed = before.pushed ++ [value]
  popped : after.popped = before.popped

variable {state : State params}

theorem exec_pushEmptyRun (value : Value params) (idle : state.writerPc = .idle)
    (empty : state.queue.theSize = 0) (blocked : state.reader.popBlocked = 1) :
    ∃ after, exec next state (pushEmptyRun value) = some after ∧ PushedTo state value after := by
  have capacity := params.capacity_pos
  have not_full : ¬ (0 : ℤ) = params.theCapacity := by omega
  cases reader : params.hasReader <;>
    simp only [pushEmptyRun, exec, next, enterPush, writerStep, QueueReader.blocked, reader, idle,
      empty, blocked, not_full, if_true, if_false, decide_true, Bool.false_eq_true,
      some.injEq, exists_eq_left'] <;>
    constructor <;> simp [empty, blocked]

theorem exec_pushRun (value : Value params) (idle : state.writerPc = .idle)
    (nonempty : state.queue.theSize ≠ 0) (not_full : state.queue.theSize ≠ params.theCapacity) :
    ∃ after, exec next state [.push value, .writer, .writer, .writer] = some after ∧
      PushedTo state value after := by
  simp only [exec, next, enterPush, writerStep, idle, nonempty, not_full, if_false, decide_false,
    Bool.false_eq_true, some.injEq, exists_eq_left']
  constructor <;> rfl

theorem exec_popRun (waiting : state.readerPc = .waiting) (nonempty : state.queue.theSize ≠ 0) :
    ∃ after, exec next state (popRun params) = some after ∧
      after.writerPc = state.writerPc ∧ after.readerPc = .testEmpty ∧
      after.queue =
        { state.queue with
          theOut := (state.queue.theOut + 1) % 2 ^ 32
          theSize := state.queue.theSize - 1 } ∧
      after.pushed = state.pushed ∧
      after.popped =
        state.popped ++ [load state.queue.theBuffer (pos params state.queue.theOut)] ∧
      (state.reader.popBlocked = 1 → params.hasReader = true → after.reader.popBlocked = 0) ∧
      (params.hasReader = false → after.reader = state.reader) := by
  cases reader : params.hasReader <;>
    simp +contextual [popRun, exec, next, readerStep, QueueReader.unblock, swapIf, reader, waiting,
      nonempty]

theorem exec_popEmptyRun (testing : state.readerPc = .testEmpty) (empty : state.queue.theSize = 0) :
    ∃ after, exec next state (popEmptyRun params) = some after ∧
      after.writerPc = state.writerPc ∧ after.readerPc = .waiting ∧ after.queue = state.queue ∧
      after.pushed = state.pushed ∧ after.popped = state.popped ∧
      (state.reader.popBlocked = 0 → params.hasReader = true → after.reader.popBlocked = 1) ∧
      (params.hasReader = false → after.reader = state.reader) := by
  cases reader : params.hasReader <;>
    simp +contextual [popEmptyRun, exec, next, readerStep, QueueReader.block, swapIf, reader,
      testing, empty]

variable {count : ℕ}

theorem quiet_succ (quiet : Quiet count state) :
    ∃ labels after, exec next state labels = some after ∧ Quiet (count + 1) after := by
  obtain ⟨pushed, first, stored⟩ :=
    exec_pushEmptyRun (fun _ => 0) quiet.writerPc quiet.theSize quiet.popBlocked
  have one : pushed.queue.theSize = 1 := by rw [stored.theSize, quiet.theSize]; rfl
  obtain ⟨popped, second, writer, reader, queue, pushed_eq, popped_eq, cleared, kept⟩ :=
    exec_popRun (stored.readerPc.trans quiet.readerPc) (by rw [one]; decide)
  obtain ⟨after, third, writer', reader', queue', pushed_eq', popped_eq', blocked, kept'⟩ :=
    exec_popEmptyRun reader (by rw [queue, one]; rfl)
  refine ⟨_, after, exec_trans (exec_trans first second) third, ?_⟩
  have was_blocked := stored.popBlocked.trans quiet.popBlocked
  refine ⟨?_, reader', ?_, ?_, ?_, ?_, ?_, ?_⟩
  · rw [writer', writer, stored.writerPc]
  · rw [queue', queue, stored.theIn, quiet.theIn]
    omega
  · rw [queue', queue]
    simp only [stored.theOut, quiet.theOut]
    omega
  · rw [queue', queue, one]
    rfl
  · cases given : params.hasReader with
    | true => exact blocked (cleared was_blocked given) given
    | false => rw [kept' given, kept given, was_blocked]
  · rw [pushed_eq', pushed_eq, stored.pushed, length_append, quiet.pushed, length_singleton]
  · rw [popped_eq', popped_eq, stored.popped, length_append, quiet.popped, length_singleton]

theorem quiet_reachable (params : Params) (buffer : ℕ → UInt8) (count : ℕ) :
    ∃ labels state, exec next (initial params buffer) labels = some state ∧ Quiet count state := by
  induction count with
  | zero =>
      refine ⟨[], initial params buffer, rfl, ?_⟩
      constructor <;> simp [initial, QueueReader.initial]
  | succ count ih =>
      obtain ⟨labels, state, run, quiet⟩ := ih
      obtain ⟨more, after, cycle, later⟩ := quiet_succ quiet
      exact ⟨labels ++ more, after, exec_trans run cycle, later⟩

/-- The item with number `count` is queued and `extra` more behind it. -/
structure Loaded (count extra : ℕ) (state : State params) : Prop where
  writerPc : state.writerPc = .idle
  readerPc : state.readerPc = .waiting
  theIn : state.queue.theIn = (count + 1 + extra) % 2 ^ 32
  theOut : state.queue.theOut = count % 2 ^ 32
  theSize : state.queue.theSize = 1 + extra
  pushed : state.pushed[count]? = some fun _ => 0
  popped : state.popped.length = count
  last : extra ≠ 0 →
    (load state.queue.theBuffer (pos params ((count + extra) % 2 ^ 32)) : Value params) = fun _ => 1

theorem loaded_zero (quiet : Quiet count state) :
    ∃ labels after, exec next state labels = some after ∧ Loaded count 0 after := by
  obtain ⟨after, run, stored⟩ :=
    exec_pushEmptyRun (fun _ => 0) quiet.writerPc quiet.theSize quiet.popBlocked
  refine ⟨_, after, run, stored.writerPc, stored.readerPc.trans quiet.readerPc, ?_,
    stored.theOut.trans quiet.theOut, ?_, ?_, ?_, by simp⟩
  · rw [stored.theIn, quiet.theIn]
    omega
  · rw [stored.theSize, quiet.theSize]
    rfl
  · rw [stored.pushed, ← quiet.pushed]
    simp
  · rw [stored.popped, quiet.popped]

theorem loaded_succ {extra : ℕ} (loaded : Loaded count extra state)
    (room : extra + 1 < params.theCapacity) :
    ∃ labels after, exec next state labels = some after ∧ Loaded count (extra + 1) after := by
  have size := loaded.theSize
  obtain ⟨after, run, stored⟩ :=
    exec_pushRun (fun _ => 1) loaded.writerPc (by omega) (by omega)
  have bound := (List.getElem?_eq_some_iff.mp loaded.pushed).1
  refine ⟨_, after, run, stored.writerPc, stored.readerPc.trans loaded.readerPc, ?_,
    stored.theOut.trans loaded.theOut, ?_, ?_, ?_, fun _ => ?_⟩
  · rw [stored.theIn, loaded.theIn]
    omega
  · rw [stored.theSize, loaded.theSize]
    push_cast
    omega
  · rw [stored.pushed, List.getElem?_append_left bound, loaded.pushed]
  · rw [stored.popped, loaded.popped]
  · rw [stored.theBuffer, loaded.theIn, show count + (extra + 1) = count + 1 + extra by omega]
    exact load_store_same _ _ _

theorem loaded_reachable (params : Params) (buffer : ℕ → UInt8) (count extra : ℕ)
    (room : extra < params.theCapacity) :
    ∃ labels state, exec next (initial params buffer) labels = some state ∧
      Loaded count extra state := by
  induction extra with
  | zero =>
      obtain ⟨labels, state, run, quiet⟩ := quiet_reachable params buffer count
      obtain ⟨more, after, push, loaded⟩ := loaded_zero quiet
      exact ⟨labels ++ more, after, exec_trans run push, loaded⟩
  | succ extra ih =>
      obtain ⟨labels, state, run, loaded⟩ := ih (by omega)
      obtain ⟨more, after, push, later⟩ := loaded_succ loaded room
      exact ⟨labels ++ more, after, exec_trans run push, later⟩

/-- Where two slots within the capacity overlap, the younger item damages the older one. -/
theorem not_fifo_of_overlap {distance : ℕ} (positive : 0 < distance)
    (within : distance < params.theCapacity)
    (overlap : ¬ SlotsApart params (count % 2 ^ 32) ((count + distance) % 2 ^ 32)) :
    ¬ Fifo params := by
  intro fifo
  obtain ⟨labels, state, run, loaded⟩ :=
    loaded_reachable params (fun _ => 0) count distance within
  obtain ⟨after, pop, _, _, _, pushed, popped, _⟩ :=
    exec_popRun loaded.readerPc (by have := loaded.theSize; omega)
  have ordered := fifo _ _ after (exec_trans run pop)
  have damaged : after.popped[count]? =
      some (load state.queue.theBuffer (pos params (count % 2 ^ 32))) := by
    rw [popped, loaded.theOut, ← loaded.popped]
    simp
  have intact : after.pushed[count]? = some fun _ => 0 := by rw [pushed, loaded.pushed]
  have same : (load state.queue.theBuffer (pos params (count % 2 ^ 32)) : Value params) =
      fun _ => 0 := by
    obtain ⟨rest, split⟩ := ordered
    have bound := (List.getElem?_eq_some_iff.mp damaged).1
    rw [← split, List.getElem?_append_left bound, damaged] at intact
    exact some.inj intact
  have ones := loaded.last (by omega)
  have size := params.itemSize_pos
  -- a byte that both slots contain is one in the younger item and zero in the older one
  simp only [SlotsApart, not_or, not_le] at overlap
  obtain ⟨address, older, older_bound, younger, younger_bound⟩ :
      ∃ address, pos params (count % 2 ^ 32) ≤ address ∧
        address < pos params (count % 2 ^ 32) + params.itemSize ∧
        pos params ((count + distance) % 2 ^ 32) ≤ address ∧
        address < pos params ((count + distance) % 2 ^ 32) + params.itemSize :=
    ⟨max (pos params (count % 2 ^ 32)) (pos params ((count + distance) % 2 ^ 32)), by omega⟩
  have zero := congrFun same ⟨address - pos params (count % 2 ^ 32), by omega⟩
  have one := congrFun ones ⟨address - pos params ((count + distance) % 2 ^ 32), by omega⟩
  simp only [load, Nat.add_sub_cancel' older, Nat.add_sub_cancel' younger] at zero one
  rw [zero] at one
  exact absurd one (by decide)

theorem fifo_iff_separated : Fifo params ↔ Separated params := by
  constructor
  · intro fifo count distance positive within
    by_contra overlap
    exact not_fifo_of_overlap positive within overlap fifo
  · exact fifo_of_separated

/-! ## Which queues have separated slots -/

theorem pos_mod (params : Params) (index : ℕ) :
    pos params (index % params.theCapacity) = pos params index := by
  simp only [pos, Nat.mod_mod]

theorem not_slotsApart_self (params : Params) {i j : ℕ} (same : pos params i = pos params j) :
    ¬ SlotsApart params i j := by
  have size := params.itemSize_pos
  simp only [SlotsApart, same]
  omega

/-- Across the wrap of the counter the slots stay in step only if the capacity divides `2 ^ 32`. -/
theorem capacity_dvd_of_separated (separated : Separated params) : params.theCapacity ∣ 2 ^ 32 := by
  have capacity := params.capacity_pos
  have small := params.capacity_lt
  by_contra not_dvd
  have remainder : 0 < 2 ^ 32 % params.theCapacity :=
    Nat.pos_of_ne_zero fun zero => not_dvd (Nat.dvd_of_mod_eq_zero zero)
  have bound := Nat.mod_lt (2 ^ 32) capacity
  -- the last counter value and the one `2 ^ 32 % theCapacity` later select the same slot
  apply not_slotsApart_self params _ (separated (2 ^ 32 - 1) _ remainder bound)
  have first : (2 ^ 32 - 1) % 2 ^ 32 % params.theCapacity = 2 ^ 32 % params.theCapacity - 1 := by
    have expand := Nat.div_add_mod (2 ^ 32) params.theCapacity
    rw [Nat.mod_eq_of_lt (by decide : 2 ^ 32 - 1 < 2 ^ 32)]
    rw [show 2 ^ 32 - 1 = 2 ^ 32 % params.theCapacity - 1 +
        params.theCapacity * (2 ^ 32 / params.theCapacity) by omega]
    rw [Nat.add_mul_mod_self_left]
    exact Nat.mod_eq_of_lt (by omega)
  have second : (2 ^ 32 - 1 + 2 ^ 32 % params.theCapacity) % 2 ^ 32 =
      2 ^ 32 % params.theCapacity - 1 := by
    generalize 2 ^ 32 % params.theCapacity = r at *
    omega
  rw [second, ← pos_mod, first]

theorem separated_iff :
    Separated params ↔
      params.theCapacity ∣ 2 ^ 32 ∧
        ∀ i j, i < j → j < params.theCapacity → SlotsApart params i j := by
  constructor
  · intro separated
    refine ⟨capacity_dvd_of_separated separated, fun i j less bound => ?_⟩
    have small := params.capacity_lt
    have apart := separated i (j - i) (by omega) (by omega)
    rwa [Nat.add_sub_cancel' less.le, Nat.mod_eq_of_lt (by omega),
      Nat.mod_eq_of_lt (by omega)] at apart
  · rintro ⟨divides, apart⟩ count distance positive within
    have capacity := params.capacity_pos
    have slot : ∀ index, pos params (index % 2 ^ 32) = pos params (index % params.theCapacity) := by
      intro index
      rw [← pos_mod params (index % 2 ^ 32), Nat.mod_mod_of_dvd _ divides]
    have different : count % params.theCapacity ≠ (count + distance) % params.theCapacity := by
      intro same
      have divisor : params.theCapacity ∣ count + distance - count :=
        (Nat.modEq_iff_dvd' (Nat.le_add_right _ _)).mp same
      rw [Nat.add_sub_cancel_left] at divisor
      exact absurd (Nat.le_of_dvd positive divisor) (by omega)
    have first := Nat.mod_lt count capacity
    have second := Nat.mod_lt (count + distance) capacity
    simp only [SlotsApart, slot]
    rcases Nat.lt_or_gt_of_ne different with less | less
    · exact apart _ _ less second
    · exact (apart _ _ less first).symm

/-- `Ipc::OneToOneUniQueue` is a FIFO for runs of any length exactly when the capacity divides
`2 ^ 32` and no two of the slot offsets of one round lie closer than an item. -/
theorem fifo_iff_capacity_dvd (params : Params) :
    (∀ buffer labels (state : State params),
      exec next (initial params buffer) labels = some state → state.popped <+: state.pushed) ↔
    params.theCapacity ∣ 2 ^ 32 ∧
      ∀ i j, i < j → j < params.theCapacity →
        pos params i + params.itemSize ≤ pos params j ∨
          pos params j + params.itemSize ≤ pos params i :=
  fifo_iff_separated.trans separated_iff

/-- A queue of three single-byte items. -/
def threeByteQueue : Params := .ofBytes 3 (by decide) (by decide)

/-- The items with numbers `2 ^ 32 - 1` and `2 ^ 32` share the first slot of a queue of three. -/
theorem not_fifo_threeByteQueue :
    ¬ ∀ buffer labels (state : State threeByteQueue),
      exec next (initial threeByteQueue buffer) labels = some state →
        state.popped <+: state.pushed := by
  have overlap : ¬ SlotsApart threeByteQueue ((2 ^ 32 - 1) % 2 ^ 32) ((2 ^ 32 - 1 + 1) % 2 ^ 32) :=
    not_slotsApart_self threeByteQueue (by decide)
  exact not_fifo_of_overlap (by decide) (by decide) overlap

end OneToOneUniQueue
end Ipc
end Squid
