import Squid.Library.Interleaving
import Squid.Library.CRuntime
import Mathlib.Algebra.BigOperators.Ring.Finset
import Mathlib.Order.Interval.Finset.Nat

/-!
# `Ipc::Mem::PageStack`

The container of free page numbers of `src/ipc/mem/PageStack.cc`.  Every atomic access of `pop` and
`push` is one step of the process that makes it.  The size and the two index hints are read and
written in steps of their own, so all three may be out of date when they are used; only the
exchange of one item is atomic.

`Offset` is an `int`, and an index outside of `theItems` has no defined meaning: such an access is
no step of the model.
-/

namespace Squid
namespace Ipc

open Interleaving LabelledRun CRuntime Option

/-- Shared memory page identifier. -/
structure PageId where
  /-- Page pool ID within Squid. -/
  pool : ℕ := 0
  /-- Page number within the segment. -/
  number : ℕ := 0
  deriving DecidableEq

/-- `PageId::operator bool`. -/
def PageId.isSet (page : PageId) : Bool := page.pool != 0 && page.number != 0

namespace PageStack

/-- What the constructor is given. -/
structure Params where
  /-- Stack capacity, i.e. `theItems` size. -/
  theCapacity : ℕ
  /-- Pool ID. -/
  thePoolId : ℕ
  /-- `prev` and `next` divide by the capacity. -/
  capacity_pos : 0 < theCapacity
  /-- An `int`. -/
  capacity_lt : theCapacity < 2 ^ 31
  /-- `PagePool::Init` skips zero. -/
  poolId_pos : 0 < thePoolId

variable (params : Params)

/-- The index to the right. -/
def next (idx : ℤ) : ℤ := (int32 (idx + 1)).tmod params.theCapacity

/-- The index to the left. -/
def prev (idx : ℤ) : ℤ := (int32 (params.theCapacity + idx - 1)).tmod params.theCapacity

/-- The item that an index selects. -/
def itemAt (idx : ℤ) : Option (Fin params.theCapacity) :=
  if inside : 0 ≤ idx ∧ idx.toNat < params.theCapacity then some ⟨idx.toNat, inside.2⟩ else none

def pageIdIsValid (page : PageId) : Bool :=
  page.pool == params.thePoolId && page.number != 0 && page.number ≤ params.theCapacity

/-- The words of a stack in shared memory. -/
structure Shared where
  /-- Lower bound for the number of free pages. -/
  theSize : ℤ
  /-- Last readable item index; just a hint. -/
  theLastReadable : ℤ
  /-- First writable item index; just a hint. -/
  theFirstWritable : ℤ
  /-- Page number storage. -/
  theItems : Fin params.theCapacity → ℕ

/-- A freshly constructed stack: all pages are free. -/
def construct : Shared params where
  theSize := params.theCapacity
  theLastReadable := prev params params.theCapacity
  theFirstWritable := next params (prev params params.theCapacity)
  theItems i := i + 1

variable {params}

/-- Position of a process inside `pop` or `push`. -/
inductive Pc
  /-- Between calls. -/
  | idle
  /-- `pop` before the test of `theSize`. -/
  | popTest
  /-- `pop` before `theLastReadable` is read. -/
  | popRead
  /-- `pop` before the item is extracted. -/
  | popTake (idx : ℤ)
  /-- `pop` before `theLastReadable` is moved to the left. -/
  | popHint (idx : ℤ) (value : ℕ)
  /-- `pop` before `theFirstWritable` is set. -/
  | popMark (idx : ℤ) (value : ℕ)
  /-- `pop` before `theSize` is restored. -/
  | popFail
  /-- `push` before the test of `theSize`. -/
  | pushTest (page : PageId)
  /-- `push` before `theFirstWritable` is read. -/
  | pushRead (page : PageId)
  /-- `push` before the item is stored. -/
  | pushStore (page : PageId) (idx : ℤ)
  /-- `push` before `theFirstWritable` is moved to the right. -/
  | pushHint (page : PageId) (idx : ℤ) (pushed : Bool)
  /-- `push` before `theLastReadable` is set. -/
  | pushMark (idx : ℤ)
  /-- `push` before `++theSize`. -/
  | pushCount
  /-- `Must(pageIdIsValid(page))` has failed. -/
  | invalid (page : PageId)
  /-- `Must(false)`: the number of pages exceeds the capacity. -/
  | exhausted (page : PageId)

/-- Private state of a process. -/
structure Process where
  /-- Position inside the current call. -/
  pc : Pc := .idle
  /-- The pages the process was given and has not returned. -/
  held : List PageId := []

/-- The steps of a process. -/
inductive Action
  /-- Enter `pop` with an unset page. -/
  | pop
  /-- Enter `push` with one of the pages held. -/
  | push (page : PageId)
  /-- Proceed with the current call. -/
  | proceed

/-- The next atomic access of the call in progress. -/
def proceed (stack : Shared params) (own : Process) : Option (Shared params × Process) :=
  match own.pc with
  | .idle | .invalid _ | .exhausted _ => none
  | .popTest =>
      some (stack, { own with pc := if 0 ≤ stack.theSize then .popRead else .popFail })
  | .popRead => some (stack, { own with pc := .popTake stack.theLastReadable })
  | .popTake idx =>
      (itemAt params idx).map fun i =>
        ({ stack with theItems := Function.update stack.theItems i 0 },
          { own with pc := .popHint idx (stack.theItems i) })
  | .popHint idx value =>
      some
        ({ stack with
            theLastReadable :=
              if stack.theLastReadable = idx then prev params idx else stack.theLastReadable },
          { own with pc := if value ≠ 0 then .popMark idx value else .popTest })
  | .popMark idx value =>
      some ({ stack with theFirstWritable := idx },
        { pc := .idle, held := { pool := params.thePoolId, number := value } :: own.held })
  | .popFail => some ({ stack with theSize := stack.theSize + 1 }, { own with pc := .idle })
  | .pushTest page =>
      some (stack, { own with
        pc := if stack.theSize < params.theCapacity then .pushRead page else .exhausted page })
  | .pushRead page => some (stack, { own with pc := .pushStore page stack.theFirstWritable })
  | .pushStore page idx =>
      (itemAt params idx).map fun i =>
        if stack.theItems i = 0 then
          ({ stack with theItems := Function.update stack.theItems i page.number },
            { own with pc := .pushHint page idx true })
        else
          (stack, { own with pc := .pushHint page idx false })
  | .pushHint page idx pushed =>
      some
        ({ stack with
            theFirstWritable :=
              if stack.theFirstWritable = idx then next params idx else stack.theFirstWritable },
          { own with pc := if pushed then .pushMark idx else .pushTest page })
  | .pushMark idx => some ({ stack with theLastReadable := idx }, { own with pc := .pushCount })
  | .pushCount => some ({ stack with theSize := stack.theSize + 1 }, { own with pc := .idle })

/-- One atomic step of one process.  A process pushes only pages it holds. -/
def localStep (stack : Shared params) (own : Process) :
    Action → Option (Shared params × Process)
  | .proceed => proceed stack own
  | .pop =>
      match own.pc with
      | .idle =>
          some ({ stack with theSize := stack.theSize - 1 }, { own with pc := .popTest })
      | _ => none
  | .push page =>
      match own.pc with
      | .idle =>
          if page ∈ own.held then
            if page.isSet then
              some (stack,
                { pc := if pageIdIsValid params page then .pushTest page else .invalid page
                  held := own.held.erase page })
            else
              some (stack, own)
          else
            none
      | _ => none

/-- A stack in shared memory and the processes that use it. -/
abbrev System (params : Params) (P : Type*) := Interleaving.State P (Shared params) Process

/-- A freshly constructed stack and processes that hold nothing. -/
def initial (params : Params) (P : Type*) : System params P where
  memory := construct params
  process _ := {}

/-- One step of one of the processes. -/
def step {P : Type*} [DecidableEq P] (system : System params P) (label : P × Action) :
    Option (System params P) :=
  interleave localStep system label

/-! ## What one step can do -/

/-- How often a page number is stored in the items. -/
def itemCopies (stack : Shared params) (number : ℕ) : ℤ :=
  ∑ i, if stack.theItems i = number then 1 else 0

/-- The page number in the hands of the call in progress. -/
def Pc.page : Pc → Option ℕ
  | .popHint _ value | .popMark _ value => some value
  | .pushTest page | .pushRead page | .pushStore page _ | .pushHint page _ false => some page.number
  | .invalid page | .exhausted page => some page.number
  | .idle | .popTest | .popRead | .popTake _ | .popFail => none
  | .pushHint _ _ true | .pushMark _ | .pushCount => none

/-- The page numbers a process holds, inside and outside of its calls. -/
def Process.numbers (own : Process) : List ℕ :=
  own.pc.page.toList ++ own.held.map PageId.number

/-- How often a process holds a page number. -/
def Process.copies (own : Process) (number : ℕ) : ℤ := own.numbers.count number

/-- Share of the difference between the capacity and `theSize` that a process accounts for. -/
def Process.units (own : Process) : ℤ :=
  own.held.length + match own.pc with
    | .idle => 0
    | _ => 1

/-- Everything the proofs below use about one atomic step of one process. -/
structure Effect (stack : Shared params) (own : Process) (stack' : Shared params)
    (own' : Process) : Prop where
  /-- A page number moves between an item and the process. -/
  copies : ∀ number, number ≠ 0 →
    itemCopies stack' number + own'.copies number = itemCopies stack number + own.copies number
  /-- `theSize` follows the share of the process. -/
  size : stack'.theSize + own'.units = stack.theSize + own.units

theorem units_nonneg (own : Process) : 0 ≤ own.units := by
  unfold Process.units
  split <;> omega

variable {own : Process}

theorem units_pos (busy : own.pc ≠ .idle) : 0 < own.units := by
  unfold Process.units
  split
  · exact absurd ‹own.pc = .idle› busy
  · omega

theorem copies_nonneg (number : ℕ) (own : Process) : 0 ≤ own.copies number :=
  Int.natCast_nonneg _

theorem itemCopies_nonneg (stack : Shared params) (number : ℕ) : 0 ≤ itemCopies stack number :=
  Finset.sum_nonneg fun i _ => by split <;> simp

variable {own' : Process} {stack stack' : Shared params}

/-- A step that leaves the items alone and neither takes nor gives a page. -/
theorem effect_of_same (items : stack'.theItems = stack.theItems)
    (numbers : own'.numbers = own.numbers)
    (size : stack'.theSize + own'.units = stack.theSize + own.units) :
    Effect stack own stack' own' := by
  refine ⟨?_, size⟩
  intro number _
  simp only [itemCopies, Process.copies, items, numbers]

/-- A step that exchanges one item. -/
theorem itemCopies_update (stack : Shared params) (i : Fin params.theCapacity) (value number : ℕ) :
    itemCopies { stack with theItems := Function.update stack.theItems i value } number =
      itemCopies stack number +
        ((if value = number then 1 else 0) - if stack.theItems i = number then 1 else 0) :=
  sum_update (fun item : ℕ => if item = number then 1 else 0) stack.theItems i value

theorem proceed_effect (step : proceed stack own = some (stack', own')) :
    Effect stack own stack' own' := by
  obtain ⟨pc, held⟩ := own
  cases pc with
  | idle | invalid page | exhausted page => simp [proceed] at step
  | popTest =>
      cases step
      split <;> exact effect_of_same rfl rfl rfl
  | popRead | pushRead page | pushMark idx =>
      cases step
      exact effect_of_same rfl rfl rfl
  | popTake idx =>
      simp only [proceed, map_eq_some_iff] at step
      obtain ⟨i, -, moved⟩ := step
      cases moved
      refine ⟨fun number positive => ?_, rfl⟩
      rw [itemCopies_update, if_neg positive.symm]
      by_cases taken : stack.theItems i = number
      · simp [Process.copies, Process.numbers, Pc.page, taken]
        omega
      · simp [Process.copies, Process.numbers, Pc.page, taken]
  | popHint idx value =>
      cases step
      cases value with
      | zero =>
          refine ⟨fun number positive => ?_, rfl⟩
          simp [itemCopies, Process.copies, Process.numbers, Pc.page, positive.symm]
      | succ value => exact effect_of_same rfl rfl rfl
  | popMark idx value =>
      cases step
      refine effect_of_same rfl rfl ?_
      simp [Process.units]
  | popFail | pushCount =>
      cases step
      refine effect_of_same rfl rfl ?_
      simp only [Process.units]
      omega
  | pushTest page =>
      cases step
      split <;> exact effect_of_same rfl rfl rfl
  | pushStore page idx =>
      simp only [proceed, map_eq_some_iff] at step
      obtain ⟨i, -, moved⟩ := step
      split at moved
      · rename_i free
        cases moved
        refine ⟨fun number positive => ?_, rfl⟩
        rw [itemCopies_update, free, if_neg positive.symm]
        by_cases stored : page.number = number
        · simp [Process.copies, Process.numbers, Pc.page, stored]
          omega
        · simp [Process.copies, Process.numbers, Pc.page, stored]
      · cases moved
        exact effect_of_same rfl rfl rfl
  | pushHint page idx pushed =>
      cases step
      cases pushed <;> exact effect_of_same rfl rfl rfl

variable {action : Action}

theorem localStep_effect (step : localStep stack own action = some (stack', own')) :
    Effect stack own stack' own' := by
  cases action with
  | proceed => exact proceed_effect step
  | pop =>
      obtain ⟨pc, held⟩ := own
      cases pc <;> simp only [localStep, reduceCtorEq] at step
      cases step
      refine effect_of_same rfl rfl ?_
      simp only [Process.units]
      omega
  | push page =>
      obtain ⟨pc, held⟩ := own
      cases pc <;> simp only [localStep, reduceCtorEq] at step
      simp only [ite_none_right_eq_some] at step
      obtain ⟨member, moved⟩ := step
      have taken : held.Perm (page :: held.erase page) := List.perm_cons_erase member
      have length := taken.length_eq
      have count := fun number => (taken.map PageId.number).count_eq number
      split at moved
      · cases moved
        refine ⟨fun number _ => ?_, ?_⟩
        · have same := count number
          split <;> simp [itemCopies, Process.copies, Process.numbers, Pc.page, same]
        · split <;> simp only [Process.units, List.length_cons] at length ⊢ <;> omega
      · cases moved
        exact effect_of_same rfl rfl rfl

/-- No `Must` has failed, and what `pop` is about to return is a page. -/
def Pc.Sound : Pc → Prop
  | .popMark _ value => value ≠ 0
  | .invalid _ | .exhausted _ => False
  | .idle | .popTest | .popRead | .popTake _ | .popHint _ _ | .popFail => True
  | .pushTest _ | .pushRead _ | .pushStore _ _ | .pushHint _ _ _ | .pushMark _ | .pushCount => True

/-- What a process holds was handed out by this stack. -/
structure Sound (params : Params) (own : Process) : Prop where
  position : own.pc.Sound
  held : ∀ page ∈ own.held, page.pool = params.thePoolId ∧ page.number ≠ 0

theorem proceed_sound (sound : Sound params own)
    (room : own.pc ≠ .idle → stack.theSize < params.theCapacity)
    (step : proceed stack own = some (stack', own')) : Sound params own' := by
  obtain ⟨pc, held⟩ := own
  obtain ⟨position, mine⟩ := sound
  cases pc with
  | idle | invalid page | exhausted page => simp [proceed] at step
  | popRead | popFail | pushRead page | pushMark idx | pushCount =>
      cases step
      exact ⟨trivial, mine⟩
  | popTest =>
      cases step
      refine ⟨?_, mine⟩
      split <;> trivial
  | popTake idx =>
      simp only [proceed, map_eq_some_iff] at step
      obtain ⟨i, -, moved⟩ := step
      cases moved
      exact ⟨trivial, mine⟩
  | popHint idx value =>
      cases step
      refine ⟨?_, mine⟩
      split
      · assumption
      · trivial
  | popMark idx value =>
      cases step
      exact ⟨trivial, List.forall_mem_cons.2 ⟨⟨rfl, position⟩, mine⟩⟩
  | pushTest page =>
      cases step
      refine ⟨?_, mine⟩
      rw [if_pos (room (by simp))]
      trivial
  | pushStore page idx =>
      simp only [proceed, map_eq_some_iff] at step
      obtain ⟨i, -, moved⟩ := step
      split at moved <;> cases moved <;> exact ⟨trivial, mine⟩
  | pushHint page idx pushed =>
      cases step
      refine ⟨?_, mine⟩
      cases pushed <;> trivial

theorem localStep_sound (sound : Sound params own)
    (room : own.pc ≠ .idle → stack.theSize < params.theCapacity)
    (known : ∀ page ∈ own.held, page.number ≤ params.theCapacity)
    (step : localStep stack own action = some (stack', own')) : Sound params own' := by
  cases action with
  | proceed => exact proceed_sound sound room step
  | pop =>
      obtain ⟨pc, held⟩ := own
      cases pc <;> simp only [localStep, reduceCtorEq] at step
      cases step
      exact ⟨trivial, sound.held⟩
  | push page =>
      obtain ⟨pc, held⟩ := own
      cases pc <;> simp only [localStep, reduceCtorEq] at step
      simp only [ite_none_right_eq_some] at step
      obtain ⟨member, moved⟩ := step
      split at moved
      · cases moved
        have valid : pageIdIsValid params page = true := by
          simp [pageIdIsValid, sound.held page member, known page member]
        rw [if_pos valid]
        exact ⟨trivial, fun other rest => sound.held other (List.mem_of_mem_erase rest)⟩
      · cases moved
        exact sound

/-! ## Conservation of pages -/

section Conservation

variable {P : Type*} [Fintype P]

/-- The invariant that ties the items and the size to the holdings of all processes. -/
structure Invariant (system : System params P) : Prop where
  /-- Every page of the stack is somewhere exactly once, and there are no other pages. -/
  pages : ∀ number, number ≠ 0 →
    itemCopies system.memory number + ∑ p, (system.process p).copies number =
      if number ≤ params.theCapacity then 1 else 0
  /-- `theSize` counts the pages that nobody holds or is about to take. -/
  size : system.memory.theSize + ∑ p, (system.process p).units = params.theCapacity
  sound : ∀ p, Sound params (system.process p)

variable {number : ℕ}

theorem itemCopies_construct (positive : number ≠ 0) :
    itemCopies (construct params) number = if number ≤ params.theCapacity then 1 else 0 := by
  obtain ⟨index, rfl⟩ := Nat.exists_eq_succ_of_ne_zero positive
  simp only [itemCopies, construct, Nat.succ_eq_add_one, Nat.add_right_cancel_iff]
  by_cases inside : index + 1 ≤ params.theCapacity
  · rw [if_pos inside, Finset.sum_eq_single (⟨index, inside⟩ : Fin params.theCapacity)]
    · simp
    · intro i _ other
      exact if_neg fun same => other (Fin.ext same)
    · simp
  · rw [if_neg inside]
    refine Finset.sum_eq_zero fun i _ => if_neg ?_
    have := i.isLt
    omega

theorem invariant_initial : Invariant (initial params P) := by
  refine ⟨?_, ?_, ?_⟩
  · intro number positive
    simp [initial, itemCopies_construct positive, Process.copies, Process.numbers, Pc.page]
  · simp [initial, construct, Process.units]
  · exact fun p => ⟨trivial, by simp [initial]⟩

variable {system : System params P}

theorem Invariant.room (inv : Invariant system) (p : P) (busy : (system.process p).pc ≠ .idle) :
    system.memory.theSize < params.theCapacity := by
  have positive := units_pos busy
  have total := weight_le_sum units_nonneg system.process p
  have size := inv.size
  omega

theorem Invariant.copies_le (inv : Invariant system) (p : P) (positive : number ≠ 0) :
    (system.process p).copies number ≤ if number ≤ params.theCapacity then 1 else 0 := by
  have total := weight_le_sum (copies_nonneg number) system.process p
  have items := itemCopies_nonneg system.memory number
  have pages := inv.pages number positive
  omega

theorem Invariant.known (inv : Invariant system) (p : P) (page : PageId)
    (member : page ∈ (system.process p).held) : page.number ≤ params.theCapacity := by
  have positive := ((inv.sound p).held page member).2
  have bound := inv.copies_le p positive
  by_contra outside
  rw [if_neg outside] at bound
  have mine : page.number ∈ (system.process p).numbers :=
    List.mem_append_right _ (List.mem_map_of_mem member)
  have counted := List.count_pos_iff.mpr mine
  simp only [Process.copies] at bound
  omega

theorem invariant_step [DecidableEq P] {before after : System params P} {label : P × Action}
    (inv : Invariant before) (moved : step before label = some after) : Invariant after := by
  obtain ⟨p, action⟩ := label
  obtain ⟨stack, own, local_step, rfl⟩ := interleave_eq_some.mp moved
  have effect := localStep_effect local_step
  refine ⟨?_, ?_, ?_⟩
  · intro number positive
    have total := sum_update (fun own => Process.copies own number) before.process p own
    have copies := effect.copies number positive
    have pages := inv.pages number positive
    simp only at total ⊢
    omega
  · have total := sum_update Process.units before.process p own
    have size := effect.size
    have old := inv.size
    simp only at total ⊢
    omega
  · intro q
    by_cases same : q = p
    · subst same
      simpa using localStep_sound (inv.sound q) (inv.room q) (inv.known q) local_step
    · simpa [same] using inv.sound q

theorem invariant_reachable [DecidableEq P] (reach : Reachable step (initial params P) system) :
    Invariant system :=
  reach.invariant invariant_step invariant_initial

/-- All the processes together hold no more pages than there are. -/
theorem Invariant.sum_held_le (inv : Invariant system) :
    ∑ p, ((system.process p).held.length : ℤ) ≤ params.theCapacity := by
  have per_process : ∀ p, ((system.process p).held.length : ℤ) ≤
      ∑ number ∈ Finset.Icc 1 params.theCapacity, (system.process p).copies number := by
    intro p
    have all : ∀ number ∈ ((system.process p).held.map PageId.number : Multiset ℕ),
        number ∈ Finset.Icc 1 params.theCapacity := by
      intro number member
      obtain ⟨page, mine, rfl⟩ := List.mem_map.mp (Multiset.mem_coe.mp member)
      exact Finset.mem_Icc.mpr
        ⟨Nat.pos_of_ne_zero ((inv.sound p).held page mine).2, inv.known p page mine⟩
    have counted := Multiset.sum_count_eq_card all
    simp only [Multiset.coe_count, Multiset.coe_card, List.length_map] at counted
    rw [← counted, Nat.cast_sum]
    refine Finset.sum_le_sum fun number _ => ?_
    simp [Process.copies, Process.numbers, List.count_append]
  calc ∑ p, ((system.process p).held.length : ℤ)
      ≤ ∑ p, ∑ number ∈ Finset.Icc 1 params.theCapacity, (system.process p).copies number :=
        Finset.sum_le_sum fun p _ => per_process p
    _ = ∑ number ∈ Finset.Icc 1 params.theCapacity, ∑ p, (system.process p).copies number :=
        Finset.sum_comm
    _ ≤ ∑ _number ∈ Finset.Icc 1 params.theCapacity, (1 : ℤ) := by
        refine Finset.sum_le_sum fun number member => ?_
        obtain ⟨low, high⟩ := Finset.mem_Icc.mp member
        have pages := inv.pages number (by omega)
        have items := itemCopies_nonneg system.memory number
        rw [if_pos high] at pages
        omega
    _ = params.theCapacity := by simp

/-- `theSize` stays within an `int` for as long as there are at most `2 ^ 31` processes, and it is
the number of free pages whenever no call is in progress. -/
theorem size_bounded [DecidableEq P] {system : System params P}
    (reach : Reachable step (initial params P) system) :
    -(Fintype.card P : ℤ) ≤ system.memory.theSize ∧
      system.memory.theSize ≤ params.theCapacity ∧
      ((∀ p, (system.process p).pc = .idle) →
        system.memory.theSize =
          params.theCapacity - ∑ p, ((system.process p).held.length : ℤ)) := by
  have inv := invariant_reachable reach
  have size := inv.size
  have nonneg : 0 ≤ ∑ p, (system.process p).units :=
    Finset.sum_nonneg fun p _ => units_nonneg _
  have held := inv.sum_held_le
  have busy : ∑ p, (system.process p).units ≤
      ∑ p, ((system.process p).held.length : ℤ) + Fintype.card P := by
    rw [← Finset.card_univ, Finset.card_eq_sum_ones, Nat.cast_sum, ← Finset.sum_add_distrib]
    refine Finset.sum_le_sum fun p _ => ?_
    unfold Process.units
    split <;> simp
  refine ⟨by omega, by omega, fun quiet => ?_⟩
  have units : ∑ p, (system.process p).units = ∑ p, ((system.process p).held.length : ℤ) :=
    Finset.sum_congr rfl fun p _ => by simp [Process.units, quiet p]
  omega

/-- The places where a page can be: an item of the stack or the hands of a process. -/
abbrev Place (params : Params) (P : Type*) := Fin params.theCapacity ⊕ P

/-- The page is at the place. -/
def At (system : System params P) (number : ℕ) : Place params P → Prop
  | .inl i => system.memory.theItems i = number
  | .inr p => number ∈ (system.process p).numbers

theorem Invariant.existsUnique_at (inv : Invariant system) (positive : 1 ≤ number)
    (inside : number ≤ params.theCapacity) : ∃! place, At system number place := by
  have pages := inv.pages number (by omega)
  let weight : Fin params.theCapacity ⊕ P → ℤ :=
    Sum.elim (fun i => if system.memory.theItems i = number then 1 else 0)
      fun p => (system.process p).copies number
  have nonneg : ∀ place, 0 ≤ weight place := by
    rintro (i | p)
    · simp only [weight, Sum.elim_inl]
      split <;> simp
    · exact copies_nonneg number _
  have total : ∑ place, weight place = 1 := by
    rw [Fintype.sum_sum_type]
    simpa [weight, itemCopies, inside] using pages
  have at_iff : ∀ place, At system number place ↔ 0 < weight place := by
    rintro (i | p)
    · simp only [At, weight, Sum.elim_inl]
      split <;> simp_all
    · simp [At, weight, Process.copies, List.count_pos_iff]
  simpa only [at_iff] using existsUnique_of_sum_eq_one nonneg total

end Conservation

/-! ## Indices -/

section Indices

variable {P : Type*} [DecidableEq P]

/-- The index selects an item. -/
def Inside (params : Params) (idx : ℤ) : Prop := 0 ≤ idx ∧ idx < params.theCapacity

/-- The indices a call carries select items. -/
def Pc.Inside (params : Params) : Pc → Prop
  | .popTake idx | .popHint idx _ | .popMark idx _ => PageStack.Inside params idx
  | .pushStore _ idx | .pushHint _ idx _ | .pushMark idx => PageStack.Inside params idx
  | .idle | .popTest | .popRead | .popFail => True
  | .pushTest _ | .pushRead _ | .pushCount | .invalid _ | .exhausted _ => True

variable {idx : ℤ}

theorem inside_next (inside : Inside params idx) : Inside params (next params idx) := by
  have positive := params.capacity_pos
  have bound := params.capacity_lt
  obtain ⟨low, high⟩ := inside
  rw [next, int32_eq (by omega) (by omega)]
  exact ⟨Int.tmod_nonneg _ (by omega), Int.tmod_lt_of_pos _ (by omega)⟩

theorem inside_prev (small : 2 * params.theCapacity ≤ 2 ^ 31) (low : 0 ≤ idx)
    (high : idx ≤ params.theCapacity) : Inside params (prev params idx) := by
  have positive := params.capacity_pos
  rw [prev, int32_eq (by omega) (by omega)]
  exact ⟨Int.tmod_nonneg _ (by omega), Int.tmod_lt_of_pos _ (by omega)⟩

/-- Both hints and all the indices in use select items. -/
structure IndicesInside (system : System params P) : Prop where
  lastReadable : Inside params system.memory.theLastReadable
  firstWritable : Inside params system.memory.theFirstWritable
  position : ∀ p, (system.process p).pc.Inside params

variable {own : Process} {stack : Shared params}

section

variable (small : 2 * params.theCapacity ≤ 2 ^ 31)
include small

theorem proceed_inside (last : Inside params stack.theLastReadable)
    (first : Inside params stack.theFirstWritable) (position : own.pc.Inside params)
    (step : proceed stack own = some (stack', own')) :
    Inside params stack'.theLastReadable ∧ Inside params stack'.theFirstWritable ∧
      own'.pc.Inside params := by
  obtain ⟨pc, held⟩ := own
  cases pc with
  | idle | invalid page | exhausted page => simp [proceed] at step
  | popRead =>
      cases step
      exact ⟨last, first, last⟩
  | pushRead page =>
      cases step
      exact ⟨last, first, first⟩
  | popFail | pushCount =>
      cases step
      exact ⟨last, first, trivial⟩
  | popTest | pushTest page =>
      cases step
      refine ⟨last, first, ?_⟩
      split <;> trivial
  | popTake idx =>
      simp only [proceed, map_eq_some_iff] at step
      obtain ⟨i, -, moved⟩ := step
      cases moved
      exact ⟨last, first, position⟩
  | popHint idx value =>
      cases step
      refine ⟨?_, first, ?_⟩
      · simp only
        split
        · exact inside_prev small position.1 position.2.le
        · exact last
      · cases value with
        | zero => trivial
        | succ value => exact position
  | popMark idx value =>
      cases step
      exact ⟨last, position, trivial⟩
  | pushStore page idx =>
      simp only [proceed, map_eq_some_iff] at step
      obtain ⟨i, -, moved⟩ := step
      split at moved <;> cases moved <;> exact ⟨last, first, position⟩
  | pushHint page idx pushed =>
      cases step
      refine ⟨last, ?_, ?_⟩
      · simp only
        split
        · exact inside_next position
        · exact first
      · cases pushed
        · trivial
        · exact position
  | pushMark idx =>
      cases step
      exact ⟨position, first, trivial⟩

theorem localStep_inside {action : Action} (last : Inside params stack.theLastReadable)
    (first : Inside params stack.theFirstWritable) (position : own.pc.Inside params)
    (step : localStep stack own action = some (stack', own')) :
    Inside params stack'.theLastReadable ∧ Inside params stack'.theFirstWritable ∧
      own'.pc.Inside params := by
  cases action with
  | proceed => exact proceed_inside small last first position step
  | pop =>
      obtain ⟨pc, held⟩ := own
      cases pc <;> simp only [localStep, reduceCtorEq] at step
      cases step
      exact ⟨last, first, trivial⟩
  | push page =>
      obtain ⟨pc, held⟩ := own
      cases pc <;> simp only [localStep, reduceCtorEq] at step
      simp only [ite_none_right_eq_some] at step
      obtain ⟨-, moved⟩ := step
      split at moved
      · cases moved
        refine ⟨last, first, ?_⟩
        split <;> trivial
      · cases moved
        exact ⟨last, first, position⟩

theorem indicesInside_reachable {system : System params P}
    (reach : Reachable step (initial params P) system) : IndicesInside system := by
  refine reach.invariant ?_ ?_
  · rintro before ⟨p, action⟩ after ⟨last, first, position⟩ moved
    obtain ⟨stack, own, local_step, rfl⟩ := interleave_eq_some.mp moved
    obtain ⟨last', first', position'⟩ := localStep_inside small last first (position p) local_step
    refine ⟨last', first', fun q => ?_⟩
    by_cases same : q = p
    · subst same
      simpa using position'
    · simpa [same] using position q
  · have last : Inside params (prev params params.theCapacity) :=
      inside_prev small (by omega) le_rfl
    exact ⟨last, inside_next last, fun _ => trivial⟩

end

/-- A call in progress has a next step: its index selects an item. -/
theorem proceed_isSome (sound : Sound params own) (inside : own.pc.Inside params)
    (busy : own.pc ≠ .idle) : (proceed stack own).isSome := by
  obtain ⟨pc, held⟩ := own
  have selects : ∀ idx, Inside params idx → (itemAt params idx).isSome := by
    rintro idx ⟨low, high⟩
    simp only [itemAt]
    split
    · rfl
    · omega
  cases pc with
  | idle => exact absurd rfl busy
  | invalid page | exhausted page => exact sound.position.elim
  | popTake idx | pushStore page idx => simpa [proceed] using selects idx inside
  | _ => rfl

end Indices

/-- `Ipc::Mem::PageStack` conserves pages: whatever the number of processes and the interleaving of
their atomic steps, every page number is either in exactly one item or in the hands of exactly one
process, which has it once, and no `Must` of `push` fails.  As long as `theCapacity + theCapacity`
is an `int`, no index is ever outside of `theItems`, so that every call can proceed. -/
theorem conserves_pages {P : Type*} [Fintype P] [DecidableEq P] {system : System params P}
    (reach : Reachable step (initial params P) system) :
    (∀ number, 1 ≤ number → number ≤ params.theCapacity →
      (∃! place, At system number place) ∧
        ∀ p, (system.process p).numbers.count number ≤ 1) ∧
    (∀ p page, (system.process p).pc ≠ .exhausted page ∧ (system.process p).pc ≠ .invalid page) ∧
    (2 * params.theCapacity ≤ 2 ^ 31 →
      ∀ p, (system.process p).pc ≠ .idle → (step system (p, .proceed)).isSome) := by
  have inv := invariant_reachable reach
  refine ⟨?_, ?_, ?_⟩
  · intro number positive inside
    refine ⟨inv.existsUnique_at positive inside, fun p => ?_⟩
    have bound : (system.process p).copies number ≤ _ := inv.copies_le p (by omega)
    simp only [Process.copies, if_pos inside] at bound
    omega
  · intro p page
    have position := (inv.sound p).position
    constructor <;> intro failed <;> simp [failed, Pc.Sound] at position
  · intro small p busy
    have inside := (indicesInside_reachable small reach).position p
    have enabled : (proceed system.memory (system.process p)).isSome :=
      proceed_isSome (inv.sound p) inside busy
    simpa [step, interleave, localStep] using enabled

/-- A stack of two pages. -/
def twoPages : Params where
  theCapacity := 2
  thePoolId := 1
  capacity_pos := Nat.two_pos
  capacity_lt := by decide
  poolId_pos := Nat.one_pos

/-- One process pops a page while the other one is about to extract the same item. -/
def contendedPop : List (Bool × Action) :=
  [(false, .pop), (true, .pop), (false, .proceed), (true, .proceed), (false, .proceed),
    (true, .proceed), (false, .proceed), (false, .proceed), (false, .proceed)]

theorem conserves_pages_contendedPop :
    ∃ system, exec step (initial twoPages Bool) contendedPop = some system ∧
      (system.process false).held = [{ pool := 1, number := 2 }] ∧
      (system.process true).pc = .popTake 1 ∧ ∃! place, At system 2 place := by
  refine ⟨_, rfl, rfl, rfl, ?_⟩
  exact ((conserves_pages ⟨contendedPop, rfl⟩).1 2 (by decide) (by decide)).1

/-- After a few more steps the other process has a page as well, and both are at rest. -/
theorem size_bounded_contendedPop :
    ∃ system, exec step (initial twoPages Bool)
        (contendedPop ++ List.replicate 7 (true, .proceed)) = some system ∧
      (system.process false).held.length = 1 ∧ (system.process true).held.length = 1 ∧
      system.memory.theSize = 0 := by
  have ended : ∃ system, exec step (initial twoPages Bool)
        (contendedPop ++ List.replicate 7 (true, .proceed)) = some system ∧
      (system.process false).pc = .idle ∧ (system.process true).pc = .idle ∧
      (system.process false).held.length = 1 ∧ (system.process true).held.length = 1 :=
    ⟨_, rfl, rfl, rfl, rfl, rfl⟩
  obtain ⟨system, run, idle, idle', one, one'⟩ := ended
  obtain ⟨-, -, rest⟩ := @size_bounded twoPages Bool _ _ _ ⟨_, run⟩
  refine ⟨system, run, one, one', ?_⟩
  rw [rest fun p => by cases p <;> assumption, Fintype.sum_bool, one, one']
  rfl

end PageStack
end Ipc
end Squid
