import Squid.Store.SwapOutInvariant

/-!
# One call of `swapOut`

A call decides whether the object may be swapped out, trims memory, and writes.  It dies in one
situation only: swapping out was decided before, the file has been closed since, and the start of
the object has been trimmed.
-/

namespace Squid
namespace Swap

open CRuntime
open Mem

/-! ## The decision -/

theorem contiguousLoop_reshaped {fuel : ℕ} {hdr : MemHdr} (wf : hdr.WF) (currentStart stop : ℤ) :
    Reshaped hdr (MemObject.contiguousLoop fuel hdr currentStart stop).2 := by
  induction fuel generalizing hdr currentStart with
  | zero => exact ⟨rfl, rfl, rfl, rfl, rfl⟩
  | succ fuel ih =>
      have reshaped := (find_spec wf { offset := currentStart, length := 1 }).1
      rw [← MemHdr.getBlockContainingLocation] at reshaped
      unfold MemObject.contiguousLoop
      generalize hdr.getBlockContainingLocation currentStart = result at reshaped ⊢
      obtain ⟨_ | curr, middle⟩ := result
      · exact reshaped
      · dsimp only at reshaped ⊢
        split
        · exact reshaped
        · exact reshaped.trans (ih (reshaped.wf wf) _)

/-- What the decision leaves. -/
structure Decided (config : Config) (e : StoreEntry) (after : StoreEntry) : Prop where
  inv : Invariant config after
  keeps : Keeps e after
  sio : after.mem_obj.sio = e.mem_obj.sio
  swap_status : after.swap_status = e.swap_status
  inmem_lo : after.mem_obj.inmem_lo = e.mem_obj.inmem_lo
  queue_offset : after.mem_obj.queue_offset = e.mem_obj.queue_offset
  handed : after.handed = e.handed

/-- What the answer of `mayStartSwapOut` means. -/
inductive Answer (e after : StoreEntry) : Bool → Prop
  | no (before : e.mem_obj.decision ≠ .swPossible)
      (undecided : after.mem_obj.decision ≠ .swPossible) : Answer e after false
  | again (decided : e.mem_obj.decision = .swPossible) (same : after = e) : Answer e after true
  | yes (closed : e.mem_obj.sio = none) (whole : e.mem_obj.inmem_lo = 0) : Answer e after true

namespace Invariant

variable {config : Config} {call : Call} {e : StoreEntry}

theorem decided (inv : Invariant config e) : Decided config e e :=
  ⟨inv, Keeps.refl e, rfl, rfl, rfl, rfl, rfl⟩

theorem decide_impossible (inv : Invariant config e) (closed : e.mem_obj.sio = none) :
    Decided config e (e.decide .swImpossible) := by
  refine ⟨?_, ⟨rfl, rfl, rfl, rfl⟩, rfl, rfl, rfl, rfl, rfl⟩
  exact { inv with
    possible := fun isOpen => (isOpen closed).elim
    kept := fun absurd => by cases absurd
    undecided := fun absurd => by cases absurd
    configured := fun absurd => by cases absurd }

theorem decide_possible (inv : Invariant config e) (configured : config.n_configured ≠ 0)
    (undecided : e.mem_obj.decision = .swNeedsCheck) (whole : e.mem_obj.inmem_lo = 0) :
    Decided config e (e.decide .swPossible) := by
  refine ⟨?_, ⟨rfl, rfl, rfl, rfl⟩, rfl, rfl, rfl, rfl, rfl⟩
  obtain ⟨start, idle⟩ := inv.undecided undecided
  refine { inv with
    possible := fun _ => rfl
    kept := fun _ => ⟨?_, fun p _ _ => idle p⟩
    undecided := fun absurd => by cases absurd
    configured := fun _ => configured }
  have lowest := inv.lowest
  rw [whole, ← start] at lowest
  exact lowest

theorem checkMaxSize (inv : Invariant config e) (configured : config.n_configured ≠ 0)
    (closed : e.mem_obj.sio = none) (undecided : e.mem_obj.decision = .swNeedsCheck)
    (whole : e.mem_obj.inmem_lo = 0) :
    ∃ answer after, e.checkMaxSize config call = .ok (answer, after) ∧ Decided config e after ∧
      Answer e after answer := by
  have no : Answer e (e.decide .swImpossible) false :=
    .no (by simp [undecided]) (by rw [StoreEntry.decide]; simp)
  unfold StoreEntry.checkMaxSize
  dsimp only
  split
  · split
    · exact ⟨_, _, rfl, inv.decide_impossible closed, no⟩
    · rw [inv.endOffset, Except.map]
      split
      · exact ⟨_, _, rfl, inv.decide_impossible closed, no⟩
      split
      · exact ⟨_, _, rfl, inv.decided, .yes closed whole⟩
      · exact ⟨_, _, rfl, inv.decide_possible configured undecided whole, .yes closed whole⟩
  · exact ⟨_, _, rfl, inv.decide_possible configured undecided whole, .yes closed whole⟩

theorem isContiguous (inv : Invariant config e) :
    ∃ contiguous hdr, e.mem_obj.isContiguous =
        .ok (contiguous, { e.mem_obj with data_hdr := hdr }) ∧
      Reshaped e.mem_obj.data_hdr hdr := by
  have reshaped := @contiguousLoop_reshaped
    ((e.object.length - e.mem_obj.inmem_lo : ℤ).toNat + 1) _ inv.layout.wf e.mem_obj.inmem_lo
    e.object.length
  rw [MemObject.isContiguous, inv.endOffset, Except.map]
  exact ⟨_, _, rfl, reshaped⟩

theorem mayStartSwapOut (inv : Invariant config e) (closed : e.mem_obj.sio = none) :
    ∃ answer after, e.mayStartSwapOut config call = .ok (answer, after) ∧ Decided config e after ∧
      Answer e after answer := by
  unfold StoreEntry.mayStartSwapOut
  split
  · rename_i unconfigured
    have undecided : e.mem_obj.decision ≠ .swPossible := fun decided =>
      inv.configured decided unconfigured
    exact ⟨_, _, rfl, inv.decided, .no undecided undecided⟩
  rename_i configured
  split
  · rename_i impossible
    exact ⟨_, _, rfl, inv.decided, .no (by simp [impossible]) (by simp [impossible])⟩
  rename_i not_impossible
  split
  · rename_i possible
    exact ⟨_, _, rfl, inv.decided, .again possible rfl⟩
  rename_i not_possible
  have undecided : e.mem_obj.decision = .swNeedsCheck := by
    cases decision : e.mem_obj.decision with
    | swNeedsCheck => rfl
    | swImpossible => exact (not_impossible decision).elim
    | swPossible => exact (not_possible decision).elim
  have no : Answer e (e.decide .swImpossible) false :=
    .no not_possible (by rw [StoreEntry.decide]; simp)
  split
  · exact ⟨_, _, rfl, inv.decide_impossible closed, no⟩
  split
  · exact ⟨_, _, rfl, inv.decide_impossible closed, no⟩
  split
  · exact ⟨_, _, rfl, inv.decide_impossible closed, no⟩
  split
  · exact ⟨_, _, rfl, inv.decide_impossible closed, no⟩
  rename_i untrimmed
  have whole : e.mem_obj.inmem_lo = 0 := by
    have := inv.inmem_lo_nonneg
    omega
  obtain ⟨contiguous, hdr, result, reshaped⟩ := inv.isContiguous
  have inv' := inv.reshape reshaped
  have keeps : Keeps e { e with mem_obj := { e.mem_obj with data_hdr := hdr } } :=
    ⟨rfl, rfl, rfl, reshaped.bytes⟩
  have carry : ∀ {after : StoreEntry},
      Decided config { e with mem_obj := { e.mem_obj with data_hdr := hdr } } after →
      Decided config e after := fun after =>
    ⟨after.inv, keeps.trans after.keeps, after.sio, after.swap_status, after.inmem_lo,
      after.queue_offset, after.handed⟩
  rw [result, Except.bind]
  dsimp only
  split
  · obtain ⟨answer, after, checked, decided, meaning⟩ :=
      @Invariant.checkMaxSize config call _ inv' configured closed undecided whole
    refine ⟨answer, after, checked, carry decided, ?_⟩
    cases meaning with
    | no before undecided => exact .no before undecided
    | again decided same => exact .yes closed whole
    | yes closed whole => exact .yes closed whole
  · exact ⟨_, _, rfl, carry (inv'.decide_impossible closed),
      .no not_possible (by rw [StoreEntry.decide]; simp)⟩

end Invariant

/-! ## Trimming -/

/-- The call trims memory. -/
def Call.Trims (call : Call) : Prop :=
  call.keepInLocalMemory = false ∧ call.inMemory = false ∧ call.special = false

/-- Bytes may be gone, but none that a memory client wants. -/
inductive Trimmed (e after : StoreEntry) : Prop
  | mk (hdr : MemHdr) (inmem_lo : ℤ)
      (same : after = { e with mem_obj := { e.mem_obj with data_hdr := hdr, inmem_lo } })
      (bytes : ∀ i, e.lowestReader ≤ i → hdr.bytes i = e.mem_obj.data_hdr.bytes i)

theorem Trimmed.refl (e : StoreEntry) : Trimmed e e := ⟨_, _, rfl, fun _ _ => rfl⟩

namespace Invariant

variable {config : Config} {call : Call} {e : StoreEntry}

theorem trimSwappable (inv : Invariant config e)
    (whole : e.mem_obj.sio = none → e.mem_obj.data_hdr.lowestOffset = 0) :
    ∃ mem, e.mem_obj.trimSwappable config = .ok mem ∧ Invariant config { e with mem_obj := mem } ∧
      Trimmed e { e with mem_obj := mem } ∧ (e.mem_obj.sio = none → mem.inmem_lo = 0) := by
  obtain ⟨lowest, policy, above, below⟩ := inv.policyLowestOffsetToKeep true
  have nonneg := inv.inmem_lo_nonneg
  have limit := @swappableLimit_spec e.mem_obj lowest (by omega)
  have lo := inv.lowest
  have disk := inv.disk
  have handed := inv.handed_le
  have progress := inv.progress
  have queue := inv.queue
  have unopened : e.mem_obj.sio = none → e.mem_obj.objectBytesOnDisk = 0 := fun closed => by
    rw [MemObject.objectBytesOnDisk, closed]
  have onDisk : e.mem_obj.objectBytesOnDisk ≤ e.mem_obj.queue_offset := by
    cases current : e.mem_obj.sio with
    | none => rw [unopened current]; omega
    | some nwritten =>
        have := progress nwritten current
        rw [MemObject.objectBytesOnDisk, current]
        dsimp only
        split <;> omega
  have low : e.mem_obj.data_hdr.lowestOffset ≤ e.mem_obj.swappableLimit lowest := by
    rw [limit]
    by_cases closed : e.mem_obj.sio = none
    · rw [whole closed, unopened closed]
      omega
    · have := disk closed
      omega
  obtain ⟨hdr, result, inv', bytes⟩ := inv.trimUpto low (by omega) (fun _ => by omega)
    (fun _ => by omega)
  rw [MemObject.trimSwappable, policy, Except.bind, result]
  refine ⟨_, rfl, inv', ⟨hdr, _, rfl, fun i high => bytes i (by omega)⟩, fun closed => ?_⟩
  dsimp only
  rw [limit, unopened closed]
  omega

/-- Without a file, trimming insists on the start of the object. -/
theorem trimSwappable_error (inv : Invariant config e) (closed : e.mem_obj.sio = none)
    (gone : e.mem_obj.data_hdr.lowestOffset ≠ 0) :
    e.mem_obj.trimSwappable config = .error .freeDataUpto := by
  obtain ⟨lowest, policy, above, -⟩ := inv.policyLowestOffsetToKeep true
  have nonneg := inv.inmem_lo_nonneg
  have limit : e.mem_obj.swappableLimit lowest = 0 := by
    rw [swappableLimit_spec (by omega), MemObject.objectBytesOnDisk, closed]
    dsimp only
    omega
  have positive : 0 < e.mem_obj.data_hdr.lowestOffset :=
    lt_of_le_of_ne (lowestOffset_nonneg inv.layout.wf) gone.symm
  rw [MemObject.trimSwappable, policy, Except.bind, limit, MemObject.trimUpto,
    freeDataUpto_error inv.layout.wf positive]

theorem trimUnSwappable (inv : Invariant config e) (undecided : e.mem_obj.decision ≠ .swPossible)
    {lowest : ℤ} (policy : e.mem_obj.policyLowestOffsetToKeep config false = .ok lowest)
    (some : lowest ≠ 0) :
    ∃ mem, e.mem_obj.trimUnSwappable config = .ok mem ∧
      Invariant config { e with mem_obj := mem } ∧ Trimmed e { e with mem_obj := mem } := by
  obtain ⟨lowest', policy', above, below⟩ := inv.policyLowestOffsetToKeep false
  rw [policy] at policy'
  cases policy'
  have nonneg := inv.inmem_lo_nonneg
  have lo := inv.lowest
  obtain ⟨hdr, result, inv', bytes⟩ := inv.trimUpto (by omega) below
    (fun isOpen => (undecided (inv.possible isOpen)).elim) (fun decided => (undecided decided).elim)
  rw [MemObject.trimUnSwappable, policy, Except.bind, if_pos (by omega), result]
  exact ⟨_, rfl, inv', ⟨hdr, _, rfl, fun i high => bytes i (by omega)⟩⟩

/-- Trimming an object that is not to be swapped out. -/
theorem trim_unswappable (inv : Invariant config e)
    (undecided : e.mem_obj.decision ≠ .swPossible) :
    ∃ after, e.maybeTrimMemory config call false = .ok after ∧ Invariant config after ∧
      Trimmed e after := by
  have unchanged : ∃ after, Except.ok (ε := Fault) e = .ok after ∧ Invariant config after ∧
      Trimmed e after := ⟨e, rfl, inv, Trimmed.refl e⟩
  unfold StoreEntry.maybeTrimMemory StoreEntry.trimMemory
  split
  · exact unchanged
  split
  · exact unchanged
  split
  · exact unchanged
  obtain ⟨lowest, policy, -⟩ := inv.policyLowestOffsetToKeep false
  rw [if_pos (by simp), policy, Except.bind]
  by_cases nothing : lowest = 0
  · rw [if_pos nothing]
    exact unchanged
  · obtain ⟨mem, result, inv', trimmed⟩ := inv.trimUnSwappable undecided policy nothing
    rw [if_neg nothing, result]
    exact ⟨_, rfl, inv', trimmed⟩

/-- Trimming an object that is or may be swapped out. -/
theorem trim_swappable (inv : Invariant config e) :
    Outcome
      (fun after => Invariant config after ∧ Trimmed e after ∧ (¬ call.Trims → after = e) ∧
        (call.Trims → e.mem_obj.sio = none →
          e.mem_obj.data_hdr.lowestOffset = 0 ∧ after.mem_obj.inmem_lo = 0))
      (fun fault => fault = .freeDataUpto ∧ call.Trims ∧ e.mem_obj.sio = none ∧
        e.mem_obj.data_hdr.lowestOffset ≠ 0)
      (e.maybeTrimMemory config call true) := by
  have unchanged : ¬ call.Trims → Invariant config e ∧ Trimmed e e ∧ (¬ call.Trims → e = e) ∧
      (call.Trims → e.mem_obj.sio = none →
        e.mem_obj.data_hdr.lowestOffset = 0 ∧ e.mem_obj.inmem_lo = 0) := fun keeps =>
    ⟨inv, Trimmed.refl e, fun _ => rfl, fun trims => (keeps trims).elim⟩
  unfold StoreEntry.maybeTrimMemory StoreEntry.trimMemory
  split
  · rename_i keep
    exact unchanged fun trims => by rw [trims.1] at keep; cases keep
  rename_i keep
  split
  · rename_i inMemory
    exact unchanged fun trims => by rw [trims.2.1] at inMemory; cases inMemory
  rename_i inMemory
  split
  · rename_i special
    exact unchanged fun trims => by rw [trims.2.2] at special; cases special
  rename_i special
  have trims : call.Trims := by
    unfold Call.Trims
    simp only [Bool.not_eq_true] at keep inMemory special
    exact ⟨keep, inMemory, special⟩
  rw [if_neg (by simp)]
  by_cases whole : e.mem_obj.sio = none → e.mem_obj.data_hdr.lowestOffset = 0
  · obtain ⟨mem, result, inv', trimmed, reset⟩ := inv.trimSwappable whole
    rw [result]
    exact ⟨inv', trimmed, fun keeps => (keeps trims).elim,
      fun _ closed => ⟨whole closed, reset closed⟩⟩
  · push Not at whole
    rw [inv.trimSwappable_error whole.1 whole.2]
    exact ⟨rfl, trims, whole⟩

end Invariant

/-! ## The whole call -/

/-- A call comes in time: if swapping out was decided before and no file is open any more, what
the call does next still has the start of the object. -/
def Safe (call : Call) (e : StoreEntry) : Prop :=
  e.mem_obj.decision = .swPossible → e.mem_obj.sio = none →
    (call.Trims → e.mem_obj.data_hdr.lowestOffset = 0) ∧
      (¬ call.Trims → Starts call e → e.mem_obj.inmem_lo = 0)

/-- What a successful call leaves. -/
structure Called (config : Config) (call : Call) (e after : StoreEntry) : Prop where
  inv : Invariant config after
  bytes : ∀ i, e.lowestReader ≤ i →
    after.mem_obj.data_hdr.bytes i = e.mem_obj.data_hdr.bytes i
  tidy : (∀ n, call.closes n = none) → Tidy e → Tidy after

theorem Trimmed.called {config : Config} {call : Call} {e decided trimmed after : StoreEntry}
    (first : Decided config e decided) (second : Trimmed decided trimmed)
    (third : Wrote config call trimmed after) : Called config call e after := by
  obtain ⟨hdr, inmem_lo, rfl, bytes⟩ := second
  refine ⟨third.inv, fun i high => ?_, fun never tidy => third.tidy never ?_⟩
  · have reader : decided.lowestReader = e.lowestReader := by
      rw [StoreEntry.lowestReader, first.keeps.clients, first.keeps.object, StoreEntry.lowestReader]
    rw [third.keeps.bytes, ← first.keeps.bytes]
    exact bytes i (by rwa [reader])
  · refine ⟨?_, ?_⟩
    · dsimp only
      rw [first.handed, first.queue_offset]
      exact tidy.handed
    · dsimp only
      rw [first.swap_status, first.queue_offset]
      exact tidy.unstarted

namespace Invariant

variable {config : Config} {call : Call} {e : StoreEntry}

/-- A call after a negative answer. -/
theorem swapOut_no {decided : StoreEntry} (first : Decided config e decided)
    (undecided : decided.mem_obj.decision ≠ .swPossible) :
    ∃ after, ((decided.maybeTrimMemory config call false).bind fun e => e.swapOutPossible call) =
        .ok after ∧ Called config call e after := by
  obtain ⟨trimmed, result, inv, second⟩ := @Invariant.trim_unswappable config call _ first.inv
    undecided
  have skip : trimmed.swapOutPossible call = .ok trimmed := by
    obtain ⟨hdr, inmem_lo, rfl, -⟩ := second
    rw [StoreEntry.swapOutPossible, if_pos undecided]
  rw [result, Except.bind, skip]
  exact ⟨trimmed, rfl, second.called first inv.wrote⟩

/-- A call after the first positive answer. -/
theorem swapOut_yes {decided : StoreEntry} (first : Decided config e decided)
    (closed : e.mem_obj.sio = none) (whole : e.mem_obj.inmem_lo = 0) :
    ∃ after, ((decided.maybeTrimMemory config call true).bind fun e => e.swapOutPossible call) =
        .ok after ∧ Called config call e after := by
  have lowest := first.inv.lowest
  rw [first.inmem_lo, whole] at lowest
  have start : decided.mem_obj.data_hdr.lowestOffset = 0 :=
    le_antisymm lowest (lowestOffset_nonneg first.inv.layout.wf)
  have outcome := @Invariant.trim_swappable config call _ first.inv
  cases result : decided.maybeTrimMemory config call true with
  | error fault => exact ((outcome.of_error result).2.2.2 start).elim
  | ok trimmed =>
      obtain ⟨inv, second, unchanged, reset⟩ := outcome.of_ok result
      have untrimmed : trimmed.mem_obj.inmem_lo = 0 := by
        by_cases trims : call.Trims
        · exact (reset trims (by rw [first.sio, closed])).2
        · rw [unchanged trims, first.inmem_lo, whole]
      have outcome' := @Invariant.swapOutPossible config call _ inv
      cases result' : trimmed.swapOutPossible call with
      | error fault => exact ((outcome'.of_error result').2.2.2 untrimmed).elim
      | ok after =>
          refine ⟨after, ?_, second.called first (outcome'.of_ok result').1⟩
          rw [Except.bind, result']

/-- A call after swapping out was decided. -/
theorem swapOut_again (inv : Invariant config e) (decided : e.mem_obj.decision = .swPossible) :
    Outcome (fun after => Called config call e after ∧ Safe call e)
      (fun fault => (fault = .freeDataUpto ∨ fault = .swapOut) ∧ ¬ Safe call e)
      ((e.maybeTrimMemory config call true).bind fun e => e.swapOutPossible call) := by
  have outcome := @Invariant.trim_swappable config call _ inv
  cases result : e.maybeTrimMemory config call true with
  | error fault =>
      obtain ⟨rfl, trims, closed, gone⟩ := outcome.of_error result
      exact ⟨.inl rfl, fun safe => gone ((safe decided closed).1 trims)⟩
  | ok trimmed =>
      obtain ⟨inv', second, unchanged, reset⟩ := outcome.of_ok result
      have outcome' := @Invariant.swapOutPossible config call _ inv'
      rw [Except.bind]
      cases result' : trimmed.swapOutPossible call with
      | error fault =>
          obtain ⟨rfl, -, starts, gone⟩ := outcome'.of_error result'
          refine ⟨.inr rfl, fun safe => ?_⟩
          have closed : e.mem_obj.sio = none := by
            obtain ⟨hdr, inmem_lo, rfl, -⟩ := second
            by_contra isOpen
            have writing := inv.writing.mp isOpen
            have none := starts.none
            dsimp only at none
            rw [writing] at none
            cases none
          by_cases trims : call.Trims
          · exact gone (reset trims closed).2
          · rw [unchanged trims] at starts gone
            exact gone ((safe decided closed).2 trims starts)
      | ok after =>
          obtain ⟨wrote, untrimmed⟩ := outcome'.of_ok result'
          refine ⟨second.called inv.decided wrote, fun _ closed => ⟨fun trims => ?_, ?_⟩⟩
          · exact (reset trims closed).1
          · intro keeps starts
            rw [unchanged keeps] at untrimmed
            exact untrimmed decided starts

/-- A call succeeds exactly if it comes in time. -/
theorem swapOut (inv : Invariant config e) :
    Outcome (fun after => Called config call e after ∧ Safe call e)
      (fun fault => (fault = .freeDataUpto ∨ fault = .swapOut) ∧ ¬ Safe call e)
      (e.swapOut config call) := by
  unfold StoreEntry.swapOut
  by_cases writing : e.swap_status = .SWAPOUT_WRITING
  · rw [if_pos writing, Except.bind]
    exact inv.swapOut_again (inv.possible (inv.writing.mpr writing))
  · have closed : e.mem_obj.sio = none := by
      by_contra isOpen
      exact writing (inv.writing.mp isOpen)
    obtain ⟨answer, decided, result, first, meaning⟩ :=
      @Invariant.mayStartSwapOut config call _ inv closed
    rw [if_neg writing, result, Except.bind]
    cases meaning with
    | no before undecided =>
        obtain ⟨after, result', called⟩ := @swapOut_no config call e decided first undecided
        dsimp only
        rw [result']
        exact ⟨called, fun possible => (before possible).elim⟩
    | again possible same =>
        subst same
        exact inv.swapOut_again possible
    | yes closed whole =>
        obtain ⟨after, result', called⟩ := @swapOut_yes config call e decided first closed whole
        dsimp only
        rw [result']
        refine ⟨called, fun _ _ => ⟨fun _ => ?_, fun _ _ => whole⟩⟩
        have lowest := inv.lowest
        rw [whole] at lowest
        exact le_antisymm lowest (lowestOffset_nonneg inv.layout.wf)

end Invariant

end Swap
end Squid
