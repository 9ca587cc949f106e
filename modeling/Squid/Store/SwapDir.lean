import Squid.Library.CRuntime

/-!
# Cache directories

What `cache_dir`s accept, as in `src/SwapDir.cc`, and how one of them is selected for an entry, as
in `src/store_dir.cc`.  The two selection algorithms see a directory through its virtual functions
only.
-/

namespace Squid
namespace Dirs

open CRuntime

structure SwapDir where
  max_size : ℕ
  min_objsize : ℤ := 0
  /-- -1 when there is no limit. -/
  max_objsize : ℤ := -1
  /-- `flags.read_only`. -/
  read_only : Bool := false

/-- What a directory is asked, beyond its configuration. -/
structure Answers where
  currentSize : ℕ := 0
  /-- The file and the map of a Rock directory are open, and there are enough shared pages. -/
  ready : Bool := true
  /-- `shedLoad` of the I/O strategy. -/
  shedLoad : Bool := false
  /-- `load` of the I/O strategy. -/
  load : ℤ := 0

namespace SwapDir

/-- `maxObjectSize`, where the argument is `Config.Store.maxObjectSize`. -/
def maxObjectSize (sd : SwapDir) (limit : ℤ) : ℤ :=
  if -1 < sd.max_objsize then sd.max_objsize else min (int64 sd.max_size) limit

def objectSizeIsAcceptable (sd : SwapDir) (objsize : ℤ) : Bool :=
  if sd.min_objsize ≤ 0 ∧ sd.max_objsize = -1 then true
  else if objsize = -1 then false
  else if sd.max_objsize = -1 ∧ sd.min_objsize ≤ objsize then true
  else sd.min_objsize ≤ objsize && objsize < sd.max_objsize

/-- `SwapDir::canStore`, which reports a load of 999. -/
def canStore (sd : SwapDir) (answers : Answers) (special : Bool) (diskSpaceNeeded : ℤ) : Bool :=
  if special then false
  else if ¬ sd.objectSizeIsAcceptable diskSpaceNeeded then false
  else if sd.read_only then false
  else answers.currentSize ≤ sd.max_size

/-- `UFSSwapDir::canStore`, and `CossSwapDir::canStore` where no load is shed: the load. -/
def loadToStore (sd : SwapDir) (answers : Answers) (special : Bool) (diskSpaceNeeded : ℤ) :
    Option ℤ :=
  if ¬ sd.canStore answers special diskSpaceNeeded then none
  else if answers.shedLoad then none
  else some answers.load

/-- A directory with a limit stores nothing that reaches the limit. -/
theorem acceptable_of_limit {sd : SwapDir} {objsize : ℤ} (limited : sd.max_objsize ≠ -1)
    (acceptable : sd.objectSizeIsAcceptable objsize) :
    sd.min_objsize ≤ objsize ∧ objsize < sd.max_objsize := by
  unfold objectSizeIsAcceptable at acceptable
  rw [if_neg (by simp [limited])] at acceptable
  split at acceptable
  · cases acceptable
  · rw [if_neg (by simp [limited])] at acceptable
    simpa using acceptable

theorem acceptable_of_canStore {sd : SwapDir} {answers : Answers} {special : Bool}
    {diskSpaceNeeded : ℤ} (can : sd.canStore answers special diskSpaceNeeded) :
    sd.objectSizeIsAcceptable diskSpaceNeeded := by
  unfold canStore at can
  split at can
  · cases can
  · split at can
    · cases can
    · next acceptable => simpa using acceptable

end SwapDir

/-! ## Selection -/

/-- A directory as the selection sees it: `canStore` with the load that it sets, `maxSize()` less
`currentSize()`, and `maxObjectSize()`. -/
structure View where
  canStore : ℕ → Option ℤ
  cur_free : ℕ → ℤ
  maxObjectSize : ℕ → ℤ

/-- The loop of `storeDirSelectSwapDirRoundRobin`: the last value of the static `dirn`, and what is
selected. -/
def roundRobinLoop (n_configured : ℕ) (view : View) : ℕ → ℕ → ℕ × Option ℕ
  | 0, dirn => (dirn, none)
  | turns + 1, before =>
      let dirn := if n_configured ≤ before + 1 then 0 else before + 1
      match view.canStore dirn with
      | none => roundRobinLoop n_configured view turns dirn
      | some load =>
          if load < 0 ∨ 1000 < load then roundRobinLoop n_configured view turns dirn
          else (dirn, some dirn)

/-- The best directory so far. -/
structure Least where
  most_free : ℤ := 0
  least_objsize : ℤ := -1
  /-- Starts as `INT_MAX`. -/
  least_load : ℤ := 2 ^ 31 - 1
  dirn : Option ℕ := none

/-- One turn of `storeDirSelectSwapDirLeastLoad`. -/
def leastLoadTurn (view : View) (best : Least) (i : ℕ) : Least :=
  match view.canStore i with
  | none => best
  | some load =>
      if load < 0 ∨ 1000 < load then best
      else if best.least_load < load then best
      else if load = best.least_load ∧ best.least_objsize ≠ -1 ∧
          best.least_objsize < view.maxObjectSize i then best
      else if load = best.least_load ∧ view.cur_free i < best.most_free then best
      else ⟨view.cur_free i, view.maxObjectSize i, load, some i⟩

/-- The algorithm of `store_dir_select_algorithm`. -/
inductive Algorithm where
  /-- `round-robin`, with the static `dirn`. -/
  | roundRobin (dirn : ℕ)
  /-- `least-load`. -/
  | leastLoad

/-- `storeDirSelectSwapDir`; `none` for -1. -/
def storeDirSelectSwapDir (algorithm : Algorithm) (n_configured : ℕ) (view : View) : Option ℕ :=
  match algorithm with
  | .roundRobin dirn => (roundRobinLoop n_configured view n_configured dirn).2
  | .leastLoad => ((List.range n_configured).foldl (leastLoadTurn view) {}).dirn

variable {index : ℕ} {view : View}

theorem roundRobinLoop_canStore {n_configured : ℕ} {turns before : ℕ}
    (selected : (roundRobinLoop n_configured view turns before).2 = some index) :
    ∃ load, view.canStore index = some load := by
  induction turns generalizing before with
  | zero => cases selected
  | succ turns ih =>
      simp only [roundRobinLoop] at selected
      generalize (if n_configured ≤ before + 1 then 0 else before + 1) = dirn at selected
      split at selected
      · exact ih selected
      · next load can =>
          split at selected
          · exact ih selected
          · cases selected
            exact ⟨load, can⟩

theorem leastLoadTurn_dirn (view : View) (best : Least) (i : ℕ) :
    (leastLoadTurn view best i).dirn = best.dirn ∨
      (leastLoadTurn view best i).dirn = some i ∧ ∃ load, view.canStore i = some load := by
  unfold leastLoadTurn
  split
  · exact .inl rfl
  · next load can =>
      repeat' split
      all_goals first
        | exact .inl rfl
        | exact .inr ⟨rfl, load, can⟩

theorem leastLoad_canStore {dirs : List ℕ} {best : Least}
    (before : ∀ i, best.dirn = some i → ∃ load, view.canStore i = some load)
    (selected : (dirs.foldl (leastLoadTurn view) best).dirn = some index) :
    ∃ load, view.canStore index = some load := by
  induction dirs generalizing best with
  | nil => exact before index selected
  | cons i dirs ih =>
      refine ih (fun j chosen => ?_) selected
      rcases leastLoadTurn_dirn view best i with same | ⟨this, can⟩
      · exact before j (same.symm.trans chosen)
      · cases this.symm.trans chosen
        exact can

/-- Whatever the algorithm, what it selects can store the object. -/
theorem canStore_of_select {algorithm : Algorithm} {n_configured : ℕ}
    (selected : storeDirSelectSwapDir algorithm n_configured view = some index) :
    ∃ load, view.canStore index = some load := by
  cases algorithm with
  | roundRobin dirn => exact roundRobinLoop_canStore selected
  | leastLoad => exact leastLoad_canStore (by simp) selected

end Dirs
end Squid
