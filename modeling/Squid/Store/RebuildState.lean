import Squid.Library.LabelledRun
import Mathlib.Algebra.Order.Ring.Int
import Mathlib.Tactic.Common

/-!
# Rebuilding the index from cache directories

Without a `swap.state` file, `Fs::Ufs::RebuildState` walks through the directories of a `cache_dir`
and reads the meta data at the start of every file.  The walk is resumed at every step; a step opens
at most one directory and at most one file.
-/

namespace Squid
namespace Ufs

open List LabelledRun

/-- A name in a directory. -/
structure DirEntry where
  d_name : String
  /-- The number that `sscanf` with `%x` finds in the name, if any. -/
  number : Option ℤ

/-- What one step reads from its surroundings. -/
structure Surroundings where
  /-- `opendir`: the names behind `.` and `..`, where a null pointer is `none`. -/
  opendir : ℕ → ℕ → Option (List DirEntry)
  mapBitTest : ℤ → Bool
  /-- `file_open` of a name in a directory: a descriptor, or a negative number. -/
  file_open : ℕ → ℕ → DirEntry → ℤ
  /-- `fstat` of a descriptor, negative where it fails. -/
  fstat : ℤ → ℤ
  /-- `FD_READ_METHOD` of a descriptor: the length read, negative where it fails. -/
  read : ℤ → ℤ
  /-- `storeRebuildParseEntry` of what has been read. -/
  parseEntry : ℤ → Bool
  /-- `storeRebuildKeepEntry` of what has been parsed. -/
  keepEntry : ℤ → Bool

/-- The numbers of directories of a `UFSSwapDir`. -/
structure Levels where
  l1 : ℕ
  l2 : ℕ

/-- `UFSSwapDir::FilenoBelongsHere`. -/
def FilenoBelongsHere (sd : Levels) (filn : ℤ) (F1 F2 : ℕ) : Bool :=
  ((filn.tdiv sd.l2).tdiv sd.l2).tmod sd.l1 = F1 ∧ (filn.tdiv sd.l2).tmod sd.l2 = F2

/-- The part of a `RebuildState` that the walk uses, with the count of open files. -/
structure RebuildState where
  /-- `flags.init`. -/
  init : Bool := false
  done : Bool := false
  curlvl1 : ℕ := 0
  curlvl2 : ℕ := 0
  in_dir : ℕ := 0
  /-- `td`: the names that are left. -/
  td : Option (List DirEntry) := none
  fn : ℤ := 0
  /-- `_done`. -/
  isDone : Bool := false
  n_read : ℕ := 0
  /-- `counts.objcount`. -/
  objcount : ℕ := 0
  store_open_disk_fd : ℤ
  /-- How many files have been opened. -/
  opened : ℕ := 0
  /-- The files that have been closed, by the order in which they were opened. -/
  closed : List ℕ := []

namespace RebuildState

variable {sd : Levels}

/-- How a turn of the loop of `getNextFile` ends. -/
inductive Turn
  /-- With `continue`, or at the end of the body, without a descriptor. -/
  | again (dirs_opened : ℕ) (rb : RebuildState)
  /-- The loop is left with this result. -/
  | stop (fd : ℤ) (rb : RebuildState)

/-- What a turn does with a name of the directory that is being read. -/
def visit (sd : Levels) (env : Surroundings) (dirs_opened : ℕ) (rb : RebuildState)
    (entry : DirEntry) : Turn :=
  match entry.number with
  | none => .again dirs_opened rb
  | some fn =>
      let rb := { rb with fn }
      if ¬ FilenoBelongsHere sd fn rb.curlvl1 rb.curlvl2 then .again dirs_opened rb
      else if env.mapBitTest fn then .again dirs_opened rb
      else
        let fd := env.file_open rb.curlvl1 rb.curlvl2 entry
        if fd < 0 then .again dirs_opened rb
        else .stop fd { rb with
          store_open_disk_fd := rb.store_open_disk_fd + 1
          opened := rb.opened + 1 }

/-- What a turn does at the end of a directory. -/
def leaveDirectory (sd : Levels) (dirs_opened : ℕ) (rb : RebuildState) : Turn :=
  let rb := { rb with td := none, in_dir := 0, curlvl2 := rb.curlvl2 + 1 }
  if rb.curlvl2 < sd.l2 then .again dirs_opened rb
  else
    let rb := { rb with curlvl2 := 0, curlvl1 := rb.curlvl1 + 1 }
    if rb.curlvl1 < sd.l1 then .again dirs_opened rb
    else .again dirs_opened { rb with curlvl1 := 0, done := true }

/-- One turn of the loop of `getNextFile`, which has no descriptor yet. -/
def turn (sd : Levels) (env : Surroundings) (dirs_opened : ℕ) (rb : RebuildState) : Turn :=
  if rb.done then .stop (-1) rb
  else if rb.in_dir = 0 ∧ dirs_opened ≠ 0 then .stop (-1) rb
  else
    -- we need to read in a new directory
    let td := if rb.in_dir = 0 then env.opendir rb.curlvl1 rb.curlvl2 else rb.td
    let dirs_opened := if rb.in_dir = 0 then dirs_opened + 1 else dirs_opened
    match td with
    | some (entry :: rest) =>
        visit sd env dirs_opened { rb with td := some rest, in_dir := rb.in_dir + 1 } entry
    | _ => leaveDirectory sd dirs_opened rb

theorem visit_cases (sd : Levels) (env : Surroundings) (dirs_opened : ℕ) (rb : RebuildState)
    (entry : DirEntry) :
    (∃ fn, visit sd env dirs_opened rb entry = .again dirs_opened { rb with fn }) ∨
      ∃ fd fn, 0 ≤ fd ∧ visit sd env dirs_opened rb entry = .stop fd { rb with
        fn
        store_open_disk_fd := rb.store_open_disk_fd + 1
        opened := rb.opened + 1 } := by
  unfold visit
  split
  · exact .inl ⟨rb.fn, rfl⟩
  next fn _ =>
    dsimp only
    split
    · exact .inl ⟨fn, rfl⟩
    · split
      · exact .inl ⟨fn, rfl⟩
      · split
        · exact .inl ⟨fn, rfl⟩
        next opened => exact .inr ⟨_, fn, not_lt.1 opened, rfl⟩

theorem leaveDirectory_cases (sd : Levels) (dirs_opened : ℕ) (rb : RebuildState) :
    ∃ curlvl1 curlvl2 done, leaveDirectory sd dirs_opened rb = .again dirs_opened { rb with
      td := none
      in_dir := 0
      curlvl1
      curlvl2
      done } := by
  unfold leaveDirectory
  dsimp only
  split
  · exact ⟨_, _, _, rfl⟩
  · split
    · exact ⟨_, _, _, rfl⟩
    · exact ⟨_, _, _, rfl⟩

/-- What can be left of the loop: a directory to open, names to read, the end of a directory. -/
def remaining (dirs_opened : ℕ) (rb : RebuildState) : ℕ × ℕ × ℕ :=
  (if dirs_opened = 0 then 1 else 0, (rb.td.getD []).length, rb.in_dir)

theorem remaining_of_opening (rb rb' : RebuildState) :
    WellFoundedRelation.rel (remaining 1 rb') (remaining 0 rb) :=
  Prod.Lex.left _ _ Nat.zero_lt_one

variable {dirs_opened : ℕ} {rb rb' : RebuildState}

theorem remaining_of_name {entry : DirEntry} {rest : List DirEntry}
    (names : rb.td = some (entry :: rest)) (left : rb'.td = some rest) :
    WellFoundedRelation.rel (remaining dirs_opened rb') (remaining dirs_opened rb) := by
  rw [remaining, remaining, names, left]
  exact Prod.Lex.right _ (Prod.Lex.left _ _ (Nat.lt_succ_self rest.length))

theorem remaining_of_end (names : rb.td.getD [] = []) (reading : rb.in_dir ≠ 0)
    (left : rb'.td = none) (outside : rb'.in_dir = 0) :
    WellFoundedRelation.rel (remaining dirs_opened rb') (remaining dirs_opened rb) := by
  rw [remaining, remaining, names, left, outside]
  exact Prod.Lex.right _ (Prod.Lex.right _ (Nat.pos_of_ne_zero reading))

/-- What a turn can do: it finds that there is nothing to do, takes a step of the walk, or opens a
file. -/
theorem turn_cases (sd : Levels) (env : Surroundings) (dirs_opened : ℕ) (rb : RebuildState) :
    turn sd env dirs_opened rb = .stop (-1) rb ∨
      (∃ dirs_opened' done curlvl1 curlvl2 in_dir td fn,
        turn sd env dirs_opened rb =
            .again dirs_opened' { rb with done, curlvl1, curlvl2, in_dir, td, fn } ∧
          WellFoundedRelation.rel
            (remaining dirs_opened' { rb with done, curlvl1, curlvl2, in_dir, td, fn })
            (remaining dirs_opened rb)) ∨
      ∃ fd in_dir td fn, 0 ≤ fd ∧ turn sd env dirs_opened rb = .stop fd { rb with
        in_dir
        td
        fn
        store_open_disk_fd := rb.store_open_disk_fd + 1
        opened := rb.opened + 1 } := by
  unfold turn
  split
  · exact .inl rfl
  split
  · exact .inl rfl
  next notReturned =>
    dsimp only
    by_cases opening : rb.in_dir = 0
    · obtain rfl : dirs_opened = 0 := by simpa [opening] using notReturned
      simp only [opening, if_true, Nat.zero_add]
      split
      next entry rest _ =>
        rcases visit_cases sd env 1 { rb with td := some rest, in_dir := 1 } entry with
          ⟨fn, result⟩ | ⟨fd, fn, opened, result⟩
        · exact .inr (.inl ⟨_, _, _, _, _, _, fn, result, remaining_of_opening _ _⟩)
        · exact .inr (.inr ⟨fd, _, _, fn, opened, result⟩)
      · obtain ⟨curlvl1, curlvl2, done, result⟩ := leaveDirectory_cases sd 1 rb
        exact .inr (.inl ⟨_, _, _, _, _, _, _, result, remaining_of_opening _ _⟩)
    · simp only [opening, if_false]
      split
      next entry rest names =>
        rcases visit_cases sd env dirs_opened { rb with td := some rest, in_dir := rb.in_dir + 1 }
          entry with ⟨fn, result⟩ | ⟨fd, fn, opened, result⟩
        · exact .inr (.inl ⟨_, _, _, _, _, _, fn, result, remaining_of_name names rfl⟩)
        · exact .inr (.inr ⟨fd, _, _, fn, opened, result⟩)
      next none_left =>
        obtain ⟨curlvl1, curlvl2, done, result⟩ := leaveDirectory_cases sd dirs_opened rb
        have names : rb.td.getD [] = [] := by
          rcases names : rb.td with _ | _ | ⟨entry, rest⟩
          · rfl
          · rfl
          · exact (none_left entry rest names).elim
        exact .inr (.inl ⟨_, _, _, _, _, _, _, result, remaining_of_end names opening rfl rfl⟩)

variable {env : Surroundings}

theorem turn_decreases {dirs_opened' : ℕ}
    (again : turn sd env dirs_opened rb = .again dirs_opened' rb') :
    WellFoundedRelation.rel (remaining dirs_opened' rb') (remaining dirs_opened rb) := by
  rcases turn_cases sd env dirs_opened rb with
    result | ⟨_, _, _, _, _, _, _, result, less⟩ | ⟨_, _, _, _, _, result⟩
  · cases result.symm.trans again
  · cases result.symm.trans again
    exact less
  · cases result.symm.trans again

/-- The loop of `getNextFile`. -/
def nextFileLoop (sd : Levels) (env : Surroundings) (dirs_opened : ℕ) (rb : RebuildState) :
    ℤ × RebuildState :=
  match _again : turn sd env dirs_opened rb with
  | .again dirs_opened' rb' => nextFileLoop sd env dirs_opened' rb'
  | .stop fd rb' => (fd, rb')
  termination_by remaining dirs_opened rb
  decreasing_by exact turn_decreases _again

theorem nextFileLoop_of_again {dirs_opened' : ℕ}
    (again : turn sd env dirs_opened rb = .again dirs_opened' rb') :
    nextFileLoop sd env dirs_opened rb = nextFileLoop sd env dirs_opened' rb' := by
  rw [nextFileLoop]
  split
  next same => cases same.symm.trans again; rfl
  next same => cases same.symm.trans again

theorem nextFileLoop_of_stop {fd : ℤ} (stop : turn sd env dirs_opened rb = .stop fd rb') :
    nextFileLoop sd env dirs_opened rb = (fd, rb') := by
  rw [nextFileLoop]
  split
  next same => cases same.symm.trans stop
  next same => cases same.symm.trans stop; rfl

/-- `RebuildState::getNextFile`. -/
def getNextFile (sd : Levels) (env : Surroundings) (rb : RebuildState) : ℤ × RebuildState :=
  if rb.done then (-2, rb)
  else
    -- initialize, open first file
    let rb :=
      if ¬ rb.init then
        { rb with init := true, done := false, curlvl1 := 0, curlvl2 := 0, in_dir := 0 }
      else rb
    nextFileLoop sd env 0 rb

/-- `file_close` of the file that has been opened last, and `--store_open_disk_fd`. -/
def closeFile (rb : RebuildState) : RebuildState :=
  { rb with
    store_open_disk_fd := rb.store_open_disk_fd - 1
    closed := rb.closed ++ [rb.opened - 1] }

/-- `RebuildState::rebuildFromDirectory` for the descriptor of a file. -/
def rebuildFromFile (env : Surroundings) (fd : ℤ) (rb : RebuildState) : RebuildState :=
  let rb := { rb with n_read := rb.n_read + 1 }
  if env.fstat fd < 0 then rb.closeFile
  -- `storeRebuildLoadEntry` fails
  else if env.read fd < 0 then rb
  else
    let rb := rb.closeFile
    if !env.parseEntry fd then rb
    else if !env.keepEntry fd then rb
    else { rb with objcount := rb.objcount + 1 }

/-- `RebuildState::rebuildFromDirectory`. -/
def rebuildFromDirectory (sd : Levels) (env : Surroundings) (rb : RebuildState) : RebuildState :=
  let (fd, rb) := rb.getNextFile sd env
  if fd = -2 then { rb with isDone := true }
  else if fd < 0 then rb
  else rb.rebuildFromFile env fd

/-- A step of the rebuild, until it is done. -/
def next (sd : Levels) (rb : RebuildState) (env : Surroundings) : Option RebuildState :=
  if rb.isDone then none else some (rb.rebuildFromDirectory sd env)

/-! ## What a step does to the files -/

/-- The file that the step opens, if any, can be read unless `fstat` fails. -/
def Readable (sd : Levels) (rb : RebuildState) (env : Surroundings) : Prop :=
  0 ≤ (rb.getNextFile sd env).1 → 0 ≤ env.fstat (rb.getNextFile sd env).1 →
    0 ≤ env.read (rb.getNextFile sd env).1

/-- The same files are open, and as many have been opened. -/
def SameFiles (rb rb' : RebuildState) : Prop :=
  rb'.store_open_disk_fd = rb.store_open_disk_fd ∧ rb'.opened = rb.opened ∧ rb'.closed = rb.closed

/-- One more file has been opened. -/
def OneOpened (rb rb' : RebuildState) : Prop :=
  rb'.store_open_disk_fd = rb.store_open_disk_fd + 1 ∧ rb'.opened = rb.opened + 1 ∧
    rb'.closed = rb.closed

/-- One more file has been opened and closed. -/
def OneClosed (rb rb' : RebuildState) : Prop :=
  rb'.store_open_disk_fd = rb.store_open_disk_fd ∧ rb'.opened = rb.opened + 1 ∧
    rb'.closed = rb.closed ++ [rb.opened]

theorem nextFileLoop_files (sd : Levels) (env : Surroundings) (dirs_opened : ℕ)
    (rb : RebuildState) :
    (nextFileLoop sd env dirs_opened rb).1 < 0 ∧
        SameFiles rb (nextFileLoop sd env dirs_opened rb).2 ∨
      0 ≤ (nextFileLoop sd env dirs_opened rb).1 ∧
        OneOpened rb (nextFileLoop sd env dirs_opened rb).2 := by
  fun_induction nextFileLoop sd env dirs_opened rb with
  | case1 dirs_opened rb dirs_opened' rb' again ih =>
      rcases turn_cases sd env dirs_opened rb with
        result | ⟨_, _, _, _, _, _, _, result, -⟩ | ⟨_, _, _, _, -, result⟩
      · cases result.symm.trans again
      · cases result.symm.trans again
        exact ih
      · cases result.symm.trans again
  | case2 dirs_opened rb fd rb' stop =>
      rcases turn_cases sd env dirs_opened rb with
        result | ⟨_, _, _, _, _, _, _, result, -⟩ | ⟨_, _, _, _, opened, result⟩
      · cases result.symm.trans stop
        exact .inl ⟨by simp, rfl, rfl, rfl⟩
      · cases result.symm.trans stop
      · cases result.symm.trans stop
        exact .inr ⟨opened, rfl, rfl, rfl⟩

theorem getNextFile_files (sd : Levels) (env : Surroundings) (rb : RebuildState) :
    (rb.getNextFile sd env).1 < 0 ∧ SameFiles rb (rb.getNextFile sd env).2 ∨
      0 ≤ (rb.getNextFile sd env).1 ∧ OneOpened rb (rb.getNextFile sd env).2 := by
  rw [getNextFile]
  split
  · exact .inl ⟨by simp, rfl, rfl, rfl⟩
  · dsimp only
    split
    · exact nextFileLoop_files sd env 0 { rb with
        init := true, done := false, curlvl1 := 0, curlvl2 := 0, in_dir := 0 }
    · exact nextFileLoop_files sd env 0 rb

/-- A file is closed again unless it cannot be read. -/
theorem rebuildFromDirectory_files (sd : Levels) (env : Surroundings) (rb : RebuildState) :
    Readable sd rb env ∧ (SameFiles rb (rb.rebuildFromDirectory sd env) ∨
        OneClosed rb (rb.rebuildFromDirectory sd env)) ∨
      ¬ Readable sd rb env ∧ OneOpened rb (rb.rebuildFromDirectory sd env) := by
  unfold Readable rebuildFromDirectory
  rcases getNextFile_files sd env rb with ⟨none, same⟩ | ⟨opened, one⟩
  · refine .inl ⟨fun opened => absurd opened (not_le.2 none), .inl ?_⟩
    dsimp only
    split
    · exact same
    · exact same
  · generalize rb.getNextFile sd env = result at opened one ⊢
    obtain ⟨fd, rb'⟩ := result
    dsimp only at opened one ⊢
    have found : fd ≠ -2 := by omega
    have closed : OneClosed rb ({ rb' with n_read := rb'.n_read + 1 }).closeFile := by
      obtain ⟨descriptors, count, files⟩ := one
      refine ⟨?_, count, ?_⟩
      · simp [closeFile, descriptors]
      · simp [closeFile, count, files]
    rw [if_neg found, if_neg (not_lt.2 opened), rebuildFromFile]
    dsimp only
    split
    next failed => exact .inl ⟨fun _ stat => absurd stat (not_le.2 failed), .inr closed⟩
    next stat =>
      split
      next failed =>
        refine .inr ⟨fun readable => ?_, one⟩
        exact absurd (readable opened (not_lt.1 stat)) (not_le.2 failed)
      next read =>
        refine .inl ⟨fun _ _ => not_lt.1 read, .inr ?_⟩
        split
        · exact closed
        · split
          · exact closed
          · exact closed

/-! ## Runs -/

/-- The files that have been closed are some of those opened, each once, and the others count as
open. -/
structure Books (start : ℤ) (rb : RebuildState) : Prop where
  /-- Each file is closed at most once, in order. -/
  once : rb.closed.Sublist (List.range rb.opened)
  /-- Every other one is counted. -/
  counted : rb.store_open_disk_fd = start + (rb.opened - rb.closed.length)

theorem next_eq {rb rb' : RebuildState} {env : Surroundings} (step : next sd rb env = some rb') :
    rb' = rb.rebuildFromDirectory sd env := by
  unfold next at step
  split at step
  · cases step
  · exact (Option.some.inj step).symm

theorem Books.next {start : ℤ} (books : Books start rb) (step : next sd rb env = some rb') :
    Books start rb' := by
  obtain ⟨once, counted⟩ := books
  rw [next_eq step]
  rcases rebuildFromDirectory_files sd env rb with
    ⟨-, ⟨descriptors, count, files⟩ | ⟨descriptors, count, files⟩⟩ |
      ⟨-, descriptors, count, files⟩
  · exact ⟨by rwa [count, files], by rw [descriptors, count, files, counted]⟩
  · refine ⟨?_, ?_⟩
    · rw [count, files, range_succ]
      exact once.append (List.Sublist.refl _)
    · rw [descriptors, count, files, counted, length_append, length_singleton]
      omega
  · refine ⟨?_, ?_⟩
    · rw [count, files, range_succ]
      exact once.trans (sublist_append_left _ _)
    · rw [descriptors, count, files, counted]
      omega

/-- The files that are left open only become more, and do so just when a file cannot be read. -/
theorem left_open_iff {after : RebuildState} {steps : List Surroundings}
    (run : LabelledRun.exec (next sd) rb steps = some after) :
    (rb.opened - rb.closed.length : ℤ) ≤ after.opened - after.closed.length ∧
      ((after.opened - after.closed.length : ℤ) = rb.opened - rb.closed.length ↔
        LabelledRun.Allowed (next sd) (Readable sd) rb steps) := by
  induction steps generalizing rb with
  | nil =>
      cases Option.some.inj run
      exact ⟨le_refl _, iff_of_true rfl trivial⟩
  | cons env steps ih =>
      rw [exec_cons, Option.bind_eq_some_iff] at run
      obtain ⟨middle, step, later⟩ := run
      obtain ⟨grows, same⟩ := ih later
      rw [allowed_cons_iff step, ← same]
      have files := rebuildFromDirectory_files sd env rb
      rw [← next_eq step] at files
      rcases files with ⟨readable, ⟨-, count, closed⟩ | ⟨-, count, closed⟩⟩ |
        ⟨unreadable, -, count, closed⟩
      · rw [count, closed] at grows ⊢
        exact ⟨grows, by simp [readable]⟩
      · rw [count, closed, length_append, length_singleton] at grows ⊢
        refine ⟨by omega, ?_⟩
        simp only [readable, true_and]
        omega
      · rw [count, closed] at grows ⊢
        refine ⟨by omega, ?_⟩
        simp only [unreadable, false_and, iff_false]
        omega

/-- A rebuild that has not started. -/
def fresh (store_open_disk_fd : ℤ) : RebuildState := { store_open_disk_fd }

/-- After any number of steps, and so when the rebuild is done, every file that it has opened has
been closed, once, and none counts as open, just when every file that could be opened and examined
could be read. -/
theorem rebuild_balanced_iff (start : ℤ) {after : RebuildState} {steps : List Surroundings}
    (run : LabelledRun.exec (next sd) (fresh start) steps = some after) :
    after.closed = List.range after.opened ∧ after.store_open_disk_fd = start ↔
      LabelledRun.Allowed (next sd) (Readable sd) (fresh start) steps := by
  have books : Books start after :=
    LabelledRun.invariant Books.next ⟨List.Sublist.refl _, by simp [fresh]⟩ run
  have length := books.once.length_le
  rw [length_range] at length
  rw [← (left_open_iff run).2]
  constructor
  · rintro ⟨-, descriptors⟩
    have counted := books.counted
    simp only [fresh, length_nil]
    omega
  · intro none_left
    simp only [fresh, length_nil] at none_left
    refine ⟨books.once.eq_of_length (by rw [length_range]; omega), ?_⟩
    rw [books.counted]
    omega

/-- One directory with one file, whose reading gives `length`. -/
def oneFile (length : ℤ) : Surroundings where
  opendir _ _ := some [⟨"00000000", some 0⟩]
  mapBitTest _ := false
  file_open _ _ _ := 9
  fstat _ := 0
  read _ := length
  parseEntry _ := true
  keepEntry _ := true

theorem getNextFile_first (length store_open_disk_fd : ℤ) :
    (fresh store_open_disk_fd).getNextFile ⟨1, 1⟩ (oneFile length) =
      (9, { init := true, in_dir := 1, td := some [], opened := 1
            store_open_disk_fd := store_open_disk_fd + 1 }) :=
  nextFileLoop_of_stop rfl

theorem getNextFile_second (length store_open_disk_fd : ℤ) (opened n_read objcount : ℕ)
    (closed : List ℕ) :
    getNextFile ⟨1, 1⟩ (oneFile length)
        ⟨true, false, 0, 0, 1, some [], 0, false, n_read, objcount, store_open_disk_fd, opened,
          closed⟩ =
      (-1, ⟨true, true, 0, 0, 0, none, 0, false, n_read, objcount, store_open_disk_fd, opened,
        closed⟩) :=
  (nextFileLoop_of_again rfl).trans (nextFileLoop_of_stop rfl)

/-- The two steps after that of the file only end the walk. -/
theorem exec_oneFile (length store_open_disk_fd : ℤ) (opened n_read objcount : ℕ)
    (closed : List ℕ) :
    LabelledRun.exec (next ⟨1, 1⟩)
        ⟨true, false, 0, 0, 1, some [], 0, false, n_read, objcount, store_open_disk_fd, opened,
          closed⟩ [oneFile length, oneFile length] =
      some ⟨true, true, 0, 0, 0, none, 0, true, n_read, objcount, store_open_disk_fd, opened,
        closed⟩ := by
  have second : next ⟨1, 1⟩
      ⟨true, false, 0, 0, 1, some [], 0, false, n_read, objcount, store_open_disk_fd, opened,
        closed⟩ (oneFile length) =
      some ⟨true, true, 0, 0, 0, none, 0, false, n_read, objcount, store_open_disk_fd, opened,
        closed⟩ := by
    rw [next, rebuildFromDirectory, getNextFile_second]
    rfl
  rw [exec_cons, second]
  rfl

/-- The file is read and closed. -/
theorem exec_oneFile_readable :
    LabelledRun.exec (next ⟨1, 1⟩) (fresh 5) [oneFile 300, oneFile 300, oneFile 300] =
      some ⟨true, true, 0, 0, 0, none, 0, true, 1, 1, 5, 1, [0]⟩ := by
  have first : next ⟨1, 1⟩ (fresh 5) (oneFile 300) =
      some ⟨true, false, 0, 0, 1, some [], 0, false, 1, 1, 5, 1, [0]⟩ := by
    rw [next, rebuildFromDirectory, getNextFile_first]
    rfl
  rw [exec_cons, first, Option.bind_some, exec_oneFile]

theorem rebuild_balanced_readable :
    ∃ after, LabelledRun.exec (next ⟨1, 1⟩) (fresh 5) [oneFile 300, oneFile 300, oneFile 300] =
        some after ∧
      after.isDone = true ∧ after.opened = 1 ∧ after.closed = List.range after.opened ∧
      after.store_open_disk_fd = 5 := by
  have readable : ∀ state, ∀ env ∈ [oneFile 300, oneFile 300, oneFile 300],
      Readable ⟨1, 1⟩ state env := by
    intro state env member
    simp only [mem_cons, not_mem_nil, or_false, or_self] at member
    subst member
    exact fun _ _ => (by decide : (0 : ℤ) ≤ 300)
  exact ⟨_, exec_oneFile_readable, rfl, rfl, (rebuild_balanced_iff 5 exec_oneFile_readable).2
    (allowed_of_forall_mem readable)⟩

/-- A file that cannot be read is left open when the rebuild is done. -/
theorem not_balanced_unreadable :
    ∃ after, LabelledRun.exec (next ⟨1, 1⟩) (fresh 5) [oneFile (-1), oneFile (-1), oneFile (-1)] =
        some after ∧
      after.isDone = true ∧ after.opened = 1 ∧ after.closed = [] ∧
      after.store_open_disk_fd = 6 := by
  have first : next ⟨1, 1⟩ (fresh 5) (oneFile (-1)) =
      some ⟨true, false, 0, 0, 1, some [], 0, false, 1, 0, 6, 1, []⟩ := by
    rw [next, rebuildFromDirectory, getNextFile_first]
    rfl
  refine ⟨⟨true, true, 0, 0, 0, none, 0, true, 1, 0, 6, 1, []⟩, ?_, rfl, rfl, rfl, rfl⟩
  rw [exec_cons, first, Option.bind_some, exec_oneFile]

end RebuildState
end Ufs
end Squid
