import Squid.Library.Ownership
import Squid.Store.UFSSwapDirMoves

/-!
# The accounting of a UFS `cache_dir`

`cur_size` and `n_disk_objects` are compared with what the entries add up to; the differences are
kept by every change of an entry.  The file map is compared with the files of the entries.
-/

namespace Squid
namespace Ufs

open Swap (StoreStatus SwapStatus)

variable {K : Type}

namespace StoreEntry

/-- The entry has a complete file. -/
def onDisk (e : StoreEntry K) : Bool := e.swap_status = .SWAPOUT_DONE && e.swap_filen ≠ none

/-- The part of `cur_size` that is due to the entry. -/
def space (blksize : ℕ) (e : StoreEntry K) : ℤ :=
  if e.onDisk then diskSize blksize e.swap_file_sz else 0

/-- The part of `n_disk_objects` that is due to the entry. -/
def share (e : StoreEntry K) : ℤ := if e.onDisk then 1 else 0

/-- The entry has a file, which is being written or complete. -/
def holds (e : StoreEntry K) (filn : ℕ) : Prop :=
  e.swap_filen = some filn ∧
    (e.swap_status = .SWAPOUT_WRITING ∨ e.swap_status = .SWAPOUT_DONE)

variable {blksize : ℕ} {e after : StoreEntry K}

section

variable (status : after.swap_status = e.swap_status)
include status

theorem onDisk_congr (file : after.swap_filen = e.swap_filen) : after.onDisk = e.onDisk := by
  rw [onDisk, onDisk, status, file]

theorem space_congr (file : after.swap_filen = e.swap_filen)
    (size : after.swap_file_sz = e.swap_file_sz) : after.space blksize = e.space blksize := by
  rw [space, space, onDisk_congr status file, size]

theorem share_congr (file : after.swap_filen = e.swap_filen) : after.share = e.share := by
  rw [share, share, onDisk_congr status file]

end

theorem onDisk_of_done {filn : ℕ} (done : e.swap_status = .SWAPOUT_DONE)
    (file : e.swap_filen = some filn) : e.onDisk = true := by
  rw [onDisk, done, file]
  rfl

theorem onDisk_of_not_done (undone : e.swap_status ≠ .SWAPOUT_DONE) : e.onDisk = false := by
  rw [onDisk, decide_eq_false undone, Bool.false_and]

theorem onDisk_of_no_file (nofile : e.swap_filen = none) : e.onDisk = false := by
  rw [onDisk, nofile, decide_eq_false (not_not.mpr rfl), Bool.and_false]

theorem space_of_onDisk (on : e.onDisk = true) :
    e.space blksize = diskSize blksize e.swap_file_sz := if_pos on

theorem share_of_onDisk (on : e.onDisk = true) : e.share = 1 := if_pos on

theorem space_of_off (off : e.onDisk = false) : e.space blksize = 0 :=
  if_neg (ne_true_of_eq_false off)

theorem share_of_off (off : e.onDisk = false) : e.share = 0 := if_neg (ne_true_of_eq_false off)

end StoreEntry

/-- Both counters differ from what the entries add up to by the given amounts, modulo `2^64`. -/
structure Accounted (blksize : ℕ) (size count : ℤ) (s : Store K) : Prop where
  cur_size : s.cur_size = (s.store_table.total (StoreEntry.space blksize) + size) % 2 ^ 64
  n_disk_objects : s.n_disk_objects = (s.store_table.total StoreEntry.share + count) % 2 ^ 64

/-- The file of an entry is small and has been started. -/
def StoreEntry.Filed (e : StoreEntry K) : Prop :=
  ∀ filn, e.swap_filen = some filn → filn < 2 ^ 24 ∧ e.swap_status ≠ .SWAPOUT_NONE

/-- The file of the entry with a number. -/
def Store.file (s : Store K) (i : ℕ) : Option ℕ := (s.find i).bind StoreEntry.swap_filen

/-- The file map shows the files of the entries. -/
structure Files (s : Store K) : Prop where
  owned : Ownership s.file s.map
  entries : ∀ i e, s.find i = some e → e.Filed ∧ i < s.fresh

namespace Store

variable {blksize : ℕ} {s t : Store K} {i j filn : ℕ} {e f after : StoreEntry K}

/-- Only the log changes. -/
theorem storeDirSwapLog_eq (s : Store K) (e : StoreEntry K) (op : SwapLogOp) :
    ∃ log, s.storeDirSwapLog e op = { s with log } := by
  unfold storeDirSwapLog
  split
  · exact ⟨s.log, rfl⟩
  · exact ⟨_, rfl⟩

theorem addDiskRestore_eq (s : Store K) (swapData : StoreSwapLogData K) :
    ∃ log, s.addDiskRestore blksize swapData = { ({ s with
      store_table := s.store_table.insert s.fresh (restored swapData)
      fresh := s.fresh + 1 }.mapBitSet (swapData.swap_filen.toNat % 2 ^ 24)).account
        (diskSize blksize swapData.swap_file_sz) 1 with log } :=
  storeDirSwapLog_eq _ _ _

theorem find_put_cases (found : s.find i = some e) (has : (s.put i after).find j = some f) :
    j = i ∧ f = after ∨ s.find j = some f := by
  by_cases same : j = i
  · subst same
    rw [find_put_self found] at has
    exact .inl ⟨rfl, (Option.some.inj has).symm⟩
  · rw [find_put_ne same] at has
    exact .inr has

theorem find_destroy (has : (s.destroyStoreEntry i).find j = some f) : s.find j = some f := by
  have ne : j ≠ i := by
    rintro rfl
    rw [show (s.destroyStoreEntry j).find j = none from Table.find_erase_self] at has
    cases has
  exact (Table.find_erase_ne ne).symm.trans has

theorem file_of_find (found : s.find i = some e) : s.file i = e.swap_filen := by
  rw [file, found, Option.bind_some]

theorem file_put (found : s.find i = some e) :
    (s.put i after).file = Function.update s.file i after.swap_filen := by
  funext j
  by_cases same : j = i
  · rw [same, Function.update_self, file_of_find (find_put_self found)]
  · rw [Function.update_of_ne same, file, file, find_put_ne same]

theorem file_destroy (s : Store K) (i : ℕ) :
    (s.destroyStoreEntry i).file = Function.update s.file i none := by
  funext j
  by_cases same : j = i
  · rw [same, Function.update_self, file,
      show (s.destroyStoreEntry i).find i = none from Table.find_erase_self, Option.bind_none]
  · rw [Function.update_of_ne same, file, file,
      show (s.destroyStoreEntry i).find j = s.find j from Table.find_erase_ne same]

theorem file_insert (table : t.store_table = s.store_table.insert i e) :
    t.file = Function.update s.file i e.swap_filen := by
  funext j
  by_cases same : j = i
  · rw [same, Function.update_self, file, find, table, Table.find_insert_self, Option.bind_some]
  · rw [Function.update_of_ne same, file, file, find, find, table, Table.find_insert_ne same]

theorem find_insert_cases (table : t.store_table = s.store_table.insert i e)
    (has : t.find j = some f) : j = i ∧ f = e ∨ s.find j = some f := by
  rw [find, table] at has
  by_cases same : j = i
  · rw [same, Table.find_insert_self] at has
    exact .inl ⟨same, (Option.some.inj has).symm⟩
  · rw [Table.find_insert_ne same] at has
    exact .inr has

end Store

open Store

/-! ## The counters -/

namespace Accounted

variable {blksize : ℕ} {size count : ℤ} {s t : Store K} {i filn : ℕ} {e after : StoreEntry K}

theorem idle (acc : Accounted blksize size count s) (table : t.store_table = s.store_table)
    (cur_size : t.cur_size = s.cur_size) (n_disk_objects : t.n_disk_objects = s.n_disk_objects) :
    Accounted blksize size count t := by
  constructor
  · rw [cur_size, table, acc.cur_size]
  · rw [n_disk_objects, table, acc.n_disk_objects]

theorem account (acc : Accounted blksize size count s) (more many : ℤ) :
    Accounted blksize (size + more) (count + many) (s.account more many) := by
  have cur_size := acc.cur_size
  have n_disk_objects := acc.n_disk_objects
  constructor
  · rw [Store.account]
    dsimp only
    omega
  · rw [Store.account]
    dsimp only
    omega

theorem put {size' count' : ℤ} (acc : Accounted blksize size count s) (found : s.find i = some e)
    (sizes : size' + after.space blksize = size + e.space blksize)
    (counts : count' + after.share = count + e.share) :
    Accounted blksize size' count' (s.put i after) := by
  constructor
  · rw [Store.put]
    dsimp only
    rw [Table.total_set found, acc.cur_size]
    congr 1
    omega
  · rw [Store.put]
    dsimp only
    rw [Table.total_set found, acc.n_disk_objects]
    congr 1
    omega

section

variable (acc : Accounted blksize size count s)
include acc

/-- A change that concerns neither the file nor its status. -/
theorem put_same (found : s.find i = some e) (status : after.swap_status = e.swap_status)
    (file : after.swap_filen = e.swap_filen) (same : after.swap_file_sz = e.swap_file_sz) :
    Accounted blksize size count (s.put i after) :=
  acc.put found (by rw [StoreEntry.space_congr status file same])
    (by rw [StoreEntry.share_congr status file])

/-- An entry whose file does not count goes. -/
theorem erase (found : s.find i = some e) (off : e.onDisk = false) :
    Accounted blksize size count (s.destroyStoreEntry i) := by
  constructor
  · rw [destroyStoreEntry]
    dsimp only
    rw [Table.total_erase found, StoreEntry.space_of_off off, Int.sub_zero, acc.cur_size]
  · rw [destroyStoreEntry]
    dsimp only
    rw [Table.total_erase found, StoreEntry.share_of_off off, Int.sub_zero, acc.n_disk_objects]

/-- A new entry. -/
theorem insert (unknown : s.find i = none) (table : t.store_table = s.store_table.insert i e)
    (cur_size : t.cur_size = s.cur_size) (n_disk_objects : t.n_disk_objects = s.n_disk_objects) :
    Accounted blksize (size - e.space blksize) (count - e.share) t := by
  constructor
  · rw [table, Table.total_insert unknown, cur_size, acc.cur_size]
    congr 1
    omega
  · rw [table, Table.total_insert unknown, n_disk_objects, acc.n_disk_objects]
    congr 1
    omega

/-- A file that is complete is counted. -/
theorem swappedOut (found : s.find i = some e) (file : e.swap_filen = some filn)
    (writing : e.swap_status = .SWAPOUT_WRITING) (swap_file_sz : ℕ) :
    Accounted blksize size count (s.swappedOut blksize i swap_file_sz) := by
  rw [Store.swappedOut, found]
  dsimp only
  have off : e.onDisk = false := StoreEntry.onDisk_of_not_done (by rw [writing]; decide)
  have on : ({ e with swap_file_sz, swap_status := .SWAPOUT_DONE } : StoreEntry K).onDisk = true :=
    StoreEntry.onDisk_of_done rfl file
  have kept : Accounted blksize (size - diskSize blksize swap_file_sz) (count - 1)
      (s.put i { e with swap_file_sz, swap_status := .SWAPOUT_DONE }) := by
    refine acc.put found ?_ ?_
    · rw [StoreEntry.space_of_onDisk on, StoreEntry.space_of_off off]
      dsimp only
      omega
    · rw [StoreEntry.share_of_onDisk on, StoreEntry.share_of_off off]
      omega
  have counted := kept.account (diskSize blksize swap_file_sz) 1
  rwa [Int.sub_add_cancel, Int.sub_add_cancel] at counted

theorem logAdd : Accounted blksize size count (s.logAdd i) := by
  unfold Store.logAdd
  cases found : s.find i with
  | none => exact acc
  | some e =>
      dsimp only
      obtain ⟨log, logged⟩ := storeDirSwapLog_eq s e .SWAP_LOG_ADD
      rw [logged]
      have written : Accounted blksize size count { s with log } := acc.idle rfl rfl rfl
      exact written.put_same found rfl rfl rfl

end

/-- A file that goes is no longer counted. -/
theorem unlink (acc : Accounted blksize size count s) (found : s.find i = some e)
    (file : e.swap_filen = some filn) : Accounted blksize size count (s.unlink blksize i) := by
  rw [unlink_eq found file]
  have off : ({ e with swap_filen := none, swap_status := .SWAPOUT_NONE } :
      StoreEntry K).onDisk = false := StoreEntry.onDisk_of_not_done nofun
  have kept : Accounted blksize (size + e.space blksize) (count + e.share)
      (s.put i { e with swap_filen := none, swap_status := .SWAPOUT_NONE }) := by
    refine acc.put found ?_ ?_
    · rw [StoreEntry.space_of_off off, Int.add_zero]
    · rw [StoreEntry.share_of_off off, Int.add_zero]
  by_cases done : e.swap_status = .SWAPOUT_DONE
  · rw [if_pos done]
    have on := StoreEntry.onDisk_of_done done file
    rw [StoreEntry.space_of_onDisk on, StoreEntry.share_of_onDisk on] at kept
    have counted := kept.account (-diskSize blksize e.swap_file_sz) (-1)
    rw [Int.add_neg_cancel_right, Int.add_neg_cancel_right] at counted
    exact counted.idle rfl rfl rfl
  · rw [if_neg done]
    have off := StoreEntry.onDisk_of_not_done done
    rw [StoreEntry.space_of_off off, StoreEntry.share_of_off off, Int.add_zero,
      Int.add_zero] at kept
    exact kept.idle rfl rfl rfl

/-- No change of an entry makes a difference. -/
theorem move (acc : Accounted blksize size count s) (move : Move blksize s t) :
    Accounted blksize size count t := by
  cases move with
  | idle table disk log clock => exact acc.idle table disk.cur_size disk.n_disk_objects
  | adjust found adjusts =>
      exact acc.put_same found adjusts.swap_status adjusts.swap_filen adjusts.swap_file_sz
  | privatize found shown =>
      split
      · exact acc.put_same found rfl rfl rfl
      · obtain ⟨log, logged⟩ := storeDirSwapLog_eq s _ .SWAP_LOG_DEL
        rw [logged]
        have written : Accounted blksize size count { s with log } := acc.idle rfl rfl rfl
        exact written.put_same found rfl rfl rfl
  | drop found nofile => exact acc.erase found (StoreEntry.onDisk_of_no_file nofile)
  | @start i filn e found unstarted plain small unused =>
      have set : Accounted blksize size count (s.mapBitSet filn) := acc.idle rfl rfl rfl
      have before : e.onDisk = false :=
        StoreEntry.onDisk_of_not_done (by rw [unstarted]; decide)
      have after : ({ e with swap_status := .SWAPOUT_WRITING, swap_filen := some filn } :
          StoreEntry K).onDisk = false := StoreEntry.onDisk_of_not_done nofun
      refine set.put found ?_ ?_
      · rw [StoreEntry.space_of_off before, StoreEntry.space_of_off after]
      · rw [StoreEntry.share_of_off before, StoreEntry.share_of_off after]
  | finish found file writing positive => exact acc.swappedOut found file writing _
  | store found file writing positive shown => exact (acc.swappedOut found file writing _).logAdd
  | unlink found file gone => exact acc.unlink found file

theorem moves (acc : Accounted blksize size count s) (moves : Moves blksize s t) :
    Accounted blksize size count t := by
  induction moves with
  | refl => exact acc
  | tail _ move ih => exact ih.move move

end Accounted

/-! ## The file map -/

namespace Files

variable {blksize : ℕ} {s s' t : Store K} {i filn : ℕ} {e after : StoreEntry K}

theorem idle (files : Files s) (table : t.store_table = s.store_table) (map : t.map = s.map)
    (fresh : t.fresh = s.fresh) : Files t := by
  have find : t.find = s.find := funext fun i => by rw [Store.find, Store.find, table]
  have file : t.file = s.file := funext fun i => by rw [Store.file, Store.file, find]
  constructor
  · rw [file, map]
    exact files.owned
  · intro i e found
    rw [find] at found
    rw [fresh]
    exact files.entries i e found

/-- A change of an entry and of the file map. -/
theorem put (files : Files s) (found : s.find i = some e)
    (owned : Ownership (Function.update s.file i after.swap_filen) s'.map)
    (table : s'.store_table = s.store_table) (fresh : s'.fresh = s.fresh) (filed : after.Filed) :
    Files (s'.put i after) := by
  have find : s'.find = s.find := funext fun i => by rw [Store.find, Store.find, table]
  have file : s'.file = s.file := funext fun i => by rw [Store.file, Store.file, find]
  rw [← find] at found
  constructor
  · rw [file_put found, file]
    exact owned
  · intro j f has
    have below : ∀ {j f}, s'.find j = some f → j < s'.fresh := by
      intro j f has
      rw [find] at has
      rw [fresh]
      exact (files.entries j f has).2
    rcases find_put_cases found has with ⟨rfl, rfl⟩ | has
    · exact ⟨filed, below found⟩
    · refine ⟨?_, below has⟩
      rw [find] at has
      exact (files.entries j f has).1

section

variable (files : Files s)
include files

/-- A change of an entry that keeps its file. -/
theorem put_same (found : s.find i = some e) (file : after.swap_filen = e.swap_filen)
    (started : e.swap_status ≠ .SWAPOUT_NONE → after.swap_status ≠ .SWAPOUT_NONE) :
    Files (s.put i after) := by
  refine files.put found ?_ rfl rfl ?_
  · rw [file, ← file_of_find found, Function.update_eq_self]
    exact files.owned
  · intro filn holds
    obtain ⟨small, status⟩ := (files.entries i e found).1 filn (file.symm.trans holds)
    exact ⟨small, started status⟩

/-- An entry gives up its file. -/
theorem reset (found : s.find i = some e) (file : e.swap_filen = some filn)
    (nofile : after.swap_filen = none) : Files ((s.mapBitReset filn).put i after) := by
  refine files.put found ?_ rfl rfl ?_
  · rw [nofile]
    exact files.owned.release ((file_of_find found).trans file)
  · intro other holds
    cases nofile.symm.trans holds

/-- An entry without a file gets one that is not in use. -/
theorem set (found : s.find i = some e) (nofile : e.swap_filen = none)
    (file : after.swap_filen = some filn) (started : after.swap_status ≠ .SWAPOUT_NONE)
    (small : filn < 2 ^ 24) (unused : s.map filn = false) :
    Files ((s.mapBitSet filn).put i after) := by
  refine files.put found ?_ rfl rfl ?_
  · rw [file]
    exact files.owned.acquire ((file_of_find found).trans nofile) unused
  · intro other holds
    cases file.symm.trans holds
    exact ⟨small, started⟩

/-- An entry without a file goes. -/
theorem erase (found : s.find i = some e) (nofile : e.swap_filen = none) :
    Files (s.destroyStoreEntry i) := by
  constructor
  · rw [file_destroy, ← nofile, ← file_of_find found, Function.update_eq_self]
    exact files.owned
  · exact fun j f has => files.entries j f (find_destroy has)

theorem unknown : s.find s.fresh = none := by
  cases found : s.find s.fresh with
  | none => rfl
  | some e => exact (Nat.lt_irrefl _ (files.entries _ e found).2).elim

/-- A new entry, with its file. -/
theorem insert (owned : Ownership (Function.update s.file s.fresh e.swap_filen) t.map)
    (filed : e.Filed) (table : t.store_table = s.store_table.insert s.fresh e)
    (fresh : t.fresh = s.fresh + 1) : Files t := by
  constructor
  · rw [file_insert table]
    exact owned
  · intro j f has
    rw [fresh]
    rcases find_insert_cases table has with ⟨rfl, rfl⟩ | has
    · exact ⟨filed, Nat.lt_succ_self _⟩
    · obtain ⟨filed, below⟩ := files.entries j f has
      exact ⟨filed, Nat.lt_succ_of_lt below⟩

theorem free : s.file s.fresh = none := by
  rw [Store.file, files.unknown, Option.bind_none]

/-- An entry that has not been swapped out has no file. -/
theorem nofile (found : s.find i = some e) (unstarted : e.swap_status = .SWAPOUT_NONE) :
    e.swap_filen = none := by
  cases file : e.swap_filen with
  | none => rfl
  | some filn => exact (((files.entries i e found).1 filn file).2 unstarted).elim

theorem swappedOut (found : s.find i = some e) (swap_file_sz : ℕ) :
    Files (s.swappedOut blksize i swap_file_sz) := by
  rw [Store.swappedOut, found]
  have kept : Files (s.put i { e with swap_file_sz, swap_status := .SWAPOUT_DONE }) :=
    files.put_same found rfl fun _ => nofun
  exact kept.idle rfl rfl rfl

theorem logAdd : Files (s.logAdd i) := by
  unfold Store.logAdd
  cases found : s.find i with
  | none => exact files
  | some e =>
      dsimp only
      obtain ⟨log, logged⟩ := storeDirSwapLog_eq s e .SWAP_LOG_ADD
      rw [logged]
      have written : Files { s with log } := files.idle rfl rfl rfl
      exact written.put_same found rfl id

end

theorem unlink (files : Files s) (found : s.find i = some e) (file : e.swap_filen = some filn) :
    Files (s.unlink blksize i) := by
  rw [unlink_eq found file]
  have kept : Files ((s.mapBitReset filn).put i
      { e with swap_filen := none, swap_status := .SWAPOUT_NONE }) := files.reset found file rfl
  split
  · exact kept.idle rfl rfl rfl
  · exact kept

theorem move (files : Files s) (move : Move blksize s t) : Files t := by
  cases move with
  | idle table disk log clock => exact files.idle table disk.map disk.fresh
  | adjust found adjusts =>
      exact files.put_same found adjusts.swap_filen fun started => adjusts.swap_status ▸ started
  | privatize found shown =>
      split
      · exact files.put_same found rfl id
      · obtain ⟨log, logged⟩ := storeDirSwapLog_eq s _ .SWAP_LOG_DEL
        rw [logged]
        have written : Files { s with log } := files.idle rfl rfl rfl
        exact written.put_same found rfl id
  | drop found nofile => exact files.erase found nofile
  | start found unstarted plain small unused =>
      exact files.set found (files.nofile found unstarted) rfl nofun small unused
  | finish found file writing positive => exact files.swappedOut found _
  | store found file writing positive shown => exact (files.swappedOut found _).logAdd
  | unlink found file gone => exact files.unlink found file

theorem moves (files : Files s) (moves : Moves blksize s t) : Files t := by
  induction moves with
  | refl => exact files
  | tail _ move ih => exact ih.move move

end Files

end Ufs
end Squid
