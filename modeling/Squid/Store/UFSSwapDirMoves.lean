import Squid.Store.UFSSwapDir
import Mathlib.Logic.Relation

/-!
# What happens to one entry

Every function below `next` is made of a few kinds of changes to one entry, each with what it does
to the file map, the accounting and the log.
-/

namespace Squid
namespace Ufs

open Relation (ReflTransGen)
open Swap (StoreStatus SwapStatus)

variable {K : Type}

/-- File map and accounting are untouched. -/
structure SameDisk (s t : Store K) : Prop where
  map : t.map = s.map
  cur_size : t.cur_size = s.cur_size
  n_disk_objects : t.n_disk_objects = s.n_disk_objects
  fresh : t.fresh = s.fresh

/-- A change of an entry that concerns neither its key nor its file. -/
structure Adjusts (now : ℕ) (e after : StoreEntry K) : Prop where
  key : after.key = e.key
  hidden : after.flags.KEY_PRIVATE = e.flags.KEY_PRIVATE
  special : after.flags.ENTRY_SPECIAL = e.flags.ENTRY_SPECIAL
  swap_filen : after.swap_filen = e.swap_filen
  swap_status : after.swap_status = e.swap_status
  logged : after.logged = e.logged
  lastref : after.lastref = e.lastref ∨ after.lastref = now
  swap_file_sz : after.swap_file_sz = e.swap_file_sz
  timestamp : e.swap_status = .SWAPOUT_DONE → after.timestamp = e.timestamp ∨ -2 ≤ after.timestamp
  lastmod : e.swap_status = .SWAPOUT_DONE → after.lastmod = e.lastmod ∨ -2 ≤ after.lastmod
  expires : e.swap_status = .SWAPOUT_DONE → after.expires = e.expires ∨ -2 ≤ after.expires

/-- The kinds of changes. -/
inductive Move (blksize : ℕ) : Store K → Store K → Prop
  /-- Nothing happens to an entry. -/
  | idle {s t : Store K} (table : t.store_table = s.store_table) (disk : SameDisk s t)
      (log : t.log = s.log) (clock : s.squid_curtime ≤ t.squid_curtime) : Move blksize s t
  /-- An entry changes, but not its key and its file. -/
  | adjust {s : Store K} {i : ℕ} {e after : StoreEntry K} (found : s.find i = some e)
      (adjusts : Adjusts s.squid_curtime e after) : Move blksize s (s.put i after)
  /-- The key becomes private, which is logged if there is a file. -/
  | privatize {s : Store K} {i : ℕ} {e : StoreEntry K} (found : s.find i = some e)
      (shown : e.flags.KEY_PRIVATE = false) :
      Move blksize s ((if e.swap_filen = none then s else s.storeDirSwapLog e .SWAP_LOG_DEL).put i
        { e with flags := { e.flags with KEY_PRIVATE := true } })
  /-- An entry without a file goes. -/
  | drop {s : Store K} {i : ℕ} {e : StoreEntry K} (found : s.find i = some e)
      (nofile : e.swap_filen = none) : Move blksize s (s.destroyStoreEntry i)
  /-- A file is opened. -/
  | start {s : Store K} {i filn : ℕ} {e : StoreEntry K} (found : s.find i = some e)
      (unstarted : e.swap_status = .SWAPOUT_NONE) (plain : e.flags.ENTRY_SPECIAL = false)
      (small : filn < 2 ^ 24) (unused : s.map filn = false) :
      Move blksize s ((s.mapBitSet filn).put i
        { e with swap_status := .SWAPOUT_WRITING, swap_filen := some filn })
  /-- The file is complete. -/
  | finish {s : Store K} {i filn swap_file_sz : ℕ} {e : StoreEntry K} (found : s.find i = some e)
      (file : e.swap_filen = some filn) (writing : e.swap_status = .SWAPOUT_WRITING)
      (positive : 0 < swap_file_sz) : Move blksize s (s.swappedOut blksize i swap_file_sz)
  /-- The file of an entry with a public key is complete, and logged. -/
  | store {s : Store K} {i filn swap_file_sz : ℕ} {e : StoreEntry K} (found : s.find i = some e)
      (file : e.swap_filen = some filn) (writing : e.swap_status = .SWAPOUT_WRITING)
      (positive : 0 < swap_file_sz) (shown : e.flags.KEY_PRIVATE = false) :
      Move blksize s ((s.swappedOut blksize i swap_file_sz).logAdd i)
  /-- The file of an entry that nobody can ask for goes. -/
  | unlink {s : Store K} {i filn : ℕ} {e : StoreEntry K} (found : s.find i = some e)
      (file : e.swap_filen = some filn)
      (gone : e.flags.KEY_PRIVATE = true ∨ e.swap_status = .SWAPOUT_WRITING) :
      Move blksize s (s.unlink blksize i)

/-- Some changes, one after the other. -/
abbrev Moves (blksize : ℕ) : Store K → Store K → Prop := ReflTransGen (Move blksize)

/-- No log is being replayed, and the times of an entry whose file is complete are such that `sane`
admits them. -/
def Store.Logs (s : Store K) : Event K → Prop
  | .rebuildFromSwapLog .. => False
  | .timestampsSet i timestamp expires lastmod => ∀ e, s.find i = some e →
      e.swap_status = .SWAPOUT_DONE → -2 ≤ timestamp ∧ -2 ≤ expires ∧ -2 ≤ lastmod
  | _ => True

/-- The events that may add an entry. -/
def Event.Adds : Event K → Prop
  | .storeCreateEntry .. => True
  | .rebuildFromSwapLog .. => True
  | _ => False

namespace Store

variable {blksize : ℕ} {s : Store K} {i j : ℕ} {e after : StoreEntry K}

theorem find_put_self (found : s.find i = some e) : (s.put i after).find i = some after :=
  Table.find_set_self found

theorem find_put_ne (ne : j ≠ i) : (s.put i after).find j = s.find j := Table.find_set_ne ne

theorem put_put : (s.put i e).put i after = s.put i after := by
  rw [put, put, put]
  dsimp only
  rw [Table.set_set]

theorem destroy_put : (s.put i e).destroyStoreEntry i = s.destroyStoreEntry i := by
  rw [put, destroyStoreEntry, destroyStoreEntry]
  dsimp only
  rw [Table.erase_set]

/-! ## Functions as changes -/

theorem moves_adjust (found : s.find i = some e) (adjusts : Adjusts s.squid_curtime e after) :
    Moves blksize s (s.put i after) := .single (.adjust found adjusts)

theorem setPrivateKey_moves (s : Store K) (i : ℕ) : Moves blksize s (s.setPrivateKey i) := by
  unfold setPrivateKey
  cases found : s.find i with
  | none => exact .refl
  | some e =>
      dsimp only
      by_cases shown : e.flags.KEY_PRIVATE = true
      · rw [if_pos shown]
      · rw [if_neg shown]
        exact .single (.privatize found (by simpa using shown))

theorem setReleaseFlag_moves (s : Store K) (i : ℕ) : Moves blksize s (s.setReleaseFlag i) := by
  unfold setReleaseFlag
  cases found : s.find i with
  | none => exact .refl
  | some e =>
      exact moves_adjust found ⟨rfl, rfl, rfl, rfl, rfl, rfl, .inl rfl, rfl, fun _ => .inl rfl,
        fun _ => .inl rfl, fun _ => .inl rfl⟩

theorem expireNow_moves (s : Store K) (i : ℕ) : Moves blksize s (s.expireNow i) := by
  unfold expireNow
  cases found : s.find i with
  | none => exact .refl
  | some e =>
      exact moves_adjust found ⟨rfl, rfl, rfl, rfl, rfl, rfl, .inl rfl, rfl, fun _ => .inl rfl,
        fun _ => .inl rfl, fun _ => .inr (Int.le_trans (by decide) (Int.natCast_nonneg _))⟩

theorem lock_moves (s : Store K) (i : ℕ) : Moves blksize s (s.lock i) := by
  unfold lock
  cases found : s.find i with
  | none => exact .refl
  | some e =>
      exact moves_adjust found ⟨rfl, rfl, rfl, rfl, rfl, rfl, .inr rfl, rfl, fun _ => .inl rfl,
        fun _ => .inl rfl, fun _ => .inl rfl⟩

theorem releaseRequest_moves (s : Store K) (i : ℕ) : Moves blksize s (s.releaseRequest i) := by
  unfold releaseRequest
  cases found : s.find i with
  | none => exact .refl
  | some e =>
      dsimp only
      split
      · exact .refl
      · refine (moves_adjust found ?_).trans (setPrivateKey_moves _ i)
        exact ⟨rfl, rfl, rfl, rfl, rfl, rfl, .inl rfl, rfl, fun _ => .inl rfl, fun _ => .inl rfl,
          fun _ => .inl rfl⟩

theorem releaseLater_moves (s : Store K) (i : ℕ) : Moves blksize s (s.releaseLater i) := by
  unfold releaseLater
  cases found : s.find i with
  | none => exact .refl
  | some e =>
      dsimp only
      have adjusts : Adjusts s.squid_curtime e { e with
          lock_count := e.lock_count + 1
          flags := { e.flags with RELEASE_REQUEST := true } } :=
        ⟨rfl, rfl, rfl, rfl, rfl, rfl, .inl rfl, rfl, fun _ => .inl rfl, fun _ => .inl rfl,
          fun _ => .inl rfl⟩
      exact .tail (moves_adjust found adjusts) (.idle rfl ⟨rfl, rfl, rfl, rfl⟩ rfl le_rfl)

/-- What `unlink` does to an entry with a file. -/
theorem unlink_eq {filn : ℕ} (found : s.find i = some e) (file : e.swap_filen = some filn) :
    s.unlink blksize i =
      ((if e.swap_status = .SWAPOUT_DONE then s.account (-diskSize blksize e.swap_file_sz) (-1)
        else s).mapBitReset filn).put i
        { e with swap_filen := none, swap_status := .SWAPOUT_NONE } := by
  rw [unlink, found]
  dsimp only
  rw [file]

theorem account_put (size count : ℤ) :
    (s.put i e).account size count = (s.account size count).put i e := rfl

theorem mapBitReset_put (filn : ℕ) :
    (s.put i e).mapBitReset filn = (s.mapBitReset filn).put i e := rfl

theorem find_storeDirSwapLog (op : SwapLogOp) : (s.storeDirSwapLog e op).find i = s.find i := by
  unfold storeDirSwapLog
  split <;> rfl

/-- Where the file and the entry go, a private key makes no difference. -/
theorem destroy_unlink_put {filn : ℕ} (found : s.find i = some e)
    (file : e.swap_filen = some filn) (filen : after.swap_filen = e.swap_filen)
    (status : after.swap_status = e.swap_status) (size : after.swap_file_sz = e.swap_file_sz) :
    ((s.put i after).unlink blksize i).destroyStoreEntry i =
      (s.unlink blksize i).destroyStoreEntry i := by
  rw [unlink_eq (find_put_self found) (filen.trans file), unlink_eq found file, destroy_put,
    destroy_put, status, size]
  split
  · rw [account_put, mapBitReset_put, destroy_put]
  · rw [mapBitReset_put, destroy_put]

theorem release_moves (s : Store K) (i : ℕ) : Moves blksize s (s.release blksize i) := by
  unfold release
  cases found : s.find i with
  | none => exact .refl
  | some e =>
      dsimp only
      split
      · exact (expireNow_moves s i).trans (releaseRequest_moves _ i)
      split
      · exact (setPrivateKey_moves s i).trans (releaseLater_moves _ i)
      cases file : e.swap_filen with
      | none => exact .single (.drop found file)
      | some filn =>
          rw [if_neg (by simp)]
          have gone : ∀ {t : Store K} {own : StoreEntry K}, t.find i = some own →
              own.swap_filen = some filn → own.flags.KEY_PRIVATE = true →
              Moves blksize t ((t.unlink blksize i).destroyStoreEntry i) := by
            intro t own here held hidden
            refine .tail (.single (.unlink here held (.inl hidden))) ?_
            rw [unlink_eq here held]
            refine .drop (find_put_self (e := own) ?_) rfl
            split <;> exact here
          by_cases hidden : e.flags.KEY_PRIVATE = true
          · rw [if_pos hidden]
            exact gone found file hidden
          · rw [if_neg hidden]
            have logged : (s.storeDirSwapLog e .SWAP_LOG_DEL).find i = some e := by
              rw [find_storeDirSwapLog, found]
            have privatize : Move blksize s _ := .privatize found (by simpa using hidden)
            rw [if_neg (by simp [file])] at privatize
            refine .head privatize ?_
            rw [← @destroy_unlink_put _ _ _ _ _ { e with
              flags := { e.flags with KEY_PRIVATE := true } } filn logged file rfl rfl rfl]
            exact gone (find_put_self logged) file rfl

theorem unlock_moves (s : Store K) (i : ℕ) (keep : Bool) :
    Moves blksize s (s.unlock blksize i keep) := by
  unfold unlock
  cases found : s.find i with
  | none => exact .refl
  | some e =>
      dsimp only
      have unlocked : Moves blksize s (s.put i { e with lock_count := e.lock_count - 1 }) :=
        moves_adjust found ⟨rfl, rfl, rfl, rfl, rfl, rfl, .inl rfl, rfl, fun _ => .inl rfl,
          fun _ => .inl rfl, fun _ => .inl rfl⟩
      split
      · exact unlocked
      split
      · exact unlocked.trans ((setReleaseFlag_moves _ i).trans (release_moves _ i))
      split
      · exact unlocked.trans (release_moves _ i)
      split
      · exact unlocked
      · exact unlocked.trans (release_moves _ i)

theorem swapOutStart_moves {filn : ℕ} (found : s.find i = some e)
    (unstarted : e.swap_status = .SWAPOUT_NONE) (plain : e.flags.ENTRY_SPECIAL = false)
    (small : filn < 2 ^ 24) (unused : s.map filn = false) :
    Moves blksize s (s.swapOutStart i filn) := by
  rw [swapOutStart, found]
  exact .head (.start found unstarted plain small unused) (lock_moves _ i)

theorem swapOutDone_moves {filn swap_file_sz : ℕ} {cachable keep : Bool}
    (found : s.find i = some e) (file : e.swap_filen = some filn)
    (writing : e.swap_status = .SWAPOUT_WRITING) (positive : 0 < swap_file_sz) :
    Moves blksize s (s.swapOutDone blksize i swap_file_sz cachable keep) := by
  rw [swapOutDone, found]
  refine .trans ?_ (unlock_moves _ i keep)
  by_cases stored : (cachable && e.flags.ENTRY_CACHABLE && !e.flags.KEY_PRIVATE) = true
  · rw [if_pos stored]
    simp only [Bool.and_eq_true, Bool.not_eq_true'] at stored
    exact .single (.store found file writing positive stored.2)
  · rw [if_neg stored]
    exact .head (.finish found file writing positive) (releaseRequest_moves _ i)

theorem swapOutFailed_moves {filn : ℕ} {keep : Bool} (found : s.find i = some e)
    (file : e.swap_filen = some filn) (writing : e.swap_status = .SWAPOUT_WRITING) :
    Moves blksize s (s.swapOutFailed blksize i keep) := by
  rw [swapOutFailed]
  refine .trans ?_ (unlock_moves _ i keep)
  exact .head (.unlink found file (.inr writing)) (releaseRequest_moves _ i)

variable [DecidableEq K]

theorem setPublicKey_moves (s : Store K) (newkey : K) :
    Moves blksize s (s.setPublicKey blksize newkey) := by
  unfold setPublicKey
  cases s.get newkey with
  | none => exact .refl
  | some row => exact (setPrivateKey_moves s row.1).trans (release_moves _ row.1)

/-- What every other event does. -/
theorem next_moves {event : Event K} {t : Store K} (moves : ¬ event.Adds) (logs : s.Logs event)
    (occurs : s.next blksize event = some t) : Moves blksize s t := by
  cases event with
  | storeCreateEntry key cachable special others => exact (moves trivial).elim
  | timestampsSet i timestamp expires lastmod =>
      obtain ⟨e, found, rfl⟩ := Option.map_eq_some_iff.mp occurs
      have times := logs e found
      exact moves_adjust found ⟨rfl, rfl, rfl, rfl, rfl, rfl, .inl rfl, rfl,
        fun done => .inr (times done).1, fun done => .inr (times done).2.2,
        fun done => .inr (times done).2.1⟩
  | reference i =>
      obtain ⟨e, found, rfl⟩ := Option.map_eq_some_iff.mp occurs
      exact moves_adjust found ⟨rfl, rfl, rfl, rfl, rfl, rfl, .inl rfl, rfl, fun _ => .inl rfl,
        fun _ => .inl rfl, fun _ => .inl rfl⟩
  | lock i =>
      obtain ⟨e, found, rfl⟩ := Option.map_eq_some_iff.mp occurs
      exact lock_moves s i
  | unlock i keep =>
      obtain ⟨e, found, occurs⟩ := Option.bind_eq_some_iff.mp occurs
      split at occurs
      · cases occurs
      · cases occurs
        exact unlock_moves s i keep
  | complete i =>
      obtain ⟨e, found, rfl⟩ := Option.map_eq_some_iff.mp occurs
      exact moves_adjust found ⟨rfl, rfl, rfl, rfl, rfl, rfl, .inl rfl, rfl, fun _ => .inl rfl,
        fun _ => .inl rfl, fun _ => .inl rfl⟩
  | storeSwapOutStart i filn =>
      obtain ⟨e, found, occurs⟩ := Option.bind_eq_some_iff.mp occurs
      by_cases barred : e.swap_status ≠ .SWAPOUT_NONE ∨ e.flags.ENTRY_SPECIAL = true
      · rw [if_pos barred] at occurs
        cases occurs
      · rw [if_neg barred] at occurs
        rw [not_or, not_not, Bool.not_eq_true] at barred
        cases filn with
        | none =>
            cases occurs
            exact .refl
        | some filn =>
            dsimp only at occurs
            split at occurs
            next free =>
              cases occurs
              exact swapOutStart_moves found barred.1 barred.2 free.1 free.2
            next => cases occurs
  | swapOutDone i swap_file_sz cachable keep =>
      obtain ⟨e, found, occurs⟩ := Option.bind_eq_some_iff.mp occurs
      split at occurs
      next complete =>
        cases occurs
        obtain ⟨filn, file⟩ := Option.ne_none_iff_exists'.mp complete.2.1
        exact swapOutDone_moves found file complete.1 complete.2.2.2
      next => cases occurs
  | swapOutFailed i keep =>
      obtain ⟨e, found, occurs⟩ := Option.bind_eq_some_iff.mp occurs
      split at occurs
      next failed =>
        cases occurs
        obtain ⟨filn, file⟩ := Option.ne_none_iff_exists'.mp failed.2
        exact swapOutFailed_moves found file failed.1
      next => cases occurs
  | releaseRequest i =>
      obtain ⟨e, found, rfl⟩ := Option.map_eq_some_iff.mp occurs
      exact releaseRequest_moves s i
  | release i =>
      obtain ⟨e, found, rfl⟩ := Option.map_eq_some_iff.mp occurs
      exact release_moves s i
  | storeLateRelease keep =>
      unfold next at occurs
      dsimp only at occurs
      split at occurs
      · cases occurs
      next i stack top =>
        split at occurs
        · cases occurs
        · cases occurs
          have popped : Move blksize s { s with lateReleaseStack := stack } :=
            .idle rfl ⟨rfl, rfl, rfl, rfl⟩ rfl le_rfl
          exact .head popped (unlock_moves _ i keep)
  | rebuilding on =>
      cases occurs
      exact .single (.idle rfl ⟨rfl, rfl, rfl, rfl⟩ rfl le_rfl)
  | rebuildFromSwapLog need_to_validate swapData => exact (moves trivial).elim
  | tick seconds =>
      cases occurs
      exact .single (.idle rfl ⟨rfl, rfl, rfl, rfl⟩ rfl (Nat.le_add_right _ _))

end Store

end Ufs
end Squid
