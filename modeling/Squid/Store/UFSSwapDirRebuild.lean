import Squid.Store.UFSSwapDirAccounting

/-!
# Undoing and restoring entries

What `rebuildFromSwapLog` does to the counters and to the file map, and which records make it undo
or restore an entry.
-/

namespace Squid
namespace Ufs

open Swap (StoreStatus SwapStatus)

variable {K : Type}

namespace Store

variable {blksize : ℕ} {s t : Store K} {i filn : ℕ} {e : StoreEntry K}

/-! ## What undoing an entry does -/

section

variable (found : s.find i = some e)
include found

theorem find_setPrivateKey : (s.setPrivateKey i).find i =
    some { e with flags := { e.flags with KEY_PRIVATE := true } } := by
  rw [setPrivateKey, found]
  dsimp only
  by_cases hidden : e.flags.KEY_PRIVATE = true
  · rw [if_pos hidden, found, ← hidden]
  · rw [if_neg hidden]
    refine @find_put_self _ _ _ e _ ?_
    split
    · exact found
    · rw [find_storeDirSwapLog, found]

/-- `undoAdd` does not change the file of an entry before it is undone. -/
theorem find_releaseRequest_expireNow :
    ∃ own, ((s.expireNow i).releaseRequest i).find i = some own ∧
      own.swap_filen = e.swap_filen ∧ own.swap_status = e.swap_status ∧
      own.swap_file_sz = e.swap_file_sz := by
  have expired : (s.expireNow i).find i = some { e with expires := s.squid_curtime } := by
    rw [expireNow, found]
    exact find_put_self found
  rw [releaseRequest, expired]
  dsimp only
  split
  · exact ⟨_, expired, rfl, rfl, rfl⟩
  · exact ⟨_, find_setPrivateKey (find_put_self expired), rfl, rfl, rfl⟩

theorem undoAddDiskRestore_eq (file : e.swap_filen = some filn) :
    s.undoAddDiskRestore blksize i =
      ((s.mapBitReset filn).put i { e with swap_filen := none }).account
        (-diskSize blksize e.swap_file_sz) (-1) := by
  rw [undoAddDiskRestore, found]
  dsimp only
  rw [file]

theorem undoAddDiskRestore_of_no_file (nofile : e.swap_filen = none) :
    s.undoAddDiskRestore blksize i = s := by
  rw [undoAddDiskRestore, found]
  dsimp only
  rw [nofile]

end

end Store

open Store

section Undo

variable {blksize : ℕ} {size count : ℤ} {s t : Store K} {i filn : ℕ} {e : StoreEntry K}

section

variable (acc : Accounted blksize size count s)
include acc

/-- An entry that is undone goes off the counters, where its file counts or not. -/
theorem Accounted.undoAddDiskRestore (found : s.find i = some e) (file : e.swap_filen = some filn) :
    Accounted blksize (size + e.space blksize - diskSize blksize e.swap_file_sz)
      (count + e.share - 1) (s.undoAddDiskRestore blksize i) := by
  rw [undoAddDiskRestore_eq found file]
  have off : ({ e with swap_filen := none } : StoreEntry K).onDisk = false :=
    StoreEntry.onDisk_of_no_file rfl
  have kept : Accounted blksize (size + e.space blksize) (count + e.share)
      (s.put i { e with swap_filen := none }) := by
    refine acc.put found ?_ ?_
    · rw [StoreEntry.space_of_off off, Int.add_zero]
    · rw [StoreEntry.share_of_off off, Int.add_zero]
  have counted := kept.account (-diskSize blksize e.swap_file_sz) (-1)
  rw [← Int.sub_eq_add_neg, ← Int.sub_eq_add_neg] at counted
  exact counted.idle rfl rfl rfl

/-- A complete file is taken off as it was counted. -/
theorem Accounted.undoAdd (found : s.find i = some e)
    (done : e.swap_filen ≠ none → e.swap_status = .SWAPOUT_DONE) :
    Accounted blksize size count (s.undoAdd blksize i) := by
  have asked := (acc.moves (expireNow_moves s i)).moves (releaseRequest_moves _ i)
  obtain ⟨own, here, file, status, -⟩ := find_releaseRequest_expireNow found
  rw [Store.undoAdd]
  refine Accounted.moves ?_ (release_moves _ i)
  cases holds : own.swap_filen with
  | none => rwa [undoAddDiskRestore_of_no_file here holds]
  | some filn =>
      have on : own.onDisk = true := by
        refine StoreEntry.onDisk_of_done (status.trans (done ?_)) holds
        rw [← file, holds]
        exact nofun
      have undone := asked.undoAddDiskRestore here holds
      rwa [StoreEntry.space_of_onDisk on, StoreEntry.share_of_onDisk on, Int.add_sub_cancel,
        Int.add_sub_cancel] at undone

/-- A file that is being written is taken off although it was not counted. -/
theorem Accounted.undoAdd_early (found : s.find i = some e) (file : e.swap_filen = some filn)
    (undone : e.swap_status ≠ .SWAPOUT_DONE) :
    Accounted blksize (size - diskSize blksize e.swap_file_sz) (count - 1)
      (s.undoAdd blksize i) := by
  have asked := (acc.moves (expireNow_moves s i)).moves (releaseRequest_moves _ i)
  obtain ⟨own, here, same, status, length⟩ := find_releaseRequest_expireNow found
  rw [Store.undoAdd]
  refine Accounted.moves ?_ (release_moves _ i)
  have off : own.onDisk = false := StoreEntry.onDisk_of_not_done (by rwa [status])
  have after := asked.undoAddDiskRestore here (same.trans file)
  rwa [StoreEntry.space_of_off off, StoreEntry.share_of_off off, Int.add_zero, Int.add_zero,
    length] at after

end

theorem Files.undoAdd (files : Files s) (found : s.find i = some e) :
    Files (s.undoAdd blksize i) := by
  have asked := (files.moves (@expireNow_moves _ blksize s i)).moves
    (@releaseRequest_moves _ blksize _ i)
  obtain ⟨own, here, -⟩ := find_releaseRequest_expireNow found
  rw [Store.undoAdd]
  refine Files.moves ?_ (release_moves _ i)
  cases holds : own.swap_filen with
  | none => rwa [undoAddDiskRestore_of_no_file here holds]
  | some filn =>
      rw [undoAddDiskRestore_eq here holds]
      have kept : Files ((Store.mapBitReset _ filn).put i { own with swap_filen := none }) :=
        asked.reset here holds rfl
      exact kept.idle rfl rfl rfl

theorem Accounted.addDiskRestore (acc : Accounted blksize size count s) (files : Files s)
    (swapData : StoreSwapLogData K) :
    Accounted blksize size count (s.addDiskRestore blksize swapData) := by
  obtain ⟨log, made⟩ := addDiskRestore_eq s swapData
  rw [made]
  have on : (restored swapData).onDisk = true := StoreEntry.onDisk_of_done rfl rfl
  have added : Accounted blksize (size - (restored swapData).space blksize)
      (count - (restored swapData).share) { s with
        store_table := s.store_table.insert s.fresh (restored swapData)
        fresh := s.fresh + 1 } := acc.insert files.unknown rfl rfl rfl
  rw [StoreEntry.space_of_onDisk on, StoreEntry.share_of_onDisk on] at added
  have counted := added.account (diskSize blksize swapData.swap_file_sz) 1
  rw [show (restored swapData).swap_file_sz = swapData.swap_file_sz from rfl,
    Int.sub_add_cancel, Int.sub_add_cancel] at counted
  exact counted.idle rfl rfl rfl

theorem Files.addDiskRestore (files : Files s) {swapData : StoreSwapLogData K}
    (unused : s.map (swapData.swap_filen.toNat % 2 ^ 24) = false) :
    Files (s.addDiskRestore blksize swapData) := by
  obtain ⟨log, made⟩ := addDiskRestore_eq s swapData
  rw [made]
  refine files.insert (files.owned.acquire files.free unused) ?_ rfl rfl
  rintro filn holds
  cases holds
  exact ⟨Nat.mod_lt _ (by decide), nofun⟩

end Undo

/-! ## What no function but those that open a file does -/

namespace Store

variable {blksize : ℕ} {s t : Store K} {i filn : ℕ} {e : StoreEntry K}

@[simp] theorem storeDirSwapLog_map (s : Store K) (e : StoreEntry K) (op : SwapLogOp) :
    (s.storeDirSwapLog e op).map = s.map := by
  obtain ⟨log, logged⟩ := storeDirSwapLog_eq s e op
  rw [logged]

@[simp] theorem expireNow_map (s : Store K) (i : ℕ) : (s.expireNow i).map = s.map := by
  unfold expireNow
  split
  · rfl
  · rfl

@[simp] theorem setPrivateKey_map (s : Store K) (i : ℕ) : (s.setPrivateKey i).map = s.map := by
  unfold setPrivateKey
  cases s.find i with
  | none => rfl
  | some e =>
      dsimp only
      split
      · rfl
      · rw [put]
        split
        · rfl
        · exact storeDirSwapLog_map s e _

@[simp] theorem releaseRequest_map (s : Store K) (i : ℕ) : (s.releaseRequest i).map = s.map := by
  unfold releaseRequest
  cases s.find i with
  | none => rfl
  | some e =>
      dsimp only
      split
      · rfl
      · rw [setPrivateKey_map, put]

@[simp] theorem releaseLater_map (s : Store K) (i : ℕ) : (s.releaseLater i).map = s.map := by
  unfold releaseLater
  split
  · rfl
  · rfl

theorem mapBitReset_unused {other : ℕ} (unused : s.map filn = false) :
    (s.mapBitReset other).map filn = false := by
  rw [mapBitReset]
  dsimp only
  rw [Function.update_apply, unused, ite_self]

theorem unlink_unused (unused : s.map filn = false) : (s.unlink blksize i).map filn = false := by
  unfold unlink
  cases s.find i with
  | none => exact unused
  | some e =>
      dsimp only
      cases e.swap_filen with
      | none => exact unused
      | some other =>
          refine mapBitReset_unused ?_
          split
          · exact unused
          · exact unused

theorem release_unused (unused : s.map filn = false) :
    (s.release blksize i).map filn = false := by
  unfold release
  cases s.find i with
  | none => exact unused
  | some e =>
      dsimp only
      split
      · rwa [releaseRequest_map, expireNow_map]
      split
      · rwa [releaseLater_map, setPrivateKey_map]
      split
      · exact unused
      · refine @unlink_unused _ blksize _ i filn ?_
        split
        · exact unused
        · rwa [storeDirSwapLog_map]

theorem undoAdd_unused (unused : s.map filn = false) :
    (s.undoAdd blksize i).map filn = false := by
  refine release_unused ?_
  unfold undoAddDiskRestore
  have kept : ((s.expireNow i).releaseRequest i).map filn = false := by
    rwa [releaseRequest_map, expireNow_map]
  cases ((s.expireNow i).releaseRequest i).find i with
  | none => exact kept
  | some e =>
      dsimp only
      cases e.swap_filen with
      | none => exact kept
      | some other => exact mapBitReset_unused kept

/-- The record makes `rebuildFromSwapLog` undo an entry that has its key. -/
def Undoes (s : Store K) (swapData : StoreSwapLogData K) (e : StoreEntry K) : Prop :=
  swapData.sane = true ∧
    (swapData.op = .SWAP_LOG_DEL ∧ e.lastref ≤ swapData.lastref ∨
      swapData.op = .SWAP_LOG_ADD ∧ swapData.flags.KEY_PRIVATE = false ∧
        s.map (swapData.swap_filen.toNat % 2 ^ 24) = false ∧ e.lastref < swapData.lastref)

variable [DecidableEq K] {need_to_validate : Bool} {swapData : StoreSwapLogData K}

/-- What a record can do. -/
theorem rebuildFromSwapLog_cases
    (occurs : s.rebuildFromSwapLog blksize need_to_validate swapData = some t) :
    t = s ∨
      (∃ i e, s.get swapData.key = some (i, e) ∧ t = s.put i (updated e swapData)) ∨
      (∃ i e, s.get swapData.key = some (i, e) ∧ s.Undoes swapData e ∧
        (t = s.undoAdd blksize i ∨
          s.map (swapData.swap_filen.toNat % 2 ^ 24) = false ∧
            t = (s.undoAdd blksize i).addDiskRestore blksize swapData)) ∨
      s.map (swapData.swap_filen.toNat % 2 ^ 24) = false ∧
        t = s.addDiskRestore blksize swapData := by
  rw [rebuildFromSwapLog] at occurs
  split at occurs
  · cases occurs
    exact .inl rfl
  next sane =>
    rw [not_not] at sane
    dsimp only at occurs
    split at occurs
    next op =>
      split at occurs
      · cases occurs
        exact .inl rfl
      next i e found =>
        split at occurs
        next older =>
          cases occurs
          exact .inr (.inr (.inl ⟨i, e, found, ⟨sane, .inl ⟨op, older⟩⟩, .inl rfl⟩))
        · cases occurs
          exact .inl rfl
    next op =>
      split at occurs
      · cases occurs
        exact .inl rfl
      next shown =>
        rw [Bool.not_eq_true] at shown
        split at occurs
        · split at occurs
          · cases occurs
            exact .inl rfl
          next unused =>
            cases occurs
            exact .inr (.inr (.inr ⟨by simpa using unused, rfl⟩))
        next i e found =>
          split at occurs
          · cases occurs
            exact .inl rfl
          split at occurs
          · split at occurs
            · cases occurs
              exact .inr (.inl ⟨i, e, found, rfl⟩)
            · cases occurs
              exact .inl rfl
          split at occurs
          · split at occurs
            · cases occurs
              exact .inl rfl
            · cases occurs
          next unused =>
            rw [Bool.not_eq_true] at unused
            split at occurs
            · cases occurs
              exact .inl rfl
            next newer =>
              rw [not_not] at newer
              cases occurs
              exact .inr (.inr (.inl ⟨i, e, found, ⟨sane, .inr ⟨op, shown, unused, newer⟩⟩,
                .inr ⟨unused, rfl⟩⟩))
    · cases occurs
      exact .inl rfl

/-- The record does undo the entry. -/
theorem rebuildFromSwapLog_of_undoes (found : s.get swapData.key = some (i, e))
    (undoes : s.Undoes swapData e) :
    ∃ t, s.rebuildFromSwapLog blksize need_to_validate swapData = some t ∧
      (t = s.undoAdd blksize i ∨ t = (s.undoAdd blksize i).addDiskRestore blksize swapData) := by
  obtain ⟨sane, ⟨op, older⟩ | ⟨op, shown, unused, newer⟩⟩ := undoes
  · refine ⟨_, ?_, .inl rfl⟩
    rw [rebuildFromSwapLog, if_neg (not_not.mpr sane), op]
    dsimp only
    rw [found]
    exact if_pos older
  · refine ⟨_, ?_, .inr rfl⟩
    rw [rebuildFromSwapLog, if_neg (not_not.mpr sane), op]
    dsimp only
    rw [if_neg (ne_true_of_eq_false shown), found]
    dsimp only
    rw [unused, if_neg (by simp), if_neg (by simp), if_neg (by simp), if_neg (not_not.mpr newer)]

end Store

end Ufs
end Squid
