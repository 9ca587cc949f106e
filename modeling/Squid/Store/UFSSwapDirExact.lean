import Squid.Store.UFSSwapDirRebuild

/-!
# When the accounting is exact

`undoAddDiskRestore` takes an entry off the counters whether or not its file has been counted.  The
counters stay exact as long as no record undoes an entry whose file is being written.
-/

namespace Squid
namespace Ufs

open Swap (StoreStatus SwapStatus)

variable {K : Type}

/-- The counters and the file map show what the entries have on disk.  `cur_size` has 64 bits. -/
structure Store.Exact (blksize : ℕ) (s : Store K) : Prop where
  cur_size : s.cur_size = s.store_table.total (StoreEntry.space blksize) % 2 ^ 64
  n_disk_objects : s.n_disk_objects = s.store_table.total StoreEntry.share
  map_iff : ∀ filn, s.map filn = true ↔ ∃! i, ∃ e, s.find i = some e ∧ e.holds filn

namespace Store

variable {blksize : ℕ} {s t : Store K} {i filn : ℕ} {e : StoreEntry K}

theorem file_eq_some_iff (files : Files s) :
    s.file i = some filn ↔ ∃ e, s.find i = some e ∧ e.holds filn := by
  rw [file, Option.bind_eq_some_iff]
  refine exists_congr fun e => and_congr_right fun found => ?_
  refine ⟨fun holds => ⟨holds, ?_⟩, And.left⟩
  have started := ((files.entries i e found).1 filn holds).2
  cases status : e.swap_status with
  | SWAPOUT_NONE => exact (started status).elim
  | SWAPOUT_WRITING => exact .inl rfl
  | SWAPOUT_DONE => exact .inr rfl

/-- There are no more files than file numbers. -/
theorem total_share_le (files : Files s) :
    0 ≤ s.store_table.total StoreEntry.share ∧
      s.store_table.total StoreEntry.share ≤ 2 ^ 24 := by
  have filed : ∀ {i e}, s.find i = some e → e.onDisk = true →
      s.file i = some (e.swap_filen.getD 0) := by
    intro i e found on
    rw [file_of_find found]
    cases file : e.swap_filen with
    | none =>
        rw [StoreEntry.onDisk_of_no_file file] at on
        cases on
    | some filn => rfl
  have count : (s.store_table.rows.filter fun row => row.2.onDisk).length ≤ 2 ^ 24 := by
    refine @Table.length_filter_le _ _ _ _ _ (fun e => e.swap_filen.getD 0) _ ?_ ?_
    · intro i e found on
      have file := (file_of_find found).symm.trans (filed found on)
      exact ((files.entries i e found).1 _ file).1
    · intro i j e f first second one two same
      have own := filed first one
      rw [same] at own
      exact files.owned.unique own (filed second two)
  rw [show s.store_table.total StoreEntry.share = _ from Table.total_indicator StoreEntry.onDisk]
  omega

theorem exact_of_accounted (acc : Accounted blksize 0 0 s) (files : Files s) :
    s.Exact blksize where
  cur_size := by rw [acc.cur_size, Int.add_zero]
  n_disk_objects := by
    obtain ⟨positive, few⟩ := total_share_le files
    rw [acc.n_disk_objects, Int.add_zero, Int.emod_eq_of_lt positive (by omega)]
  map_iff := by
    intro filn
    rw [files.owned.existsUnique_iff]
    exact existsUnique_congr fun i => file_eq_some_iff files

/-- One file too few has been counted. -/
theorem not_exact_of_accounted {size : ℤ} (acc : Accounted blksize size (-1) s) :
    ¬ s.Exact blksize := by
  intro exact
  have counted := acc.n_disk_objects
  rw [exact.n_disk_objects] at counted
  omega

end Store

open Store

/-! ## Runs -/

/-- No record undoes an entry whose file is being written. -/
def Store.SparesWriting [DecidableEq K] (s : Store K) : Event K → Prop
  | .rebuildFromSwapLog _ swapData => ∀ i e, s.get swapData.key = some (i, e) →
      s.Undoes swapData e → e.swap_filen ≠ none → e.swap_status = .SWAPOUT_DONE
  | _ => True

/-- The counters and the file map agree with the entries. -/
structure Sound (blksize : ℕ) (s : Store K) : Prop where
  accounted : Accounted blksize 0 0 s
  files : Files s

theorem sound_empty (blksize squid_curtime : ℕ) (store_dirs_rebuilding : Bool) :
    Sound blksize ({ squid_curtime, store_dirs_rebuilding } : Store K) := by
  refine ⟨⟨rfl, rfl⟩, ⟨?_, fun owns => ?_⟩, fun i e found => ?_⟩
  · intro filn
    refine iff_of_false nofun ?_
    rintro ⟨i, owns⟩
    cases owns
  · cases owns
  · cases found

namespace Sound

variable {blksize : ℕ} {s t : Store K} {e : StoreEntry K}

theorem moves (sound : Sound blksize s) (moves : Moves blksize s t) : Sound blksize t :=
  ⟨sound.accounted.moves moves, sound.files.moves moves⟩

/-- A new entry without a file. -/
theorem insert (sound : Sound blksize s) (nofile : e.swap_filen = none) : Sound blksize
    { s with store_table := s.store_table.insert s.fresh e, fresh := s.fresh + 1 } := by
  have off := StoreEntry.onDisk_of_no_file nofile
  constructor
  · have added : Accounted blksize (0 - e.space blksize) (0 - e.share)
        { s with store_table := s.store_table.insert s.fresh e, fresh := s.fresh + 1 } :=
      sound.accounted.insert sound.files.unknown rfl rfl rfl
    rwa [StoreEntry.space_of_off off, StoreEntry.share_of_off off] at added
  · refine sound.files.insert ?_ ?_ rfl rfl
    · rw [nofile, ← sound.files.free, Function.update_eq_self]
      exact sound.files.owned
    · intro filn holds
      cases nofile.symm.trans holds

variable [DecidableEq K] {swapData : StoreSwapLogData K} {need_to_validate : Bool}
  {event : Event K}

theorem storeCreateEntry (sound : Sound blksize s) (key : K) (cachable special : Bool)
    (others : ℕ) : Sound blksize (s.storeCreateEntry blksize key cachable special others) := by
  have shown := sound.moves (setPublicKey_moves s key)
  rw [Store.storeCreateEntry]
  split
  · exact shown.insert rfl
  · exact (shown.insert rfl).moves (releaseRequest_moves _ _)

/-- A record that spares files that are being written. -/
theorem rebuildFromSwapLog (sound : Sound blksize s)
    (spares : s.SparesWriting (.rebuildFromSwapLog need_to_validate swapData))
    (occurs : s.rebuildFromSwapLog blksize need_to_validate swapData = some t) :
    Sound blksize t := by
  rcases rebuildFromSwapLog_cases occurs with rfl | ⟨i, e, has, rfl⟩ |
    ⟨i, e, has, undoes, changes⟩ | ⟨unused, rfl⟩
  · exact sound
  · have found := (Table.find_of_search has).1
    exact ⟨sound.accounted.put_same found rfl rfl rfl, sound.files.put_same found rfl id⟩
  · have found := (Table.find_of_search has).1
    have undone : Sound blksize (s.undoAdd blksize i) :=
      ⟨sound.accounted.undoAdd found (spares i e has undoes), sound.files.undoAdd found⟩
    rcases changes with rfl | ⟨unused, rfl⟩
    · exact undone
    · exact ⟨undone.accounted.addDiskRestore undone.files swapData,
        undone.files.addDiskRestore (undoAdd_unused unused)⟩
  · exact ⟨sound.accounted.addDiskRestore sound.files swapData,
      sound.files.addDiskRestore unused⟩

theorem next (sound : Sound blksize s) (spares : s.SparesWriting event)
    (occurs : s.next blksize event = some t) : Sound blksize t := by
  by_cases adds : event.Adds
  · cases event with
    | storeCreateEntry key cachable special others =>
        cases occurs
        exact sound.storeCreateEntry key cachable special others
    | rebuildFromSwapLog need_to_validate swapData => exact sound.rebuildFromSwapLog spares occurs
    | _ => exact adds.elim
  · cases event with
    | timestampsSet i timestamp expires lastmod =>
        obtain ⟨e, found, rfl⟩ := Option.map_eq_some_iff.mp occurs
        exact ⟨sound.accounted.put_same found rfl rfl rfl, sound.files.put_same found rfl id⟩
    | rebuildFromSwapLog need_to_validate swapData => exact (adds trivial).elim
    | _ => exact sound.moves (next_moves adds trivial occurs)

/-- Any other record is followed by a wrong `n_disk_objects`. -/
theorem spares_of_exact (sound : Sound blksize s)
    (exact : ∀ t, s.next blksize event = some t → t.Exact blksize) : s.SparesWriting event := by
  cases event with
  | rebuildFromSwapLog need_to_validate swapData =>
      intro i e has undoes file
      by_contra unfinished
      have found := (Table.find_of_search has).1
      obtain ⟨filn, file⟩ := Option.ne_none_iff_exists'.mp file
      have undone := sound.accounted.undoAdd_early found file unfinished
      obtain ⟨t, occurs, changes⟩ := @rebuildFromSwapLog_of_undoes _ blksize _ _ _ _
        need_to_validate _ has undoes
      rcases changes with rfl | rfl
      · exact not_exact_of_accounted undone (exact _ occurs)
      · have restored := undone.addDiskRestore (sound.files.undoAdd found) swapData
        exact not_exact_of_accounted restored (exact _ occurs)
  | _ => trivial

end Sound

/-- The counters and the file map stay exact in a run if and only if no record undoes an entry whose
file is being written. -/
theorem exact_iff_sparesWriting [DecidableEq K] (blksize squid_curtime : ℕ)
    (store_dirs_rebuilding : Bool) (events : List (Event K)) :
    LabelledRun.Allowed (Store.next blksize)
        (fun s event => ∀ t, s.next blksize event = some t → t.Exact blksize)
        { squid_curtime, store_dirs_rebuilding } events ↔
      LabelledRun.Allowed (Store.next blksize) Store.SparesWriting
        { squid_curtime, store_dirs_rebuilding } events := by
  generalize start : ({ squid_curtime, store_dirs_rebuilding } : Store K) = s
  have sound : Sound blksize s := start ▸ sound_empty blksize squid_curtime store_dirs_rebuilding
  clear start
  induction events generalizing s with
  | nil => exact Iff.rfl
  | cons event events ih =>
      constructor
      · rintro ⟨exact, later⟩
        have spares := sound.spares_of_exact exact
        exact ⟨spares, fun t occurs => (ih t (sound.next spares occurs)).mp (later t occurs)⟩
      · rintro ⟨spares, later⟩
        refine ⟨fun t occurs => ?_, fun t occurs => ?_⟩
        · have kept := sound.next spares occurs
          exact exact_of_accounted kept.accounted kept.files
        · exact (ih t (sound.next spares occurs)).mpr (later t occurs)

/-- A record of a deletion in the same second in which an entry with its key is being swapped out. -/
def sameSecond : StoreSwapLogData ℕ where
  op := .SWAP_LOG_DEL
  swap_filen := 1
  timestamp := 900
  lastref := 1000
  expires := -1
  lastmod := -1
  swap_file_sz := 4000
  refcount := 1
  flags := {}
  key := 7
  checksum := swapChecksum24 1 4000

/-- The record is read while the file is open. -/
def deletedWhileWriting : List (Event ℕ) :=
  [.storeCreateEntry 7 true false 0, .storeSwapOutStart 0 (some 3),
    .rebuildFromSwapLog false sameSecond]

theorem not_exact_deletedWhileWriting : sameSecond.sane = true ∧
    ∃ s, LabelledRun.exec (Store.next 4096) { squid_curtime := 1000, store_dirs_rebuilding := true }
        deletedWhileWriting = some s ∧
      s.n_disk_objects = 2 ^ 64 - 1 ∧ s.store_table.total StoreEntry.share = 0 ∧
      ¬ s.Exact 4096 := by
  have reached : (LabelledRun.exec (Store.next 4096)
      { squid_curtime := 1000, store_dirs_rebuilding := true } deletedWhileWriting).map
        (fun s => (s.n_disk_objects, s.store_table.total StoreEntry.share)) =
      some (2 ^ 64 - 1, 0) := by decide +kernel
  obtain ⟨s, run, ended⟩ := Option.map_eq_some_iff.mp reached
  obtain ⟨counted, total⟩ := Prod.mk.inj ended
  refine ⟨by decide, s, run, counted, total, fun exact => ?_⟩
  have agrees := exact.n_disk_objects
  rw [counted, total] at agrees
  cases agrees

end Ufs
end Squid
