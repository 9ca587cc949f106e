import Squid.Store.UFSSwapDirLive

/-!
# Replaying a swap log

The records that a run has written are read again, in order, by a `cache_dir` that is empty.  What
is restored at every point are the entries that a restart at that point is meant to keep, as they
were when they were logged.
-/

namespace Squid
namespace Ufs

open LabelledRun Table

open Swap (StoreStatus SwapStatus)

variable {K : Type}

/-- The entry can be asked for, its file is complete, and it has been logged with times that `sane`
admits. -/
structure StoreEntry.Survives (e : StoreEntry K) (swapData : StoreSwapLogData K) : Prop where
  shown : e.flags.KEY_PRIVATE = false
  done : e.swap_status = .SWAPOUT_DONE
  logged : e.logged = some swapData
  timestamp : -2 ≤ swapData.timestamp
  expires : -2 ≤ swapData.expires
  lastmod : -2 ≤ swapData.lastmod

/-- Some entry survives with this record. -/
def Survivor (s : Store K) (swapData : StoreSwapLogData K) : Prop :=
  ∃ i e, s.find i = some e ∧ e.Survives swapData

/-- One `cache_dir` holds what another one needs after a restart. -/
structure Replayed (s r : Store K) : Prop where
  files : Files r
  back : ∀ j f, r.find j = some f → ∃ swapData, Survivor s swapData ∧ f = Store.restored swapData
  forth : ∀ swapData, Survivor s swapData → ∃ j, r.find j = some (Store.restored swapData)

/-! ## Records -/

namespace Recorded

variable {now : ℕ} {log : List (StoreSwapLogData K)} {e : StoreEntry K}
  {swapData : StoreSwapLogData K}

theorem sane_iff (recorded : Recorded e swapData) : swapData.sane = true ↔
    -2 ≤ swapData.timestamp ∧ -2 ≤ swapData.expires ∧ -2 ≤ swapData.lastmod := by
  obtain ⟨filn, -, number⟩ := recorded.file
  have lastref : -2 ≤ swapData.lastref := by
    have bounds := recorded.lastref
    omega
  have positive := recorded.positive
  rw [StoreSwapLogData.sane]
  simp only [Bool.and_eq_true, decide_eq_true_eq]
  constructor
  · rintro ⟨⟨⟨⟨⟨-, timestamp⟩, -⟩, expires⟩, lastmod⟩, -⟩
    exact ⟨timestamp, expires, lastmod⟩
  · rintro ⟨timestamp, expires, lastmod⟩
    have op : swapData.op ≠ .SWAP_LOG_NOP := by
      rw [recorded.op]
      decide
    exact ⟨⟨⟨⟨⟨⟨⟨recorded.checksum, op⟩, by omega⟩, timestamp⟩, lastref⟩, expires⟩, lastmod⟩,
      positive⟩

/-- The record of the deletion is accepted if that of the addition was. -/
theorem sane_deletion (recorded : Recorded e swapData) (survives : e.Survives swapData) :
    (e.record .SWAP_LOG_DEL).sane = true := by
  obtain ⟨filn, file, -⟩ := recorded.file
  have timestamp := recorded.timestamp
  have lastmod := recorded.lastmod
  have size := recorded.swap_file_sz
  have positive := recorded.positive
  have lastref := recorded.lastref
  obtain ⟨-, -, -, admitted, admitted', admitted''⟩ := survives
  have expires := recorded.expires
  rw [StoreSwapLogData.sane, StoreEntry.record, file]
  simp only [Bool.and_eq_true, decide_eq_true_eq]
  refine ⟨⟨⟨⟨⟨⟨⟨trivial, by decide⟩, ?_⟩, ?_⟩, ?_⟩, ?_⟩, ?_⟩, ?_⟩
  · exact Int.natCast_nonneg filn
  · omega
  · omega
  · omega
  · omega
  · omega

end Recorded

/-! ## Single records -/

namespace Store

variable {blksize : ℕ} {s : Store K} {i filn : ℕ} {e : StoreEntry K}
  {swapData : StoreSwapLogData K}

theorem releaseRequest_expireNow_eq (found : s.find i = some e)
    (unasked : e.flags.RELEASE_REQUEST = false) (shown : e.flags.KEY_PRIVATE = false) :
    ∃ log, (s.expireNow i).releaseRequest i = { s with log }.put i { e with
      expires := s.squid_curtime
      flags := { e.flags with
        RELEASE_REQUEST := true
        ENTRY_CACHABLE := false
        KEY_PRIVATE := true } } := by
  have expired : s.expireNow i = s.put i { e with expires := s.squid_curtime } := by
    rw [expireNow, found]
  have requested : (s.expireNow i).releaseRequest i = (s.put i { e with
      expires := s.squid_curtime
      flags := { e.flags with RELEASE_REQUEST := true, ENTRY_CACHABLE := false } }).setPrivateKey
        i := by
    rw [expired, releaseRequest, find_put_self found]
    dsimp only
    rw [if_neg (ne_true_of_eq_false unasked), put_put]
  rw [requested, setPrivateKey, find_put_self found]
  dsimp only
  rw [if_neg (ne_true_of_eq_false shown)]
  split
  · exact ⟨s.log, put_put⟩
  · obtain ⟨log, logged⟩ := storeDirSwapLog_eq (s.put i { e with
      expires := s.squid_curtime
      flags := { e.flags with RELEASE_REQUEST := true, ENTRY_CACHABLE := false } }) { e with
      expires := s.squid_curtime
      flags := { e.flags with RELEASE_REQUEST := true, ENTRY_CACHABLE := false } } .SWAP_LOG_DEL
    rw [logged]
    exact ⟨log, @put_put _ { s with log } i { e with
      expires := s.squid_curtime
      flags := { e.flags with RELEASE_REQUEST := true, ENTRY_CACHABLE := false } } _⟩

theorem release_eq_destroy (found : s.find i = some e) (unlocked : e.locked = false)
    (nofile : e.swap_filen = none) : s.release blksize i = s.destroyStoreEntry i := by
  rw [release, found]
  dsimp only
  rw [unlocked, if_neg nofun, nofile, if_neg (by simp), if_pos rfl]

theorem release_undoAddDiskRestore_table (found : s.find i = some e)
    (file : e.swap_filen = some filn) (unlocked : e.locked = false) :
    ((s.undoAddDiskRestore blksize i).release blksize i).store_table = s.store_table.erase i := by
  rw [undoAddDiskRestore_eq found file]
  have left : (((s.mapBitReset filn).put i { e with swap_filen := none }).account
      (-diskSize blksize e.swap_file_sz) (-1)).find i = some { e with swap_filen := none } :=
    find_put_self found
  rw [release_eq_destroy left unlocked rfl]
  exact erase_set

/-- Undoing a restored entry leaves nothing of it. -/
theorem undoAdd_table (found : s.find i = some (restored swapData)) :
    (s.undoAdd blksize i).store_table = s.store_table.erase i := by
  obtain ⟨log, requested⟩ := releaseRequest_expireNow_eq found rfl rfl
  have here := @find_put_self _ { s with log } i (restored swapData) { restored swapData with
    expires := s.squid_curtime
    flags := { (restored swapData).flags with
      RELEASE_REQUEST := true
      ENTRY_CACHABLE := false
      KEY_PRIVATE := true } } found
  rw [undoAdd, requested, release_undoAddDiskRestore_table here rfl ?_]
  · exact erase_set
  · simp [StoreEntry.locked, restored]

theorem addDiskRestore_table (swapData : StoreSwapLogData K) :
    (s.addDiskRestore blksize swapData).store_table =
      s.store_table.insert s.fresh (restored swapData) := by
  obtain ⟨log, made⟩ := addDiskRestore_eq s swapData
  rw [made]
  rfl

variable [DecidableEq K] {need_to_validate : Bool}

theorem rebuildFromSwapLog_of_not_sane (corrupt : ¬ swapData.sane = true) :
    s.rebuildFromSwapLog blksize need_to_validate swapData = some s := if_pos corrupt

/-- A deletion of something that is not there. -/
theorem rebuildFromSwapLog_del_none (op : swapData.op = .SWAP_LOG_DEL)
    (absent : s.get swapData.key = none) :
    s.rebuildFromSwapLog blksize need_to_validate swapData = some s := by
  rw [rebuildFromSwapLog, op]
  dsimp only
  rw [absent]
  exact ite_self _

/-- A deletion of something that is not newer. -/
theorem rebuildFromSwapLog_del (sane : swapData.sane = true) (op : swapData.op = .SWAP_LOG_DEL)
    (found : s.get swapData.key = some (i, e)) (older : e.lastref ≤ swapData.lastref) :
    s.rebuildFromSwapLog blksize need_to_validate swapData = some (s.undoAdd blksize i) := by
  rw [rebuildFromSwapLog, if_neg (not_not.mpr sane), op]
  dsimp only
  rw [found]
  exact if_pos older

/-- An addition of something that is not there. -/
theorem rebuildFromSwapLog_add (sane : swapData.sane = true) (op : swapData.op = .SWAP_LOG_ADD)
    (shown : swapData.flags.KEY_PRIVATE = false) (absent : s.get swapData.key = none)
    (unused : s.map (swapData.swap_filen.toNat % 2 ^ 24) = false) :
    s.rebuildFromSwapLog blksize need_to_validate swapData =
      some (s.addDiskRestore blksize swapData) := by
  rw [rebuildFromSwapLog, if_neg (not_not.mpr sane), op]
  dsimp only
  rw [if_neg (ne_true_of_eq_false shown), absent]
  exact if_neg (ne_true_of_eq_false unused)

end Store

open Store

/-! ## Survivors -/

section Survivors

variable {s t r : Store K} {i : ℕ} {e after : StoreEntry K} {swapData other : StoreSwapLogData K}

theorem StoreEntry.not_survives_of_undone (undone : e.swap_status ≠ .SWAPOUT_DONE) :
    ¬ e.Survives swapData := fun survives => undone survives.done

theorem StoreEntry.not_survives_of_hidden (hidden : e.flags.KEY_PRIVATE = true) :
    ¬ e.Survives swapData := by
  intro survives
  cases survives.shown.symm.trans hidden

theorem Survivor.recorded (live : Live s) (found : s.find i = some e)
    (survives : e.Survives swapData) : Recorded e swapData :=
  (live.tracked found).recorded swapData survives.shown survives.logged

/-- Different survivors have different keys. -/
theorem Survivor.unique (live : Live s) (one : Survivor s swapData) (two : Survivor s other)
    (same : swapData.key = other.key) : swapData = other := by
  obtain ⟨i, e, first, survives⟩ := one
  obtain ⟨j, f, second, also⟩ := two
  have key := (Survivor.recorded live first survives).key
  have key' := (Survivor.recorded live second also).key
  cases live.keys first second survives.shown also.shown (key.symm.trans (same.trans key'))
  cases first.symm.trans second
  exact Option.some.inj (survives.logged.symm.trans also.logged)

theorem survivor_of_set_iff (found : s.find i = some e)
    (table : t.store_table = s.store_table.set i after)
    (same : ∀ swapData, after.Survives swapData ↔ e.Survives swapData) :
    Survivor t swapData ↔ Survivor s swapData := by
  constructor
  · rintro ⟨j, f, has, survives⟩
    rw [Store.find, table] at has
    rcases find_put_cases found has with ⟨rfl, rfl⟩ | has
    · exact ⟨j, e, found, (same _).mp survives⟩
    · exact ⟨j, f, has, survives⟩
  · rintro ⟨j, f, has, survives⟩
    by_cases at_i : j = i
    · subst at_i
      cases found.symm.trans has
      refine ⟨j, after, ?_, (same _).mpr survives⟩
      rw [Store.find, table]
      exact find_set_self found
    · refine ⟨j, f, ?_, survives⟩
      rw [Store.find, table, find_set_ne at_i]
      exact has

theorem survivor_of_erase_iff (found : s.find i = some e) (nofile : ∀ d, ¬ e.Survives d) :
    Survivor (s.destroyStoreEntry i) swapData ↔ Survivor s swapData := by
  constructor
  · rintro ⟨j, f, has, survives⟩
    exact ⟨j, f, find_destroy has, survives⟩
  · rintro ⟨j, f, has, survives⟩
    refine ⟨j, f, ?_, survives⟩
    have ne : j ≠ i := by
      rintro rfl
      cases found.symm.trans has
      exact nofile _ survives
    exact (find_erase_ne ne).trans has

theorem survivor_of_insert_iff (live : Live s) (fresh : ∀ d, ¬ e.Survives d)
    (table : t.store_table = s.store_table.insert s.fresh e) :
    Survivor t swapData ↔ Survivor s swapData := by
  constructor
  · rintro ⟨j, f, has, survives⟩
    rcases find_insert_cases table has with ⟨rfl, rfl⟩ | has
    · exact (fresh _ survives).elim
    · exact ⟨j, f, has, survives⟩
  · rintro ⟨j, f, has, survives⟩
    refine ⟨j, f, ?_, survives⟩
    rw [Store.find, table, find_insert_ne (live.files.entries j f has).2.ne]
    exact has

end Survivors

/-! ## Replaying one record -/

namespace Replayed

variable {blksize : ℕ} {s t r : Store K} {i filn : ℕ} {e after : StoreEntry K}
  {swapData : StoreSwapLogData K}

theorem congr (rep : Replayed s r) (same : ∀ d, Survivor t d ↔ Survivor s d) : Replayed t r where
  files := rep.files
  back := by
    intro j f has
    obtain ⟨swapData, survivor, rfl⟩ := rep.back j f has
    exact ⟨swapData, (same _).mpr survivor, rfl⟩
  forth := fun swapData survivor => rep.forth swapData ((same _).mp survivor)

/-- The addition of an entry that survives is restored. -/
theorem add (rep : Replayed s r) (survivors : ∀ d, Survivor t d ↔ d = swapData ∨ Survivor s d)
    (unused : r.map (swapData.swap_filen.toNat % 2 ^ 24) = false) :
    Replayed t (r.addDiskRestore blksize swapData) where
  files := rep.files.addDiskRestore unused
  back := by
    intro j f has
    rcases find_insert_cases (addDiskRestore_table swapData) has with ⟨-, rfl⟩ | has
    · exact ⟨swapData, (survivors _).mpr (.inl rfl), rfl⟩
    · obtain ⟨other, survivor, rfl⟩ := rep.back j f has
      exact ⟨other, (survivors _).mpr (.inr survivor), rfl⟩
  forth := by
    intro other survivor
    rcases (survivors other).mp survivor with rfl | survivor
    · refine ⟨r.fresh, ?_⟩
      rw [Store.find, addDiskRestore_table, find_insert_self]
    · obtain ⟨j, has⟩ := rep.forth other survivor
      refine ⟨j, ?_⟩
      rw [Store.find, addDiskRestore_table, find_insert_ne (rep.files.entries j _ has).2.ne]
      exact has

/-- The deletion of an entry that has survived so far undoes it. -/
theorem del (rep : Replayed s r) (live : Live s) (known : Survivor s swapData) {j : ℕ}
    (found : r.find j = some (restored swapData))
    (survivors : ∀ d, Survivor t d ↔ d ≠ swapData ∧ Survivor s d) :
    Replayed t (r.undoAdd blksize j) := by
  have own : r.file j = some (swapData.swap_filen.toNat % 2 ^ 24) := file_of_find found
  refine ⟨rep.files.undoAdd found, ?_, ?_⟩
  · intro k f has
    rw [Store.find, undoAdd_table found] at has
    have ne : k ≠ j := by
      rintro rfl
      cases find_erase_self.symm.trans has
    rw [find_erase_ne ne] at has
    obtain ⟨other, survivor, rfl⟩ := rep.back k f has
    refine ⟨other, (survivors _).mpr ⟨?_, survivor⟩, rfl⟩
    rintro rfl
    exact ne (rep.files.owned.unique (file_of_find has) own)
  · intro other survivor
    obtain ⟨differ, survivor⟩ := (survivors _).mp survivor
    obtain ⟨k, has⟩ := rep.forth other survivor
    have ne : k ≠ j := by
      rintro rfl
      have same := Option.some.inj (has.symm.trans found)
      exact differ (Survivor.unique live survivor known (congrArg StoreEntry.key same))
    refine ⟨k, ?_⟩
    rw [Store.find, undoAdd_table found, find_erase_ne ne]
    exact has

variable [DecidableEq K] {need_to_validate : Bool}

theorem get_eq_none (rep : Replayed s r) {key : K} (absent : ∀ d, Survivor s d → d.key ≠ key) :
    r.get key = none := by
  rw [Store.get, search_eq_none_iff]
  intro j f has
  obtain ⟨swapData, survivor, rfl⟩ := rep.back j f has
  simp [restored, absent swapData survivor]

theorem get_eq_some (rep : Replayed s r) (live : Live s) (survivor : Survivor s swapData) :
    ∃ j, r.get swapData.key = some (j, restored swapData) ∧
      r.find j = some (restored swapData) := by
  cases got : r.get swapData.key with
  | none =>
      obtain ⟨j, has⟩ := rep.forth swapData survivor
      have missing := search_eq_none_iff.mp got j _ has
      simp [restored] at missing
  | some row =>
      obtain ⟨j, f⟩ := row
      obtain ⟨has, matched⟩ := find_of_search got
      simp only [Bool.and_eq_true, decide_eq_true_eq] at matched
      obtain ⟨other, also, rfl⟩ := rep.back j f has
      cases Survivor.unique live also survivor matched.2
      exact ⟨j, rfl, has⟩

/-- What is read after the step: the records that it has written. -/
def Steps (blksize : ℕ) (need_to_validate : Bool) (s t r : Store K) : Prop :=
  ∃ new after, t.log = s.log ++ new ∧
    LabelledRun.exec (Store.next blksize) r (new.map (.rebuildFromSwapLog need_to_validate)) =
      some after ∧ Replayed t after

theorem Steps.of_congr (rep : Replayed s r) (log : t.log = s.log)
    (same : ∀ d, Survivor t d ↔ Survivor s d) : Steps blksize need_to_validate s t r :=
  ⟨[], r, by rw [log, List.append_nil], rfl, rep.congr same⟩

theorem Steps.of_record {u : Store K} (log : t.log = s.log ++ [swapData])
    (reads : r.rebuildFromSwapLog blksize need_to_validate swapData = some u)
    (rep : Replayed t u) : Steps blksize need_to_validate s t r := by
  refine ⟨[swapData], u, log, ?_, rep⟩
  rw [List.map_singleton, exec_cons, Store.next, reads]
  rfl

/-- An entry with a file becomes private. -/
theorem privatize (rep : Replayed s r) (live : Live s) (found : s.find i = some e)
    (shown : e.flags.KEY_PRIVATE = false)
    (table : t.store_table = s.store_table.set i
      { e with flags := { e.flags with KEY_PRIVATE := true } })
    (log : t.log = s.log ++ [e.record .SWAP_LOG_DEL]) :
    Steps blksize need_to_validate s t r := by
  have gone : ∀ d, ¬ ({ e with flags := { e.flags with KEY_PRIVATE := true } } :
      StoreEntry K).Survives d := fun d => StoreEntry.not_survives_of_hidden rfl
  have owner : ∀ d, Survivor s d → d.key = e.key → e.Survives d := by
    rintro d ⟨j, f, has, survives⟩ same
    have key := (Survivor.recorded live has survives).key
    cases live.keys has found survives.shown shown (key.symm.trans same)
    cases has.symm.trans found
    exact survives
  by_cases survives : ∃ d, e.Survives d
  · obtain ⟨swapData, survives⟩ := survives
    have recorded := Survivor.recorded live found survives
    have known : Survivor s swapData := ⟨i, e, found, survives⟩
    obtain ⟨j, got, has⟩ := rep.get_eq_some live known
    rw [recorded.key] at got
    refine Steps.of_record log (rebuildFromSwapLog_del (recorded.sane_deletion survives) rfl got
      recorded.lastref.2) (rep.del live known has fun d => ?_)
    constructor
    · rintro ⟨k, f, held, also⟩
      rw [Store.find, table] at held
      by_cases at_i : k = i
      · subst at_i
        rw [find_set_self found] at held
        cases held
        exact (gone d also).elim
      · rw [find_set_ne at_i] at held
        refine ⟨?_, k, f, held, also⟩
        rintro rfl
        have same := (Survivor.recorded live held also).key
        exact at_i (live.keys held found also.shown shown (same.symm.trans recorded.key))
    · rintro ⟨differ, k, f, held, also⟩
      refine ⟨k, f, ?_, also⟩
      have ne : k ≠ i := by
        rintro rfl
        cases found.symm.trans held
        exact differ (Option.some.inj (also.logged.symm.trans survives.logged))
      rw [Store.find, table, find_set_ne ne]
      exact held
  · rw [not_exists] at survives
    have absent : r.get e.key = none :=
      rep.get_eq_none fun d survivor same => survives d (owner d survivor same)
    refine Steps.of_record log (rebuildFromSwapLog_del_none rfl absent) (rep.congr fun d => ?_)
    exact survivor_of_set_iff found table fun d => iff_of_false (gone d) (survives d)

/-- A complete file is logged. -/
theorem store (rep : Replayed s r) (live : Live s) (found : s.find i = some e)
    (file : e.swap_filen = some filn) (writing : e.swap_status = .SWAPOUT_WRITING)
    (shown : e.flags.KEY_PRIVATE = false) (table : t.store_table = s.store_table.set i after)
    (log : t.log = s.log ++ [swapData]) (logged : after.logged = some swapData)
    (done : after.swap_status = .SWAPOUT_DONE) (visible : after.flags.KEY_PRIVATE = false)
    (recorded : Recorded after swapData) (key : after.key = e.key)
    (same : after.swap_filen = e.swap_filen) : Steps blksize need_to_validate s t r := by
  have before : ∀ d, ¬ e.Survives d := fun d =>
    StoreEntry.not_survives_of_undone (by rw [writing]; decide)
  have self : t.find i = some after := by
    rw [Store.find, table]
    exact find_set_self found
  by_cases sane : swapData.sane = true
  · obtain ⟨timestamp, expires, lastmod⟩ := recorded.sane_iff.mp sane
    have survives : after.Survives swapData := ⟨visible, done, logged, timestamp, expires, lastmod⟩
    have absent : r.get swapData.key = none := by
      refine rep.get_eq_none ?_
      rintro d ⟨j, f, has, also⟩ clash
      have named := (Survivor.recorded live has also).key
      cases live.keys has found also.shown shown
        (named.symm.trans (clash.trans (recorded.key.trans key)))
      cases has.symm.trans found
      exact before d also
    have number : swapData.swap_filen.toNat % 2 ^ 24 = filn := by
      obtain ⟨own, holds, number⟩ := recorded.file
      cases (same.trans file).symm.trans holds
      rw [number, Int.toNat_natCast]
      exact Nat.mod_eq_of_lt ((live.files.entries i e found).1 filn file).1
    have unused : r.map (swapData.swap_filen.toNat % 2 ^ 24) = false := by
      rw [number, ← Bool.not_eq_true]
      intro used
      obtain ⟨j, owns⟩ := (rep.files.owned.marked_iff filn).mp used
      obtain ⟨f, has, holds⟩ := Option.bind_eq_some_iff.mp owns
      obtain ⟨d, ⟨k, g, held, also⟩, rfl⟩ := rep.back j f has
      obtain ⟨own, holder, number⟩ := (Survivor.recorded live held also).file
      have bound := ((live.files.entries k g held).1 own holder).1
      rw [restored, number] at holds
      dsimp only at holds
      rw [Int.toNat_natCast, Nat.mod_eq_of_lt bound] at holds
      cases holds
      cases live.files.owned.unique ((file_of_find held).trans holder)
        ((file_of_find found).trans file)
      cases held.symm.trans found
      exact before d also
    refine Steps.of_record log (rebuildFromSwapLog_add sane recorded.op recorded.shown absent
      unused) (rep.add (fun d => ?_) unused)
    constructor
    · rintro ⟨j, f, has, also⟩
      rw [Store.find, table] at has
      rcases find_put_cases found has with ⟨rfl, rfl⟩ | has
      · exact .inl (Option.some.inj (also.logged.symm.trans logged))
      · exact .inr ⟨j, f, has, also⟩
    · rintro (rfl | ⟨j, f, has, also⟩)
      · exact ⟨i, after, self, survives⟩
      · refine ⟨j, f, ?_, also⟩
        have ne : j ≠ i := by
          rintro rfl
          cases has.symm.trans found
          exact before d also
        rw [Store.find, table, find_set_ne ne]
        exact has
  · refine Steps.of_record log (rebuildFromSwapLog_of_not_sane sane) (rep.congr fun d => ?_)
    refine survivor_of_set_iff found table fun d => iff_of_false (fun also => sane ?_) (before d)
    cases also.logged.symm.trans logged
    exact recorded.sane_iff.mpr ⟨also.timestamp, also.expires, also.lastmod⟩

/-- Reading what a change has written keeps up with it. -/
theorem move (rep : Replayed s r) (live : Live s) (move : Move blksize s t) :
    Steps blksize need_to_validate s t r := by
  cases move with
  | idle table disk log clock =>
      have find : t.find = s.find := funext fun i => by rw [Store.find, Store.find, table]
      refine Steps.of_congr rep log fun d => ?_
      rw [Survivor, find]
      rfl
  | @adjust i e after found adjusts =>
      refine Steps.of_congr rep rfl fun d => survivor_of_set_iff found rfl fun d => ?_
      constructor
      · rintro ⟨shown, done, logged, timestamp, expires, lastmod⟩
        exact ⟨adjusts.hidden.symm.trans shown, adjusts.swap_status.symm.trans done,
          adjusts.logged.symm.trans logged, timestamp, expires, lastmod⟩
      · rintro ⟨shown, done, logged, timestamp, expires, lastmod⟩
        exact ⟨adjusts.hidden.trans shown, adjusts.swap_status.trans done,
          adjusts.logged.trans logged, timestamp, expires, lastmod⟩
  | @privatize i e found shown =>
      have tracked := live.tracked found
      by_cases nofile : e.swap_filen = none
      · rw [if_pos nofile]
        refine Steps.of_congr rep rfl fun d => survivor_of_set_iff found rfl fun d => ?_
        refine iff_of_false (StoreEntry.not_survives_of_hidden rfl) fun survives => ?_
        exact tracked.complete survives.done nofile
      · rw [if_neg nofile, storeDirSwapLog_of_plain (tracked.plain nofile)]
        exact rep.privatize live found shown rfl rfl
  | @drop i e found nofile =>
      refine Steps.of_congr rep rfl fun d => survivor_of_erase_iff found fun d survives => ?_
      exact (live.tracked found).complete survives.done nofile
  | @start i filn e found unstarted plain small unused =>
      refine Steps.of_congr rep rfl fun d => survivor_of_set_iff found rfl fun d => ?_
      refine iff_of_false (StoreEntry.not_survives_of_undone (by simp)) ?_
      exact StoreEntry.not_survives_of_undone (by rw [unstarted]; decide)
  | @finish i filn swap_file_sz e found file writing positive =>
      have before : e.swap_status ≠ .SWAPOUT_DONE := by rw [writing]; decide
      rw [swappedOut, found]
      refine Steps.of_congr rep rfl fun d => survivor_of_set_iff found rfl fun d => ?_
      refine iff_of_false (fun survives => ?_) (StoreEntry.not_survives_of_undone before)
      cases ((live.tracked found).unlogged survives.shown before).symm.trans survives.logged
  | @store i filn swap_file_sz e found file writing positive shown =>
      have tracked := live.tracked found
      have plain := tracked.plain (by simp [file])
      rw [logAdd_swappedOut found plain]
      have recorded := @recorded_record _ { e with swap_file_sz, swap_status := .SWAPOUT_DONE }
        filn file positive tracked.lastref.1 shown plain
      refine rep.store live found file writing shown rfl rfl rfl rfl shown ?_ rfl rfl
      exact ⟨recorded.op, recorded.key, recorded.file, recorded.swap_file_sz, recorded.positive,
        recorded.timestamp, recorded.lastmod, recorded.expires, recorded.lastref,
        recorded.shown, recorded.plain, recorded.checksum⟩
  | @unlink i filn e found file gone =>
      obtain ⟨table, -, log⟩ := @unlink_fields _ blksize _ _ _ _ found file
      refine Steps.of_congr rep log fun d => survivor_of_set_iff found table fun d => ?_
      refine iff_of_false (StoreEntry.not_survives_of_undone (by simp)) ?_
      rcases gone with hidden | writing
      · exact StoreEntry.not_survives_of_hidden hidden
      · exact StoreEntry.not_survives_of_undone (by rw [writing]; decide)

theorem Steps.trans {u : Store K} (first : Steps blksize need_to_validate s t r)
    (second : ∀ {r}, Replayed t r → Steps blksize need_to_validate t u r) :
    Steps blksize need_to_validate s u r := by
  obtain ⟨front, middle, log, reads, rep⟩ := first
  obtain ⟨back, after, more, also, kept⟩ := second rep
  refine ⟨front ++ back, after, by rw [more, log, List.append_assoc], ?_, kept⟩
  rw [List.map_append]
  exact exec_trans reads also

theorem moves (rep : Replayed s r) (live : Live s) (moves : Moves blksize s t) :
    Steps blksize need_to_validate s t r := by
  induction moves with
  | refl => exact .of_congr rep rfl fun _ => Iff.rfl
  | tail before move ih => exact ih.trans fun rep => rep.move (live.moves before) move

theorem storeCreateEntry (rep : Replayed s r) (live : Live s) (key : K)
    (cachable special : Bool) (others : ℕ) : Steps blksize need_to_validate s
      (s.storeCreateEntry blksize key cachable special others) r := by
  have whole := @Live.storeCreateEntry _ _ blksize _ live key true special others
  rw [Store.storeCreateEntry, if_pos rfl] at whole
  refine (rep.moves live (setPublicKey_moves s key)).trans fun rep => ?_
  have set := live.moves (@setPublicKey_moves _ blksize _ s key)
  have created : ∀ {e : StoreEntry K}, e.swap_status ≠ .SWAPOUT_DONE →
      Steps blksize need_to_validate (s.setPublicKey blksize key)
        { s.setPublicKey blksize key with
          store_table := (s.setPublicKey blksize key).store_table.insert
            (s.setPublicKey blksize key).fresh e
          fresh := (s.setPublicKey blksize key).fresh + 1 } _ := fun undone =>
    .of_congr rep rfl fun d => survivor_of_insert_iff set
      (fun d => StoreEntry.not_survives_of_undone undone) rfl
  rw [Store.storeCreateEntry]
  split
  · refine created ?_
    simp
  · refine (created ?_).trans fun rep => rep.moves whole (releaseRequest_moves _ _)
    simp

end Replayed

/-! ## Replaying a whole log -/

theorem live_empty (squid_curtime : ℕ) : Live ({ squid_curtime } : Store K) := by
  refine ⟨⟨⟨fun filn => iff_of_false nofun ?_, ?_⟩, ?_⟩, ?_, ?_⟩
  · rintro ⟨i, owns⟩
    cases owns
  · intro i j filn owns
    cases owns
  · intro i e found
    cases found
  · intro i j e f found
    cases found
  · intro i e found
    cases found

/-- What a replay leaves: one entry for each that survives, as it was logged last. -/
structure Rebuilt (s r : Store K) : Prop where
  kept : ∀ i e swapData, s.find i = some e → e.Survives swapData →
    (∃! j, ∃ f, r.find j = some f ∧ f.key = e.key) ∧
      (∃ j, r.find j = some (restored swapData)) ∧
      ∃ front back, s.log = front ++ swapData :: back ∧ ∀ later ∈ back, later.key ≠ e.key
  only : ∀ j f, r.find j = some f → ∃ i e swapData, s.find i = some e ∧ e.Survives swapData ∧
    f = restored swapData ∧ f.key = e.key ∧ f.swap_filen = e.swap_filen
  map_iff : ∀ filn, r.map filn = true ↔ ∃ i e swapData, s.find i = some e ∧
    e.Survives swapData ∧ e.swap_filen = some filn

theorem Replayed.rebuilt {s r : Store K} (rep : Replayed s r) (live : Live s) : Rebuilt s r := by
  have number : ∀ {i e swapData}, s.find i = some e → e.Survives swapData →
      (restored swapData).swap_filen = e.swap_filen := by
    intro i e swapData found survives
    obtain ⟨filn, file, number⟩ := (Survivor.recorded live found survives).file
    have bound := ((live.files.entries i e found).1 filn file).1
    rw [restored, number, file]
    dsimp only
    rw [Int.toNat_natCast, Nat.mod_eq_of_lt bound]
  refine ⟨?_, ?_, ?_⟩
  · intro i e swapData found survives
    have recorded := Survivor.recorded live found survives
    obtain ⟨j, has⟩ := rep.forth swapData ⟨i, e, found, survives⟩
    refine ⟨⟨j, ⟨_, has, recorded.key⟩, ?_⟩, ⟨j, has⟩, ?_⟩
    · rintro k ⟨f, held, key⟩
      obtain ⟨other, also, rfl⟩ := rep.back k f held
      cases Survivor.unique live also ⟨i, e, found, survives⟩ (key.trans recorded.key.symm)
      exact rep.files.owned.unique (file_of_find held) (file_of_find has)
    · exact (live.tracked found).last swapData survives.shown survives.logged
  · intro j f has
    obtain ⟨swapData, ⟨i, e, found, survives⟩, rfl⟩ := rep.back j f has
    exact ⟨i, e, swapData, found, survives, rfl, (Survivor.recorded live found survives).key,
      number found survives⟩
  · intro filn
    rw [rep.files.owned.marked_iff]
    constructor
    · rintro ⟨j, owns⟩
      obtain ⟨f, has, holds⟩ := Option.bind_eq_some_iff.mp owns
      obtain ⟨swapData, ⟨i, e, found, survives⟩, rfl⟩ := rep.back j f has
      exact ⟨i, e, swapData, found, survives, (number found survives).symm.trans holds⟩
    · rintro ⟨i, e, swapData, found, survives, file⟩
      obtain ⟨j, has⟩ := rep.forth swapData ⟨i, e, found, survives⟩
      exact ⟨j, (file_of_find has).trans ((number found survives).trans file)⟩

/-- A restart after any run restores the entries that survive, and nothing else, unless a file stays
when `timestampsSet` has given it a time that `sane` does not admit. -/
theorem rebuilt_of_replay [DecidableEq K] {blksize squid_curtime later : ℕ}
    {store_dirs_rebuilding need_to_validate : Bool} {events : List (Event K)} {s : Store K}
    (logs : LabelledRun.Allowed (Store.next blksize) Store.Logs { squid_curtime } events)
    (run : LabelledRun.exec (Store.next blksize) { squid_curtime } events = some s) :
    ∃ r, LabelledRun.exec (Store.next blksize) { squid_curtime := later, store_dirs_rebuilding }
        (s.log.map (.rebuildFromSwapLog need_to_validate)) = some r ∧ Rebuilt s r := by
  have final : Live s ∧ ∃ r, LabelledRun.exec (Store.next blksize)
      { squid_curtime := later, store_dirs_rebuilding }
        (s.log.map (.rebuildFromSwapLog need_to_validate)) = some r ∧ Replayed s r := by
    refine @invariant_of_allowed _ _ _ (fun s : Store K => Live s ∧
        ∃ r, LabelledRun.exec (Store.next blksize)
          { squid_curtime := later, store_dirs_rebuilding }
            (s.log.map (.rebuildFromSwapLog need_to_validate)) = some r ∧ Replayed s r)
      Store.Logs ?_ _ _ _ ?_ logs run
    · rintro before event after ⟨alive, r, reads, rep⟩ ok occurs
      have steps : Live after ∧ Replayed.Steps blksize need_to_validate before after r := by
        by_cases adds : event.Adds
        · cases event with
          | storeCreateEntry key cachable special others =>
              cases occurs
              exact ⟨alive.storeCreateEntry key cachable special others,
                rep.storeCreateEntry alive key cachable special others⟩
          | rebuildFromSwapLog need_to_validate swapData => exact ok.elim
          | _ => exact adds.elim
        · have moves := next_moves adds ok occurs
          exact ⟨alive.moves moves, rep.moves alive moves⟩
      obtain ⟨alive, new, u, log, more, rep⟩ := steps
      refine ⟨alive, u, ?_, rep⟩
      rw [log, List.map_append]
      exact exec_trans reads more
    · refine ⟨live_empty squid_curtime, _, rfl, ?_, ?_, ?_⟩
      · exact (live_empty later).files.idle rfl rfl rfl
      · intro j f has
        cases has
      · rintro swapData ⟨i, e, found, -⟩
        cases found
  obtain ⟨alive, r, reads, rep⟩ := final
  exact ⟨r, reads, rep.rebuilt alive⟩

/-- An object is received and swapped out. -/
def storedRun (expires : ℤ) : List (Event ℕ) :=
  [.storeCreateEntry 7 true false 0, .timestampsSet 0 900 expires (-1), .complete 0,
    .storeSwapOutStart 0 (some 3), .swapOutDone 0 4000 true true]

/-- What is restored after `storedRun`: the flags in the record, and those that are restored. -/
def restoredAfter (expires : ℤ) : Option (Option EntryFlags × List EntryFlags) :=
  (LabelledRun.exec (Store.next 4096) { squid_curtime := 1000 } (storedRun expires)).bind fun s =>
    (s.find 0).bind fun e =>
      (LabelledRun.exec (Store.next 4096) { squid_curtime := 1000, store_dirs_rebuilding := true }
        (s.log.map (.rebuildFromSwapLog false))).map fun r =>
          (if e.flags.KEY_PRIVATE = false ∧ e.swap_status = .SWAPOUT_DONE then
            e.logged.map (·.flags) else none, r.store_table.rows.map fun row => row.2.flags)

/-- How many entries the run leaves and how many the replay restores, when a 304 gives the stored
object another `Expires` before it is released. -/
def releasedAfter (expires : ℤ) : Option (ℕ × ℕ) :=
  (LabelledRun.exec (Store.next 4096) { squid_curtime := 1000 }
    (storedRun 2000 ++ [.timestampsSet 0 900 expires (-1), .unlock 0 false, .release 0])).bind
      fun s => (LabelledRun.exec (Store.next 4096)
        { squid_curtime := 1000, store_dirs_rebuilding := true }
          (s.log.map (.rebuildFromSwapLog false))).map fun r =>
            (s.store_table.rows.length, r.store_table.rows.length)

/-- `ENTRY_VALIDATED` is not restored, nothing is restored if `Expires` and `Age` make a time before
1970, and a released object is restored if they do so after it was stored. -/
theorem not_restored_as_logged :
    restoredAfter 2000 = some (some { ENTRY_CACHABLE := true, ENTRY_VALIDATED := true },
        [{ ENTRY_CACHABLE := true }]) ∧
      restoredAfter (-99) = some (some { ENTRY_CACHABLE := true, ENTRY_VALIDATED := true },
        []) ∧
      releasedAfter 2000 = some (0, 0) ∧ releasedAfter (-99) = some (0, 1) := by
  decide +kernel

theorem rebuilt_storedRun : ∃ s r e swapData,
    LabelledRun.exec (Store.next 4096) { squid_curtime := 1000 } (storedRun 2000) = some s ∧
      LabelledRun.exec (Store.next 4096) { squid_curtime := 1000, store_dirs_rebuilding := true }
        (s.log.map (.rebuildFromSwapLog false)) = some r ∧ Rebuilt s r ∧
      s.find 0 = some e ∧ e.Survives swapData := by
  have reached : (LabelledRun.exec (Store.next 4096) { squid_curtime := 1000 }
      (storedRun 2000)).bind (fun s => (s.find 0).bind fun e => e.logged.map fun d =>
        (e.flags.KEY_PRIVATE, e.swap_status, d.timestamp, d.expires, d.lastmod)) =
      some (false, .SWAPOUT_DONE, 900, 2000, -1) := by decide +kernel
  obtain ⟨s, run, reached⟩ := Option.bind_eq_some_iff.mp reached
  obtain ⟨e, found, reached⟩ := Option.bind_eq_some_iff.mp reached
  obtain ⟨swapData, logged, reached⟩ := Option.map_eq_some_iff.mp reached
  simp only [Prod.mk.injEq] at reached
  obtain ⟨shown, done, timestamp, expires, lastmod⟩ := reached
  have logs : LabelledRun.Allowed (Store.next 4096) Store.Logs { squid_curtime := 1000 }
      (storedRun 2000) := allowed_of_forall_mem fun s event member => by
    simp only [storedRun, List.mem_cons, List.not_mem_nil, or_false] at member
    rcases member with rfl | rfl | rfl | rfl | rfl <;> simp [Store.Logs]
  obtain ⟨r, reads, rebuilt⟩ := rebuilt_of_replay logs run
  exact ⟨s, r, e, swapData, run, reads, rebuilt, found, shown, done, logged,
    by omega, by omega, by omega⟩

end Ufs
end Squid
