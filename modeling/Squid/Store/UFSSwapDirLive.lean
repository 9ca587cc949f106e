import Squid.Store.UFSSwapDirRebuild

/-!
# What the swap log knows about the entries

While no log is being replayed, public keys are unique, the last record with the key of an entry
that has been logged is its own, and it still says what file the entry has.
-/

namespace Squid
namespace Ufs

open Swap (StoreStatus SwapStatus)

variable {K : Type}

/-- What a record of `SWAP_LOG_ADD` still says about its entry. -/
structure Recorded (e : StoreEntry K) (swapData : StoreSwapLogData K) : Prop where
  op : swapData.op = .SWAP_LOG_ADD
  key : swapData.key = e.key
  file : ∃ filn, e.swap_filen = some filn ∧ swapData.swap_filen = filn
  swap_file_sz : swapData.swap_file_sz = e.swap_file_sz
  positive : 0 < swapData.swap_file_sz
  timestamp : e.timestamp = swapData.timestamp ∨ -2 ≤ e.timestamp
  lastmod : e.lastmod = swapData.lastmod ∨ -2 ≤ e.lastmod
  expires : e.expires = swapData.expires ∨ -2 ≤ e.expires
  lastref : 0 ≤ swapData.lastref ∧ swapData.lastref ≤ e.lastref
  shown : swapData.flags.KEY_PRIVATE = false
  plain : swapData.flags.ENTRY_SPECIAL = false
  checksum : swapData.checksum = swapChecksum24 swapData.swap_filen swapData.swap_file_sz

/-- What holds of an entry at some time, with the log so far. -/
structure Tracked (now : ℕ) (log : List (StoreSwapLogData K)) (e : StoreEntry K) : Prop where
  plain : e.swap_filen ≠ none → e.flags.ENTRY_SPECIAL = false
  complete : e.swap_status = .SWAPOUT_DONE → e.swap_filen ≠ none
  lastref : 0 ≤ e.lastref ∧ e.lastref ≤ now
  unlogged : e.flags.KEY_PRIVATE = false → e.swap_status ≠ .SWAPOUT_DONE → e.logged = none
  recorded : ∀ swapData, e.flags.KEY_PRIVATE = false → e.logged = some swapData →
    Recorded e swapData
  last : ∀ swapData, e.flags.KEY_PRIVATE = false → e.logged = some swapData →
    ∃ front back, log = front ++ swapData :: back ∧ ∀ later ∈ back, later.key ≠ e.key

/-- What holds of a `cache_dir` while no log is being replayed. -/
structure Live (s : Store K) : Prop where
  files : Files s
  keys : ∀ {i j e f}, s.find i = some e → s.find j = some f → e.flags.KEY_PRIVATE = false →
    f.flags.KEY_PRIVATE = false → e.key = f.key → i = j
  tracked : ∀ {i e}, s.find i = some e → Tracked s.squid_curtime s.log e

/-! ## One entry -/

namespace Tracked

variable {now later : ℕ} {log new : List (StoreSwapLogData K)} {e after : StoreEntry K}

/-- Time passes, and records with other keys are added. -/
theorem mono (tracked : Tracked now log e) (goes : now ≤ later)
    (others : e.flags.KEY_PRIVATE = false → ∀ swapData ∈ new, swapData.key ≠ e.key) :
    Tracked later (log ++ new) e where
  plain := tracked.plain
  complete := tracked.complete
  lastref := by
    have bounds := tracked.lastref
    omega
  unlogged := tracked.unlogged
  recorded := tracked.recorded
  last := by
    intro swapData shown logged
    obtain ⟨front, back, split, distinct⟩ := tracked.last swapData shown logged
    refine ⟨front, back ++ new, by rw [split, List.append_assoc, List.cons_append], ?_⟩
    intro later member
    rcases List.mem_append.mp member with member | member
    · exact distinct later member
    · exact others shown later member

/-- An entry that is not logged. -/
theorem of_unlogged (plain : e.swap_filen ≠ none → e.flags.ENTRY_SPECIAL = false)
    (complete : e.swap_status = .SWAPOUT_DONE → e.swap_filen ≠ none)
    (lastref : 0 ≤ e.lastref ∧ e.lastref ≤ now)
    (unlogged : e.flags.KEY_PRIVATE = false → e.logged = none) : Tracked now log e where
  plain
  complete
  lastref
  unlogged := fun shown _ => unlogged shown
  recorded := by
    intro swapData shown logged
    cases (unlogged shown).symm.trans logged
  last := by
    intro swapData shown logged
    cases (unlogged shown).symm.trans logged

/-- A logged entry is complete. -/
theorem done (tracked : Tracked now log e) {swapData : StoreSwapLogData K}
    (shown : e.flags.KEY_PRIVATE = false) (logged : e.logged = some swapData) :
    e.swap_status = .SWAPOUT_DONE := by
  by_contra undone
  cases (tracked.unlogged shown undone).symm.trans logged

theorem adjust (tracked : Tracked now log e) (adjusts : Adjusts now e after) :
    Tracked now log after where
  plain := by
    rw [adjusts.swap_filen, adjusts.special]
    exact tracked.plain
  complete := by
    rw [adjusts.swap_filen, adjusts.swap_status]
    exact tracked.complete
  lastref := by
    have bounds := tracked.lastref
    rcases adjusts.lastref with same | same
    · rw [same]
      exact bounds
    · omega
  unlogged := by
    rw [adjusts.hidden, adjusts.swap_status, adjusts.logged]
    exact tracked.unlogged
  recorded := by
    rw [adjusts.hidden, adjusts.logged]
    intro swapData shown logged
    have done := tracked.done shown logged
    have recorded := tracked.recorded swapData shown logged
    have bounds := tracked.lastref
    have old := recorded.lastref
    refine ⟨recorded.op, recorded.key.trans adjusts.key.symm, ?_, ?_, recorded.positive, ?_, ?_, ?_,
      ⟨old.1, ?_⟩, recorded.shown, recorded.plain, recorded.checksum⟩
    · rw [adjusts.swap_filen]
      exact recorded.file
    · rw [adjusts.swap_file_sz]
      exact recorded.swap_file_sz
    · exact (adjusts.timestamp done).elim (· ▸ recorded.timestamp) .inr
    · exact (adjusts.lastmod done).elim (· ▸ recorded.lastmod) .inr
    · exact (adjusts.expires done).elim (· ▸ recorded.expires) .inr
    · rcases adjusts.lastref with same | same
      · omega
      · omega
  last := by
    rw [adjusts.hidden, adjusts.logged, adjusts.key]
    exact tracked.last

end Tracked

/-! ## All entries -/

/-- An entry with a public key had it before another entry was changed. -/
theorem origin_of_set {s t : Store K} {i j : ℕ} {e f after : StoreEntry K}
    (found : s.find i = some e) (has : t.find j = some f) (shown : f.flags.KEY_PRIVATE = false)
    (table : t.store_table = s.store_table.set i after)
    (same : after.flags.KEY_PRIVATE = false → e.flags.KEY_PRIVATE = false ∧ after.key = e.key) :
    ∃ old, s.find j = some old ∧ old.flags.KEY_PRIVATE = false ∧ f.key = old.key := by
  rw [Store.find, table] at has
  rcases Store.find_put_cases found has with ⟨rfl, rfl⟩ | has
  · exact ⟨e, found, same shown⟩
  · exact ⟨f, has, shown, rfl⟩

namespace Live

variable {blksize : ℕ} {s t : Store K} {i : ℕ} {e after : StoreEntry K}
  {new : List (StoreSwapLogData K)}

theorem idle (live : Live s) (files : Files t) (table : t.store_table = s.store_table)
    (clock : s.squid_curtime ≤ t.squid_curtime) (log : t.log = s.log) : Live t := by
  have find : t.find = s.find := funext fun i => by rw [Store.find, Store.find, table]
  refine ⟨files, ?_, ?_⟩
  · intro i j e f first second
    rw [find] at first second
    exact live.keys first second
  · intro i e found
    rw [find] at found
    have kept := @Tracked.mono _ _ _ _ [] _ (live.tracked found) clock (by simp)
    rwa [List.append_nil, ← log] at kept

/-- A change of one entry, with records of its key. -/
theorem put (live : Live s) (files : Files t) (found : s.find i = some e)
    (table : t.store_table = s.store_table.set i after)
    (clock : t.squid_curtime = s.squid_curtime) (log : t.log = s.log ++ new)
    (own : ∀ swapData ∈ new, e.flags.KEY_PRIVATE = false ∧ swapData.key = e.key)
    (same : after.flags.KEY_PRIVATE = false → e.flags.KEY_PRIVATE = false ∧ after.key = e.key)
    (tracked : Tracked s.squid_curtime (s.log ++ new) after) : Live t := by
  have self : t.find i = some after := by
    rw [Store.find, table]
    exact Table.find_set_self found
  have other : ∀ {j}, j ≠ i → t.find j = s.find j := by
    intro j ne
    rw [Store.find, table]
    exact Table.find_set_ne ne
  refine ⟨files, ?_, ?_⟩
  · intro j k f g first second one two key
    obtain ⟨old, first, one, oldkey⟩ := origin_of_set found first one table same
    obtain ⟨former, second, two, formerkey⟩ := origin_of_set found second two table same
    exact live.keys first second one two (oldkey.symm.trans (key.trans formerkey))
  · intro j f has
    rw [clock, log]
    by_cases at_i : j = i
    · subst at_i
      cases self.symm.trans has
      exact tracked
    · rw [other at_i] at has
      refine (live.tracked has).mono le_rfl fun shown swapData member clash => ?_
      obtain ⟨visible, key⟩ := own swapData member
      exact at_i (live.keys has found shown visible (clash.symm.trans key))

theorem erase (live : Live s) (files : Files (s.destroyStoreEntry i)) :
    Live (s.destroyStoreEntry i) := by
  refine ⟨files, ?_, ?_⟩
  · intro j k f g first second
    exact live.keys (Store.find_destroy first) (Store.find_destroy second)
  · intro j f has
    exact live.tracked (Store.find_destroy has)

/-- A new entry whose key nobody has. -/
theorem insert (live : Live s) (files : Files t)
    (table : t.store_table = s.store_table.insert s.fresh e)
    (clock : t.squid_curtime = s.squid_curtime) (log : t.log = s.log)
    (unused : ∀ j f, s.find j = some f → f.flags.KEY_PRIVATE = false → f.key ≠ e.key)
    (tracked : Tracked s.squid_curtime s.log e) : Live t := by
  refine ⟨files, ?_, ?_⟩
  · intro j k f g first second one two key
    rcases Store.find_insert_cases table first with ⟨rfl, rfl⟩ | first
    · rcases Store.find_insert_cases table second with ⟨rfl, rfl⟩ | second
      · rfl
      · exact (unused k g second two key.symm).elim
    · rcases Store.find_insert_cases table second with ⟨rfl, rfl⟩ | second
      · exact (unused j f first one key).elim
      · exact live.keys first second one two key
  · intro j f has
    rw [clock, log]
    rcases Store.find_insert_cases table has with ⟨rfl, rfl⟩ | has
    · exact tracked
    · exact live.tracked has

end Live

/-! ## What the changes leave behind -/

namespace Store

variable {blksize : ℕ} {s : Store K} {i filn : ℕ} {e : StoreEntry K}

theorem storeDirSwapLog_of_plain (plain : e.flags.ENTRY_SPECIAL = false) (op : SwapLogOp) :
    s.storeDirSwapLog e op = { s with log := s.log ++ [e.record op] } :=
  if_neg (ne_true_of_eq_false plain)

theorem unlink_fields (found : s.find i = some e) (file : e.swap_filen = some filn) :
    (s.unlink blksize i).store_table =
        s.store_table.set i { e with swap_filen := none, swap_status := .SWAPOUT_NONE } ∧
      (s.unlink blksize i).squid_curtime = s.squid_curtime ∧
      (s.unlink blksize i).log = s.log := by
  rw [unlink_eq found file]
  split
  · exact ⟨rfl, rfl, rfl⟩
  · exact ⟨rfl, rfl, rfl⟩

/-- A file that is complete is logged as it is then. -/
theorem logAdd_swappedOut {swap_file_sz : ℕ} (found : s.find i = some e)
    (plain : e.flags.ENTRY_SPECIAL = false) :
    (s.swappedOut blksize i swap_file_sz).logAdd i =
      { s.account (diskSize blksize swap_file_sz) 1 with
        log := s.log ++
          [{ e with swap_file_sz, swap_status := .SWAPOUT_DONE }.record .SWAP_LOG_ADD] }.put i
        { e with
          swap_file_sz
          swap_status := .SWAPOUT_DONE
          logged := some ({ e with swap_file_sz, swap_status := .SWAPOUT_DONE }.record
            .SWAP_LOG_ADD) } := by
  have complete : (s.swappedOut blksize i swap_file_sz).find i =
      some { e with swap_file_sz, swap_status := .SWAPOUT_DONE } := by
    rw [swappedOut, found]
    exact find_put_self found
  have logs := @storeDirSwapLog_of_plain _ (s.swappedOut blksize i swap_file_sz)
    { e with swap_file_sz, swap_status := .SWAPOUT_DONE } plain .SWAP_LOG_ADD
  rw [logAdd, complete]
  dsimp only
  rw [logs, swappedOut, found]
  exact @put_put _ { s.account (diskSize blksize swap_file_sz) 1 with
      log := s.log ++
        [{ e with swap_file_sz, swap_status := .SWAPOUT_DONE }.record .SWAP_LOG_ADD] } i
    { e with swap_file_sz, swap_status := .SWAPOUT_DONE } _

end Store

open Store

theorem recorded_record {e : StoreEntry K} {filn : ℕ} (file : e.swap_filen = some filn)
    (positive : 0 < e.swap_file_sz) (lastref : 0 ≤ e.lastref)
    (shown : e.flags.KEY_PRIVATE = false) (plain : e.flags.ENTRY_SPECIAL = false) :
    Recorded e (e.record .SWAP_LOG_ADD) :=
  ⟨rfl, rfl, ⟨filn, file, by rw [StoreEntry.record, file]; rfl⟩, rfl, positive, .inl rfl, .inl rfl,
    .inl rfl, ⟨lastref, le_rfl⟩, shown, plain, rfl⟩

namespace Live

variable {blksize : ℕ} {s t : Store K} {i : ℕ} {e : StoreEntry K}

theorem move (live : Live s) (move : Move blksize s t) : Live t := by
  have files := live.files.move move
  cases move with
  | idle table disk log clock => exact live.idle files table clock log
  | @adjust i e after found adjusts =>
      refine @put _ _ _ i e after [] live files found rfl rfl (List.append_nil _).symm
        (by simp) (fun shown => ⟨adjusts.hidden.symm.trans shown, adjusts.key⟩) ?_
      rw [List.append_nil]
      exact (live.tracked found).adjust adjusts
  | @privatize i e found shown =>
      have tracked := live.tracked found
      have hidden : ∀ {log}, Tracked s.squid_curtime log
          { e with flags := { e.flags with KEY_PRIVATE := true } } := by
        intro log
        exact .of_unlogged tracked.plain tracked.complete tracked.lastref (by simp)
      by_cases nofile : e.swap_filen = none
      · rw [if_pos nofile] at files ⊢
        exact @put _ _ _ i e _ [] live files found rfl rfl (List.append_nil _).symm
          (by simp) (by simp) hidden
      · rw [if_neg nofile, storeDirSwapLog_of_plain (tracked.plain nofile)] at files ⊢
        refine live.put files found rfl rfl rfl ?_ (by simp) hidden
        intro swapData member
        rw [List.mem_singleton.mp member]
        exact ⟨shown, rfl⟩
  | drop found nofile => exact live.erase files
  | @start i filn e found unstarted plain small unused =>
      have tracked := live.tracked found
      refine @put _ _ _ i e _ [] live files found rfl rfl (List.append_nil _).symm
        (by simp) (fun shown => ⟨shown, rfl⟩) ?_
      refine .of_unlogged (fun _ => plain) (by simp) tracked.lastref fun shown => ?_
      exact tracked.unlogged shown (by rw [unstarted]; decide)
  | @finish i filn swap_file_sz e found file writing positive =>
      have tracked := live.tracked found
      have table : (s.swappedOut blksize i swap_file_sz).store_table = s.store_table.set i
            { e with swap_file_sz, swap_status := .SWAPOUT_DONE } ∧
          (s.swappedOut blksize i swap_file_sz).squid_curtime = s.squid_curtime ∧
          (s.swappedOut blksize i swap_file_sz).log = s.log := by
        rw [swappedOut, found]
        exact ⟨rfl, rfl, rfl⟩
      refine @put _ _ _ i e _ [] live files found table.1 table.2.1
        (table.2.2.trans (List.append_nil _).symm) (by simp) (fun shown => ⟨shown, rfl⟩) ?_
      refine .of_unlogged tracked.plain (fun _ => by simp [file]) tracked.lastref fun shown => ?_
      exact tracked.unlogged shown (by rw [writing]; decide)
  | @store i filn swap_file_sz e found file writing positive shown =>
      have tracked := live.tracked found
      have plain := tracked.plain (by simp [file])
      rw [logAdd_swappedOut found plain] at files ⊢
      refine live.put files found rfl rfl rfl ?_ (fun _ => ⟨shown, rfl⟩) ?_
      · intro swapData member
        rw [List.mem_singleton.mp member]
        exact ⟨shown, rfl⟩
      · refine ⟨fun _ => plain, fun _ => by simp [file], tracked.lastref, fun _ undone => ?_, ?_,
          ?_⟩
        · exact (undone rfl).elim
        · intro swapData _ logged
          cases logged
          have recorded := @recorded_record _ { e with swap_file_sz, swap_status := .SWAPOUT_DONE }
            filn file positive tracked.lastref.1 shown plain
          exact ⟨recorded.op, recorded.key, recorded.file, recorded.swap_file_sz,
            recorded.positive, recorded.timestamp, recorded.lastmod, recorded.expires,
            recorded.lastref, recorded.shown, recorded.plain, recorded.checksum⟩
        · intro swapData _ logged
          cases logged
          exact ⟨s.log, [], rfl, by simp⟩
  | @unlink i filn e found file gone =>
      have tracked := live.tracked found
      obtain ⟨table, clock, log⟩ := @unlink_fields _ blksize _ _ _ _ found file
      refine @put _ _ _ i e _ [] live files found table clock
        (log.trans (List.append_nil _).symm) (by simp) (fun shown => ⟨shown, rfl⟩) ?_
      refine .of_unlogged (fun file => (file rfl).elim) (by simp) tracked.lastref fun shown => ?_
      rcases gone with hidden | writing
      · cases shown.symm.trans hidden
      · exact tracked.unlogged shown (by rw [writing]; decide)

theorem moves (live : Live s) (moves : Moves blksize s t) : Live t := by
  induction moves with
  | refl => exact live
  | tail _ move ih => exact ih.move move

end Live

/-! ## New entries -/

/-- No change makes a key public. -/
theorem Move.shown {blksize : ℕ} {s t : Store K} (live : Live s) (move : Move blksize s t) {j : ℕ}
    {f : StoreEntry K} (has : t.find j = some f) (shown : f.flags.KEY_PRIVATE = false) :
    ∃ old, s.find j = some old ∧ old.flags.KEY_PRIVATE = false ∧ f.key = old.key := by
  cases move with
  | idle table disk log clock =>
      rw [Store.find, table] at has
      exact ⟨f, has, shown, rfl⟩
  | adjust found adjusts =>
      exact origin_of_set found has shown rfl fun shown =>
        ⟨adjusts.hidden.symm.trans shown, adjusts.key⟩
  | @privatize i e found visible =>
      refine @origin_of_set _ s _ i j e f
        { e with flags := { e.flags with KEY_PRIVATE := true } } found has shown ?_ (by simp)
      rw [Store.put]
      split
      · rfl
      · obtain ⟨log, logged⟩ := storeDirSwapLog_eq s e .SWAP_LOG_DEL
        rw [logged]
  | drop found nofile => exact ⟨f, find_destroy has, shown, rfl⟩
  | start found unstarted plain small unused =>
      exact origin_of_set found has shown rfl fun shown => ⟨shown, rfl⟩
  | finish found file writing positive =>
      rw [swappedOut, found] at has
      exact origin_of_set found has shown rfl fun shown => ⟨shown, rfl⟩
  | store found file writing positive visible =>
      have plain := (live.tracked found).plain (by simp [file])
      rw [logAdd_swappedOut found plain] at has
      exact origin_of_set found has shown rfl fun shown => ⟨shown, rfl⟩
  | unlink found file gone =>
      exact origin_of_set found has shown (unlink_fields found file).1 fun shown => ⟨shown, rfl⟩

theorem Moves.shown {blksize : ℕ} {s t : Store K} (live : Live s) (moves : Moves blksize s t)
    {j : ℕ} {f : StoreEntry K} (has : t.find j = some f) (shown : f.flags.KEY_PRIVATE = false) :
    ∃ old, s.find j = some old ∧ old.flags.KEY_PRIVATE = false ∧ f.key = old.key := by
  induction moves generalizing f with
  | refl => exact ⟨f, has, shown, rfl⟩
  | tail before move ih =>
      obtain ⟨old, held, visible, key⟩ := move.shown (live.moves before) has shown
      obtain ⟨older, found, unhidden, first⟩ := ih held visible
      exact ⟨older, found, unhidden, key.trans first⟩

namespace Live

variable [DecidableEq K] {blksize : ℕ} {s t : Store K}

/-- After `setPublicKey`, nobody has the key. -/
theorem setPublicKey_unused (live : Live s) (key : K) {j : ℕ} {f : StoreEntry K}
    (has : (s.setPublicKey blksize key).find j = some f) (shown : f.flags.KEY_PRIVATE = false) :
    f.key ≠ key := by
  intro same
  rw [setPublicKey] at has
  split at has
  next absent =>
    have missing := Table.search_eq_none_iff.mp absent j f has
    simp [shown, same] at missing
  next i e got =>
    obtain ⟨found, matched⟩ := Table.find_of_search got
    simp only [Bool.and_eq_true, Bool.not_eq_true', decide_eq_true_eq] at matched
    have hidden := live.moves (@setPrivateKey_moves _ blksize s i)
    obtain ⟨old, held, visible, key'⟩ := Moves.shown hidden (release_moves _ i) has shown
    obtain ⟨older, first, unhidden, key''⟩ := Moves.shown live (@setPrivateKey_moves _ blksize s i)
      held visible
    have at_i : j = i := live.keys first found unhidden matched.1
      (key''.symm.trans (key'.symm.trans (same.trans matched.2.symm)))
    subst at_i
    rw [find_setPrivateKey found] at held
    cases held
    cases visible

theorem storeCreateEntry (live : Live s) (key : K) (cachable special : Bool) (others : ℕ) :
    Live (s.storeCreateEntry blksize key cachable special others) := by
  have set := live.moves (@setPublicKey_moves _ blksize _ s key)
  have unused := fun j f => @setPublicKey_unused _ _ blksize s live key j f
  rw [Store.storeCreateEntry]
  generalize s.setPublicKey blksize key = s at set unused
  have created : ∀ e : StoreEntry K, e.key = key → e.swap_filen = none →
      e.swap_status ≠ .SWAPOUT_DONE → e.logged = none → e.lastref = s.squid_curtime →
      Live { s with store_table := s.store_table.insert s.fresh e, fresh := s.fresh + 1 } := by
    intro e named nofile undone unlogged lastref
    have files : Files
        { s with store_table := s.store_table.insert s.fresh e, fresh := s.fresh + 1 } := by
      refine set.files.insert ?_ ?_ rfl rfl
      · rw [nofile, ← set.files.free, Function.update_eq_self]
        exact set.files.owned
      · intro filn holds
        cases nofile.symm.trans holds
    refine set.insert files rfl rfl rfl ?_ ?_
    · intro j f has shown
      rw [named]
      exact unused j f has shown
    · exact .of_unlogged (fun file => (file nofile).elim) (fun done => (undone done).elim)
        (by omega) fun _ => unlogged
  split
  · refine created _ rfl rfl ?_ rfl rfl
    simp
  · refine (created _ rfl rfl ?_ rfl rfl).moves (@releaseRequest_moves _ blksize _ _)
    simp

end Live

end Ufs
end Squid
