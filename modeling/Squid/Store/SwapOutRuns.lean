import Squid.Store.SwapOutTrim

/-!
# Runs of swapping out

Every event keeps the invariant.  A step of a run dies exactly if it is a call of `swapOut` that
comes too late, and no step frees a byte that a memory client may want.  Without disk errors the
file gets the object from its start on.
-/

namespace Squid
namespace Swap

open CRuntime List Option
open Mem

/-- The event comes in time. -/
def Event.Safe (e : StoreEntry) : Event → Prop
  | .swapOut call => Swap.Safe call e
  | _ => True

/-- The disk works: no write fails, and the file is closed because it has been asked to. -/
def Event.NoDiskError (e : StoreEntry) : Event → Prop
  | .swapOut call => ∀ n, call.closes n = none
  | .storeSwapOutFileClosed errflag => errflag = 0 ∧ e.wroteAll = true
  | _ => True

/-- Only bytes before what every memory client wants are freed. -/
def Spares (e after : StoreEntry) : Prop :=
  ∀ i lowest_offset, e.mem_obj.lowestMemReaderOffset = .ok lowest_offset →
    e.mem_obj.data_hdr.bytes i ≠ none → after.mem_obj.data_hdr.bytes i = none → i < lowest_offset

/-- What a successful event leaves. -/
structure Handled (config : Config) (event : Event) (e after : StoreEntry) : Prop where
  inv : Invariant config after
  spares : Spares e after
  tidy : event.NoDiskError e → Tidy e → Tidy after

theorem spares_of_bytes {e after : StoreEntry}
    (same : after.mem_obj.data_hdr.bytes = e.mem_obj.data_hdr.bytes) : Spares e after := by
  intro i lowest _ present gone
  rw [same] at gone
  exact (present gone).elim

namespace Invariant

variable {config : Config} {e : StoreEntry}

section

variable (inv : Invariant config e)
include inv

theorem append (pending : e.store_status = .STORE_PENDING) {data : Bytes}
    (fits : e.object.length + data.length + 1 < 2 ^ 63) :
    ∃ after, e.append data = .ok after ∧ Handled config (.append data) e after := by
  obtain ⟨hdr, result, layout, grows⟩ := inv.layout.append fits
  obtain ⟨new, toList, added⟩ := grows.toList
  have queue := inv.queue
  rw [StoreEntry.append, inv.endOffset, Except.bind, result]
  refine ⟨_, rfl, ?_, ?_, fun _ tidy => ⟨tidy.handed, tidy.unstarted⟩⟩
  · refine { inv with
      layout := layout
      lowest := ?_
      highest := ?_
      queue := ?_
      handed := ?_
      aligned := ?_
      size := ?_
      kept := fun decided => ⟨?_, ?_⟩
      fresh := fun p above => inv.fresh p (grows.fresh.trans above)
      wroteAll := fun all => ?_ }
    · exact grows.lowest.trans_le inv.lowest
    · have := inv.highest
      dsimp only
      rw [length_append]
      omega
    · dsimp only
      rw [length_append]
      omega
    · dsimp only
      rw [take_append_of_le_length (by omega)]
      exact inv.handed
    · rcases inv.aligned with aligned | ⟨complete, -⟩
      · exact .inl aligned
      · rw [pending] at complete
        cases complete
    · have size := inv.size
      dsimp only
      rw [if_neg (by simp [pending])] at size ⊢
      exact size
    · exact grows.lowest.trans_le (inv.kept decided).1
    · intro p member above
      dsimp only at member above ⊢
      rw [toList] at member
      rcases mem_append.mp member with old | last
      · rw [grows.offset p old] at above
        exact (inv.kept decided).2 p old above
      · exact inv.fresh p (added p last)
    · have complete := (inv.wroteAll all).1
      rw [pending] at complete
      cases complete
  · intro i lowest _ present gone
    rw [inv.layout.present] at present
    refine ((layout.present i).mpr ?_ gone).elim
    rw [grows.lowest, length_append]
    omega

theorem complete (pending : e.store_status = .STORE_PENDING) :
    ∃ after, e.complete = .ok after ∧ Handled config .complete e after := by
  rw [StoreEntry.complete, inv.endOffset, Except.map]
  refine ⟨_, rfl, ?_, spares_of_bytes rfl, fun _ tidy => ⟨tidy.handed, tidy.unstarted⟩⟩
  have incomplete : e.store_status ≠ .STORE_OK := by simp [pending]
  refine { inv with
    aligned := ?_
    size := by simp
    wroteAll := fun all => (incomplete (inv.wroteAll all).1).elim }
  rcases inv.aligned with aligned | ⟨complete, -⟩
  · exact .inl aligned
  · exact (incomplete complete).elim

theorem progressed {before offset : ℤ} (current : e.mem_obj.sio = some before)
    (later : before ≤ offset) (handed : offset ≤ e.mem_obj.swap_hdr_sz + e.handed.length) :
    Handled config (.progress offset) e
      { e with mem_obj := { e.mem_obj with sio := some offset } } := by
  refine ⟨?_, spares_of_bytes rfl, fun _ tidy => ⟨tidy.handed, tidy.unstarted⟩⟩
  have isOpen : e.mem_obj.sio ≠ none := by simp [current]
  refine { inv with
    writing := by simpa [current] using inv.writing
    possible := fun _ => inv.possible isOpen
    disk := fun _ => ?_
    progress := ?_ }
  · have disk := inv.disk isOpen
    refine disk.trans (max_le_max_left 0 ?_)
    rw [MemObject.objectBytesOnDisk, MemObject.objectBytesOnDisk, current]
    dsimp only
    split <;> split <;> omega
  · intro nwritten same
    cases same
    exact handed

theorem pageWritten (page : ℕ) :
    Handled config (.memNodeWriteComplete page) e { e with mem_obj := { e.mem_obj with
      write_pending := Function.update e.mem_obj.write_pending page false } } := by
  have cleared : ∀ p, e.mem_obj.write_pending p = false →
      Function.update e.mem_obj.write_pending page false p = false := by
    intro p idle
    by_cases same : p = page
    · rw [same, Function.update_self]
    · rw [Function.update_of_ne same, idle]
  refine ⟨?_, spares_of_bytes rfl, fun _ tidy => ⟨tidy.handed, tidy.unstarted⟩⟩
  exact { inv with
    kept := fun decided => ⟨(inv.kept decided).1, fun p member above =>
      cleared p ((inv.kept decided).2 p member above)⟩
    fresh := fun p above => cleared p (inv.fresh p above)
    undecided := fun decision => ⟨(inv.undecided decision).1, fun p =>
      cleared p ((inv.undecided decision).2 p)⟩ }

/-- Other memory clients, none of which wants what has been trimmed. -/
theorem withClients (event : Event) {clients : List ℤ}
    (above : ∀ offset ∈ clients, e.mem_obj.inmem_lo ≤ offset) :
    Handled config event e { e with mem_obj := { e.mem_obj with clients } } :=
  ⟨{ inv with clients := above }, spares_of_bytes rfl,
    fun _ tidy => ⟨tidy.handed, tidy.unstarted⟩⟩

theorem fileClosed (isOpen : e.mem_obj.sio ≠ none) (errflag : ℤ) :
    ∃ after, e.storeSwapOutFileClosed errflag = .ok after ∧
      Handled config (.storeSwapOutFileClosed errflag) e after := by
  obtain ⟨after, result, inv', continues, -, -, queue, status⟩ :=
    inv.storeSwapOutFileClosed isOpen errflag
  refine ⟨after, result, inv', spares_of_bytes continues.bytes, ?_⟩
  rintro ⟨rfl, all⟩ tidy
  have size := inv.object_sz_nonneg (inv.wroteAll all).1
  have lag := continues.lag
  have handed := tidy.handed
  refine ⟨by omega, fun none => ?_⟩
  rw [status, if_neg (by omega)] at none
  cases none

/-- An event succeeds exactly if it comes in time. -/
theorem handle {event : Event} {result : Except Fault StoreEntry}
    (occurs : e.handle config event = some result) :
    Outcome (fun after => Handled config event e after ∧ event.Safe e)
      (fun fault => (fault = .freeDataUpto ∨ fault = .swapOut) ∧ ¬ event.Safe e) result := by
  cases event with
  | append data =>
      simp only [StoreEntry.handle] at occurs
      split at occurs
      · rename_i enabled
        obtain ⟨after, done, handled⟩ := inv.append enabled.1 enabled.2
        rw [← some.inj occurs, done]
        exact ⟨handled, trivial⟩
      · cases occurs
  | complete =>
      simp only [StoreEntry.handle] at occurs
      split at occurs
      · rename_i pending
        obtain ⟨after, done, handled⟩ := inv.complete pending
        rw [← some.inj occurs, done]
        exact ⟨handled, trivial⟩
      · cases occurs
  | swapOut call =>
      simp only [StoreEntry.handle] at occurs
      rw [← some.inj occurs]
      refine inv.swapOut.imp (fun after called => ⟨⟨called.1.inv, ?_, called.1.tidy⟩, called.2⟩)
        fun fault dies => dies
      intro i lowest reader present gone
      rw [inv.lowestMemReaderOffset] at reader
      cases reader
      by_contra high
      rw [called.1.bytes i (by omega)] at gone
      exact present gone
  | progress offset =>
      simp only [StoreEntry.handle] at occurs
      split at occurs
      · cases occurs
      · rename_i before current
        split at occurs
        · rename_i enabled
          rw [← some.inj occurs]
          exact ⟨inv.progressed current enabled.1 enabled.2, trivial⟩
        · cases occurs
  | memNodeWriteComplete page =>
      simp only [StoreEntry.handle] at occurs
      split at occurs
      · rw [← some.inj occurs]
        exact ⟨inv.pageWritten page, trivial⟩
      · cases occurs
  | storeSwapOutFileClosed errflag =>
      simp only [StoreEntry.handle] at occurs
      split at occurs
      · cases occurs
      · rename_i isOpen
        obtain ⟨after, done, handled⟩ := inv.fileClosed isOpen errflag
        rw [← some.inj occurs, done]
        exact ⟨handled, trivial⟩
  | storeClientListAdd =>
      simp only [StoreEntry.handle] at occurs
      split at occurs
      · rename_i whole
        rw [← some.inj occurs]
        refine ⟨inv.withClients _ ?_, trivial⟩
        intro offset member
        rcases mem_cons.mp member with rfl | old
        · exact whole.le
        · exact inv.clients offset old
      · cases occurs
  | copy client offset =>
      simp only [StoreEntry.handle] at occurs
      split at occurs
      · cases occurs
      · rename_i before found
        split at occurs
        · rename_i later
          rw [← some.inj occurs]
          refine ⟨inv.withClients _ ?_, trivial⟩
          intro other member
          rcases mem_or_eq_of_mem_set member with old | rfl
          · exact inv.clients other old
          · exact (inv.clients before (mem_of_getElem? found)).trans later
        · cases occurs
  | storeUnregister client =>
      simp only [StoreEntry.handle] at occurs
      rw [← some.inj occurs]
      refine ⟨inv.withClients _ ?_, trivial⟩
      exact fun offset member => inv.clients offset (mem_of_mem_eraseIdx member)

end

end Invariant

/-! ## Whole runs -/

/-- The step does not kill the process and frees no byte that a memory client may want. -/
def Succeeds (config : Config) (before : Except Fault StoreEntry) (event : Event) : Prop :=
  ∀ result, next config before event = some result →
    ∃ e after, before = .ok e ∧ result = .ok after ∧ Spares e after

/-- The step is not a call of `swapOut` that comes too late. -/
def InTime (before : Except Fault StoreEntry) (event : Event) : Prop :=
  ∀ e, before = .ok e → event.Safe e

/-- The disk works in this step. -/
def DiskWorks (before : Except Fault StoreEntry) (event : Event) : Prop :=
  ∀ e, before = .ok e → event.NoDiskError e

/-- How a run ended. -/
def faultOf : Except Fault StoreEntry → Option Fault
  | .ok _ => none
  | .error fault => some fault

theorem safe_of_not_occurs {config : Config} {e : StoreEntry} {event : Event}
    (never : e.handle config event = none) : event.Safe e := by
  cases event with
  | swapOut call => cases never
  | _ => trivial

section Runs

variable {config : Config} {events : List Event}

theorem Invariant.succeeds_iff {e : StoreEntry} (inv : Invariant config e) (event : Event) :
    Succeeds config (.ok e) event ↔ InTime (.ok e) event := by
  constructor
  · intro succeeds other same
    cases same
    cases occurs : e.handle config event with
    | none => exact safe_of_not_occurs occurs
    | some result =>
        obtain ⟨_, after, -, rfl, -⟩ := succeeds result occurs
        exact (inv.handle occurs).2
  · intro inTime result occurs
    have outcome := inv.handle occurs
    cases result with
    | ok after => exact ⟨e, after, rfl, rfl, outcome.1.spares⟩
    | error fault => exact (outcome.2 (inTime e rfl)).elim

theorem Invariant.succeeds_run_iff {e : StoreEntry} (inv : Invariant config e) :
    LabelledRun.Allowed (next config) (Succeeds config) (.ok e) events ↔
      LabelledRun.Allowed (next config) InTime (.ok e) events := by
  induction events generalizing e with
  | nil => exact Iff.rfl
  | cons event events ih =>
      have later : ∀ {result}, next config (.ok e) event = some result →
          InTime (.ok e) event → ∃ after, result = .ok after ∧ Invariant config after := by
        intro result occurs inTime
        have outcome := inv.handle occurs
        cases result with
        | ok after => exact ⟨after, rfl, outcome.1.inv⟩
        | error fault => exact (outcome.2 (inTime e rfl)).elim
      constructor
      · rintro ⟨succeeds, rest⟩
        have inTime := (inv.succeeds_iff event).mp succeeds
        refine ⟨inTime, fun result occurs => ?_⟩
        obtain ⟨after, rfl, inv'⟩ := later occurs inTime
        exact (ih inv').mp (rest _ occurs)
      · rintro ⟨inTime, rest⟩
        refine ⟨(inv.succeeds_iff event).mpr inTime, fun result occurs => ?_⟩
        obtain ⟨after, rfl, inv'⟩ := later occurs inTime
        exact (ih inv').mpr (rest _ occurs)

/-- In a run, no step kills the process or frees a byte that a memory client may want, exactly if
no call of `swapOut` comes too late. -/
theorem trimming_safe_iff (config : Config) (events : List Event) :
    LabelledRun.Allowed (next config) (Succeeds config) (.ok {}) events ↔
      LabelledRun.Allowed (next config) InTime (.ok {}) events :=
  (invariant_initial config).succeeds_run_iff

end Runs

/-- A cache with one `cache_dir` that keeps nothing in memory. -/
def plainConfig : Config := ⟨1, 0, false, -1⟩

/-- A complete object of two pages is swapped out and trimmed, and then its file is closed with an
error. -/
def failedClose : List Event :=
  [.append (List.replicate 4097 7), .complete, .swapOut {}, .progress 4097, .memNodeWriteComplete 0,
    .memNodeWriteComplete 1, .swapOut {}, .storeSwapOutFileClosed (-1)]

/-- The call that a leaving client makes next kills the process. -/
theorem dies_after_failedClose :
    (LabelledRun.exec (next plainConfig) (.ok {}) (failedClose ++ [.swapOut {}])).bind faultOf =
      some .freeDataUpto := by
  decide +kernel

/-! ## What the file gets -/

/-- Without disk errors, the file has got the start of the object up to `queue_offset`, it is closed
only when that is the whole object, and the assertions about pages hold. -/
theorem handed_eq_take {config : Config} {events : List Event} {result : Except Fault StoreEntry}
    (works : LabelledRun.Allowed (next config) DiskWorks (.ok {}) events)
    (run : LabelledRun.exec (next config) (.ok {}) events = some result) :
    Outcome
      (fun e => 0 ≤ e.mem_obj.queue_offset ∧ e.mem_obj.queue_offset ≤ e.object.length ∧
        e.handed = e.object.take e.mem_obj.queue_offset.toNat ∧
        (e.wroteAll = true → e.store_status = .STORE_OK ∧
          e.mem_obj.object_sz = e.object.length ∧
          e.mem_obj.queue_offset = e.mem_obj.object_sz))
      (fun fault => fault ≠ .doPages ∧ fault ≠ .nodeGet) result := by
  have final : Outcome (fun e => Invariant config e ∧ Tidy e)
      (fun fault : Fault => fault = .freeDataUpto ∨ fault = .swapOut) result := by
    refine LabelledRun.invariant_of_allowed ?_ ?_ works run
    · intro before event after holds works occurs
      cases before with
      | error fault => cases occurs
      | ok e =>
          refine (holds.1.handle occurs).imp (fun after handled => ?_) fun fault dies => dies.1
          exact ⟨handled.1.inv, handled.1.tidy (works e rfl) holds.2⟩
    · exact ⟨invariant_initial config, rfl, fun _ => rfl⟩
  refine final.imp (fun e holds => ?_) fun fault dies => ?_
  · obtain ⟨inv, tidy⟩ := holds
    have queue := inv.queue
    have handed := tidy.handed
    refine ⟨queue.1, queue.2, inv.handed.eq_of_length ?_, fun all => ?_⟩
    · rw [length_take]
      omega
    · obtain ⟨complete, whole⟩ := inv.wroteAll all
      have size := inv.size
      rw [if_pos complete] at size
      exact ⟨complete, size, whole.trans size.symm⟩
  · rcases dies with rfl | rfl <;> decide

/-- A short object is swapped out when it is complete. -/
def shortRun : List Event := [.append [72, 73], .append [74], .complete, .swapOut {}]

theorem handed_shortRun : ∃ e, LabelledRun.exec (next plainConfig) (.ok {}) shortRun =
      some (.ok e) ∧ e.wroteAll = true ∧ e.object = [72, 73, 74] ∧
    e.handed = e.object.take e.mem_obj.queue_offset.toNat := by
  have works : LabelledRun.Allowed (next plainConfig) DiskWorks (.ok {}) shortRun :=
    LabelledRun.allowed_of_forall_mem fun before event member e _ => by
      simp only [shortRun, mem_cons, not_mem_nil, or_false] at member
      rcases member with rfl | rfl | rfl | rfl <;> simp [Event.NoDiskError]
  have reached : (LabelledRun.exec (next plainConfig) (.ok {}) shortRun).bind (fun result =>
      result.toOption.map fun e => (e.wroteAll, e.object)) = some (true, [72, 73, 74]) := by
    decide +kernel
  obtain ⟨result, run, ended⟩ := bind_eq_some_iff.mp reached
  cases result with
  | error fault => cases ended
  | ok e =>
      obtain ⟨all, object⟩ := Prod.mk.inj (some.inj ended)
      exact ⟨e, run, all, object, (handed_eq_take works run).2.2.1⟩

end Swap
end Squid
