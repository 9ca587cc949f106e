import Squid.Library.Outcome
import Squid.Store.SwapOutLayout

/-!
# The invariant of swapping out

Trimming follows the memory clients and what is on disk, writing follows the pages, and neither
goes beyond the other: what has not been handed over to the file is in memory, in pages that are
not being written, and what has been trimmed is not wanted by a memory client.
-/

namespace Squid
namespace Swap

open CRuntime
open Mem

/-- Holds between two events. -/
structure Invariant (config : Config) (e : StoreEntry) : Prop where
  layout : Layout e.mem_obj.data_hdr e.object
  /-- Nothing at or above `inmem_lo` has been trimmed. -/
  lowest : e.mem_obj.data_hdr.lowestOffset ≤ e.mem_obj.inmem_lo
  highest : e.mem_obj.inmem_lo ≤ e.object.length + 1
  clients : ∀ offset ∈ e.mem_obj.clients, e.mem_obj.inmem_lo ≤ offset
  writing : e.mem_obj.sio ≠ none ↔ e.swap_status = .SWAPOUT_WRITING
  possible : e.mem_obj.sio ≠ none → e.mem_obj.decision = .swPossible
  /-- What has been trimmed is on disk while the file is open. -/
  disk : e.mem_obj.sio ≠ none → e.mem_obj.inmem_lo ≤ max 0 (e.mem_obj.objectBytesOnDisk - 1)
  progress : ∀ nwritten, e.mem_obj.sio = some nwritten →
    nwritten ≤ e.mem_obj.swap_hdr_sz + e.handed.length
  queue : 0 ≤ e.mem_obj.queue_offset ∧ e.mem_obj.queue_offset ≤ e.object.length
  /-- The file has got the bytes up to `queue_offset`, from where it was created. -/
  handed : e.handed <:+ e.object.take e.mem_obj.queue_offset.toNat
  aligned : (SM_PAGE_SIZE : ℤ) ∣ e.mem_obj.queue_offset ∨
    e.store_status = .STORE_OK ∧ e.mem_obj.queue_offset = e.object.length
  size : e.mem_obj.object_sz = if e.store_status = .STORE_OK then (e.object.length : ℤ) else -1
  /-- The pages from `queue_offset` on are there and wait to be written. -/
  kept : e.mem_obj.decision = .swPossible →
    e.mem_obj.data_hdr.lowestOffset ≤ e.mem_obj.queue_offset ∧
      ∀ p ∈ e.mem_obj.data_hdr.nodes.toList,
        e.mem_obj.queue_offset ≤ (e.mem_obj.data_hdr.heap p).offset →
          e.mem_obj.write_pending p = false
  fresh : ∀ p, e.mem_obj.data_hdr.fresh ≤ p → e.mem_obj.write_pending p = false
  undecided : e.mem_obj.decision = .swNeedsCheck →
    e.mem_obj.queue_offset = 0 ∧ ∀ p, e.mem_obj.write_pending p = false
  configured : e.mem_obj.decision = .swPossible → config.n_configured ≠ 0
  wroteAll : e.wroteAll = true →
    e.store_status = .STORE_OK ∧ e.mem_obj.queue_offset = e.object.length

theorem invariant_initial (config : Config) : Invariant config {} where
  layout := Layout.empty
  lowest := by decide
  highest := by decide
  clients := by simp
  writing := by simp
  possible := by simp
  disk := by simp
  progress := by simp
  queue := by decide
  handed := by simp
  aligned := .inl (by decide)
  size := by decide
  kept := by simp
  fresh := by simp
  undecided := by simp
  configured := by simp
  wroteAll := by simp

namespace Invariant

variable {config : Config} {e : StoreEntry}

section

variable (inv : Invariant config e)
include inv

theorem inmem_lo_nonneg : 0 ≤ e.mem_obj.inmem_lo :=
  (lowestOffset_nonneg inv.layout.wf).trans inv.lowest

theorem endOffset : e.mem_obj.endOffset = .ok (e.object.length : ℤ) := by
  rw [MemObject.endOffset, inv.layout.endOffset]
  rfl

theorem availableForSwapOut :
    e.mem_obj.availableForSwapOut = .ok (e.object.length - e.mem_obj.queue_offset) := by
  rw [MemObject.availableForSwapOut, inv.endOffset]
  rfl

theorem handed_le : e.handed.length ≤ e.mem_obj.queue_offset := by
  have short := inv.handed.length_le
  have queue := inv.queue
  rw [List.length_take] at short
  omega

/-- A search in the pages. -/
theorem reshape {hdr : MemHdr} (reshaped : Reshaped e.mem_obj.data_hdr hdr) :
    Invariant config { e with mem_obj := { e.mem_obj with data_hdr := hdr } } := by
  have lowest := reshaped.lowestOffset
  refine { inv with
    layout := inv.layout.reshaped reshaped
    lowest := ?_
    kept := ?_
    fresh := ?_ }
  · dsimp only
    rw [lowest]
    exact inv.lowest
  · dsimp only
    rw [lowest, reshaped.toList, reshaped.heap]
    exact inv.kept
  · dsimp only
    rw [reshaped.fresh]
    exact inv.fresh

end

end Invariant

/-! ## Trimming -/

theorem lowestMemReader_le_seed (clients : List ℤ) (seed : ℤ) :
    MemObject.lowestMemReader clients seed ≤ seed := by
  unfold MemObject.lowestMemReader
  induction clients generalizing seed with
  | nil => exact le_rfl
  | cons offset clients ih =>
      rw [List.foldl_cons]
      refine (ih _).trans ?_
      split
      · omega
      · exact le_rfl

theorem lowestMemReader_le {clients : List ℤ} {seed offset : ℤ} (member : offset ∈ clients) :
    MemObject.lowestMemReader clients seed ≤ offset := by
  induction clients generalizing seed with
  | nil => simp at member
  | cons first clients ih =>
      rcases List.mem_cons.mp member with rfl | later
      · refine (lowestMemReader_le_seed clients _).trans ?_
        dsimp only
        split
        · exact le_rfl
        · omega
      · exact ih later

theorem le_lowestMemReader {clients : List ℤ} {seed low : ℤ} (start : low ≤ seed)
    (all : ∀ offset ∈ clients, low ≤ offset) : low ≤ MemObject.lowestMemReader clients seed := by
  unfold MemObject.lowestMemReader
  induction clients generalizing seed with
  | nil => exact start
  | cons offset clients ih =>
      rw [List.foldl_cons]
      refine ih ?_ fun other member => all other (by simp [member])
      split
      · exact all offset (by simp)
      · exact start

/-- `lowestMemReaderOffset` of an object. -/
def StoreEntry.lowestReader (e : StoreEntry) : ℤ :=
  MemObject.lowestMemReader e.mem_obj.clients (e.object.length + 1)

namespace Invariant

variable {config : Config} {e : StoreEntry}

theorem lowestMemReaderOffset (inv : Invariant config e) :
    e.mem_obj.lowestMemReaderOffset = .ok e.lowestReader := by
  have bounded := inv.layout.bounded
  rw [MemObject.lowestMemReaderOffset, inv.endOffset, StoreEntry.lowestReader, Except.map,
    int64_eq (by omega) (by omega)]

theorem inmem_lo_le_lowestReader (inv : Invariant config e) :
    e.mem_obj.inmem_lo ≤ e.lowestReader := le_lowestMemReader inv.highest inv.clients

/-- The policy keeps what a memory client wants, and trims no less than before. -/
theorem policyLowestOffsetToKeep (inv : Invariant config e) (swap : Bool) :
    ∃ lowest, e.mem_obj.policyLowestOffsetToKeep config swap = .ok lowest ∧
      e.mem_obj.inmem_lo ≤ lowest ∧ lowest ≤ e.lowestReader := by
  have low := inv.inmem_lo_le_lowestReader
  rw [MemObject.policyLowestOffsetToKeep, inv.lowestMemReaderOffset]
  refine ⟨_, by rw [inv.endOffset]; rfl, ?_⟩
  dsimp only
  split
  · exact ⟨low, le_rfl⟩
  · exact ⟨le_rfl, low⟩

end Invariant

theorem objectBytesOnDisk_nonneg (mem : MemObject) : 0 ≤ mem.objectBytesOnDisk := by
  unfold MemObject.objectBytesOnDisk
  split
  · exact le_rfl
  · split <;> omega

/-- Without a file nothing is trimmed; with one, no more than is on disk. -/
theorem swappableLimit_spec {mem : MemObject} {new_mem_lo : ℤ} (nonneg : 0 ≤ new_mem_lo) :
    mem.swappableLimit new_mem_lo = min new_mem_lo (max 0 (mem.objectBytesOnDisk - 1)) := by
  have disk := objectBytesOnDisk_nonneg mem
  unfold MemObject.swappableLimit
  dsimp only
  generalize mem.objectBytesOnDisk = on_disk at disk ⊢
  split <;> split <;> omega

variable {config : Config} {e : StoreEntry}

theorem Invariant.trimUpto (inv : Invariant config e) {target : ℤ}
    (low : e.mem_obj.data_hdr.lowestOffset ≤ target) (high : target ≤ e.lowestReader)
    (disk : e.mem_obj.sio ≠ none → target ≤ max 0 (e.mem_obj.objectBytesOnDisk - 1))
    (kept : e.mem_obj.decision = .swPossible → target ≤ e.mem_obj.queue_offset) :
    ∃ hdr, e.mem_obj.trimUpto target =
        .ok { e.mem_obj with data_hdr := hdr, inmem_lo := target } ∧
      Invariant config
        { e with mem_obj := { e.mem_obj with data_hdr := hdr, inmem_lo := target } } ∧
      ∀ i, target ≤ i → hdr.bytes i = e.mem_obj.data_hdr.bytes i := by
  obtain ⟨hdr, count, result, wf, freed, low'⟩ :=
    @freeDataUpto_spec e.mem_obj.write_pending target _ inv.layout.wf inv.layout.packed low
  refine ⟨hdr, ?_, ?_, fun i above => freed.bytes_eq inv.layout.wf (.inl above)⟩
  · rw [MemObject.trimUpto, result]
  · refine { inv with
      layout := inv.layout.freed freed wf
      lowest := low'
      highest := high.trans (lowestMemReader_le_seed _ _)
      clients := fun offset member => high.trans (lowestMemReader_le member)
      disk := disk
      kept := fun decided => ⟨low'.trans (kept decided), ?_⟩
      fresh := ?_ }
    · intro p member
      dsimp only at member ⊢
      rw [freed.toList] at member
      rw [freed.heap]
      exact (inv.kept decided).2 p (List.mem_of_mem_drop member)
    · dsimp only
      rw [freed.fresh]
      exact inv.fresh

/-! ## Writing -/

/-- What writing does not change. -/
structure Keeps (e after : StoreEntry) : Prop where
  object : after.object = e.object
  store_status : after.store_status = e.store_status
  clients : after.mem_obj.clients = e.mem_obj.clients
  bytes : after.mem_obj.data_hdr.bytes = e.mem_obj.data_hdr.bytes

/-- What writing to one file does not change. -/
structure Continues (e after : StoreEntry) : Prop extends Keeps e after where
  lag : after.mem_obj.queue_offset - after.handed.length = e.mem_obj.queue_offset - e.handed.length

theorem Keeps.refl (e : StoreEntry) : Keeps e e := ⟨rfl, rfl, rfl, rfl⟩

variable {after middle : StoreEntry}

theorem Keeps.trans (first : Keeps e middle) (second : Keeps middle after) : Keeps e after :=
  ⟨second.object.trans first.object, second.store_status.trans first.store_status,
    second.clients.trans first.clients, second.bytes.trans first.bytes⟩

theorem Continues.refl (e : StoreEntry) : Continues e e := ⟨Keeps.refl e, rfl⟩

theorem Continues.trans (first : Continues e middle) (second : Continues middle after) :
    Continues e after :=
  ⟨first.toKeeps.trans second.toKeeps, second.lag.trans first.lag⟩

namespace Invariant

variable {config : Config} {e : StoreEntry}

/-- The file is closed. -/
theorem storeSwapOutFileClosed (inv : Invariant config e) (isOpen : e.mem_obj.sio ≠ none)
    (errflag : ℤ) :
    ∃ after, e.storeSwapOutFileClosed errflag = .ok after ∧ Invariant config after ∧
      Continues e after ∧ after.mem_obj.sio = none ∧ after.wroteAll = e.wroteAll ∧
      after.mem_obj.queue_offset = e.mem_obj.queue_offset ∧
      after.swap_status =
        if errflag ≠ 0 ∨ e.mem_obj.object_sz < 0 then .SWAPOUT_NONE else .SWAPOUT_DONE := by
  have result : e.storeSwapOutFileClosed errflag = .ok { e with
      swap_status := if errflag ≠ 0 ∨ e.mem_obj.object_sz < 0 then .SWAPOUT_NONE else .SWAPOUT_DONE
      mem_obj := { e.mem_obj with sio := none } } := by
    rw [StoreEntry.storeSwapOutFileClosed, if_neg isOpen,
      if_neg (not_not.mpr (inv.writing.mp isOpen))]
  refine ⟨_, result, ?_, ⟨⟨rfl, rfl, rfl, rfl⟩, rfl⟩, rfl, rfl, rfl, rfl⟩
  refine { inv with
    writing := ?_
    possible := fun absurd => (absurd rfl).elim
    disk := fun absurd => (absurd rfl).elim
    progress := fun _ absurd => by cases absurd }
  refine ⟨fun absurd => (absurd rfl).elim, ?_⟩
  dsimp only
  split <;> intro closed <;> cases closed

/-- The page at `queue_offset` is handed over. -/
theorem doPage (inv : Invariant config e) (isOpen : e.mem_obj.sio ≠ none)
    (more : e.mem_obj.queue_offset < e.object.length)
    (enough : e.store_status = .STORE_PENDING →
      SM_PAGE_SIZE ≤ e.object.length - e.mem_obj.queue_offset)
    (closes : Option ℤ) :
    ∃ middle, e.doPage closes = (middle.storeIOWrite closes).map (fun e => (true, e)) ∧
      Invariant config middle ∧ Continues e middle ∧ middle.mem_obj.sio = e.mem_obj.sio ∧
      middle.swap_status = e.swap_status ∧
      e.mem_obj.queue_offset < middle.mem_obj.queue_offset := by
  have decided := inv.possible isOpen
  obtain ⟨low, free⟩ := inv.kept decided
  have queue := inv.queue
  have bounded := inv.layout.bounded
  have aligned : (SM_PAGE_SIZE : ℤ) ∣ e.mem_obj.queue_offset := by
    rcases inv.aligned with divides | ⟨-, all⟩
    · exact divides
    · omega
  obtain ⟨page, hdr, found, reshaped, member, offset, good, positive, fits, full, data⟩ :=
    inv.layout.block low more aligned
  have heap : hdr.heap page = e.mem_obj.data_hdr.heap page := by rw [reshaped.heap]
  have idle := free page member offset.ge
  have next : int64 (e.mem_obj.queue_offset + (hdr.heap page).length) =
      e.mem_obj.queue_offset + (e.mem_obj.data_hdr.heap page).data.length := by
    rw [heap, good.length, int64_eq (by omega) (by omega)]
  have written : (hdr.heap page).data.take (hdr.heap page).length =
      (e.mem_obj.data_hdr.heap page).data := by
    rw [heap, good.length, List.take_length]
  refine ⟨{ e with
    mem_obj := { e.mem_obj with
      data_hdr := hdr
      queue_offset := e.mem_obj.queue_offset + (e.mem_obj.data_hdr.heap page).data.length
      write_pending := Function.update e.mem_obj.write_pending page true }
    handed := e.handed ++ (e.mem_obj.data_hdr.heap page).data }, ?_, ?_, ?_, rfl, rfl, ?_⟩
  · rw [StoreEntry.doPage, found]
    dsimp only
    rw [if_neg (by rw [heap]; exact not_not.mpr offset),
      if_neg (by rw [heap, good.length]; exact not_not.mpr positive), MemObject.NodeGet,
      if_neg (by simp [idle]), next, written]
    rfl
  · have inv' := inv.reshape reshaped
    refine { inv' with
      progress := ?_
      queue := ?_
      handed := ?_
      aligned := ?_
      kept := fun _ => ⟨?_, ?_⟩
      fresh := ?_
      undecided := ?_
      wroteAll := ?_ }
    · intro nwritten current
      have progress := inv.progress nwritten current
      dsimp only
      rw [List.length_append]
      omega
    · dsimp only
      omega
    · obtain ⟨before, split⟩ := inv.handed
      refine ⟨before, ?_⟩
      have whole : (e.mem_obj.queue_offset +
          (e.mem_obj.data_hdr.heap page).data.length : ℤ).toNat =
            e.mem_obj.queue_offset.toNat + (e.mem_obj.data_hdr.heap page).data.length := by omega
      dsimp only
      rw [whole, List.take_add, ← data, ← split, List.append_assoc]
    · dsimp only
      rcases full with full | last
      · left
        rw [full]
        exact Int.dvd_add aligned (Int.dvd_refl _)
      · cases status : e.store_status with
        | STORE_OK => exact .inr ⟨rfl, last⟩
        | STORE_PENDING =>
            left
            have large := enough status
            have small := good.page
            have all : (e.mem_obj.data_hdr.heap page).data.length = SM_PAGE_SIZE := by omega
            rw [all]
            exact Int.dvd_add aligned (Int.dvd_refl _)
    · dsimp only
      rw [reshaped.lowestOffset]
      omega
    · intro q present above
      dsimp only at present above ⊢
      rw [reshaped.toList] at present
      rw [reshaped.heap] at above
      have ne : q ≠ page := by
        rintro rfl
        omega
      rw [Function.update_of_ne ne]
      exact free q present (by omega)
    · intro q above
      dsimp only at above ⊢
      rw [reshaped.fresh] at above
      have before := inv.layout.wf.fresh page member
      rw [Function.update_of_ne (by omega)]
      exact inv.fresh q above
    · intro undecided
      dsimp only at undecided
      rw [decided] at undecided
      cases undecided
    · intro all
      have := (inv.wroteAll all).2
      omega
  · refine ⟨⟨rfl, rfl, rfl, reshaped.bytes⟩, ?_⟩
    dsimp only
    rw [List.length_append]
    omega
  · dsimp only
    omega

/-- A write that may close the file. -/
theorem storeIOWrite (inv : Invariant config e) (isOpen : e.mem_obj.sio ≠ none)
    (closes : Option ℤ) :
    ∃ after, e.storeIOWrite closes = .ok after ∧ Invariant config after ∧ Continues e after ∧
      (after.mem_obj.sio ≠ none ∧ after = e ∨ after.mem_obj.sio = none ∧ closes ≠ none) := by
  cases closes with
  | none => exact ⟨e, rfl, inv, Continues.refl e, .inl ⟨isOpen, rfl⟩⟩
  | some errflag =>
      obtain ⟨after, result, inv', continues, closed, -⟩ :=
        inv.storeSwapOutFileClosed isOpen errflag
      exact ⟨after, result, inv', continues, .inr ⟨closed, by simp⟩⟩

/-- The pages are handed over one by one, to the end if the object is complete. -/
theorem doPages {call : Call} {fuel writes : ℕ} (inv : Invariant config e)
    (isOpen : e.mem_obj.sio ≠ none) (more : e.mem_obj.queue_offset < e.object.length)
    (enough : e.store_status = .STORE_PENDING →
      SM_PAGE_SIZE ≤ e.object.length - e.mem_obj.queue_offset)
    (fuelled : (e.object.length - e.mem_obj.queue_offset).toNat < fuel) :
    ∃ after, StoreEntry.doPages call fuel writes e = .ok after ∧ Invariant config after ∧
      Continues e after ∧
      (after.mem_obj.sio ≠ none → after.store_status = .STORE_OK →
        after.mem_obj.queue_offset = after.object.length) ∧
      ((∀ n, call.closes n = none) → after.swap_status = e.swap_status) := by
  induction fuel generalizing e writes with
  | zero => omega
  | succ fuel ih =>
      obtain ⟨middle, result, inv', continues, same, status, advanced⟩ :=
        inv.doPage isOpen more enough (call.closes writes)
      obtain ⟨written, wrote, inv'', continues', outcome⟩ :=
        inv'.storeIOWrite (by rwa [same]) (call.closes writes)
      rw [StoreEntry.doPages, result, wrote]
      simp only [Except.map, Except.bind, not_true_eq_false, if_false]
      rcases outcome with ⟨stillOpen, rfl⟩ | ⟨closed, some⟩
      · have object := continues.object
        rw [if_neg (not_not.mpr (inv'.writing.mp stillOpen)), inv'.availableForSwapOut]
        dsimp only
        split
        · rename_i wait
          refine ⟨written, rfl, inv', continues, ?_, fun _ => status⟩
          intro _ complete
          rw [complete] at wait
          cases wait.1
        split
        · refine ⟨written, rfl, inv', continues, fun _ _ => ?_, fun _ => status⟩
          have := inv'.queue
          omega
        · rename_i waitless some
          obtain ⟨after, loop, last, continues'', complete, unclosed⟩ :=
            @ih written (writes + 1) inv' stillOpen (by omega)
              (fun pending => by
                by_contra small
                exact waitless ⟨pending, by omega⟩)
              (by rw [object] at some ⊢; omega)
          exact ⟨after, loop, last, continues.trans continues'', complete,
            fun never => (unclosed never).trans status⟩
      · rw [if_pos fun writing => inv''.writing.mpr writing closed]
        exact ⟨written, rfl, inv'', continues.trans continues',
          fun absurd => (absurd closed).elim, fun never => (some (never writes)).elim⟩

end Invariant

/-- One file, which has got everything up to `queue_offset`. -/
structure Tidy (e : StoreEntry) : Prop where
  handed : (e.handed.length : ℤ) = e.mem_obj.queue_offset
  unstarted : e.swap_status = .SWAPOUT_NONE → e.mem_obj.queue_offset = 0

/-- A call that would open a file. -/
structure Starts (call : Call) (e : StoreEntry) : Prop where
  none : e.swap_status = .SWAPOUT_NONE
  some : e.mem_obj.queue_offset < e.object.length
  large : e.store_status = .STORE_PENDING →
    SM_PAGE_SIZE ≤ e.object.length - e.mem_obj.queue_offset ∧ call.waitForFiles = false

/-- What a successful call leaves. -/
structure Wrote (config : Config) (call : Call) (e after : StoreEntry) : Prop where
  inv : Invariant config after
  keeps : Keeps e after
  tidy : (∀ n, call.closes n = none) → Tidy e → Tidy after

namespace Invariant

variable {config : Config} {call : Call} {e : StoreEntry}

section

variable (inv : Invariant config e)
include inv

/-- Nothing has been written. -/
theorem wrote : Wrote config call e e :=
  ⟨inv, Keeps.refl e, fun _ tidy => tidy⟩

theorem storeSwapOutStart (closed : e.mem_obj.sio = none) (idle : e.swap_status = .SWAPOUT_NONE)
    (whole : e.mem_obj.inmem_lo = 0) (decided : e.mem_obj.decision = .swPossible) :
    ∃ after, StoreEntry.storeSwapOutStart call e = .ok after ∧ Wrote config call e after ∧
      (after.mem_obj.sio ≠ none → after.mem_obj.queue_offset = e.mem_obj.queue_offset) := by
  unfold StoreEntry.storeSwapOutStart
  by_cases created : call.created = true
  · rw [if_pos created]
    have fresh : Invariant config { e with
        swap_status := .SWAPOUT_WRITING
        mem_obj := { e.mem_obj with swap_hdr_sz := call.swap_hdr_sz, sio := some 0 }
        handed := [] } := by
      refine { inv with
        writing := by simp
        possible := fun _ => decided
        disk := fun _ => ?_
        progress := ?_
        handed := List.nil_suffix }
      · dsimp only
        rw [whole]
        exact le_max_left _ _
      · intro nwritten start
        cases start
        dsimp only
        omega
    obtain ⟨after, result, inv', continues, outcome⟩ := fresh.storeIOWrite (by simp) (call.closes 0)
    refine ⟨after, result, ⟨inv', ⟨continues.object, continues.store_status, continues.clients,
      continues.bytes⟩, ?_⟩, ?_⟩
    · intro never tidy
      rcases outcome with ⟨-, rfl⟩ | ⟨-, some⟩
      · exact ⟨(tidy.unstarted idle).symm, fun absurd => by cases absurd⟩
      · exact (some (never 0)).elim
    · intro isOpen
      rcases outcome with ⟨-, rfl⟩ | ⟨none, -⟩
      · rfl
      · exact (isOpen none).elim
  · rw [if_neg created]
    refine ⟨_, rfl, ⟨?_, ⟨rfl, rfl, rfl, rfl⟩, ?_⟩, fun isOpen => (isOpen closed).elim⟩
    · refine { inv with
        writing := by simp [closed]
        possible := fun isOpen => (isOpen closed).elim
        disk := fun isOpen => (isOpen closed).elim
        progress := by simp [closed]
        kept := fun absurd => by cases absurd
        undecided := fun absurd => by cases absurd
        configured := fun absurd => by cases absurd }
    · intro _ tidy
      exact ⟨tidy.handed, fun _ => tidy.unstarted idle⟩

/-- The file is asked to close once it has got everything. -/
theorem swapOutFileClose (complete : e.store_status = .STORE_OK)
    (all : e.mem_obj.queue_offset = e.object.length) : Wrote config call e e.swapOutFileClose := by
  unfold StoreEntry.swapOutFileClose
  split
  · exact inv.wrote
  · exact ⟨{ inv with wroteAll := fun _ => ⟨complete, all⟩ }, ⟨rfl, rfl, rfl, rfl⟩,
      fun _ tidy => ⟨tidy.handed, tidy.unstarted⟩⟩

theorem object_sz_nonneg (complete : e.store_status = .STORE_OK) : 0 ≤ e.mem_obj.object_sz := by
  rw [inv.size, if_pos complete]
  omega

end

end Invariant

theorem Wrote.trans {call : Call} (first : Wrote config call e middle)
    (second : Wrote config call middle after) : Wrote config call e after :=
  ⟨second.inv, first.keeps.trans second.keeps,
    fun never tidy => second.tidy never (first.tidy never tidy)⟩

theorem Continues.wrote {call : Call} (continues : Continues e after) (inv : Invariant config after)
    (status : (∀ n, call.closes n = none) → after.swap_status = e.swap_status)
    (started : e.swap_status ≠ .SWAPOUT_NONE) : Wrote config call e after := by
  refine ⟨inv, continues.toKeeps, fun never tidy => ⟨?_, fun none => ?_⟩⟩
  · have lag := continues.lag
    have handed := tidy.handed
    omega
  · rw [status never] at none
    exact (started none).elim

namespace Invariant

variable {config : Config} {call : Call} {e : StoreEntry}

/-- With the file open, the pages are handed over. -/
theorem swapOutOpen (inv : Invariant config e) (isOpen : e.mem_obj.sio ≠ none)
    (more : e.mem_obj.queue_offset < e.object.length)
    (enough : e.store_status = .STORE_PENDING →
      SM_PAGE_SIZE ≤ e.object.length - e.mem_obj.queue_offset) :
    ∃ after, ((StoreEntry.doPages call ((e.object.length - e.mem_obj.queue_offset).toNat + 1) 1
      e).bind fun e =>
        if e.mem_obj.sio = none then .ok e
        else if e.store_status = .STORE_OK then
          if ¬ 0 ≤ e.mem_obj.object_sz then .error .swapOut
          else
            e.mem_obj.endOffset.bind fun endOffset =>
              if endOffset ≠ e.mem_obj.queue_offset then .error .swapOut
              else .ok e.swapOutFileClose
        else .ok e) = .ok after ∧ Wrote config call e after := by
  obtain ⟨after, result, inv', continues, all, status⟩ :=
    @Invariant.doPages config e call _ 1 inv isOpen more enough (Nat.lt_succ_self _)
  have wrote := continues.wrote inv' status (by rw [inv.writing.mp isOpen]; simp)
  rw [result, Except.bind]
  by_cases closed : after.mem_obj.sio = none
  · rw [if_pos closed]
    exact ⟨after, rfl, wrote⟩
  rw [if_neg closed]
  by_cases complete : after.store_status = .STORE_OK
  · have last := all closed complete
    rw [if_pos complete, if_neg (not_not.mpr (inv'.object_sz_nonneg complete)), inv'.endOffset,
      Except.bind, if_neg (not_not.mpr last.symm)]
    exact ⟨_, rfl, wrote.trans (inv'.swapOutFileClose complete last)⟩
  · rw [if_neg complete]
    exact ⟨after, rfl, wrote⟩

/-- `swapOut` from the place where there is something to write. -/
theorem swapOutSome (inv : Invariant config e) (decided : e.mem_obj.decision = .swPossible)
    (more : e.mem_obj.queue_offset < e.object.length)
    (enough : e.store_status = .STORE_PENDING →
      SM_PAGE_SIZE ≤ e.object.length - e.mem_obj.queue_offset) :
    Outcome
      (fun after => Wrote config call e after ∧
        (e.swap_status = .SWAPOUT_NONE → e.mem_obj.inmem_lo = 0))
      (fun fault => fault = .swapOut ∧ e.swap_status = .SWAPOUT_NONE ∧ e.mem_obj.inmem_lo ≠ 0)
      (StoreEntry.swapOutSome call (e.object.length - e.mem_obj.queue_offset) e) := by
  unfold StoreEntry.swapOutSome
  by_cases idle : e.swap_status = .SWAPOUT_NONE
  · have closed : e.mem_obj.sio = none := by
      by_contra isOpen
      rw [inv.writing.mp isOpen] at idle
      cases idle
    rw [if_pos idle, if_neg (not_not.mpr closed)]
    by_cases whole : e.mem_obj.inmem_lo = 0
    · rw [if_neg (not_not.mpr whole)]
      obtain ⟨started, result, wrote, queue⟩ := inv.storeSwapOutStart closed idle whole decided
      rw [result, Except.bind]
      by_cases failed : started.mem_obj.sio = none
      · rw [if_pos failed]
        exact ⟨wrote, fun _ => whole⟩
      · rw [if_neg failed]
        have object := wrote.keeps.object
        have status := wrote.keeps.store_status
        have same := queue failed
        rw [← object, ← same] at more enough ⊢
        rw [← status] at enough
        obtain ⟨after, result', wrote'⟩ := wrote.inv.swapOutOpen failed more enough
        rw [result']
        exact ⟨wrote.trans wrote', fun _ => whole⟩
    · rw [if_pos whole]
      exact ⟨rfl, idle, whole⟩
  · rw [if_neg idle, Except.bind]
    by_cases closed : e.mem_obj.sio = none
    · rw [if_pos closed]
      exact ⟨inv.wrote, fun none => (idle none).elim⟩
    · rw [if_neg closed]
      obtain ⟨after, result, wrote⟩ := inv.swapOutOpen closed more enough
      rw [result]
      exact ⟨wrote, fun none => (idle none).elim⟩

/-- `swapOut` from the decision on dies only where a file would be opened after trimming. -/
theorem swapOutPossible (inv : Invariant config e) :
    Outcome
      (fun after => Wrote config call e after ∧
        (e.mem_obj.decision = .swPossible → Starts call e → e.mem_obj.inmem_lo = 0))
      (fun fault => fault = .swapOut ∧ e.mem_obj.decision = .swPossible ∧ Starts call e ∧
        e.mem_obj.inmem_lo ≠ 0)
      (e.swapOutPossible call) := by
  unfold StoreEntry.swapOutPossible
  by_cases decided : e.mem_obj.decision = .swPossible
  · have disk : ¬ (e.swap_status = .SWAPOUT_WRITING ∧
        ¬ e.mem_obj.inmem_lo ≤ e.mem_obj.objectBytesOnDisk) := by
      rintro ⟨writing, beyond⟩
      have trimmed := inv.disk (inv.writing.mpr writing)
      have nonneg := objectBytesOnDisk_nonneg e.mem_obj
      omega
    have queue := inv.queue
    rw [if_neg (not_not.mpr decided), if_neg disk, inv.availableForSwapOut, Except.bind,
      if_neg (by omega)]
    by_cases nothing : (e.object.length - e.mem_obj.queue_offset : ℤ) = 0
    · rw [if_pos nothing]
      by_cases complete : e.store_status = .STORE_OK
      · rw [if_pos complete, if_neg (not_not.mpr (inv.object_sz_nonneg complete))]
        exact ⟨inv.swapOutFileClose complete (by omega), fun _ starts => by
          have := starts.some
          omega⟩
      · rw [if_neg complete]
        exact ⟨inv.wrote, fun _ starts => by
          have := starts.some
          omega⟩
    rw [if_neg nothing]
    by_cases small : e.store_status = .STORE_PENDING ∧
        (e.object.length - e.mem_obj.queue_offset : ℤ) < SM_PAGE_SIZE
    · rw [if_pos small]
      exact ⟨inv.wrote, fun _ starts => by
        have := (starts.large small.1).1
        omega⟩
    rw [if_neg small]
    by_cases wait : e.store_status = .STORE_PENDING ∧ call.waitForFiles = true
    · rw [if_pos wait]
      exact ⟨inv.wrote, fun _ starts => by
        have := (starts.large wait.1).2
        rw [wait.2] at this
        cases this⟩
    rw [if_neg wait]
    have enough : e.store_status = .STORE_PENDING →
        SM_PAGE_SIZE ≤ e.object.length - e.mem_obj.queue_offset := fun pending => by
      by_contra less
      exact small ⟨pending, by omega⟩
    refine (inv.swapOutSome decided (by omega) enough).imp
      (fun _ wrote => ⟨wrote.1, fun _ starts => wrote.2 starts.none⟩) ?_
    rintro fault ⟨rfl, idle, trimmed⟩
    refine ⟨rfl, decided, ⟨idle, by omega, fun pending => ⟨enough pending, ?_⟩⟩, trimmed⟩
    by_contra waits
    exact wait ⟨pending, by simpa using waits⟩
  · rw [if_pos decided]
    exact ⟨inv.wrote, fun possible => (decided possible).elim⟩

end Invariant

end Swap
end Squid
