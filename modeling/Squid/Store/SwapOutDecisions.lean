import Squid.Library.Outcome
import Squid.Store.SwapOut

/-!
# What is decided about a swap-out

The sizes and the status of an entry change when it is completed only, and its swap-out is found
possible by one function only, on grounds that are collected here.
-/

namespace Squid

open CRuntime

namespace Swap

/-- The size and the status stay, and nothing is found possible that was not before. -/
structure Same (e after : StoreEntry) : Prop where
  object_sz : after.mem_obj.object_sz = e.mem_obj.object_sz
  store_status : after.store_status = e.store_status
  possible : after.mem_obj.decision = .swPossible → e.mem_obj.decision = .swPossible

namespace Same

theorem refl (e : StoreEntry) : Same e e := ⟨rfl, rfl, id⟩

theorem trans {e middle after : StoreEntry} (first : Same e middle) (second : Same middle after) :
    Same e after :=
  ⟨second.object_sz.trans first.object_sz, second.store_status.trans first.store_status,
    fun possible => first.possible (second.possible possible)⟩

end Same

/-- An entry that a computation gives, if it gives one, is the same. -/
def Leaves (e : StoreEntry) : Except Fault StoreEntry → Prop := Outcome (Same e) fun _ => True

namespace Leaves

variable {e : StoreEntry}

variable {x : Except Fault StoreEntry}

theorem bind {f : StoreEntry → Except Fault StoreEntry} (first : Leaves e x)
    (second : ∀ middle, Leaves middle (f middle)) : Leaves e (x.bind f) :=
  Outcome.bind first fun middle same => (second middle).mono fun _ => same.trans

/-- What is computed first does not change the entry. -/
theorem bind_any {α : Type} (x : Except Fault α) {f : α → Except Fault StoreEntry}
    (second : ∀ a, Leaves e (f a)) : Leaves e (x.bind f) :=
  Outcome.bind (Outcome.any x) fun a _ => second a

theorem storeSwapOutFileClosed (errflag : ℤ) : Leaves e (e.storeSwapOutFileClosed errflag) := by
  unfold StoreEntry.storeSwapOutFileClosed
  split
  · trivial
  · split
    · trivial
    · exact ⟨rfl, rfl, id⟩

theorem storeIOWrite {middle : StoreEntry} (same : Same e middle) (closes : Option ℤ) :
    Leaves e (middle.storeIOWrite closes) := by
  cases closes with
  | none => exact same
  | some errflag => exact (storeSwapOutFileClosed errflag).mono fun _ => same.trans

theorem paired (leaves : Leaves e x) (flag : Bool) :
    Outcome (fun done => Same e done.2) (fun _ => True) (x.map fun after => (flag, after)) := by
  cases x with
  | error fault => trivial
  | ok after => exact leaves

/-- `NodeGet` marks a page only. -/
theorem nodeGet (mem : MemObject) (page : ℕ) :
    Outcome (fun after => after.object_sz = mem.object_sz ∧ after.decision = mem.decision)
      (fun _ => True) (mem.NodeGet page) := by
  unfold MemObject.NodeGet
  split
  · trivial
  · exact ⟨rfl, rfl⟩

theorem doPage (closes : Option ℤ) :
    Outcome (fun done => Same e done.2) (fun _ => True) (e.doPage closes) := by
  unfold StoreEntry.doPage
  split
  · exact ⟨rfl, rfl, id⟩
  · split
    · trivial
    · split
      · trivial
      · refine Outcome.bind (nodeGet _ _) fun mem_obj kept => ?_
        have same (handed : Bytes) : Same e { e with mem_obj, handed } :=
          ⟨kept.1, rfl, fun possible => kept.2.symm.trans possible⟩
        exact paired (storeIOWrite (same _) closes) true

theorem doPages (call : Call) (fuel writes : ℕ) : Leaves e (e.doPages call fuel writes) := by
  induction fuel generalizing e writes with
  | zero => exact Same.refl e
  | succ fuel ih =>
      unfold StoreEntry.doPages
      refine Outcome.bind (doPage (call.closes writes)) fun done same => ?_
      obtain ⟨wrote, middle⟩ := done
      dsimp only
      split
      · exact same
      · split
        · exact same
        · refine bind_any _ fun swapout_size => ?_
          split
          · exact same
          · split
            · exact same
            · exact (ih (writes + 1)).mono fun _ => same.trans

theorem swapOutFileClose : Same e e.swapOutFileClose := by
  unfold StoreEntry.swapOutFileClose
  split
  · exact Same.refl e
  · exact ⟨rfl, rfl, id⟩

theorem storeSwapOutStart (call : Call) : Leaves e (e.storeSwapOutStart call) := by
  unfold StoreEntry.storeSwapOutStart
  split
  · refine storeIOWrite ?_ (call.closes 0)
    exact ⟨rfl, rfl, id⟩
  · exact ⟨rfl, rfl, by simp⟩

theorem swapOutSome (call : Call) (swapout_maxsize : ℤ) :
    Leaves e (e.swapOutSome call swapout_maxsize) := by
  unfold StoreEntry.swapOutSome
  refine bind ?_ fun started => ?_
  · split
    · split
      · trivial
      · split
        · trivial
        · exact storeSwapOutStart call
    · exact Same.refl e
  · split
    · exact Same.refl started
    · refine bind (doPages call _ 1) fun written => ?_
      split
      · exact Same.refl written
      · split
        · split
          · trivial
          · refine bind_any _ fun endOffset => ?_
            split
            · trivial
            · exact swapOutFileClose
        · exact Same.refl written

theorem swapOutPossible (call : Call) : Leaves e (e.swapOutPossible call) := by
  unfold StoreEntry.swapOutPossible
  split
  · exact Same.refl e
  · split
    · trivial
    · refine bind_any _ fun swapout_maxsize => ?_
      split
      · trivial
      · split
        · split
          · split
            · trivial
            · exact swapOutFileClose
          · exact Same.refl e
        · split
          · exact Same.refl e
          · split
            · exact Same.refl e
            · exact swapOutSome call swapout_maxsize

theorem trimUpto (mem : MemObject) (new_mem_lo : ℤ) :
    Outcome (fun after => after.object_sz = mem.object_sz ∧ after.decision = mem.decision)
      (fun _ => True) (mem.trimUpto new_mem_lo) := by
  unfold MemObject.trimUpto
  split
  · exact ⟨rfl, rfl⟩
  · trivial

theorem map_mem {x : Except Fault MemObject}
    (kept : Outcome (fun after => after.object_sz = e.mem_obj.object_sz ∧
      after.decision = e.mem_obj.decision) (fun _ => True) x) :
    Leaves e (x.map fun mem_obj => { e with mem_obj }) := by
  cases x with
  | error fault => trivial
  | ok mem_obj => exact ⟨kept.1, rfl, fun possible => kept.2.symm.trans possible⟩

theorem maybeTrimMemory (config : Config) (call : Call) (preserveSwappable : Bool) :
    Leaves e (e.maybeTrimMemory config call preserveSwappable) := by
  unfold StoreEntry.maybeTrimMemory StoreEntry.trimMemory
  split
  · exact Same.refl e
  · split
    · exact Same.refl e
    · split
      · exact Same.refl e
      · split
        · refine bind_any _ fun lowest => ?_
          split
          · exact Same.refl e
          · refine map_mem ?_
            refine Outcome.bind (Outcome.any _) fun new_mem_lo _ => ?_
            split
            · exact trimUpto _ _
            · trivial
        · exact map_mem (Outcome.bind (Outcome.any _) fun new_mem_lo _ => trimUpto _ _)

end Leaves

/-- What is known when the swap-out of an entry is found possible. -/
structure FoundPossible (config : Config) (call : Call) (e : StoreEntry) : Prop where
  checkCachable : call.checkCachable
  special : ¬ call.special
  /-- The size is known, the object is complete, or there is no limit. -/
  size : 0 ≤ config.store_maxobjsize →
    0 ≤ e.mem_obj.expectedReplySize call.promisedSize ∨ e.store_status = .STORE_OK

/-- The decision about an entry changes nothing else. -/
structure Decides (config : Config) (call : Call) (e after : StoreEntry) : Prop where
  object_sz : after.mem_obj.object_sz = e.mem_obj.object_sz
  store_status : after.store_status = e.store_status
  possible : after.mem_obj.decision = .swPossible →
    e.mem_obj.decision = .swPossible ∨ FoundPossible config call e

variable {config : Config}

variable {call : Call}

theorem Decides.impossible (e : StoreEntry) : Decides config call e (e.decide .swImpossible) :=
  ⟨rfl, rfl, by simp [StoreEntry.decide]⟩

variable {e : StoreEntry}

theorem checkMaxSize_decides (checkCachable : call.checkCachable) (special : ¬ call.special) :
    Outcome (fun done => Decides config call e done.2) (fun _ => True)
      (e.checkMaxSize config call) := by
  unfold StoreEntry.checkMaxSize
  split
  · dsimp only
    split
    · exact Decides.impossible e
    · cases e.mem_obj.endOffset with
      | error fault => trivial
      | ok currentEnd =>
          change Decides config call e (ite _ _ _ : Bool × StoreEntry).2
          split
          · exact Decides.impossible e
          · split
            · exact ⟨rfl, rfl, .inl⟩
            · next known =>
                refine ⟨rfl, rfl, fun _ => .inr ⟨checkCachable, special, fun _ => ?_⟩⟩
                rw [not_and_or, not_lt, not_not] at known
                exact known
  · next unlimited =>
      exact ⟨rfl, rfl, fun _ => .inr ⟨checkCachable, special,
        fun limited => absurd limited unlimited⟩⟩

theorem mayStartSwapOut_decides (config : Config) (call : Call) (e : StoreEntry) :
    Outcome (fun done => Decides config call e done.2) (fun _ => True)
      (e.mayStartSwapOut config call) := by
  unfold StoreEntry.mayStartSwapOut
  split
  · exact ⟨rfl, rfl, .inl⟩
  · split
    · exact ⟨rfl, rfl, .inl⟩
    · split
      · exact ⟨rfl, rfl, .inl⟩
      · split
        · exact Decides.impossible e
        · split
          · exact Decides.impossible e
          · next cachable =>
              split
              · exact Decides.impossible e
              · next plain =>
                  split
                  · exact Decides.impossible e
                  · have same : Outcome (fun done => done.2.object_sz = e.mem_obj.object_sz ∧
                        done.2.decision = e.mem_obj.decision) (fun _ => True)
                        e.mem_obj.isContiguous := by
                      unfold MemObject.isContiguous
                      cases e.mem_obj.endOffset with
                      | error fault => trivial
                      | ok endOffset => exact ⟨rfl, rfl⟩
                    refine Outcome.bind same fun done kept => ?_
                    obtain ⟨contiguous, mem_obj⟩ := done
                    dsimp only at kept ⊢
                    split
                    · have checked := @checkMaxSize_decides config call { e with mem_obj }
                        (by simpa using cachable) plain
                      refine checked.mono fun done decides => ?_
                      refine ⟨decides.object_sz.trans kept.1, decides.store_status, fun found => ?_⟩
                      rcases decides.possible found with already | new
                      · exact .inl (kept.2.symm.trans already)
                      · refine .inr ⟨new.checkCachable, new.special, fun limited => ?_⟩
                        have size := new.size limited
                        unfold MemObject.expectedReplySize at size ⊢
                        rw [← kept.1]
                        exact size
                    · exact ⟨kept.1, rfl, by simp [StoreEntry.decide]⟩

theorem Decides.leaves {middle : StoreEntry} (decides : Decides config call e middle)
    {x : Except Fault StoreEntry} (leaves : Leaves middle x) :
    Outcome (Decides config call e) (fun _ => True) x :=
  leaves.mono fun _ same =>
    ⟨same.object_sz.trans decides.object_sz, same.store_status.trans decides.store_status,
      fun found => decides.possible (same.possible found)⟩

theorem swapOut_decides (config : Config) (call : Call) (e : StoreEntry) :
    Outcome (Decides config call e) (fun _ => True) (e.swapOut config call) := by
  unfold StoreEntry.swapOut
  have first : Outcome (fun done => Decides config call e done.2) (fun _ => True)
      (if e.swap_status = .SWAPOUT_WRITING then .ok (true, e)
        else e.mayStartSwapOut config call) := by
    split
    · exact ⟨rfl, rfl, .inl⟩
    · exact mayStartSwapOut_decides config call e
  refine Outcome.bind first fun done decides => ?_
  obtain ⟨weAreOrMayBeSwappingOut, middle⟩ := done
  exact decides.leaves
    (Leaves.bind (Leaves.maybeTrimMemory config call _) fun trimmed => Leaves.swapOutPossible call)

theorem endOffset_lt (hdr : Mem.MemHdr) :
    Outcome (fun endOffset : ℤ => endOffset < 2 ^ 63) (fun _ => True) hdr.endOffset := by
  unfold Mem.MemHdr.endOffset
  dsimp only
  split
  · split
    · exact (int64_mem _).2
    · trivial
  · split
    · exact (by decide : (0 : ℤ) < 2 ^ 63)
    · trivial

/-- The end of an object is a number of type `int64_t`. -/
theorem complete_outcome (e : StoreEntry) :
    Outcome (fun after => after.mem_obj.object_sz < 2 ^ 63 ∧ after.store_status = .STORE_OK ∧
      after.mem_obj.decision = e.mem_obj.decision) (fun _ => True) e.complete := by
  have small := endOffset_lt e.mem_obj.data_hdr
  unfold StoreEntry.complete MemObject.endOffset
  revert small
  cases e.mem_obj.data_hdr.endOffset with
  | error fault => exact fun _ => trivial
  | ok endOffset => exact fun small => ⟨small, rfl, rfl⟩

/-- The events between creation, completion and decision. -/
theorem handle_leaves {event : Event} {result : Except Fault StoreEntry}
    (incomplete : event ≠ .complete) (undecided : ∀ call, event ≠ .swapOut call)
    (occurs : e.handle config event = some result) : Leaves e result := by
  cases event with
  | complete => exact absurd rfl incomplete
  | swapOut call => exact absurd rfl (undecided call)
  | append data =>
      simp only [StoreEntry.handle, Option.ite_none_right_eq_some, Option.some.injEq] at occurs
      rw [← occurs.2]
      unfold StoreEntry.append
      refine Leaves.bind_any _ fun endOffset => ?_
      split
      · exact ⟨rfl, rfl, id⟩
      · trivial
  | progress offset =>
      simp only [StoreEntry.handle] at occurs
      split at occurs
      · cases occurs
      · split at occurs
        · cases occurs
          exact ⟨rfl, rfl, id⟩
        · cases occurs
  | memNodeWriteComplete page =>
      simp only [StoreEntry.handle, Option.ite_none_right_eq_some, Option.some.injEq] at occurs
      rw [← occurs.2]
      exact ⟨rfl, rfl, id⟩
  | storeSwapOutFileClosed errflag =>
      simp only [StoreEntry.handle] at occurs
      split at occurs
      · cases occurs
      · cases occurs
        exact Leaves.storeSwapOutFileClosed errflag
  | storeClientListAdd =>
      simp only [StoreEntry.handle, Option.ite_none_right_eq_some, Option.some.injEq] at occurs
      rw [← occurs.2]
      exact ⟨rfl, rfl, id⟩
  | copy client offset =>
      simp only [StoreEntry.handle] at occurs
      split at occurs
      · cases occurs
      · split at occurs
        · cases occurs
          exact ⟨rfl, rfl, id⟩
        · cases occurs
  | storeUnregister client =>
      simp only [StoreEntry.handle, Option.some.injEq] at occurs
      rw [← occurs]
      exact ⟨rfl, rfl, id⟩

end Swap

end Squid
