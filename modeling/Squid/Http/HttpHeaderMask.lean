import Squid.Http.HttpHeaderRun

/-!
# The mask of a header

In every header that is reached, a bit of the mask is set exactly where an entry is live: each
operation restores the mask in its own way, and lookups that trust it find what it promises.
-/

namespace Squid
namespace HttpHeader

open CRuntime List

/-- A bit of the mask is set where an entry is live. -/
def MaskExact (h : HttpHeader) : Prop := ∀ id, h.mask id = true ↔ ∃ e ∈ h.live, e.id = id

/-! ## Bits -/

variable {id : HdrType} {mask : HdrType → Bool}

variable {bit : HdrType}

theorem setBit_eq_true : setBit mask id bit = true ↔ id = bit ∨ mask bit = true := by
  by_cases same : id = bit
  · simp [setBit, same]
  · simp [setBit, same, Ne.symm same]

theorem clearBit_eq_true : clearBit mask id bit = true ↔ id ≠ bit ∧ mask bit = true := by
  by_cases same : id = bit
  · simp [clearBit, same]
  · simp [clearBit, same, Ne.symm same]

theorem bitsAfter_cons (del : HttpHeaderEntry → Bool)
    (gone kept : (HdrType → Bool) → HdrType → HdrType → Bool) (e : HttpHeaderEntry)
    (entries : List HttpHeaderEntry) (mask : HdrType → Bool) :
    bitsAfter del gone kept (e :: entries) mask =
      bitsAfter del gone kept entries (if del e then gone mask e.id else kept mask e.id) := rfl

/-- A loop that does not touch the mask. -/
theorem bitsAfter_same (del : HttpHeaderEntry → Bool) (entries : List HttpHeaderEntry)
    (mask : HdrType → Bool) : bitsAfter del sameBits sameBits entries mask = mask := by
  induction entries with
  | nil => rfl
  | cons e entries ih => simp [bitsAfter_cons, sameBits, ih]

/-- A loop that sets the bits of the entries it keeps. -/
theorem bitsAfter_set {del : HttpHeaderEntry → Bool} {entries : List HttpHeaderEntry}
    {mask : HdrType → Bool} {id : HdrType} :
    bitsAfter del sameBits setBit entries mask id = true ↔
      mask id = true ∨ ∃ e ∈ entries, del e = false ∧ e.id = id := by
  induction entries generalizing mask with
  | nil => simp [bitsAfter]
  | cons e entries ih =>
      rw [bitsAfter_cons, ih, exists_mem_cons_iff]
      cases deleted : del e with
      | true => simp [sameBits]
      | false => simp [setBit_eq_true, or_assoc, or_left_comm]

variable {del : HttpHeaderEntry → Bool}

/-- A loop that clears the bits of the entries it deletes. -/
theorem bitsAfter_clear {entries : List HttpHeaderEntry} :
    bitsAfter del clearBit sameBits entries mask id = true ↔
      mask id = true ∧ ∀ e ∈ entries, del e = true → e.id ≠ id := by
  induction entries generalizing mask with
  | nil => simp [bitsAfter]
  | cons e entries ih =>
      rw [bitsAfter_cons, ih, forall_mem_cons]
      cases deleted : del e with
      | true => simp [clearBit_eq_true, and_assoc, and_left_comm]
      | false => simp [sameBits]

theorem refreshMask_exact (h : HttpHeader) : h.refreshMask.MaskExact := by
  intro id
  have bits := @bitsAfter_set (fun _ => false) h.live (fun _ => false) id
  simpa [bitsAfter, refreshMask, live] using bits

/-! ## Adding an entry -/

variable {h : HttpHeader}

variable {e : HttpHeaderEntry}

theorem MaskExact.addEntry (exact : h.MaskExact) :
    Outcome MaskExact (· ≠ .missing) (h.addEntry e) := by
  unfold HttpHeader.addEntry
  split
  · exact Outcome.error (by simp)
  · intro id
    rw [setBit_eq_true, exact id]
    simp [live, reduceOption_append, or_and_right, exists_or, or_comm]

theorem MaskExact.insertEntry (exact : h.MaskExact) : (h.insertEntry e).MaskExact := by
  intro id
  show setBit h.mask e.id id = true ↔ ∃ other ∈ e :: h.live, other.id = id
  rw [setBit_eq_true, exact id, exists_mem_cons_iff]

/-! ## Deleting entries -/

/-- A loop over the whole header can only stop at the length. -/
theorem delLoop_all (del : HttpHeaderEntry → Bool)
    (gone kept : (HdrType → Bool) → HdrType → HdrType → Bool) (h : HttpHeader) :
    Outcome (Deleted del gone kept [] h.entries h 0) (· ≠ .missing)
      (delLoop del gone kept h.entries 0 h 0) := by
  refine (delLoop_outcome del gone kept [] h.entries h 0 rfl).imp (fun _ deleted => deleted) ?_
  rintro _ ⟨rfl, -⟩
  simp

/-- The entries that a loop over the whole header leaves. -/
theorem Deleted.live {gone kept : (HdrType → Bool) → HdrType → HdrType → Bool} {count : ℕ}
    {result : HttpHeader × ℕ} (deleted : Deleted del gone kept [] h.entries h count result) :
    result.1.live = h.live.filter fun e => !del e := by
  rw [HttpHeader.live, deleted.entries, List.nil_append, reduceOption_without, HttpHeader.live]

theorem MaskExact.delById (id : HdrType) (exact : h.MaskExact) :
    Outcome (fun result => result.1.MaskExact) (· ≠ .missing) (h.delById id) := by
  unfold HttpHeader.delById
  split
  · exact Outcome.error (by simp)
  · split
    · exact exact
    · rename_i present
      obtain ⟨e, member, same⟩ : ∃ e ∈ h.live, e.id = id := (exact id).1 (by simpa using present)
      apply (delLoop_all (·.id = id) sameBits sameBits h).bind
      rintro ⟨after, count⟩ deleted
      have some : count ≠ 0 := by
        have number := deleted.count
        have met : 0 < h.entries.reduceOption.countP fun e => decide (e.id = id) :=
          countP_pos_iff.2 ⟨e, member, decide_eq_true same⟩
        dsimp only at number
        omega
      have left := deleted.live
      have mask := deleted.mask
      rw [bitsAfter_same] at mask
      dsimp only at mask left ⊢
      rw [if_neg some]
      intro bit
      show clearBit after.mask id bit = true ↔ ∃ e ∈ after.live, e.id = bit
      rw [clearBit_eq_true, mask, exact bit, left]
      constructor
      · rintro ⟨other, e, live, rfl⟩
        exact ⟨e, mem_filter.2 ⟨live, by simpa using Ne.symm other⟩, rfl⟩
      · rintro ⟨e, live, rfl⟩
        obtain ⟨live, other⟩ := mem_filter.1 live
        exact ⟨fun same => by simp [same] at other, e, live, rfl⟩

/-- Deleting by name rebuilds the mask, whatever it was. -/
theorem delByName_exact (h : HttpHeader) (name : Bytes) :
    Outcome (fun result => result.1.MaskExact) (· ≠ .missing) (h.delByName name) := by
  refine (delLoop_all _ sameBits setBit { h with mask := fun _ => false }).mono ?_
  intro result deleted bit
  rw [deleted.mask, bitsAfter_set, deleted.live]
  simp [mem_filter, and_assoc, live]

theorem MaskExact.findEntry (id : HdrType) (exact : h.MaskExact) :
    Outcome (fun _ => True) (· ≠ .missing) (h.findEntry id) := by
  unfold HttpHeader.findEntry
  split
  · exact Outcome.error (by simp)
  · split
    · exact trivial
    · rename_i present
      obtain ⟨e, member, same⟩ : ∃ e ∈ h.live, e.id = id := (exact id).1 (by simpa using present)
      split
      · exact trivial
      · rename_i absent
        exact absurd (decide_eq_true same) (by simpa using List.find?_eq_none.1 absent e member)

theorem MaskExact.findLastEntry (id : HdrType) (exact : h.MaskExact) :
    Outcome (fun _ => True) (· ≠ .missing) (h.findLastEntry id) := by
  unfold HttpHeader.findLastEntry
  split
  · exact Outcome.error (by simp)
  · split
    · exact trivial
    · rename_i present
      obtain ⟨e, member, same⟩ : ∃ e ∈ h.live, e.id = id := (exact id).1 (by simpa using present)
      split
      · exact trivial
      · rename_i absent
        have kept : e ∈ h.live.filter (·.id = id) := mem_filter.2 ⟨member, decide_eq_true same⟩
        rw [List.getLast?_eq_none_iff.1 absent] at kept
        cases kept

/-- The rules of the mask. -/
theorem maskRules : Rules (fun _ => MaskExact) (· ≠ .missing) where
  refused := by rintro a (rfl | rfl) <;> simp
  mono := id
  empty := by simp [MaskExact, empty, live]
  addEntry := MaskExact.addEntry
  insertEntry := MaskExact.insertEntry
  findEntry := MaskExact.findEntry
  delById := MaskExact.delById
  delByName := fun name _ => delByName_exact _ name

theorem MaskExact.removeConnectionHeaderEntries (exact : h.MaskExact) :
    Outcome MaskExact (· ≠ .missing) h.removeConnectionHeaderEntries := by
  unfold HttpHeader.removeConnectionHeaderEntries HttpHeader.has
  simp only [reduceCtorEq, if_false]
  show Outcome _ _ (if h.mask .connection = true then _ else _)
  split
  · apply ((getList_outcome h _).imp (fun _ done => done) maskRules.refused).bind
    intro strConnection _
    apply (delLoop_all (fun e => strListIsMember strConnection e.name 44) sameBits sameBits h).bind
    rintro ⟨after, count⟩ deleted
    dsimp only
    show MaskExact (if count = 0 then after else after.refreshMask)
    split
    · rename_i none
      have number := deleted.count
      have left := deleted.live
      have mask := deleted.mask
      dsimp only at number left mask
      have unmet : ∀ e ∈ h.live, ¬ strListIsMember strConnection e.name 44 :=
        countP_eq_zero.1 (show h.entries.reduceOption.countP _ = 0 by omega)
      rw [filter_eq_self.2 fun e member => by simpa using unmet e member] at left
      intro bit
      rw [mask, bitsAfter_same, left]
      exact exact bit
    · exact refreshMask_exact after
  · exact exact

theorem MaskExact.removeHopByHopEntries (exact : h.MaskExact) :
    Outcome MaskExact (· ≠ .missing) h.removeHopByHopEntries := by
  apply exact.removeConnectionHeaderEntries.bind
  intro before exact
  apply (delLoop_all (fun e => HdrType.hopByHopHeaders.contains e.id) clearBit sameBits before).bind
  rintro ⟨after, count⟩ deleted bit
  have left := deleted.live
  have mask := deleted.mask
  dsimp only at left mask ⊢
  rw [mask, bitsAfter_clear, exact bit, left]
  constructor
  · rintro ⟨⟨e, live, rfl⟩, gone⟩
    refine ⟨e, mem_filter.2 ⟨live, ?_⟩, rfl⟩
    by_contra hop
    exact gone e live (by simpa using hop) rfl
  · rintro ⟨e, live, rfl⟩
    obtain ⟨live, kept⟩ := mem_filter.1 live
    refine ⟨⟨e, live, rfl⟩, fun other _ hop same => ?_⟩
    rw [same] at hop
    rw [hop] at kept
    cases kept

/-- Where nothing is denied, the entries keep their ids. -/
theorem ids_mangled (mangle : ℕ → HttpHeaderEntry → Mangling) (pos : ℕ)
    (entries : List (Option HttpHeaderEntry)) (allowed : denied mangle pos entries = []) :
    (mangled mangle pos entries).reduceOption.map HttpHeaderEntry.id =
      entries.reduceOption.map HttpHeaderEntry.id := by
  induction entries generalizing pos with
  | nil => rfl
  | cons entry entries ih =>
      cases entry with
      | none => simpa [mangled] using ih (pos + 1) (by simpa [denied] using allowed)
      | some e =>
          cases decision : mangle pos e with
          | allow =>
              simp only [denied, decision, Mangling.apply, reduceCtorEq, if_false] at allowed
              simp [mangled, decision, Mangling.apply, ih (pos + 1) allowed]
          | deny => simp [denied, decision, Mangling.apply] at allowed
          | replace replacement =>
              simp only [denied, decision, Mangling.apply, reduceCtorEq, if_false] at allowed
              simp [mangled, decision, Mangling.apply, ih (pos + 1) allowed]

theorem MaskExact.mangleList (mangle : ℕ → HttpHeaderEntry → Mangling) (exact : h.MaskExact) :
    Outcome MaskExact (· ≠ .missing) (h.mangleList mangle) := by
  have loop : Outcome (Mangled mangle [] h.entries h 0) (· ≠ .missing)
      (mangleLoop mangle h.entries 0 h 0) := by
    refine (mangleLoop_outcome mangle [] h.entries h 0 rfl).imp (fun _ mangled => mangled) ?_
    rintro _ (rfl | ⟨rfl, -⟩) <;> simp
  apply loop.bind
  rintro ⟨after, count⟩ mangled
  show MaskExact (if count = 0 then after else after.refreshMask)
  split
  · rename_i none
    have number := mangled.count
    have ids := ids_mangled mangle 0 h.entries
      (length_eq_zero_iff.1 (by simpa [none] using number.symm))
    intro bit
    have live : after.live = (HttpHeader.mangled mangle 0 h.entries).reduceOption := by
      rw [HttpHeader.live, show after.entries = _ from mangled.entries]
      rfl
    rw [show after.mask = h.mask from mangled.mask, exact bit, ← List.mem_map, ← List.mem_map, live,
      ids, HttpHeader.live]
  · exact refreshMask_exact after

/-- Positions are deleted, then the mask is rebuilt. -/
theorem delAt_exact (h : HttpHeader) (positions : List ℕ) :
    Outcome MaskExact (· ≠ .missing) ((Op.delAt positions).run h) := by
  have deleted : Outcome (fun _ => True) (· ≠ .missing) (positions.foldlM HttpHeader.delAt h) := by
    apply Outcome.foldlM trivial
    intro after pos _ _
    unfold HttpHeader.delAt
    split
    · split
      · exact Outcome.error (by simp)
      · exact trivial
    · exact Outcome.error (by simp)
  exact deleted.bind fun after _ => refreshMask_exact after

theorem copy_exact (source : HttpHeader) : Outcome MaskExact (· ≠ .missing) source.copy :=
  maskRules.update (n := 0) (by simp [MaskExact, empty, live])

theorem assign_exact (h source : HttpHeader) :
    Outcome MaskExact (· ≠ .missing) (h.assign source) := by
  unfold assign
  split
  · exact Outcome.error (by simp)
  · apply (maskRules.clean h).bind
    intro cleaned exact
    apply (maskRules.update (n := 0) exact).bind
    intro after exact
    exact exact

/-- Every operation keeps the mask exact and finds what the mask promises. -/
theorem run_exact (op : Op) (exact : h.MaskExact) :
    Outcome MaskExact (· ≠ .missing) (op.run h) := by
  apply maskRules.run op exact
  intro special
  cases op with
  | delAt positions => exact delAt_exact h positions
  | copy source => exact copy_exact source
  | assign source => exact assign_exact h source
  | removeConnectionHeaderEntries => exact exact.removeConnectionHeaderEntries
  | removeHopByHopEntries => exact exact.removeHopByHopEntries
  | mangleList mangle => exact exact.mangleList mangle
  | _ => cases special

/--
The mask of every header that is reached is exact; so neither a lookup nor an operation stops
because an entry is missing.
-/
theorem mask_exact {h : HttpHeader} (reached : Reachable (fun _ _ => True) h) :
    (∀ id, h.mask id = true ↔ ∃ e ∈ h.live, e.id = id) ∧
      (∀ id, h.findEntry id ≠ .error .missing) ∧ (∀ id, h.findLastEntry id ≠ .error .missing) ∧
      (∀ id, h.delById id ≠ .error .missing) ∧ ∀ op : Op, op.run h ≠ .error .missing := by
  have exact : h.MaskExact := by
    induction reached with
    | empty owner => exact maskRules.empty
    | step _ _ _ done ih _ => exact (run_exact _ ih).of_ok done
  refine ⟨exact, fun id failed => ?_, fun id failed => ?_, fun id failed => ?_, fun op failed => ?_⟩
  · exact (exact.findEntry id).of_error failed rfl
  · exact (exact.findLastEntry id).of_error failed rfl
  · exact (exact.delById id).of_error failed rfl
  · exact (run_exact op exact).of_error failed rfl

/-- The field `Host: a`. -/
def hostEntry : HttpHeaderEntry := ⟨.host, HdrType.host.name, ascii "a", fun _ => rfl⟩

/-- A request header with one field. -/
def hostHeader : HttpHeader :=
  { entries := [some hostEntry]
    mask := setBit (fun _ => false) .host
    owner := .request
    len := int32 (0 + hostEntry.size) }

theorem reachable_hostHeader {allowed : HttpHeader → Op → Prop}
    (adds : allowed (empty .request) (.addEntry hostEntry)) : Reachable allowed hostHeader :=
  @Reachable.step _ _ _ (.addEntry hostEntry) (.empty .request) (by simp [Op.source]) adds rfl

theorem mask_exact_hostHeader : hostHeader.live = [hostEntry] ∧
    (∀ id, hostHeader.mask id = true ↔ ∃ e ∈ hostHeader.live, e.id = id) ∧
    ∀ op : Op, op.run hostHeader ≠ .error .missing :=
  have exact := mask_exact (reachable_hostHeader trivial)
  ⟨rfl, exact.1, exact.2.2.2.2⟩

end HttpHeader
end Squid
