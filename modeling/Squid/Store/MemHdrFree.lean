import Squid.Store.MemHdrMap

/-!
# Freeing the first pages of a `mem_hdr`

`freeDataUpto` drops pages from the front, up to the first one that reaches beyond the target or is
being written to disk, and never the last one.  The flags `write_pending` of the pages are kept by
address.
-/

namespace Squid
namespace Mem

open CRuntime List

namespace MemHdr

def lowestOffset (hdr : MemHdr) : ℤ :=
  match hdr.nodes.start with
  | some theStart => (hdr.heap theStart).offset
  | none => 0

/-- `unlink`: nothing for a page that is being written. -/
def unlink (hdr : MemHdr) (write_pending : ℕ → Bool) (aNode : ℕ) : Except Fault (Option MemHdr) :=
  if write_pending aNode then
    .ok none
  else
    match hdr.nodes.remove fun p => NodeCompare (hdr.heap aNode) (hdr.heap p) with
    | some nodes => .ok (some { hdr with nodes })
    | none => .error .assertion

/-- The loop of `freeDataUpto`; every round removes a page. -/
def freeLoop (write_pending : ℕ → Bool) (target_offset : ℤ) : ℕ → MemHdr → Except Fault MemHdr
  | 0, hdr => .ok hdr
  | fuel + 1, hdr =>
      match hdr.nodes.start with
      | none => .ok hdr
      | some theStart =>
          if hdr.nodes.finish = some theStart then
            .ok hdr
          else if target_offset < (hdr.heap theStart).dataEnd then
            .ok hdr
          else
            (hdr.unlink write_pending theStart).bind fun
              | none => .ok hdr
              | some hdr => freeLoop write_pending target_offset fuel hdr

def freeDataUpto (hdr : MemHdr) (write_pending : ℕ → Bool) (target_offset : ℤ) :
    Except Fault MemHdr :=
  (freeLoop write_pending target_offset hdr.nodes.elements hdr).bind fun hdr =>
    if hdr.lowestOffset ≤ target_offset then .ok hdr else .error .assertion

end MemHdr

/-- The first `count` pages were freed. -/
structure Freed (write_pending : ℕ → Bool) (target_offset : ℤ) (hdr after : MemHdr)
    (count : ℕ) : Prop where
  toList : after.nodes.toList = hdr.nodes.toList.drop count
  heap : after.heap = hdr.heap
  inmem_hi : after.inmem_hi = hdr.inmem_hi
  fresh : after.fresh = hdr.fresh
  kept : hdr.nodes.toList ≠ [] → count < hdr.nodes.toList.length
  below : ∀ p ∈ hdr.nodes.toList.take count,
    (hdr.heap p).stop ≤ target_offset ∧ write_pending p = false

variable {write_pending : ℕ → Bool} {target_offset : ℤ} {hdr after : MemHdr}

theorem Freed.pages {count : ℕ} (freed : Freed write_pending target_offset hdr after count) :
    after.pages = hdr.pages.drop count := by
  rw [MemHdr.pages, MemHdr.pages, freed.toList, freed.heap, map_drop]

theorem Freed.refl (write_pending : ℕ → Bool) (target_offset : ℤ) (hdr : MemHdr) :
    Freed write_pending target_offset hdr hdr 0 :=
  ⟨rfl, rfl, rfl, rfl, fun ne => length_pos_iff.mpr ne, by simp⟩

/-- Removing the first page. -/
theorem unlink_start (wf : hdr.WF) {p : ℕ} {rest : List ℕ}
    (first : hdr.nodes.toList = p :: rest) (free : write_pending p = false) :
    ∃ nodes, hdr.unlink write_pending p = .ok (some { hdr with nodes }) ∧
      nodes.toList = rest ∧ nodes.elements = hdr.nodes.elements - 1 := by
  have pages : hdr.pages = hdr.heap p :: rest.map hdr.heap := by
    rw [MemHdr.pages, first, List.map_cons]
  have good := wf.good (hdr.heap p) (by simp [pages])
  have nonempty := MemNode.offset_lt_stop good.2
  have same : NodeCompare (hdr.heap p) (hdr.heap p) = 0 := by
    rw [nodeCompare_eq_zero good.1, good.1.dataEnd_eq]
    exact ⟨nonempty, nonempty, nonempty, nonempty⟩
  have later : ∀ q ∈ rest, NodeCompare (hdr.heap p) (hdr.heap q) < 0 := by
    intro q member
    have ordered := wf.ordered
    rw [pages, Ordered, pairwise_cons] at ordered
    have order := ordered.1 (hdr.heap q) (List.mem_map_of_mem member)
    have other := wf.good (hdr.heap q)
      (by rw [pages]; exact List.mem_cons_of_mem _ (List.mem_map_of_mem member))
    have apart : ¬ max (hdr.heap p).start (hdr.heap q).start <
        min (hdr.heap p).dataEnd (hdr.heap q).dataEnd := by
      rw [MemNode.start, MemNode.start, good.1.dataEnd_eq]
      omega
    have below : (hdr.heap p).start < (hdr.heap q).start := by
      rw [MemNode.start, MemNode.start]
      omega
    rw [NodeCompare, if_neg apart, if_pos below]
    decide
  obtain ⟨nodes, removed, toList, elements⟩ :=
    @Splay.remove_spec _ (fun q => NodeCompare (hdr.heap p) (hdr.heap q)) _ [] _ _ first same
      (by simp) later
  refine ⟨nodes, ?_, toList, elements⟩
  rw [MemHdr.unlink, if_neg (by simp [free]), removed]

/-- What is left after the first pages were freed is well formed. -/
theorem Freed.wf {count : ℕ} (freed : Freed write_pending target_offset hdr after count)
    (wf : hdr.WF) (elements : after.nodes.elements = after.nodes.toList.length) : after.WF := by
  have pages := freed.pages
  refine ⟨⟨?_, ?_, elements⟩, ?_, ?_, ?_⟩
  · rw [freed.toList]
    exact wf.nodup.sublist (drop_sublist _ _)
  · intro p member
    rw [freed.toList] at member
    rw [freed.fresh]
    exact wf.fresh p (mem_of_mem_drop member)
  · intro node member
    rw [pages] at member
    exact wf.good node (mem_of_mem_drop member)
  · rw [pages]
    exact wf.ordered.sublist (drop_sublist _ _)
  · rw [freed.inmem_hi, wf.hi, pages, stopOf, stopOf]
    by_cases empty : hdr.nodes.toList = []
    · have none : hdr.pages = [] := by rw [MemHdr.pages, empty, List.map_nil]
      rw [none, drop_nil]
    · have short := freed.kept empty
      rw [List.getLast?_drop, if_neg (by simpa [MemHdr.pages] using short)]

/-- The loop frees some first pages. -/
theorem freeLoop_spec {fuel : ℕ} (wf : hdr.WF) (enough : hdr.nodes.toList.length ≤ fuel) :
    ∃ final count, MemHdr.freeLoop write_pending target_offset fuel hdr = .ok final ∧ final.WF ∧
      Freed write_pending target_offset hdr final count := by
  induction fuel generalizing hdr with
  | zero => exact ⟨hdr, 0, rfl, wf, Freed.refl _ _ _⟩
  | succ fuel ih =>
      rw [MemHdr.freeLoop, Splay.start_eq]
      cases first : hdr.nodes.toList with
      | nil => exact ⟨hdr, 0, rfl, wf, Freed.refl _ _ _⟩
      | cons p rest =>
          simp only [List.head?_cons]
          by_cases last : hdr.nodes.finish = some p
          · rw [if_pos last]
            exact ⟨hdr, 0, rfl, wf, Freed.refl _ _ _⟩
          rw [if_neg last]
          by_cases beyond : target_offset < (hdr.heap p).dataEnd
          · rw [if_pos beyond]
            exact ⟨hdr, 0, rfl, wf, Freed.refl _ _ _⟩
          rw [if_neg beyond]
          by_cases busy : write_pending p = true
          · rw [MemHdr.unlink, if_pos busy]
            exact ⟨hdr, 0, rfl, wf, Freed.refl _ _ _⟩
          have idle : write_pending p = false := by simpa using busy
          obtain ⟨nodes, unlinked, toList, elements⟩ := unlink_start wf first idle
          have good := (wf.good (hdr.heap p) (by simp [MemHdr.pages, first])).1
          rw [good.dataEnd_eq] at beyond
          have more : rest ≠ [] := by
            rintro rfl
            rw [Splay.finish_eq, first] at last
            exact last rfl
          have one : Freed write_pending target_offset hdr { hdr with nodes } 1 := by
            refine ⟨by simp [toList, first], rfl, rfl, rfl, fun _ => ?_, ?_⟩
            · have := length_pos_iff.mpr more
              rw [first, length_cons]
              omega
            · intro q member
              rw [first, take_one, List.head?_cons] at member
              cases mem_singleton.mp member
              exact ⟨by omega, idle⟩
          have wf' : ({ hdr with nodes } : MemHdr).WF := by
            refine one.wf wf ?_
            show nodes.elements = nodes.toList.length
            rw [elements, wf.elements, first, toList, length_cons, Nat.add_sub_cancel]
          obtain ⟨final, count, result, wf'', freed⟩ := ih wf' (by
            show nodes.toList.length ≤ fuel
            rw [toList]
            rw [first, length_cons] at enough
            omega)
          refine ⟨final, count + 1, ?_, wf'', ?_⟩
          · rw [unlinked]
            exact result
          · have same : ({ hdr with nodes } : MemHdr).nodes.toList = rest := toList
            refine ⟨?_, freed.heap, freed.inmem_hi, freed.fresh, fun _ => ?_, ?_⟩
            · rw [freed.toList, same, first, drop_succ_cons]
            · have short := freed.kept (by rw [same]; exact more)
              rw [same] at short
              rw [first, length_cons]
              omega
            · intro q member
              rw [first, take_succ_cons, mem_cons] at member
              rcases member with rfl | later
              · exact ⟨by omega, idle⟩
              · exact freed.below q (by rw [same]; exact later)

end Mem
end Squid
