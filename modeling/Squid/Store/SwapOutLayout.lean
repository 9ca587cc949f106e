import Squid.Store.MemHdrAppend
import Squid.Store.SwapOut

/-!
# The pages of an object that is swapped out

An object is appended to and trimmed from the front.  Its pages are packed up to its end, and the
page at a multiple of the page size holds the bytes of the object from there on, up to the next
multiple or to the end.
-/

namespace Squid
namespace Swap

open CRuntime
open Mem

/-- The pages hold the object from the first page on. -/
structure Layout (hdr : MemHdr) (object : Bytes) : Prop where
  wf : hdr.WF
  packed : Packed hdr.pages
  stop : stopOf hdr.pages = object.length
  bounded : object.length + 1 < 2 ^ 63
  content : ∀ i, hdr.lowestOffset ≤ i → i < object.length → hdr.bytes i = object[i.toNat]?

namespace Layout

variable {hdr after : MemHdr} {object : Bytes}

theorem empty : Layout {} [] :=
  ⟨wf_empty, packed_nil, rfl, by decide, fun i low high => by
    have := lowestOffset_nonneg wf_empty
    simp only [List.length_nil] at high
    omega⟩

section

variable (layout : Layout hdr object)
include layout

theorem reshaped (same : Reshaped hdr after) : Layout after object := by
  refine ⟨same.wf layout.wf, ?_, ?_, layout.bounded, ?_⟩
  · rw [same.pages]
    exact layout.packed
  · rw [same.pages]
    exact layout.stop
  · rw [same.lowestOffset, same.bytes]
    exact layout.content

theorem endOffset : hdr.endOffset = .ok (object.length : ℤ) := by
  rw [endOffset_eq layout.wf, layout.stop]

/-- More bytes at the end. -/
theorem append {data : Bytes} (fits : object.length + data.length + 1 < 2 ^ 63) :
    ∃ final, hdr.write object.length data = .ok final ∧ Layout final (object ++ data) ∧
      Grows hdr final := by
  have stop := layout.stop
  obtain ⟨final, result, wf, packed, grows, stop', bytes⟩ :=
    @write_end hdr layout.wf layout.packed data (by omega)
  rw [stop] at result stop' bytes
  refine ⟨final, result, ⟨wf, packed, ?_, ?_, ?_⟩, grows⟩
  · rw [stop', List.length_append]
    omega
  · rwa [List.length_append]
  · intro i low high
    rw [grows.lowest] at low
    rw [List.length_append] at high
    have nonneg := lowestOffset_nonneg layout.wf
    rw [bytes, ByteMap.put]
    by_cases old : i < object.length
    · rw [if_neg (by omega), List.getElem?_append_left (by omega)]
      exact layout.content i low old
    · rw [if_pos (by omega), List.getElem?_append_right (by omega)]
      congr 1
      omega

/-- The first pages are freed. -/
theorem freed {write_pending : ℕ → Bool} {target : ℤ} {count : ℕ}
    (freed : Freed write_pending target hdr after count) (wf : after.WF) : Layout after object := by
  refine ⟨wf, ?_, ?_, layout.bounded, ?_⟩
  · rw [freed.pages]
    exact layout.packed.drop count
  · rw [← wf.hi, freed.inmem_hi, layout.wf.hi, layout.stop]
  · intro i low high
    rw [freed.bytes_eq layout.wf (.inr low)]
    exact layout.content i ((freed.lowestOffset_le layout.wf).trans low) high

/-- The bytes that are in memory. -/
theorem present (i : ℤ) : hdr.bytes i ≠ none ↔ hdr.lowestOffset ≤ i ∧ i < object.length := by
  constructor
  · intro some
    rw [MemHdr.bytes, Ne, bytesOf_eq_none] at some
    push Not at some
    obtain ⟨node, member, starts, ends⟩ := some
    have low := lowestOffset_le_offset layout.wf member
    have high := stop_le_stopOf layout.wf.good layout.wf.ordered member
    rw [layout.stop] at high
    omega
  · rintro ⟨low, high⟩
    have nonneg := lowestOffset_nonneg layout.wf
    rw [layout.content i low high, Ne, List.getElem?_eq_none_iff]
    omega

/-- A page holds the bytes of the object. -/
theorem data_eq {node : MemNode} (member : node ∈ hdr.pages) :
    node.data = (object.drop node.offset.toNat).take node.data.length := by
  have nonneg := (layout.wf.good node member).1.nonneg
  have below := stop_le_stopOf layout.wf.good layout.wf.ordered member
  have low := lowestOffset_le_offset layout.wf member
  rw [layout.stop, MemNode.stop] at below
  apply List.ext_getElem?
  intro k
  by_cases inside : k < node.data.length
  · have byte := layout.content (node.offset + k) (by omega) (by omega)
    rw [MemHdr.bytes, bytesOf_of_mem layout.wf.ordered member (by rw [MemNode.stop]; omega),
      MemNode.byteAt, if_pos (by omega)] at byte
    rw [List.getElem?_take_of_lt inside, List.getElem?_drop]
    have here : (node.offset + k - node.offset).toNat = k := by omega
    have there : (node.offset + k).toNat = node.offset.toNat + k := by omega
    rwa [here, there] at byte
  · rw [List.getElem?_eq_none (by omega), List.getElem?_eq_none]
    rw [List.length_take]
    omega

/-- The page at a multiple of the page size starts there, and is full or the last one. -/
theorem block {location : ℤ} (low : hdr.lowestOffset ≤ location) (high : location < object.length)
    (aligned : (SM_PAGE_SIZE : ℤ) ∣ location) :
    ∃ p after, hdr.getBlockContainingLocation location = (some p, after) ∧ Reshaped hdr after ∧
      p ∈ hdr.nodes.toList ∧ (hdr.heap p).offset = location ∧ (hdr.heap p).Good ∧
      0 < (hdr.heap p).data.length ∧
      location + (hdr.heap p).data.length ≤ object.length ∧
      ((hdr.heap p).data.length = SM_PAGE_SIZE ∨
        location + (hdr.heap p).data.length = object.length) ∧
      (hdr.heap p).data = (object.drop location.toNat).take (hdr.heap p).data.length := by
  have nonneg := lowestOffset_nonneg layout.wf
  have bounded := layout.bounded
  obtain ⟨same, found⟩ :=
    @getBlockContainingLocation_spec hdr layout.wf location (by omega) (by omega)
  generalize hdr.getBlockContainingLocation location = result at same found ⊢
  obtain ⟨_ | p, after⟩ := result
  · have byte := layout.content location low high
    rw [show hdr.bytes location = none from found, eq_comm, List.getElem?_eq_none_iff] at byte
    omega
  · obtain ⟨member, starts, ends⟩ := found
    have page : hdr.heap p ∈ hdr.pages := List.mem_map_of_mem member
    have good := layout.wf.good _ page
    have offset : (hdr.heap p).offset = location := by
      have divides := layout.packed.aligned _ page
      have short := good.1.page
      rw [MemNode.stop] at ends
      simp only [SM_PAGE_SIZE] at divides aligned short
      omega
    have below := stop_le_stopOf layout.wf.good layout.wf.ordered page
    rw [layout.stop, MemNode.stop, offset] at below
    refine ⟨p, after, rfl, same, member, offset, good.1, List.length_pos_iff.mpr good.2, below, ?_,
      by rw [← offset]; exact layout.data_eq page⟩
    obtain ⟨front, back, split⟩ := List.append_of_mem page
    cases back with
    | nil =>
        right
        have stop := layout.stop
        rw [split, stopOf_concat, MemNode.stop, offset] at stop
        exact stop
    | cons other rest =>
        left
        have chain := layout.packed.chain
        rw [split] at chain
        exact (List.isChain_append_cons_cons.mp chain).2.1.1

end

end Layout

end Swap
end Squid
