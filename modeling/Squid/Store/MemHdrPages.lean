import Squid.Store.MemHdr

/-!
# The pages of a `mem_hdr`

The pages are not empty, disjoint and in order, and together they hold a partial function from
offsets to bytes.  Ranges that overlap count as equal in the tree, which goes with this order, so a
search finds a page that overlaps if there is one.
-/

namespace Squid
namespace Mem

open CRuntime

/-! ## Byte maps -/

/-- The bytes that are present. -/
abbrev ByteMap := ℤ → Option UInt8

/-- The map with more bytes, from an offset on. -/
def ByteMap.put (bytes : ByteMap) (offset : ℤ) (data : Bytes) : ByteMap := fun i =>
  if offset ≤ i ∧ i < offset + data.length then data[(i - offset).toNat]? else bytes i

/-- No byte of a range is present. -/
def ByteMap.Vacant (bytes : ByteMap) (offset : ℤ) (length : ℕ) : Prop :=
  ∀ i, offset ≤ i → i < offset + length → bytes i = none

theorem ByteMap.put_put (bytes : ByteMap) (offset : ℤ) (front back : Bytes) :
    (bytes.put offset front).put (offset + front.length) back = bytes.put offset (front ++ back) := by
  funext i
  simp only [put, List.length_append]
  by_cases late : offset + front.length ≤ i ∧ i < offset + front.length + back.length
  · rw [if_pos late, if_pos (by omega), List.getElem?_append_right (by omega)]
    congr 1
    omega
  · rw [if_neg late]
    by_cases early : offset ≤ i ∧ i < offset + front.length
    · rw [if_pos early, if_pos (by omega), List.getElem?_append_left (by omega)]
    · rw [if_neg early, if_neg (by omega)]

theorem ByteMap.put_nil (bytes : ByteMap) (offset : ℤ) : bytes.put offset [] = bytes := by
  funext i
  simp only [put, List.length_nil]
  rw [if_neg (by omega)]

theorem ByteMap.vacant_put {bytes : ByteMap} {offset : ℤ} {front back : Bytes}
    (vacant : bytes.Vacant offset (front ++ back).length) :
    (bytes.put offset front).Vacant (offset + front.length) back.length := by
  intro i low high
  rw [List.length_append] at vacant
  rw [put, if_neg (by omega)]
  exact vacant i (by omega) (by omega)

/-! ## The bytes of pages -/

/-- One past the last byte. -/
def MemNode.stop (node : MemNode) : ℤ := node.offset + node.data.length

/-- The byte at an offset of the object. -/
def MemNode.byteAt (node : MemNode) (i : ℤ) : Option UInt8 :=
  if node.offset ≤ i then node.data[(i - node.offset).toNat]? else none

/-- A page whose fields agree, which may be empty. -/
structure MemNode.Good (node : MemNode) : Prop where
  length : node.length = node.data.length
  page : node.data.length ≤ SM_PAGE_SIZE
  nonneg : 0 ≤ node.offset
  bounded : node.stop < 2 ^ 63

/-- The bytes of pages. -/
def bytesOf (nodes : List MemNode) : ByteMap := fun i => nodes.findSome? (MemNode.byteAt · i)

variable {node : MemNode}

theorem MemNode.byteAt_eq_none {i : ℤ} :
    node.byteAt i = none ↔ ¬ (node.offset ≤ i ∧ i < node.stop) := by
  unfold byteAt stop
  split
  · rw [List.getElem?_eq_none_iff]
    omega
  · simp only [true_iff]
    omega

theorem bytesOf_eq_none {nodes : List MemNode} {i : ℤ} :
    bytesOf nodes i = none ↔ ∀ node ∈ nodes, ¬ (node.offset ≤ i ∧ i < node.stop) := by
  simp only [bytesOf, List.findSome?_eq_none_iff, MemNode.byteAt_eq_none]

theorem bytesOf_append (front back : List MemNode) (i : ℤ) :
    bytesOf (front ++ back) i = (bytesOf front i).or (bytesOf back i) := List.findSome?_append

theorem bytesOf_cons (node : MemNode) (nodes : List MemNode) (i : ℤ) :
    bytesOf (node :: nodes) i = (node.byteAt i).or (bytesOf nodes i) := by
  rw [bytesOf, List.findSome?_cons]
  cases node.byteAt i <;> rfl

/-- A page without bytes does not matter. -/
theorem bytesOf_insert_empty (empty : node.data = []) (front back : List MemNode) :
    bytesOf (front ++ node :: back) = bytesOf (front ++ back) := by
  funext i
  have none : node.byteAt i = none := by
    rw [MemNode.byteAt_eq_none, MemNode.stop, empty, List.length_nil]
    omega
  rw [bytesOf_append, bytesOf_append, bytesOf_cons, none, Option.none_or]

/-- Pages in order, without overlap. -/
def Ordered (nodes : List MemNode) : Prop := nodes.Pairwise fun a b => a.stop ≤ b.offset

theorem MemNode.offset_lt_stop (nonempty : node.data ≠ []) : node.offset < node.stop := by
  have := List.length_pos_iff.mpr nonempty
  unfold stop
  omega

theorem MemNode.Good.dataEnd_eq (good : node.Good) : node.dataEnd = node.stop := by
  have nonneg := good.nonneg
  have bounded := good.bounded
  have length := good.length
  rw [stop] at bounded ⊢
  rw [dataEnd, length, int64_eq (by omega) bounded]

/-! ## Comparison -/

variable {target : MemNode}

theorem nodeCompare_eq_zero (good : node.Good) :
    NodeCompare target node = 0 ↔
      target.offset < node.stop ∧ node.offset < target.dataEnd ∧ target.offset < target.dataEnd ∧
        node.offset < node.stop := by
  simp only [NodeCompare, MemNode.start, good.dataEnd_eq]
  by_cases overlap : max target.offset node.offset < min target.dataEnd node.stop
  · rw [if_pos overlap]
    simp only [true_iff]
    omega
  · rw [if_neg overlap]
    omega

theorem nodeCompare_neg (negative : NodeCompare target node < 0) : target.offset < node.offset := by
  simp only [NodeCompare, MemNode.start] at negative
  omega

theorem nodeCompare_pos (positive : 0 < NodeCompare target node) : node.offset ≤ target.offset := by
  simp only [NodeCompare, MemNode.start] at positive
  omega

/-- The comparison goes with the order of pages that are not empty. -/
theorem consistent_nodeCompare (target : MemNode) {nodes : List MemNode}
    (good : ∀ node ∈ nodes, node.Good ∧ node.data ≠ []) (ordered : Ordered nodes) :
    SplayNode.Consistent (NodeCompare target) nodes := by
  refine ordered.imp_of_mem ?_
  intro a b first second order
  have below := MemNode.offset_lt_stop (good a first).2
  have above := MemNode.offset_lt_stop (good b second).2
  simp only [NodeCompare, MemNode.start, (good a first).1.dataEnd_eq, (good b second).1.dataEnd_eq]
  constructor
  · intro le
    split at le <;> split <;> omega
  · intro lt
    split at lt <;> split <;> omega

/-! ## The invariant -/

/-- The pages in the order of the tree. -/
def MemHdr.pages (hdr : MemHdr) : List MemNode := hdr.nodes.toList.map hdr.heap

/-- One past the last byte of pages. -/
def stopOf (nodes : List MemNode) : ℤ :=
  match nodes.getLast? with
  | some node => node.stop
  | none => 0

/-- The tree and the heap agree. -/
structure MemHdr.Linked (hdr : MemHdr) : Prop where
  nodup : hdr.nodes.toList.Nodup
  fresh : ∀ p ∈ hdr.nodes.toList, p < hdr.fresh
  elements : hdr.nodes.elements = hdr.nodes.toList.length

/-- Between two calls. -/
structure MemHdr.WF (hdr : MemHdr) : Prop extends hdr.Linked where
  good : ∀ node ∈ hdr.pages, node.Good ∧ node.data ≠ []
  ordered : Ordered hdr.pages
  hi : hdr.inmem_hi = stopOf hdr.pages

/-- The bytes in memory. -/
def MemHdr.bytes (hdr : MemHdr) : ByteMap := bytesOf hdr.pages

theorem wf_empty : MemHdr.WF {} := by
  refine ⟨⟨?_, ?_, ?_⟩, ?_, ?_, ?_⟩ <;>
    simp [MemHdr.pages, Splay.toList, Ordered, stopOf]

variable {hdr : MemHdr}

theorem endOffset_eq (wf : hdr.WF) : hdr.endOffset = .ok (stopOf hdr.pages) := by
  rw [MemHdr.endOffset, wf.hi, Splay.finish_eq, stopOf, MemHdr.pages, List.getLast?_map]
  cases found : hdr.nodes.toList.getLast? with
  | none => rfl
  | some p =>
      have member : hdr.heap p ∈ hdr.pages :=
        List.mem_map.mpr ⟨p, List.mem_of_getLast? found, rfl⟩
      simp [(wf.good _ member).1.dataEnd_eq]

/-- A search changes the shape of the tree only. -/
structure Reshaped (hdr after : MemHdr) : Prop where
  inmem_hi : after.inmem_hi = hdr.inmem_hi
  toList : after.nodes.toList = hdr.nodes.toList
  elements : after.nodes.elements = hdr.nodes.elements
  heap : after.heap = hdr.heap
  fresh : after.fresh = hdr.fresh

section Reshaped

variable {hdr after : MemHdr} (reshaped : Reshaped hdr after)

include reshaped

theorem Reshaped.pages : after.pages = hdr.pages := by
  rw [MemHdr.pages, MemHdr.pages, reshaped.toList, reshaped.heap]

theorem Reshaped.wf (wf : hdr.WF) : after.WF where
  nodup := by rw [reshaped.toList]; exact wf.nodup
  fresh := by rw [reshaped.toList, reshaped.fresh]; exact wf.fresh
  elements := by rw [reshaped.toList, reshaped.elements]; exact wf.elements
  good := by rw [reshaped.pages]; exact wf.good
  ordered := by rw [reshaped.pages]; exact wf.ordered
  hi := by rw [reshaped.inmem_hi, reshaped.pages]; exact wf.hi

theorem Reshaped.bytes : after.bytes = hdr.bytes := by
  rw [MemHdr.bytes, reshaped.pages, MemHdr.bytes]

theorem Reshaped.trans {last : MemHdr} (next : Reshaped after last) : Reshaped hdr last :=
  ⟨next.inmem_hi.trans reshaped.inmem_hi, next.toList.trans reshaped.toList,
    next.elements.trans reshaped.elements, next.heap.trans reshaped.heap,
    next.fresh.trans reshaped.fresh⟩

end Reshaped

theorem consistent_heap (wf : hdr.WF) (target : MemNode) :
    SplayNode.Consistent (fun p => NodeCompare target (hdr.heap p)) hdr.nodes.toList := by
  have consistent := consistent_nodeCompare target wf.good wf.ordered
  rwa [SplayNode.Consistent, MemHdr.pages, List.pairwise_map] at consistent

/-- A search finds a page that overlaps, if there is one. -/
theorem find_spec (wf : hdr.WF) (target : MemNode) :
    Reshaped hdr (hdr.find target).2 ∧
      match (hdr.find target).1 with
      | none => ∀ node ∈ hdr.pages, NodeCompare target node ≠ 0
      | some p => p ∈ hdr.nodes.toList ∧ NodeCompare target (hdr.heap p) = 0 := by
  obtain ⟨values, elements, found⟩ := Splay.find_spec (consistent_heap wf target)
  unfold MemHdr.find
  generalize hdr.nodes.find (fun p => NodeCompare target (hdr.heap p)) = result at *
  obtain ⟨_ | p, nodes⟩ := result
  · refine ⟨⟨rfl, values, elements, rfl, rfl⟩, ?_⟩
    simpa [MemHdr.pages] using found
  · exact ⟨⟨rfl, values, elements, rfl, rfl⟩, found⟩

end Mem
end Squid
