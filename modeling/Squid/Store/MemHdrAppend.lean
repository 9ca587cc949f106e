import Squid.Store.MemHdrFree
import Mathlib.Data.List.Chain

/-!
# Appending to a `mem_hdr`

A write at the end goes to the last page until that page is full, and on in new pages after it.  So
the pages of an object that is only appended to are full, one after the other, up to the last one,
and start at multiples of the page size.
-/

namespace Squid
namespace Mem

open CRuntime List Option Function

/-- Pages without gaps, of which only the last one may have space left. -/
structure Packed (nodes : List MemNode) : Prop where
  chain : nodes.IsChain fun a b => a.data.length = SM_PAGE_SIZE ∧ b.offset = a.stop
  aligned : ∀ node ∈ nodes, (SM_PAGE_SIZE : ℤ) ∣ node.offset

/-- Pages were added at the end, and the others start where they did. -/
structure Grows (hdr after : MemHdr) : Prop where
  toList : ∃ new, after.nodes.toList = hdr.nodes.toList ++ new ∧ ∀ q ∈ new, hdr.fresh ≤ q
  offset : ∀ q ∈ hdr.nodes.toList, (after.heap q).offset = (hdr.heap q).offset
  fresh : hdr.fresh ≤ after.fresh
  lowest : after.lowestOffset = hdr.lowestOffset

theorem packed_nil : Packed [] := ⟨List.isChain_nil, by simp⟩

theorem Packed.drop {nodes : List MemNode} (packed : Packed nodes) (count : ℕ) :
    Packed (nodes.drop count) :=
  ⟨packed.chain.drop count, fun node member => packed.aligned node (mem_of_mem_drop member)⟩

theorem MemHdr.lowestOffset_eq (hdr : MemHdr) :
    hdr.lowestOffset = (hdr.pages.head?.map MemNode.offset).getD 0 := by
  rw [lowestOffset, Splay.start_eq, pages, List.head?_map]
  cases hdr.nodes.toList.head? with
  | none => rfl
  | some p => rfl

theorem Grows.refl (hdr : MemHdr) : Grows hdr hdr :=
  ⟨⟨[], by simp⟩, fun _ _ => rfl, le_rfl, rfl⟩

theorem Grows.trans {first second third : MemHdr} (one : Grows first second)
    (two : Grows second third) : Grows first third := by
  obtain ⟨new, appended, fresh⟩ := one.toList
  obtain ⟨more, appended', fresh'⟩ := two.toList
  refine ⟨⟨new ++ more, ?_, ?_⟩, ?_, one.fresh.trans two.fresh, two.lowest.trans one.lowest⟩
  · rw [appended', appended, List.append_assoc]
  · intro q member
    rcases mem_append.mp member with old | last
    · exact fresh q old
    · exact one.fresh.trans (fresh' q last)
  · intro q member
    rw [two.offset q (by rw [appended]; exact List.mem_append_left _ member), one.offset q member]

variable {after hdr : MemHdr}

theorem Reshaped.lowestOffset (reshaped : Reshaped hdr after) :
    after.lowestOffset = hdr.lowestOffset := by
  rw [MemHdr.lowestOffset_eq, reshaped.pages, MemHdr.lowestOffset_eq]

theorem Reshaped.grows (reshaped : Reshaped hdr after) : Grows hdr after := by
  refine ⟨⟨[], by simp [reshaped.toList]⟩, ?_, reshaped.fresh.ge, reshaped.lowestOffset⟩
  intro q _
  rw [reshaped.heap]

variable {node : MemNode}

variable {nodes : List MemNode}

/-- Every page ends at or before the end of the last one. -/
theorem stop_le_stopOf (good : ∀ node ∈ nodes, node.Good ∧ node.data ≠ []) (ordered : Ordered nodes)
    (member : node ∈ nodes) : node.stop ≤ stopOf nodes := by
  obtain ⟨front, last, rfl⟩ := eq_nil_or_concat' nodes |>.resolve_left
    (ne_nil_of_mem member)
  rw [stopOf_concat]
  rcases mem_append.mp member with first | same
  · have order := (pairwise_append.mp ordered).2.2 node first last (by simp)
    have nonempty := MemNode.offset_lt_stop (good last (by simp)).2
    omega
  · rw [mem_singleton.mp same]

theorem stopOf_nonneg (wf : hdr.WF) : 0 ≤ stopOf hdr.pages := by
  unfold stopOf
  split
  · rename_i node last
    have good := wf.good node (mem_of_getLast? last)
    have nonneg := good.1.nonneg
    have nonempty := MemNode.offset_lt_stop good.2
    omega
  · exact le_rfl

/-- Nothing is stored at the end or after it. -/
theorem bytes_stopOf (wf : hdr.WF) {i : ℤ} (after : stopOf hdr.pages ≤ i) : hdr.bytes i = none := by
  rw [MemHdr.bytes, bytesOf_eq_none]
  intro node member inside
  have := stop_le_stopOf wf.good wf.ordered member
  omega

/-! ## The page that takes the next byte -/

/-- The page that takes the byte at the end: the last one, or a new one if the last one is full. -/
inductive Takes (hdr : MemHdr) (p : ℕ) (after : MemHdr) : Prop
  | last (front : List ℕ) (toList : hdr.nodes.toList = front ++ [p]) (reshaped : Reshaped hdr after)
      (space : (hdr.heap p).data.length < SM_PAGE_SIZE)
  | new (same : p = hdr.fresh) (toList : after.nodes.toList = hdr.nodes.toList ++ [p])
      (heap : after.heap = update hdr.heap p { offset := stopOf hdr.pages })
      (fresh : after.fresh = hdr.fresh + 1)
      (full : ∀ node ∈ hdr.pages.getLast?, node.data.length = SM_PAGE_SIZE)

variable {p : ℕ}

theorem Takes.of_reshaped {middle : MemHdr} (reshaped : Reshaped hdr middle)
    (takes : Takes middle p after) : Takes hdr p after := by
  cases takes with
  | last front toList further space =>
      refine .last front (by rw [← reshaped.toList, toList]) (reshaped.trans further) ?_
      rwa [← reshaped.heap]
  | new same toList heap fresh full =>
      refine .new (by rw [same, reshaped.fresh]) (by rw [toList, reshaped.toList]) ?_
        (by rw [fresh, reshaped.fresh]) (by rwa [← reshaped.pages])
      rw [heap, reshaped.heap, reshaped.pages]

theorem appendNode_end (wf : hdr.WF) (bounded : stopOf hdr.pages < 2 ^ 63)
    (full : ∀ node ∈ hdr.pages.getLast?, node.data.length = SM_PAGE_SIZE) :
    ∃ after, hdr.appendNode (stopOf hdr.pages) = .ok (hdr.fresh, after) ∧
      Takes hdr hdr.fresh after := by
  obtain ⟨after, front, back, appended, split, receives⟩ :=
    appendNode_spec wf (stopOf_nonneg wf) bounded (bytes_stopOf wf le_rfl)
  have shape : after.heap = update hdr.heap hdr.fresh { offset := stopOf hdr.pages } ∧
      after.fresh = hdr.fresh + 1 := by
    unfold MemHdr.appendNode at appended
    dsimp only at appended
    split at appended
    · cases appended
      exact ⟨rfl, rfl⟩
    · cases appended
  have nothing : back = [] := by
    by_contra some
    obtain ⟨q, member⟩ := exists_mem_of_ne_nil back some
    have old : q ∈ hdr.nodes.toList := by rw [split]; exact List.mem_append_right _ member
    have later := receives.later q member
    rw [shape.1, update_of_ne (Nat.ne_of_lt (wf.fresh q old))] at later
    have page : hdr.heap q ∈ hdr.pages := List.mem_map_of_mem old
    have below := stop_le_stopOf wf.good wf.ordered page
    have nonempty := MemNode.offset_lt_stop (wf.good _ page).2
    omega
  refine ⟨after, appended, .new rfl ?_ shape.1 shape.2 full⟩
  rw [receives.split, split, nothing, List.append_nil]

/-- A page that ends at the end is the last one. -/
theorem eq_concat_of_stop (wf : hdr.WF) (member : p ∈ hdr.nodes.toList)
    (stop : (hdr.heap p).stop = stopOf hdr.pages) : ∃ front, hdr.nodes.toList = front ++ [p] := by
  obtain ⟨front, back, split⟩ := append_of_mem member
  have pages : hdr.pages = front.map hdr.heap ++ hdr.heap p :: back.map hdr.heap := by
    rw [MemHdr.pages, split, List.map_append, List.map_cons]
  refine ⟨front, ?_⟩
  rcases eq_nil_or_concat' back with rfl | ⟨middle, last, rfl⟩
  · exact split
  · have ordered := wf.ordered
    rw [pages, Ordered, pairwise_append, pairwise_cons] at ordered
    have order := ordered.2.1.1 (hdr.heap last) (by simp)
    have nonempty := MemNode.offset_lt_stop (wf.good (hdr.heap last) (by simp [pages])).2
    have ends : stopOf hdr.pages = (hdr.heap last).stop := by
      rw [pages, List.map_append, List.map_singleton, ← cons_append, ← List.append_assoc,
        stopOf_concat]
    omega

theorem nodeToRecieve_end (wf : hdr.WF) (bounded : stopOf hdr.pages < 2 ^ 63) :
    ∃ p after, hdr.nodeToRecieve (stopOf hdr.pages) = .ok (p, after) ∧ Takes hdr p after := by
  unfold MemHdr.nodeToRecieve
  by_cases empty : hdr.nodes.elements = 0
  · rw [if_pos empty]
    rw [wf.elements, length_eq_zero_iff] at empty
    have none : hdr.pages = [] := by rw [MemHdr.pages, empty, List.map_nil]
    obtain ⟨after, appended, takes⟩ := appendNode_end wf bounded (by simp [none])
    refine ⟨hdr.fresh, after, ?_, takes⟩
    have start : after.nodes.start = some hdr.fresh := by
      cases takes with
      | last front toList => simp [empty] at toList
      | new same toList => rw [Splay.start_eq, toList, empty]; rfl
    rw [appended]
    simp only [Except.bind, start]
  · rw [if_neg empty]
    obtain ⟨front, last, split⟩ := (eq_nil_or_concat' hdr.nodes.toList).resolve_left
      (by rw [← length_eq_zero_iff, ← wf.elements]; exact empty)
    have pages : hdr.pages = front.map hdr.heap ++ [hdr.heap last] := by
      rw [MemHdr.pages, split, List.map_append, List.map_singleton]
    have page : hdr.heap last ∈ hdr.pages := by simp [pages]
    have good := wf.good _ page
    have stop : stopOf hdr.pages = (hdr.heap last).stop := by rw [pages, stopOf_concat]
    have nonempty := MemNode.offset_lt_stop good.2
    have nonneg := good.1.nonneg
    rw [if_pos (by omega)]
    have range : ({ offset := stopOf hdr.pages - 1, length := 1 } : MemNode).dataEnd =
        stopOf hdr.pages := by
      rw [dataEnd_range (by omega) (by simpa using bounded)]
      simp
    obtain ⟨reshaped, found⟩ := find_spec wf { offset := stopOf hdr.pages - 1, length := 1 }
    generalize hdr.find { offset := stopOf hdr.pages - 1, length := 1 } = result at reshaped found ⊢
    obtain ⟨_ | p, middle⟩ := result
    · refine absurd ((nodeCompare_eq_zero good.1).mpr ?_) (found _ page)
      rw [range]
      dsimp only
      omega
    · dsimp only at reshaped found ⊢
      have page' : hdr.heap p ∈ hdr.pages := List.mem_map_of_mem found.1
      have good' := wf.good _ page'
      have overlap := (nodeCompare_eq_zero good'.1).mp found.2
      rw [range] at overlap
      dsimp only at overlap
      have below := stop_le_stopOf wf.good wf.ordered page'
      have ends : (hdr.heap p).stop = stopOf hdr.pages := by omega
      obtain ⟨front', split'⟩ := eq_concat_of_stop wf found.1 ends
      have length := good'.1.length
      by_cases accepts : (middle.heap p).canAccept (stopOf hdr.pages) = true
      · rw [if_pos accepts]
        refine ⟨p, middle, rfl, .last front' split' reshaped ?_⟩
        simp only [reshaped.heap, MemNode.canAccept, MemNode.space, Bool.and_eq_true,
          decide_eq_true_iff] at accepts
        omega
      · rw [if_neg accepts]
        have full : (hdr.heap p).data.length = SM_PAGE_SIZE := by
          simp only [reshaped.heap, MemNode.canAccept, MemNode.space, good'.1.dataEnd_eq, ends,
            decide_true, Bool.true_and, decide_eq_true_iff] at accepts
          have := good'.1.page
          omega
        have wf' := reshaped.wf wf
        have same := reshaped.pages
        obtain ⟨after, appended, takes⟩ := appendNode_end wf' (by rwa [same]) (by
          rw [same, MemHdr.pages, split']
          simpa using full)
        rw [same] at appended
        exact ⟨_, after, appended, takes.of_reshaped reshaped⟩

/-! ## Appending -/

theorem packed_concat {front : List MemNode} :
    Packed (front ++ [node]) ↔ Packed front ∧ (SM_PAGE_SIZE : ℤ) ∣ node.offset ∧
      ∀ last ∈ front.getLast?, last.data.length = SM_PAGE_SIZE ∧ node.offset = last.stop := by
  constructor
  · intro packed
    have chain := isChain_append.mp packed.chain
    refine ⟨⟨chain.1, fun other member => packed.aligned other (by simp [member])⟩,
      packed.aligned node (by simp), fun last member => chain.2.2 last member node (by simp)⟩
  · rintro ⟨packed, aligned, next⟩
    refine ⟨isChain_append.mpr ⟨packed.chain, isChain_singleton _, ?_⟩, ?_⟩
    · intro last member other same
      rw [List.head?_cons, mem_some_iff] at same
      subst same
      exact next last member
    · intro other member
      rcases mem_append.mp member with old | same
      · exact packed.aligned other old
      · rw [mem_singleton.mp same]
        exact aligned

theorem packed_new (packed : Packed nodes)
    (full : ∀ node ∈ nodes.getLast?, node.data.length = SM_PAGE_SIZE)
    (offset : node.offset = stopOf nodes) : Packed (nodes ++ [node]) := by
  rw [packed_concat, offset]
  refine ⟨packed, ?_, ?_⟩
  · unfold stopOf
    split
    · rename_i last found
      rw [MemNode.stop, full last found]
      exact Int.dvd_add (packed.aligned last (mem_of_getLast? found)) (Int.dvd_refl _)
    · exact Int.dvd_zero _
  · intro last found
    refine ⟨full last found, ?_⟩
    rw [stopOf, mem_def.mp found]

variable {final : MemHdr} {source : Bytes}

variable {location : ℤ} {wrote : ℕ}

theorem writeAvailable_shape (written : hdr.writeAvailable p location source = .ok (wrote, final)) :
    wrote ≤ source.length ∧ final.nodes = hdr.nodes ∧ final.fresh = hdr.fresh ∧
      final.heap = update hdr.heap p { hdr.heap p with
        length := (hdr.heap p).length + wrote
        data := (hdr.heap p).data ++ source.take wrote } := by
  unfold MemHdr.writeAvailable at written
  dsimp only at written
  split at written
  · cases written
  split at written
  · cases written
  split at written
  · cases written
  generalize hdr.heap p = node at written ⊢
  simp only [Except.map] at written
  split at written
  · cases written
  · cases written
    exact ⟨min_le_left _ _, rfl, rfl, rfl⟩

/-- What the last page, or a new one, looks like after bytes were added to it. -/
theorem Takes.written (wf : hdr.WF) (packed : Packed hdr.pages) (takes : Takes hdr p after)
    (written : after.writeAvailable p location source = .ok (wrote, final)) :
    Packed final.pages ∧ Grows hdr final ∧ stopOf final.pages = stopOf hdr.pages + wrote := by
  obtain ⟨le, nodes, fresh, heap⟩ := writeAvailable_shape written
  have length : (source.take wrote).length = wrote := by
    rw [length_take]
    omega
  cases takes with
  | last front toList reshaped space =>
      have nodup := wf.nodup
      rw [toList, nodup_append] at nodup
      rw [reshaped.heap] at heap
      have kept : ∀ q ∈ front, final.heap q = hdr.heap q := by
        intro q member
        rw [heap, update_of_ne (nodup.2.2 q member p (by simp))]
      have pages : hdr.pages = front.map hdr.heap ++ [hdr.heap p] := by
        rw [MemHdr.pages, toList, List.map_append, List.map_singleton]
      have pages' : final.pages = front.map hdr.heap ++ [final.heap p] := by
        rw [MemHdr.pages, nodes, reshaped.toList, toList, List.map_append, List.map_singleton,
          map_congr_left kept]
      have page : final.heap p = { hdr.heap p with
          length := (hdr.heap p).length + wrote
          data := (hdr.heap p).data ++ source.take wrote } := by
        rw [heap, update_self]
      refine ⟨?_, ⟨⟨[], ?_, by simp⟩, ?_, ?_, ?_⟩, ?_⟩
      · rw [pages, packed_concat] at packed
        rw [pages', packed_concat, page]
        exact packed
      · rw [nodes, reshaped.toList, List.append_nil]
      · intro q member
        rw [toList] at member
        rcases mem_append.mp member with old | same
        · rw [kept q old]
        · rw [mem_singleton.mp same, page]
      · rw [fresh, reshaped.fresh]
      · rw [MemHdr.lowestOffset_eq, MemHdr.lowestOffset_eq, pages, pages', page]
        cases front <;> rfl
      · rw [pages, pages', stopOf_concat, stopOf_concat, page]
        simp only [MemNode.stop, length_append, length]
        omega
  | new same toList heap' fresh' full =>
      have kept : ∀ q ∈ hdr.nodes.toList, final.heap q = hdr.heap q := by
        intro q member
        have ne : q ≠ p := by
          rw [same]
          exact Nat.ne_of_lt (wf.fresh q member)
        rw [heap, update_of_ne ne, heap', update_of_ne ne]
      have page : final.heap p =
          { offset := stopOf hdr.pages, length := wrote, data := source.take wrote } := by
        rw [heap, update_self, heap', update_self]
        simp
      have pages' : final.pages = hdr.pages ++ [final.heap p] := by
        rw [MemHdr.pages, nodes, toList, List.map_append, List.map_singleton,
          map_congr_left kept, MemHdr.pages]
      refine ⟨?_, ⟨⟨[p], ?_, ?_⟩, ?_, ?_, ?_⟩, ?_⟩
      · rw [pages']
        exact packed_new packed full (by rw [page])
      · rw [nodes, toList]
      · intro q member
        rw [mem_singleton.mp member, same]
      · intro q member
        rw [kept q member]
      · rw [fresh, fresh']
        omega
      · rw [MemHdr.lowestOffset_eq, MemHdr.lowestOffset_eq, pages', page]
        cases hdr.pages <;> rfl
      · rw [pages', stopOf_concat, page]
        simp only [MemNode.stop, length]

theorem writeLoop_end {fuel : ℕ} (wf : hdr.WF) (packed : Packed hdr.pages)
    (enough : source.length ≤ fuel) (bounded : stopOf hdr.pages + source.length < 2 ^ 63)
    (result : MemHdr.writeLoop fuel hdr (stopOf hdr.pages) source = .ok final) :
    Packed final.pages ∧ Grows hdr final ∧
      stopOf final.pages = stopOf hdr.pages + source.length := by
  induction fuel generalizing hdr source with
  | zero =>
      have empty : source = [] := length_eq_zero_iff.mp (by omega)
      subst empty
      cases result
      exact ⟨packed, Grows.refl _, by simp⟩
  | succ fuel ih =>
      by_cases empty : source = []
      · subst empty
        cases result
        exact ⟨packed, Grows.refl _, by simp⟩
      have nonneg := stopOf_nonneg wf
      have positive := length_pos_iff.mpr empty
      have vacant : hdr.bytes.Vacant (stopOf hdr.pages) source.length :=
        fun i low _ => bytes_stopOf wf low
      obtain ⟨p, after, front, back, target, receives⟩ := nodeToRecieve_spec wf nonneg
        (by omega) (bytes_stopOf wf le_rfl)
      obtain ⟨p', after', target', takes⟩ := nodeToRecieve_end wf (by omega)
      rw [target] at target'
      cases target'
      obtain ⟨wrote, middle, written, some, le, wf', -⟩ :=
        writeAvailable_spec receives empty vacant nonneg bounded
      obtain ⟨packed', grows, stop⟩ := takes.written wf packed written
      have next : int64 (stopOf hdr.pages + wrote) = stopOf middle.pages := by
        rw [stop, int64_eq (by omega) (by omega)]
      rw [MemHdr.writeLoop, if_neg empty, target] at result
      simp only [Except.bind, written, if_neg some, next] at result
      obtain ⟨packed'', grows', stop'⟩ := ih wf' packed' (by rw [length_drop]; omega)
        (by rw [stop, length_drop]; omega) result
      refine ⟨packed'', grows.trans grows', ?_⟩
      rw [stop', stop, length_drop]
      omega

/-- A write at the end. -/
theorem write_end {hdr : MemHdr} (wf : hdr.WF) (packed : Packed hdr.pages) {data : Bytes}
    (bounded : stopOf hdr.pages + data.length < 2 ^ 63) :
    ∃ final, hdr.write (stopOf hdr.pages) data = .ok final ∧ final.WF ∧ Packed final.pages ∧
      Grows hdr final ∧ stopOf final.pages = stopOf hdr.pages + data.length ∧
      final.bytes = hdr.bytes.put (stopOf hdr.pages) data := by
  have nonneg := stopOf_nonneg wf
  obtain ⟨final, result, wf', bytes⟩ := write_spec wf nonneg bounded
    (fun i low _ => bytes_stopOf wf low)
  obtain ⟨found, after, union, reshaped, -⟩ := unionNotEmpty_spec wf nonneg bounded
  have same := reshaped.pages
  refine ⟨final, result, wf', ?_⟩
  rw [MemHdr.write, endOffset_eq wf] at result
  simp only [Except.bind, union] at result
  split at result
  · cases result
  rw [← same] at result
  obtain ⟨packed', grows, stop⟩ := writeLoop_end (reshaped.wf wf) (by rwa [same]) le_rfl
    (by rwa [same]) result
  exact ⟨packed', reshaped.grows.trans grows, by rw [stop, same], bytes⟩

/-! ## Freeing -/

section Freeing

variable {write_pending : ℕ → Bool} {target_offset : ℤ} {hdr after : MemHdr} {count : ℕ}

theorem lowestOffset_nonneg (wf : hdr.WF) : 0 ≤ hdr.lowestOffset := by
  rw [MemHdr.lowestOffset_eq]
  cases first : hdr.pages with
  | nil => exact le_rfl
  | cons node rest => exact (wf.good node (by simp [first])).1.nonneg

variable {node : MemNode}

/-- Every page starts at or after the first one. -/
theorem lowestOffset_le_offset (wf : hdr.WF) (member : node ∈ hdr.pages) :
    hdr.lowestOffset ≤ node.offset := by
  rw [MemHdr.lowestOffset_eq]
  cases first : hdr.pages with
  | nil => simp [first] at member
  | cons page rest =>
      simp only [List.head?_cons, map_some, getD_some]
      rw [first] at member
      rcases mem_cons.mp member with rfl | later
      · exact le_rfl
      · have ordered := wf.ordered
        rw [first, Ordered, pairwise_cons] at ordered
        have order := ordered.1 node later
        have nonempty := MemNode.offset_lt_stop (wf.good page (by simp [first])).2
        omega

section

variable (freed : Freed write_pending target_offset hdr after count)
include freed

/-- The pages that were freed are before those that are left. -/
theorem Freed.stop_le_lowestOffset (wf : hdr.WF) (member : node ∈ hdr.pages.take count) :
    node.stop ≤ after.lowestOffset := by
  have short : count < hdr.pages.length := by
    rw [MemHdr.pages, length_map]
    refine freed.kept fun empty => ?_
    rw [MemHdr.pages, empty] at member
    simp at member
  have ordered := wf.ordered
  rw [← take_append_drop count hdr.pages, Ordered, pairwise_append] at ordered
  rw [MemHdr.lowestOffset_eq, freed.pages, drop_eq_getElem_cons short] at *
  exact ordered.2.2 node member _ (List.mem_cons_self ..)

theorem Freed.stop_le_target (member : node ∈ hdr.pages.take count) :
    node.stop ≤ target_offset := by
  rw [MemHdr.pages, ← map_take] at member
  obtain ⟨p, first, rfl⟩ := List.mem_map.mp member
  exact (freed.below p first).1

/-- The bytes from the first page that is left on, and from the target on, are kept. -/
theorem Freed.bytes_eq (wf : hdr.WF) {i : ℤ} (kept : target_offset ≤ i ∨ after.lowestOffset ≤ i) :
    after.bytes i = hdr.bytes i := by
  have none : bytesOf (hdr.pages.take count) i = none := by
    rw [bytesOf_eq_none]
    intro node member inside
    have low := freed.stop_le_lowestOffset wf member
    have below := freed.stop_le_target member
    omega
  have whole := bytesOf_append (hdr.pages.take count) (hdr.pages.drop count) i
  rw [take_append_drop, none, none_or] at whole
  rw [MemHdr.bytes, freed.pages, MemHdr.bytes, whole]

theorem Freed.lowestOffset_le (wf : hdr.WF) : hdr.lowestOffset ≤ after.lowestOffset := by
  cases count with
  | zero =>
      rw [MemHdr.lowestOffset_eq, MemHdr.lowestOffset_eq, freed.pages, drop_zero]
  | succ count =>
      cases first : hdr.pages with
      | nil => rw [MemHdr.lowestOffset_eq, MemHdr.lowestOffset_eq, freed.pages, first, drop_nil]
      | cons node rest =>
          have member : node ∈ hdr.pages.take (count + 1) := by simp [first]
          have below := freed.stop_le_lowestOffset wf member
          have nonempty := MemNode.offset_lt_stop (wf.good node (by simp [first])).2
          rw [hdr.lowestOffset_eq, first]
          simp only [List.head?_cons, map_some, getD_some]
          omega

/-- Without gaps, the first page that is left starts where the last one that was freed ends. -/
theorem Freed.lowestOffset_le_target (packed : Packed hdr.pages)
    (low : hdr.lowestOffset ≤ target_offset) : after.lowestOffset ≤ target_offset := by
  rw [MemHdr.lowestOffset_eq, freed.pages]
  cases count with
  | zero => rwa [drop_zero, ← MemHdr.lowestOffset_eq]
  | succ count =>
      by_cases short : count + 1 < hdr.pages.length
      · have next := (isChain_iff_getElem.mp packed.chain count short).2
        have member : hdr.pages[count] ∈ hdr.pages.take (count + 1) := by
          rw [mem_take_iff_getElem]
          exact ⟨count, by omega, rfl⟩
        have below := freed.stop_le_target member
        rw [drop_eq_getElem_cons short]
        simp only [List.head?_cons, map_some, getD_some]
        omega
      · have empty : hdr.nodes.toList = [] := by
          by_contra some
          have := freed.kept some
          rw [MemHdr.pages, length_map] at short
          omega
        have none : hdr.pages = [] := by rw [MemHdr.pages, empty, List.map_nil]
        rw [MemHdr.lowestOffset_eq, none] at low
        rwa [none, drop_nil]

end

/-- `freeDataUpto` succeeds if the first page starts at or before its target. -/
theorem freeDataUpto_spec (wf : hdr.WF) (packed : Packed hdr.pages)
    (low : hdr.lowestOffset ≤ target_offset) :
    ∃ final count, hdr.freeDataUpto write_pending target_offset = .ok final ∧ final.WF ∧
      Freed write_pending target_offset hdr final count ∧ final.lowestOffset ≤ target_offset := by
  obtain ⟨final, count, loop, wf', freed⟩ :=
    @freeLoop_spec write_pending target_offset hdr _ wf wf.elements.ge
  have low' := freed.lowestOffset_le_target packed low
  refine ⟨final, count, ?_, wf', freed, low'⟩
  rw [MemHdr.freeDataUpto, loop]
  exact if_pos low'

/-- `freeDataUpto` dies if the first page starts after its target. -/
theorem freeDataUpto_error (wf : hdr.WF) (high : target_offset < hdr.lowestOffset) :
    hdr.freeDataUpto write_pending target_offset = .error .assertion := by
  obtain ⟨final, count, loop, -, freed⟩ :=
    @freeLoop_spec write_pending target_offset hdr _ wf wf.elements.ge
  have mono := freed.lowestOffset_le wf
  rw [MemHdr.freeDataUpto, loop]
  exact if_neg (by omega)

end Freeing

end Mem
end Squid
