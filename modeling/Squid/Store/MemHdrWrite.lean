import Squid.Store.MemHdrPages
import Mathlib.Data.List.Nodup

/-!
# Writing to a `mem_hdr`

A write goes to the page that ends where it starts, or else to a new page, which is empty in the
tree for a moment, and so on from page to page.  It adds its bytes to the map and changes no others.
-/

namespace Squid
namespace Mem

open CRuntime List Function

/-! ## Finding a page to write to -/

/-- `after` has a page at `p` that takes the byte at `offset` next, and the bytes of `hdr`. -/
structure Receives (hdr after : MemHdr) (p : ℕ) (offset : ℤ) (front back : List ℕ) : Prop where
  linked : after.Linked
  split : after.nodes.toList = front ++ p :: back
  node : (after.heap p).Good
  stop : (after.heap p).stop = offset
  space : (after.heap p).data.length < SM_PAGE_SIZE
  good : ∀ q ∈ front ++ back, (after.heap q).Good ∧ (after.heap q).data ≠ []
  before : ∀ q ∈ front, (after.heap q).stop ≤ (after.heap p).offset
  later : ∀ q ∈ back, offset < (after.heap q).offset
  ordered : Ordered ((front ++ back).map after.heap)
  bytes : after.bytes = hdr.bytes
  hi : if back = [] then after.inmem_hi ≤ offset
    else after.inmem_hi = stopOf (back.map after.heap)

variable {back front : List MemNode}

theorem stopOf_append (ne : back ≠ []) : stopOf (front ++ back) = stopOf back := by
  rw [stopOf, List.getLast?_append_of_ne_nil _ ne, stopOf]

theorem stopOf_concat (front : List MemNode) (node : MemNode) :
    stopOf (front ++ [node]) = node.stop := by
  simp [stopOf]

variable {nodes : List MemNode}

variable {limit : ℤ}

theorem stopOf_le (nonneg : 0 ≤ limit) (below : ∀ node ∈ nodes, node.stop ≤ limit) :
    stopOf nodes ≤ limit := by
  unfold stopOf
  split
  · rename_i node last
    exact below node (mem_of_getLast? last)
  · exact nonneg

theorem lt_stopOf (ne : nodes ≠ []) (above : ∀ node ∈ nodes, limit < node.stop) :
    limit < stopOf nodes := by
  have last := List.getLast?_eq_some_getLast ne
  rw [stopOf, last]
  exact above _ (getLast_mem ne)

variable {i : ℤ} {node : MemNode}

/-- A page that starts at or before a byte that is not there ends before it. -/
theorem stop_le_of_vacant (vacant : bytesOf nodes i = none) (member : node ∈ nodes)
    (starts : node.offset ≤ i) : node.stop ≤ i := by
  have outside := bytesOf_eq_none.mp vacant node member
  omega

variable {hdr : MemHdr} {offset : ℤ}

theorem appendNode_spec (wf : hdr.WF) (nonneg : 0 ≤ offset) (bounded : offset < 2 ^ 63)
    (vacant : hdr.bytes offset = none) :
    ∃ after front back, hdr.appendNode offset = .ok (hdr.fresh, after) ∧
      hdr.nodes.toList = front ++ back ∧ Receives hdr after hdr.fresh offset front back := by
  have new : update hdr.heap hdr.fresh { offset } hdr.fresh = { offset } :=
    update_self _ _ _
  have kept : ∀ q ∈ hdr.nodes.toList,
      update hdr.heap hdr.fresh { offset } q = hdr.heap q := fun q member =>
    update_of_ne (Nat.ne_of_lt (wf.fresh q member)) _ _
  unfold MemHdr.appendNode
  dsimp only
  generalize update hdr.heap hdr.fresh { offset } = heap at new kept ⊢
  have good : ∀ q ∈ hdr.nodes.toList, (heap q).Good ∧ (heap q).data ≠ [] := by
    intro q member
    rw [kept q member]
    exact wf.good _ (List.mem_map.mpr ⟨q, member, rfl⟩)
  have consistent := (consistent_heap wf (heap hdr.fresh)).congr fun q member =>
    show NodeCompare (heap hdr.fresh) (heap q) = _ by rw [kept q member]
  have absent : ∀ q ∈ hdr.nodes.toList, NodeCompare (heap hdr.fresh) (heap q) ≠ 0 := by
    intro q member zero
    rw [nodeCompare_eq_zero (good q member).1, new] at zero
    have empty := zero.2.2.1
    simp only [MemNode.dataEnd, Nat.cast_zero, add_zero] at empty
    rw [int64_eq (by omega) bounded] at empty
    omega
  obtain ⟨nodes, front, back, inserted, values, split, elements, before, after⟩ :=
    Splay.insert_spec hdr.fresh consistent absent
  rw [inserted]
  refine ⟨_, front, back, rfl, split, ?_⟩
  have pages : hdr.pages = front.map heap ++ back.map heap := by
    rw [← List.map_append, ← split]
    exact map_congr_left fun q member => (kept q member).symm
  rw [split] at good
  have outside : hdr.fresh ∉ hdr.nodes.toList := fun member =>
    absurd (wf.fresh _ member) (Nat.lt_irrefl _)
  have before_stop : ∀ q ∈ front, (heap q).stop ≤ offset := by
    intro q member
    have starts := nodeCompare_pos (before q member)
    rw [new] at starts
    refine stop_le_of_vacant vacant ?_ starts
    rw [pages]
    exact List.mem_append_left _ (List.mem_map_of_mem member)
  refine ⟨⟨?_, ?_, ?_⟩, values, ?_, ?_, ?_, good, ?_, ?_, ?_, ?_, ?_⟩
  · rw [values, nodup_middle, ← split, nodup_cons]
    exact ⟨outside, wf.nodup⟩
  · intro q member
    rw [values] at member
    rcases mem_append.mp member with first | rest
    · exact Nat.lt_succ_of_lt (wf.fresh q (by rw [split]; simp [first]))
    · rcases mem_cons.mp rest with rfl | last
      · exact Nat.lt_succ_self _
      · exact Nat.lt_succ_of_lt (wf.fresh q (by rw [split]; simp [last]))
  · rw [elements, wf.elements, values, split]
    simp [Nat.add_assoc]
  · dsimp only
    rw [new]
    exact ⟨rfl, by simp, nonneg, by simpa [MemNode.stop] using bounded⟩
  · simp [new, MemNode.stop]
  · simp [new, SM_PAGE_SIZE]
  · simpa [new] using before_stop
  · intro q member
    have starts := nodeCompare_neg (after q member)
    rwa [new] at starts
  · rw [List.map_append, ← pages]
    exact wf.ordered
  · rw [MemHdr.bytes, MemHdr.bytes, MemHdr.pages, values, List.map_append, List.map_cons, pages]
    exact bytesOf_insert_empty (by simp [new]) _ _
  · split
    · rename_i none
      rw [none, List.map_nil, List.append_nil] at pages
      dsimp only
      rw [wf.hi, pages]
      refine stopOf_le nonneg ?_
      simpa using before_stop
    · rename_i some
      dsimp only
      rw [wf.hi, pages, stopOf_append (by simpa using some)]

variable {p : ℕ}

theorem Receives.of_reshaped {middle after : MemHdr} {front back : List ℕ}
    (reshaped : Reshaped hdr middle) (receives : Receives middle after p offset front back) :
    Receives hdr after p offset front back :=
  { receives with
    bytes := receives.bytes.trans reshaped.bytes }

/-- A page that ends where a byte is missing takes that byte, if it has space. -/
theorem receives_page (wf : hdr.WF) (vacant : hdr.bytes offset = none)
    (member : p ∈ hdr.nodes.toList) (stop : (hdr.heap p).stop = offset)
    (space : (hdr.heap p).data.length < SM_PAGE_SIZE) :
    ∃ front back, Receives hdr hdr p offset front back := by
  obtain ⟨front, back, split⟩ := append_of_mem member
  have pages : hdr.pages = front.map hdr.heap ++ hdr.heap p :: back.map hdr.heap := by
    rw [MemHdr.pages, split, List.map_append, List.map_cons]
  have ordered := wf.ordered
  rw [pages, Ordered, pairwise_append, pairwise_cons] at ordered
  obtain ⟨-, ⟨later, -⟩, earlier⟩ := ordered
  have mem : ∀ q ∈ front ++ back, hdr.heap q ∈ hdr.pages := by
    intro q member
    rw [pages, mem_append, mem_cons]
    rcases mem_append.mp member with first | last
    · exact .inl (List.mem_map_of_mem first)
    · exact .inr (.inr (List.mem_map_of_mem last))
  have page : hdr.heap p ∈ hdr.pages := by simp [pages]
  refine ⟨front, back, wf.toLinked, split, (wf.good _ page).1, stop, space, ?_, ?_, ?_, ?_, rfl, ?_⟩
  · exact fun q member => wf.good _ (mem q member)
  · intro q member
    exact earlier _ (List.mem_map_of_mem member) _ (by simp)
  · intro q member
    have starts := later _ (List.mem_map_of_mem member)
    have ends := MemNode.offset_lt_stop (wf.good _ (mem q (by simp [member]))).2
    have missing := bytesOf_eq_none.mp vacant _ (mem q (by simp [member]))
    omega
  · refine wf.ordered.sublist ?_
    rw [pages, List.map_append]
    exact (sublist_cons_self _ _).append_left _
  · rw [wf.hi, pages]
    split
    · rename_i none
      rw [none, List.map_nil, stopOf_concat, stop]
    · rename_i some
      rw [append_cons, stopOf_append (by simpa using some)]

theorem nodeToRecieve_spec (wf : hdr.WF) (nonneg : 0 ≤ offset) (bounded : offset < 2 ^ 63)
    (vacant : hdr.bytes offset = none) :
    ∃ p after front back, hdr.nodeToRecieve offset = .ok (p, after) ∧
      Receives hdr after p offset front back := by
  have append : ∀ {middle : MemHdr}, Reshaped hdr middle →
      ∃ p after front back, middle.appendNode offset = .ok (p, after) ∧
        Receives hdr after p offset front back := by
    intro middle reshaped
    have missing : middle.bytes offset = none := by rwa [reshaped.bytes]
    obtain ⟨after, front, back, appended, -, receives⟩ :=
      appendNode_spec (reshaped.wf wf) nonneg bounded missing
    exact ⟨_, after, front, back, appended, receives.of_reshaped reshaped⟩
  unfold MemHdr.nodeToRecieve
  by_cases empty : hdr.nodes.elements = 0
  · obtain ⟨after, front, back, appended, split, receives⟩ :=
      appendNode_spec wf nonneg bounded vacant
    rw [if_pos empty, appended]
    rw [wf.elements, split, length_eq_zero_iff, append_eq_nil_iff] at empty
    obtain ⟨rfl, rfl⟩ := empty
    have start : after.nodes.start = some hdr.fresh := by
      rw [Splay.start_eq, receives.split]
      rfl
    refine ⟨hdr.fresh, after, [], [], ?_, receives⟩
    simp only [Except.bind, start]
  · rw [if_neg empty]
    by_cases positive : 0 < offset
    · rw [if_pos positive]
      obtain ⟨reshaped, found⟩ := find_spec wf { offset := offset - 1, length := 1 }
      generalize hdr.find { offset := offset - 1, length := 1 } = result at reshaped found ⊢
      obtain ⟨_ | p, middle⟩ := result
      · exact append reshaped
      · dsimp only at reshaped found ⊢
        have missing : middle.bytes offset = none := by rwa [reshaped.bytes]
        have page : hdr.heap p ∈ hdr.pages := List.mem_map_of_mem found.1
        have good := (wf.good _ page).1
        have stop : (hdr.heap p).stop = offset := by
          obtain ⟨ends, starts, -⟩ := (nodeCompare_eq_zero good).mp found.2
          simp only [MemNode.dataEnd, Nat.cast_one, sub_add_cancel] at starts
          rw [int64_eq (by omega) bounded] at starts
          have := stop_le_of_vacant vacant page starts.le
          dsimp only at ends
          omega
        by_cases accepts : (middle.heap p).canAccept offset = true
        · rw [if_pos accepts]
          rw [reshaped.heap] at accepts
          have space : (hdr.heap p).data.length < SM_PAGE_SIZE := by
            simp only [MemNode.canAccept, MemNode.space, good.length, Bool.and_eq_true,
              decide_eq_true_iff] at accepts
            omega
          rw [← reshaped.heap] at stop space
          obtain ⟨front, back, receives⟩ := receives_page (reshaped.wf wf) missing
            (by rw [reshaped.toList]; exact found.1) stop space
          exact ⟨p, middle, front, back, rfl, receives.of_reshaped reshaped⟩
        · rw [if_neg accepts]
          exact append reshaped
    · rw [if_neg positive]
      exact append ⟨rfl, rfl, rfl, rfl, rfl⟩

/-! ## Writing -/

/-- The page after more bytes. -/
theorem byteAt_append (node : MemNode) (more : Bytes) (i : ℤ) :
    { node with
      length := node.length + more.length, data := node.data ++ more : MemNode }.byteAt i =
      if node.stop ≤ i ∧ i < node.stop + more.length then more[(i - node.stop).toNat]?
      else node.byteAt i := by
  have stop : node.stop = node.offset + node.data.length := rfl
  simp only [MemNode.byteAt]
  by_cases inside : node.stop ≤ i ∧ i < node.stop + more.length
  · rw [if_pos inside, if_pos (by omega), List.getElem?_append_right (by omega)]
    congr 1
    omega
  · rw [if_neg inside]
    by_cases after : node.offset ≤ i
    · rw [if_pos after, if_pos after]
      by_cases early : (i - node.offset).toNat < node.data.length
      · rw [List.getElem?_append_left early]
      · rw [List.getElem?_eq_none (by rw [length_append]; omega), List.getElem?_eq_none (by omega)]
    · rw [if_neg after, if_neg after]

theorem bytesOf_middle {after : MemNode} (same : after.byteAt i = node.byteAt i) :
    bytesOf (front ++ after :: back) i = bytesOf (front ++ node :: back) i := by
  rw [bytesOf_append, bytesOf_append, bytesOf_cons, bytesOf_cons, same]

section Write

variable {hdr after : MemHdr} {p : ℕ} {offset : ℤ} {front back : List ℕ} {source : Bytes}

/-- The pages after `p` start after the bytes that are about to be written. -/
theorem Receives.room (receives : Receives hdr after p offset front back)
    (vacant : hdr.bytes.Vacant offset source.length) :
    ∀ q ∈ back, offset + source.length ≤ (after.heap q).offset := by
  intro q member
  have starts := receives.later q member
  have ends := MemNode.offset_lt_stop (receives.good q (by simp [member])).2
  by_contra inside
  have missing := vacant (after.heap q).offset starts.le (by omega)
  rw [← receives.bytes] at missing
  have page : after.heap q ∈ after.pages := by
    rw [MemHdr.pages, receives.split]
    simp only [List.map_append, List.map_cons, mem_append, mem_cons]
    exact .inr (.inr (List.mem_map_of_mem member))
  exact bytesOf_eq_none.mp missing _ page ⟨le_rfl, ends⟩

/-- The page at `p` once `more` has been added to it. -/
def MemHdr.extend (hdr : MemHdr) (p : ℕ) (more : Bytes) (inmem_hi : ℤ) : MemHdr :=
  { hdr with
    inmem_hi
    heap := update hdr.heap p { hdr.heap p with
      length := (hdr.heap p).length + more.length
      data := (hdr.heap p).data ++ more } }

section

variable (receives : Receives hdr after p offset front back)
include receives

theorem Receives.pages_extend (more : Bytes) (inmem_hi : ℤ) :
    (after.extend p more inmem_hi).pages =
      front.map after.heap ++ { after.heap p with
        length := (after.heap p).length + more.length
        data := (after.heap p).data ++ more : MemNode } :: back.map after.heap := by
  have nodup := receives.linked.nodup
  rw [receives.split, nodup_middle, nodup_cons] at nodup
  have kept : ∀ q ∈ front ++ back, (after.extend p more inmem_hi).heap q = after.heap q := by
    intro q member
    refine update_of_ne ?_ _ _
    rintro rfl
    exact nodup.1 member
  rw [MemHdr.pages, show (after.extend p more inmem_hi).nodes = after.nodes from rfl,
    receives.split, List.map_append, List.map_cons]
  rw [map_congr_left fun q member => kept q (by simp [member]),
    map_congr_left fun q member => kept q (List.mem_append_right front member)]
  simp [MemHdr.extend]

theorem Receives.bytes_extend (more : Bytes) (inmem_hi : ℤ) :
    (after.extend p more inmem_hi).bytes = hdr.bytes.put offset more := by
  funext i
  rw [MemHdr.bytes, receives.pages_extend, ByteMap.put]
  by_cases inside : offset ≤ i ∧ i < offset + more.length
  · have none : bytesOf (front.map after.heap) i = none := by
      rw [bytesOf_eq_none]
      intro node member
      obtain ⟨q, earlier, rfl⟩ := List.mem_map.mp member
      have := receives.before q earlier
      have := receives.stop
      rw [MemNode.stop] at this
      omega
    rw [if_pos inside, bytesOf_append, none, Option.none_or, bytesOf_cons, byteAt_append,
      receives.stop, if_pos inside, List.getElem?_eq_getElem (by omega), Option.some_or]
  · have same := byteAt_append (after.heap p) more i
    rw [receives.stop, if_neg inside] at same
    rw [if_neg inside, bytesOf_middle same, ← receives.bytes, MemHdr.bytes, MemHdr.pages,
      receives.split, List.map_append, List.map_cons]

/-- The invariant holds again after bytes have been added. -/
theorem Receives.wf_extend {more : Bytes} (ne : more ≠ [])
    (page : (after.heap p).data.length + more.length ≤ SM_PAGE_SIZE)
    (bounded : offset + more.length < 2 ^ 63)
    (room : ∀ q ∈ back, offset + more.length ≤ (after.heap q).offset) {inmem_hi : ℤ}
    (hi : inmem_hi = if after.inmem_hi ≤ offset then offset + more.length else after.inmem_hi) :
    (after.extend p more inmem_hi).WF := by
  have stop := receives.stop
  have pages := receives.pages_extend more inmem_hi
  generalize added : ({ after.heap p with
    length := (after.heap p).length + more.length
    data := (after.heap p).data ++ more } : MemNode) = node at pages
  have node_stop : node.stop = offset + more.length := by
    rw [← added, ← stop]
    simp only [MemNode.stop, length_append]
    omega
  have node_good : node.Good ∧ node.data ≠ [] := by
    refine ⟨⟨?_, ?_, ?_, by omega⟩, ?_⟩
    · rw [← added]
      simp [receives.node.length]
    · rw [← added]
      simpa using page
    · rw [← added]
      exact receives.node.nonneg
    · rw [← added]
      simp [ne]
  have ordered := receives.ordered
  rw [List.map_append, Ordered, pairwise_append] at ordered
  refine ⟨⟨receives.linked.nodup, receives.linked.fresh, receives.linked.elements⟩, ?_, ?_, ?_⟩
  · rw [pages]
    intro other member
    rcases mem_append.mp member with first | rest
    · obtain ⟨q, earlier, rfl⟩ := List.mem_map.mp first
      exact receives.good q (by simp [earlier])
    · rcases mem_cons.mp rest with rfl | last
      · exact node_good
      · obtain ⟨q, later, rfl⟩ := List.mem_map.mp last
        exact receives.good q (by simp [later])
  · rw [pages, Ordered, pairwise_append, pairwise_cons]
    refine ⟨ordered.1, ⟨?_, ordered.2.1⟩, ?_⟩
    · intro other member
      obtain ⟨q, later, rfl⟩ := List.mem_map.mp member
      rw [node_stop]
      exact room q later
    · intro other member next member'
      rcases mem_cons.mp member' with rfl | later
      · obtain ⟨q, earlier, rfl⟩ := List.mem_map.mp member
        rw [← added]
        exact receives.before q earlier
      · exact ordered.2.2 other member next later
  · rw [pages]
    show inmem_hi = _
    have old := receives.hi
    by_cases none : back = []
    · rw [if_pos none] at old
      rw [hi, if_pos old, none, List.map_nil, stopOf_concat, node_stop]
    · rw [if_neg none] at old
      have above : offset < stopOf (back.map after.heap) := by
        refine lt_stopOf (by simpa using none) ?_
        intro other member
        obtain ⟨q, later, rfl⟩ := List.mem_map.mp member
        have := MemNode.offset_lt_stop (receives.good q (by simp [later])).2
        have := receives.later q later
        omega
      rw [append_cons, stopOf_append (by simpa using none), ← old, hi, if_neg (by omega)]

/-- `writeAvailable` takes some of the bytes, without failing. -/
theorem writeAvailable_spec (ne : source ≠ []) (vacant : hdr.bytes.Vacant offset source.length)
    (nonneg : 0 ≤ offset) (bounded : offset + source.length < 2 ^ 63) :
    ∃ wrote final, after.writeAvailable p offset source = .ok (wrote, final) ∧ wrote ≠ 0 ∧
      wrote ≤ source.length ∧ final.WF ∧ final.bytes = hdr.bytes.put offset (source.take wrote) := by
  have node := receives.node
  have base := node.nonneg
  have space := receives.space
  have stop : (after.heap p).offset + (after.heap p).length = offset := by
    rw [node.length]
    exact receives.stop
  have positive := length_pos_iff.mpr ne
  have length : (source.take (min source.length (after.heap p).space)).length =
      min source.length (after.heap p).space := by
    rw [length_take]
    omega
  have wrote : min source.length (after.heap p).space ≠ 0 := by
    simp only [MemNode.space, node.length]
    omega
  have room := receives.room vacant
  have high : int64 (offset + min source.length (after.heap p).space) =
      offset + min source.length (after.heap p).space := int64_eq (by omega) (by omega)
  have wf : (after.extend p (source.take (min source.length (after.heap p).space))
      (if after.inmem_hi ≤ offset then int64 (offset + min source.length (after.heap p).space)
        else after.inmem_hi)).WF := by
    refine receives.wf_extend ?_ ?_ (by omega) ?_ ?_
    · intro nothing
      rw [nothing, length_nil] at length
      omega
    · rw [length]
      simp only [MemNode.space, node.length]
      omega
    · intro q later
      have := room q later
      omega
    · rw [high, length]
  refine ⟨_, _, ?_, wrote, min_le_left _ _, wf, receives.bytes_extend _ _⟩
  have accepts : (after.heap p).canAccept offset = true := by
    rw [MemNode.canAccept, node.dataEnd_eq, receives.stop]
    simp only [MemNode.space, node.length, decide_true, Bool.true_and, decide_eq_true_iff]
    omega
  have same : ({ after with
      inmem_hi := if after.inmem_hi ≤ offset then
        int64 (offset + min source.length (after.heap p).space) else after.inmem_hi
      heap := update after.heap p { after.heap p with
        length := (after.heap p).length + min source.length (after.heap p).space
        data := (after.heap p).data ++
          source.take (min source.length (after.heap p).space) } } : MemHdr) =
      after.extend p (source.take (min source.length (after.heap p).space))
        (if after.inmem_hi ≤ offset then int64 (offset + min source.length (after.heap p).space)
          else after.inmem_hi) := by
    rw [MemHdr.extend, length]
  rw [MemHdr.writeAvailable]
  dsimp only
  rw [if_neg (by rw [stop, int64_eq (by omega) (by omega)]; simp), if_neg (by simp [accepts]),
    if_neg (by rw [int64_eq (by omega) (by omega)]; omega), same, endOffset_eq wf]
  rfl

end

end Write

/-- The loop of `write` puts all bytes in place. -/
theorem writeLoop_spec {fuel : ℕ} (wf : hdr.WF) {source : Bytes} (enough : source.length ≤ fuel)
    (nonneg : 0 ≤ offset) (bounded : offset + source.length < 2 ^ 63)
    (vacant : hdr.bytes.Vacant offset source.length) :
    ∃ final, MemHdr.writeLoop fuel hdr offset source = .ok final ∧ final.WF ∧
      final.bytes = hdr.bytes.put offset source := by
  induction fuel generalizing hdr offset source with
  | zero =>
      have empty : source = [] := length_eq_zero_iff.mp (by omega)
      subst empty
      exact ⟨hdr, rfl, wf, by rw [ByteMap.put_nil]⟩
  | succ fuel ih =>
      by_cases empty : source = []
      · subst empty
        exact ⟨hdr, rfl, wf, by rw [ByteMap.put_nil]⟩
      · have positive := length_pos_iff.mpr empty
        obtain ⟨p, after, front, back, target, receives⟩ := nodeToRecieve_spec wf nonneg
          (by omega) (vacant offset le_rfl (by omega))
        obtain ⟨wrote, middle, written, some, le, wf', bytes⟩ :=
          writeAvailable_spec receives empty vacant nonneg bounded
        have length : (source.take wrote).length = wrote := by
          rw [length_take]
          omega
        have whole := take_append_drop wrote source
        have next : int64 (offset + wrote) = offset + wrote := int64_eq (by omega) (by omega)
        have later : middle.bytes.Vacant (offset + wrote) (source.drop wrote).length := by
          rw [← whole] at vacant
          have := ByteMap.vacant_put vacant
          rwa [length, ← bytes] at this
        obtain ⟨final, loop, wf'', bytes'⟩ := ih wf' (by rw [length_drop]; omega)
          (by omega) (by rw [length_drop]; omega) later
        refine ⟨final, ?_, wf'', ?_⟩
        · rw [MemHdr.writeLoop, if_neg empty, target]
          simp only [Except.bind, written, if_neg some, next]
          exact loop
        · have put := ByteMap.put_put hdr.bytes offset (source.take wrote) (source.drop wrote)
          rw [length, whole] at put
          rw [bytes', bytes, put]

variable {length : ℕ}

theorem dataEnd_range (nonneg : 0 ≤ offset) (bounded : offset + length < 2 ^ 63) :
    ({ offset, length } : MemNode).dataEnd = offset + length := by
  simp only [MemNode.dataEnd]
  exact int64_eq (by omega) bounded

/-- `unionNotEmpty` tells whether a byte of the range is present. -/
theorem unionNotEmpty_spec (wf : hdr.WF) (nonneg : 0 ≤ offset)
    (bounded : offset + length < 2 ^ 63) :
    ∃ found after, hdr.unionNotEmpty offset length = .ok (found, after) ∧ Reshaped hdr after ∧
      (found = true ↔ ¬ hdr.bytes.Vacant offset length) := by
  obtain ⟨reshaped, found⟩ := find_spec wf { offset, length }
  rw [MemHdr.unionNotEmpty, if_neg (by simpa using nonneg)]
  have high := dataEnd_range nonneg bounded
  generalize hdr.find { offset, length } = result at reshaped found ⊢
  obtain ⟨_ | p, after⟩ := result
  · refine ⟨false, after, rfl, reshaped, ?_⟩
    simp only [Bool.false_eq_true, false_iff, not_not]
    intro i low above
    rw [MemHdr.bytes, bytesOf_eq_none]
    intro node member inside
    refine found node member ((nodeCompare_eq_zero (wf.good node member).1).mpr ?_)
    rw [high]
    dsimp only
    omega
  · refine ⟨true, after, rfl, reshaped, ?_⟩
    have page : hdr.heap p ∈ hdr.pages := List.mem_map_of_mem found.1
    have overlap := (nodeCompare_eq_zero (wf.good _ page).1).mp found.2
    rw [high] at overlap
    dsimp only at overlap
    simp only [true_iff]
    intro vacant
    have missing := vacant (max offset (hdr.heap p).offset) (by omega) (by omega)
    exact bytesOf_eq_none.mp missing _ page (by omega)

theorem write_spec (wf : hdr.WF) {data : Bytes} (nonneg : 0 ≤ offset)
    (bounded : offset + data.length < 2 ^ 63) (vacant : hdr.bytes.Vacant offset data.length) :
    ∃ final, hdr.write offset data = .ok final ∧ final.WF ∧
      final.bytes = hdr.bytes.put offset data := by
  obtain ⟨found, after, union, reshaped, overlap⟩ := unionNotEmpty_spec wf nonneg bounded
  have apart : found = false := by simpa [vacant] using overlap
  have same := reshaped.bytes
  obtain ⟨final, loop, wf', bytes⟩ := writeLoop_spec (reshaped.wf wf) le_rfl nonneg bounded
    (by rwa [same])
  refine ⟨final, ?_, wf', by rw [bytes, same]⟩
  rw [MemHdr.write, endOffset_eq wf]
  simp only [Except.bind, union, apart, Bool.false_eq_true, if_false]
  rw [if_neg (by simpa using nonneg)]
  exact loop

end Mem
end Squid
