import Squid.Store.MemHdrWrite

/-!
# `mem_hdr` is a sparse byte map

What is written can be read back: after any writes to bytes that are not present, the functions of
`mem_hdr` do what they would do on the map that the writes describe.
-/

namespace Squid
namespace Mem

open CRuntime List

/-! ## Reading -/

/-- `out` is what the map has from an offset on, up to a length or the first missing byte. -/
structure ByteMap.Reads (bytes : ByteMap) (offset : ℤ) (length : ℕ) (out : Bytes) : Prop where
  short : out.length ≤ length
  present : ∀ k < out.length, bytes (offset + k) = out[k]?
  stops : out.length = length ∨ bytes (offset + out.length) = none

variable {length : ℕ} {offset : ℤ}

theorem ByteMap.Reads.append {bytes : ByteMap} {front back : Bytes} (fits : front.length ≤ length)
    (first : ∀ k < front.length, bytes (offset + k) = front[k]?)
    (rest : bytes.Reads (offset + front.length) (length - front.length) back) :
    bytes.Reads offset length (front ++ back) := by
  have short := rest.short
  refine ⟨by rw [length_append]; omega, ?_, ?_⟩
  · intro k inside
    rw [length_append] at inside
    by_cases early : k < front.length
    · rw [List.getElem?_append_left early]
      exact first k early
    · have later := rest.present (k - front.length) (by omega)
      rw [List.getElem?_append_right (by omega), ← later]
      congr 1
      omega
  · rw [length_append]
    rcases rest.stops with all | missing
    · exact .inl (by omega)
    · right
      rw [← missing]
      congr 1
      omega

variable {node : MemNode} {nodes : List MemNode}

theorem bytesOf_of_mem (ordered : Ordered nodes) (member : node ∈ nodes) {i : ℤ}
    (inside : node.offset ≤ i ∧ i < node.stop) : bytesOf nodes i = node.byteAt i := by
  obtain ⟨front, back, rfl⟩ := append_of_mem member
  have earlier : bytesOf front i = none := by
    rw [bytesOf_eq_none]
    intro other first
    have := (pairwise_append.mp ordered).2.2 other first node (by simp)
    omega
  have some : node.byteAt i ≠ none := fun none => MemNode.byteAt_eq_none.mp none inside
  obtain ⟨b, found⟩ := Option.ne_none_iff_exists'.mp some
  rw [bytesOf_append, earlier, Option.none_or, bytesOf_cons, found, Option.some_or]

/-- The page with the byte at `location`, if there is one. -/
def MemHdr.IsBlock (hdr : MemHdr) (location : ℤ) : Option ℕ → Prop
  | none => hdr.bytes location = none
  | some p => p ∈ hdr.nodes.toList ∧
      (hdr.heap p).offset ≤ location ∧ location < (hdr.heap p).stop

variable {hdr : MemHdr} {location : ℤ}

variable {p : Option ℕ}

theorem Reshaped.isBlock {after : MemHdr} (reshaped : Reshaped hdr after)
    (block : hdr.IsBlock location p) : after.IsBlock location p := by
  cases p with
  | none =>
      rw [MemHdr.IsBlock, reshaped.bytes]
      exact block
  | some p =>
      rw [MemHdr.IsBlock, reshaped.toList, reshaped.heap]
      exact block

theorem getBlockContainingLocation_spec {hdr : MemHdr} (wf : hdr.WF) {location : ℤ}
    (nonneg : 0 ≤ location) (bounded : location < 2 ^ 63) :
    Reshaped hdr (hdr.getBlockContainingLocation location).2 ∧
      hdr.IsBlock location (hdr.getBlockContainingLocation location).1 := by
  obtain ⟨reshaped, found⟩ := find_spec wf { offset := location, length := 1 }
  unfold MemHdr.getBlockContainingLocation
  generalize hdr.find { offset := location, length := 1 } = result at reshaped found ⊢
  obtain ⟨_ | p, after⟩ := result
  · refine ⟨reshaped, ?_⟩
    rw [MemHdr.IsBlock, MemHdr.bytes, bytesOf_eq_none]
    intro node member inside
    have good := (wf.good node member).1
    have bound := good.bounded
    have high : ({ offset := location, length := 1 } : MemNode).dataEnd = location + (1 : ℕ) :=
      dataEnd_range nonneg (by omega)
    refine found node member ((nodeCompare_eq_zero good).mpr ?_)
    rw [high]
    dsimp only
    omega
  · refine ⟨reshaped, found.1, ?_⟩
    have page : hdr.heap p ∈ hdr.pages := List.mem_map_of_mem found.1
    have overlap := (nodeCompare_eq_zero (wf.good _ page).1).mp found.2
    simp only [MemNode.dataEnd, Nat.cast_one, int64] at overlap
    omega

/-- What `copyAvailable` gives of a page. -/
theorem copyAvailable_spec (good : node.Good) {amount : ℕ}
    (inside : node.offset ≤ location ∧ location < node.stop) (positive : amount ≠ 0) :
    ∃ copied, MemHdr.copyAvailable node location amount = .ok copied ∧ copied ≠ [] ∧
      copied.length ≤ amount ∧ location + copied.length ≤ node.stop ∧
      ∀ k < copied.length, node.byteAt (location + k) = copied[k]? := by
  have stop : node.stop = node.offset + node.data.length := rfl
  rw [MemHdr.copyAvailable, if_neg (by omega), if_neg (by rw [good.dataEnd_eq]; omega), good.length]
  have length : ((node.data.drop (location - node.offset).toNat).take
      (min amount (node.data.length - (location - node.offset).toNat))).length =
        min amount (node.data.length - (location - node.offset).toNat) := by
    rw [length_take, length_drop]
    omega
  refine ⟨_, rfl, ?_, ?_, ?_, ?_⟩
  · rw [ne_eq, ← length_eq_zero_iff, length]
    omega
  · rw [length]
    omega
  · rw [length]
    omega
  · intro k early
    rw [length] at early
    rw [MemNode.byteAt, if_pos (by omega), List.getElem?_take, if_pos early, List.getElem?_drop]
    congr 1
    omega

theorem copyLoop_spec {fuel : ℕ} (wf : hdr.WF) {bytes_to_go : ℕ} (enough : bytes_to_go < fuel)
    (nonneg : 0 ≤ location) (block : hdr.IsBlock location p) :
    ∃ out after, MemHdr.copyLoop fuel hdr p location bytes_to_go = .ok (out, after) ∧
      Reshaped hdr after ∧ hdr.bytes.Reads location bytes_to_go out := by
  induction fuel generalizing hdr p location bytes_to_go with
  | zero => omega
  | succ fuel ih =>
      cases p with
      | none =>
          refine ⟨[], hdr, rfl, ⟨rfl, rfl, rfl, rfl, rfl⟩, by simp, by simp, .inr ?_⟩
          simpa [MemHdr.IsBlock] using block
      | some p =>
          rw [MemHdr.copyLoop]
          by_cases all : bytes_to_go = 0
          · rw [if_pos all]
            exact ⟨[], hdr, rfl, ⟨rfl, rfl, rfl, rfl, rfl⟩, by simp, by simp, .inl all.symm⟩
          · rw [if_neg all]
            obtain ⟨member, low, high⟩ := block
            have page : hdr.heap p ∈ hdr.pages := List.mem_map_of_mem member
            have good := (wf.good _ page).1
            have bound := good.bounded
            obtain ⟨copied, taken, some, fits, ends, first⟩ :=
              copyAvailable_spec good ⟨low, high⟩ all
            have next : int64 (location + copied.length) = location + copied.length :=
              int64_eq (by omega) (by omega)
            obtain ⟨reshaped, found⟩ := getBlockContainingLocation_spec wf
              (show 0 ≤ location + copied.length by omega) (by omega)
            rw [taken]
            simp only [Except.bind, if_neg some, next]
            generalize hdr.getBlockContainingLocation (location + copied.length) = result
              at reshaped found ⊢
            obtain ⟨q, middle⟩ := result
            have positive := length_pos_iff.mpr some
            obtain ⟨out, after, loop, reshaped', reads⟩ := ih (reshaped.wf wf)
              (show bytes_to_go - copied.length < fuel by omega)
              (show 0 ≤ location + copied.length by omega)
              (reshaped.isBlock found)
            refine ⟨copied ++ out, after, by simp only [loop, Except.map], reshaped.trans reshaped',
              ByteMap.Reads.append fits ?_ (by rwa [reshaped.bytes] at reads)⟩
            intro k early
            rw [← first k early]
            exact bytesOf_of_mem wf.ordered page (by omega)

/-- `copy` gives what is there, from a byte that is present on. -/
theorem copy_spec (wf : hdr.WF) (nonneg : 0 ≤ offset) (positive : 0 < length)
    (bounded : offset + length < 2 ^ 63) (present : hdr.bytes offset ≠ none) :
    ∃ out after, hdr.copy offset length = .ok (out, after) ∧ Reshaped hdr after ∧
      hdr.bytes.Reads offset length out := by
  have some : hdr.nodes.elements ≠ 0 := by
    rw [wf.elements, ne_eq, length_eq_zero_iff]
    intro none
    apply present
    rw [MemHdr.bytes, MemHdr.pages, none]
    rfl
  have range : int64 (offset + length) = offset + length := int64_eq (by omega) bounded
  obtain ⟨reshaped, block⟩ := getBlockContainingLocation_spec wf nonneg (by omega)
  rw [MemHdr.copy, if_neg (by rw [range]; omega), if_neg some, if_neg (by omega), if_neg (by omega)]
  generalize hdr.getBlockContainingLocation offset = result at reshaped block ⊢
  obtain ⟨_ | p, middle⟩ := result
  · exact absurd block present
  · obtain ⟨out, after, loop, reshaped', reads⟩ := copyLoop_spec (reshaped.wf wf)
      (Nat.lt_succ_self length) nonneg (reshaped.isBlock block)
    exact ⟨out, after, loop, reshaped.trans reshaped', by rwa [reshaped.bytes] at reads⟩

/-! ## Runs -/

/-- `write` calls one after the other. -/
def MemHdr.writes : MemHdr → List (ℤ × Bytes) → Except Fault MemHdr
  | hdr, [] => .ok hdr
  | hdr, (offset, data) :: calls => (hdr.write offset data).bind fun hdr => hdr.writes calls

/-- The map that the calls describe. -/
def ByteMap.puts : ByteMap → List (ℤ × Bytes) → ByteMap
  | bytes, [] => bytes
  | bytes, (offset, data) :: calls => (bytes.put offset data).puts calls

/-- No call writes before the start or to bytes that are present. -/
def ByteMap.Admits : ByteMap → List (ℤ × Bytes) → Prop
  | _, [] => True
  | bytes, (offset, data) :: calls =>
      0 ≤ offset ∧ bytes.Vacant offset data.length ∧ (bytes.put offset data).Admits calls

/-- One past the highest byte. -/
structure ByteMap.IsEnd (bytes : ByteMap) (stop : ℤ) : Prop where
  above : ∀ i, bytes i ≠ none → i < stop
  reached : stop = 0 ∧ (∀ i, bytes i = none) ∨ bytes (stop - 1) ≠ none

/-- The `mem_hdr` does what a byte map does. -/
structure Refines (hdr : MemHdr) (bytes : ByteMap) : Prop where
  pages : ∀ node ∈ hdr.pages, node.data ≠ [] ∧ node.data.length ≤ SM_PAGE_SIZE
  ordered : hdr.pages.Pairwise fun a b => a.stop ≤ b.offset
  endOffset : ∃ stop, hdr.endOffset = .ok stop ∧ bytes.IsEnd stop
  unionNotEmpty : ∀ (offset : ℤ) (length : ℕ), 0 ≤ offset → offset + length < 2 ^ 63 →
    ∃ found after, hdr.unionNotEmpty offset length = .ok (found, after) ∧
      (found = true ↔ ∃ i, offset ≤ i ∧ i < offset + length ∧ bytes i ≠ none)
  copy : ∀ (offset : ℤ) (length : ℕ), 0 ≤ offset → 0 < length → offset + length < 2 ^ 63 →
    bytes offset ≠ none →
    ∃ out after, hdr.copy offset length = .ok (out, after) ∧ bytes.Reads offset length out

theorem isEnd_stopOf (ordered : Ordered nodes) (nonempty : ∀ node ∈ nodes, node.data ≠ []) :
    (bytesOf nodes).IsEnd (stopOf nodes) := by
  rcases eq_nil_or_concat nodes with rfl | ⟨front, last, rfl⟩
  · exact ⟨fun i present => absurd rfl present, .inl ⟨rfl, fun i => rfl⟩⟩
  · rw [concat_eq_append] at ordered nonempty ⊢
    have lastly := MemNode.offset_lt_stop (nonempty last (by simp))
    rw [stopOf_concat]
    refine ⟨?_, .inr ?_⟩
    · intro i present
      rw [ne_eq, bytesOf_eq_none] at present
      push Not at present
      obtain ⟨node, member, -, inside⟩ := present
      rcases mem_append.mp member with earlier | same
      · have := (pairwise_append.mp ordered).2.2 node earlier last (by simp)
        omega
      · rwa [mem_singleton.mp same] at inside
    · rw [ne_eq, bytesOf_eq_none]
      intro none
      exact none last (by simp) (by omega)

theorem refines_of_wf (wf : hdr.WF) : Refines hdr hdr.bytes where
  pages node member := ⟨(wf.good node member).2, (wf.good node member).1.page⟩
  ordered := wf.ordered
  endOffset := ⟨_, endOffset_eq wf,
    isEnd_stopOf wf.ordered fun node member => (wf.good node member).2⟩
  unionNotEmpty offset length nonneg bounded := by
    obtain ⟨found, after, union, -, overlap⟩ := unionNotEmpty_spec wf nonneg bounded
    refine ⟨found, after, union, ?_⟩
    rw [overlap, ByteMap.Vacant]
    push Not
    rfl
  copy offset length nonneg positive bounded present := by
    obtain ⟨out, after, copied, -, reads⟩ := copy_spec wf nonneg positive bounded present
    exact ⟨out, after, copied, reads⟩

theorem writes_spec (wf : hdr.WF) {calls : List (ℤ × Bytes)} (admits : hdr.bytes.Admits calls)
    (fits : ∀ call ∈ calls, call.1 + call.2.length < 2 ^ 63) :
    ∃ final, hdr.writes calls = .ok final ∧ final.WF ∧ final.bytes = hdr.bytes.puts calls := by
  induction calls generalizing hdr with
  | nil => exact ⟨hdr, rfl, wf, rfl⟩
  | cons call calls ih =>
      obtain ⟨offset, data⟩ := call
      obtain ⟨nonneg, vacant, later⟩ := admits
      obtain ⟨middle, written, wf', bytes⟩ :=
        write_spec wf nonneg (fits (offset, data) (by simp)) vacant
      rw [← bytes] at later
      obtain ⟨final, rest, wf'', bytes'⟩ := ih wf' later fun c member => fits c (by simp [member])
      refine ⟨final, ?_, wf'', by rw [bytes', bytes, ByteMap.puts]⟩
      rw [MemHdr.writes, written]
      exact rest

/-- From an empty `mem_hdr`, writes to bytes that are not present refine the byte map, as long as
the offsets stay in the range of `int64_t`. -/
theorem refines_writes {calls : List (ℤ × Bytes)} (admits : ByteMap.Admits (fun _ => none) calls)
    (fits : ∀ call ∈ calls, call.1 + call.2.length < 2 ^ 63) :
    ∃ hdr, MemHdr.writes {} calls = .ok hdr ∧ Refines hdr (ByteMap.puts (fun _ => none) calls) := by
  obtain ⟨final, written, wf, bytes⟩ := writes_spec wf_empty admits fits
  have refines := refines_of_wf wf
  rw [bytes] at refines
  exact ⟨final, written, refines⟩

/-- Two ranges with a gap, the higher one first. -/
theorem refines_writes_gap : ∃ hdr, MemHdr.writes {} [(10, [1, 2, 3]), (0, [7])] = .ok hdr ∧
    Refines hdr (ByteMap.puts (fun _ => none) [(10, [1, 2, 3]), (0, [7])]) := by
  refine refines_writes ⟨by decide, fun _ _ _ => rfl, by decide, ?_, trivial⟩ (by decide)
  intro i low high
  simp only [length_cons, length_nil] at high
  rw [ByteMap.put, if_neg (by omega)]

/-- A byte at the highest offset of all. -/
theorem not_refines_highest : ByteMap.Admits (fun _ => none) [(2 ^ 63 - 1, [0])] ∧
    ¬ ∃ hdr, MemHdr.writes {} [(2 ^ 63 - 1, [0])] = .ok hdr ∧
      Refines hdr (ByteMap.puts (fun _ => none) [(2 ^ 63 - 1, [0])]) := by
  refine ⟨⟨by decide, fun _ _ _ => rfl, trivial⟩, ?_⟩
  rintro ⟨hdr, written, refines⟩
  obtain ⟨stop, high, above, -⟩ := refines.endOffset
  have wrapped : ((MemHdr.writes {} [(2 ^ 63 - 1, [0])]).bind MemHdr.endOffset) =
      .ok (-2 ^ 63) := by
    decide
  rw [written] at wrapped
  have same : stop = -2 ^ 63 := by
    have := high.symm.trans wrapped
    simpa using this
  have inside := above (2 ^ 63 - 1) (by decide)
  omega

end Mem
end Squid
