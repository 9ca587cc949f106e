import Squid.Http.HttpHeaderMask

/-!
# The length of a header

`len` is kept up to date by the operations that add and delete entries.  Two operations miss it: the
copy constructor starts with the length of its source and then counts every copied entry again,
and the anonymizer replaces values without counting the difference.  In runs without these the
length is the packed size, as long as an `int` can hold it.
-/

namespace Squid
namespace HttpHeader

open CRuntime List

/-- The length is the packed size, as an `int`. -/
def LenExact (h : HttpHeader) : Prop := h.len = int32 (sizes h.live)

/-- The length is the packed size, and an `int` can hold it with so many bytes more. -/
def Counts (n : ℕ) (h : HttpHeader) : Prop := h.len = sizes h.live ∧ sizes h.live + n < 2 ^ 31

variable {h : HttpHeader} {n : ℕ}

theorem LenExact.counts (exact : h.LenExact) (small : sizes h.live + n < 2 ^ 31) : Counts n h :=
  ⟨exact.trans (int32_eq (by omega) (by omega)), small⟩

theorem Counts.covers (counts : Counts n h) : Covers h.len h.entries.reduceOption := by
  obtain ⟨same, small⟩ := counts
  rw [Covers, same, ← HttpHeader.live]
  exact ⟨le_rfl, by omega⟩

/-! ## Adding entries -/

/-- `addEntry` appends the entry and counts it; it does not stop at the length. -/
theorem addEntry_outcome (h : HttpHeader) (e : HttpHeaderEntry) :
    Outcome (fun after => after.live = h.live ++ [e] ∧ after.len = int32 (h.len + e.size))
      (· ≠ .negativeLen) (h.addEntry e) := by
  unfold addEntry
  split
  · exact Outcome.error (by simp)
  · exact Outcome.ok ⟨by simp [live, reduceOption_append], rfl⟩

theorem addAll_outcome (h : HttpHeader) (entries : List HttpHeaderEntry) :
    Outcome (fun after => after.live = h.live ++ entries) (· ≠ .negativeLen) (h.addAll entries) := by
  unfold addAll
  induction entries generalizing h with
  | nil => simp [Outcome, pure, Except.pure]
  | cons e entries ih =>
      rw [foldlM_cons]
      apply (addEntry_outcome h e).bind
      rintro after ⟨added, -⟩
      refine (ih after).mono fun last all => ?_
      rw [all, added, List.append_assoc, singleton_append]

/-! ## Deleting entries -/

theorem sizes_filter (del : HttpHeaderEntry → Bool) (entries : List HttpHeaderEntry) :
    sizes entries = sizes (entries.filter del) + sizes (entries.filter fun e => !del e) := by
  induction entries with
  | nil => rfl
  | cons e entries ih =>
      cases deleted : del e <;> simp [deleted, ih] <;> omega

/-- A length that was right stays right. -/
structure Cut (h after : HttpHeader) : Prop where
  exact : h.LenExact → after.LenExact
  counts : ∀ {n : ℕ}, Counts n h → Counts n after

/-- An operation stops at the length only if the length was wrong. -/
def Stops (h : HttpHeader) (a : Abort) : Prop :=
  a = .negativeLen → ¬ Covers h.len h.entries.reduceOption

/-- The length of what is left when the sizes of the other entries are taken off. -/
theorem cut_of_sizes {h after : HttpHeader} {removed : ℕ}
    (sum : sizes h.live = removed + sizes after.live)
    (len : ∀ total : ℤ, h.len = int32 total → after.len = int32 (total - removed)) :
    Cut h after := by
  have exact : h.LenExact → after.LenExact := by
    intro exact
    rw [LenExact, len _ exact]
    congr 1
    omega
  refine ⟨exact, fun {n} counts => ?_⟩
  obtain ⟨same, small⟩ := counts
  exact (exact (same.trans (int32_eq (by omega) (by omega)).symm)).counts (by omega)

theorem cut_of_deleted {del : HttpHeaderEntry → Bool}
    {gone kept : (HdrType → Bool) → HdrType → HdrType → Bool} {count : ℕ} {result : HttpHeader × ℕ}
    (deleted : Deleted del gone kept [] h.entries h count result) : Cut h result.1 :=
  cut_of_sizes (by rw [deleted.live]; exact sizes_filter del h.live) deleted.len

/-- A loop over the whole header. -/
theorem delLoop_cut (del : HttpHeaderEntry → Bool)
    (gone kept : (HdrType → Bool) → HdrType → HdrType → Bool) (h : HttpHeader) :
    Outcome (fun result => Cut h result.1) (Stops h) (delLoop del gone kept h.entries 0 h 0) := by
  refine (delLoop_outcome del gone kept [] h.entries h 0 rfl).imp
    (fun _ deleted => cut_of_deleted deleted) ?_
  rintro _ ⟨rfl, short⟩ _
  exact short

theorem Cut.refl (h : HttpHeader) : Cut h h := ⟨id, id⟩

/-- The mask does not matter for the length. -/
theorem Cut.withMask {after : HttpHeader} (cut : Cut h after) (mask : HdrType → Bool) :
    Cut h { after with mask := mask } := ⟨cut.exact, cut.counts⟩

theorem delById_cut (h : HttpHeader) (id : HdrType) :
    Outcome (fun result => Cut h result.1) (Stops h) (h.delById id) := by
  unfold HttpHeader.delById
  split
  · exact Outcome.error (by simp [Stops])
  · split
    · exact Cut.refl h
    · apply (delLoop_cut _ sameBits sameBits h).bind
      rintro ⟨after, count⟩ cut
      dsimp only
      split
      · exact Outcome.error (by simp [Stops])
      · exact cut.withMask _

theorem delByName_cut (h : HttpHeader) (name : Bytes) :
    Outcome (fun result => Cut h result.1) (Stops h) (h.delByName name) :=
  (delLoop_cut _ sameBits setBit { h with mask := fun _ => false }).imp
    (fun _ cut => ⟨cut.exact, cut.counts⟩) (fun _ stops => stops)

theorem refused_stops : ∀ a, Refused a → Stops h a := by
  rintro a (rfl | rfl) <;> simp [Stops]

theorem removeConnectionHeaderEntries_cut (h : HttpHeader) :
    Outcome (Cut h) (Stops h) h.removeConnectionHeaderEntries := by
  unfold removeConnectionHeaderEntries has
  simp only [reduceCtorEq, if_false]
  show Outcome _ _ (if h.mask .connection = true then _ else _)
  split
  · apply ((getList_outcome h _).imp (fun _ done => done) refused_stops).bind
    intro strConnection _
    apply (delLoop_cut _ sameBits sameBits h).bind
    rintro ⟨after, count⟩ cut
    show Cut h (if count = 0 then after else after.refreshMask)
    split
    · exact cut
    · exact cut.withMask _
  · exact Cut.refl h

/-- The second loop of `removeHopByHopEntries`. -/
theorem hopByHop_cut (h : HttpHeader) :
    Outcome (fun result => Cut h result.1) (Stops h)
      (delLoop (fun e => HdrType.hopByHopHeaders.contains e.id) clearBit sameBits h.entries 0 h 0) :=
  delLoop_cut _ clearBit sameBits h

theorem mangleList_outcome (h : HttpHeader) (mangle : ℕ → HttpHeaderEntry → Mangling) :
    Outcome (fun after =>
        after.live = (mangled mangle 0 h.entries).reduceOption ∧
        ∀ total : ℤ, h.len = int32 total →
          after.len = int32 (total - sizes (denied mangle 0 h.entries)))
      (Stops h) (h.mangleList mangle) := by
  have loop : Outcome (Mangled mangle [] h.entries h 0) (Stops h)
      (mangleLoop mangle h.entries 0 h 0) := by
    refine (mangleLoop_outcome mangle [] h.entries h 0 rfl).imp (fun _ mangled => mangled) ?_
    rintro a (rfl | ⟨rfl, short⟩)
    · simp [Stops]
    · exact fun _ => short
  apply loop.bind
  rintro ⟨after, count⟩ mangled
  have live : after.live = (HttpHeader.mangled mangle 0 h.entries).reduceOption := by
    rw [HttpHeader.live, show after.entries = _ from mangled.entries]
    rfl
  show _ ∧ _
  split
  · exact ⟨live, mangled.len⟩
  · exact ⟨live, mangled.len⟩

/-- `delAt` takes off the size of the entry. -/
theorem delAt_cut (h : HttpHeader) (pos : ℕ) : Outcome (Cut h) (Stops h) (h.delAt pos) := by
  by_cases found : ∃ e, h.entries[pos]? = some (some e)
  · obtain ⟨e, found⟩ := found
    obtain ⟨bound, here⟩ := List.getElem?_eq_some_iff.1 found
    have split : h.entries = h.entries.take pos ++ some e :: h.entries.drop (pos + 1) := by
      rw [← here, getElem_cons_drop, take_append_drop]
    have length : (h.entries.take pos).length = pos := length_take_of_le (by omega)
    have spec := delAt_spec h split
    rw [length] at spec
    have sum : sizes h.live = e.size +
        (sizes (h.entries.take pos).reduceOption + sizes (h.entries.drop (pos + 1)).reduceOption) := by
      rw [live, congrArg List.reduceOption split, reduceOption_append,
        reduceOption_cons_of_some, sizes_append, sizes_cons]
      omega
    rw [spec]
    split
    · rename_i negative
      refine Outcome.error fun _ covers => ?_
      obtain ⟨enough, small⟩ := covers
      rw [← live, sum] at enough
      rw [int32_eq (by omega) (by omega)] at negative
      omega
    · refine Outcome.ok (@cut_of_sizes _ _ e.size ?_ fun total same => ?_)
      · rw [sum, live, reduceOption_append, reduceOption_cons_of_none, sizes_append]
      · dsimp only
        rw [same, int32_sub]
  · unfold HttpHeader.delAt
    split
    · rename_i e here
      exact absurd ⟨e, here⟩ found
    · exact Outcome.error (by simp [Stops])

/-! ## Rules -/

theorem lenRules : Rules (fun _ => LenExact) (fun _ => True) where
  refused := fun _ _ => trivial
  mono := id
  empty := by simp [LenExact, empty, live, int32]
  addEntry := by
    intro _ h e exact
    refine (addEntry_outcome h e).imp ?_ fun _ _ => trivial
    rintro after ⟨live, len⟩
    rw [LenExact, live, len, exact, int32_add, sizes_append, sizes_cons, sizes_nil]
    push_cast
    rw [add_zero]
  insertEntry := by
    intro _ h e exact
    show int32 (h.len + e.size) = int32 (sizes (e :: h.live))
    rw [exact, int32_add, sizes_cons, Nat.cast_add, add_comm]
  findEntry := fun id _ => by
    cases HttpHeader.findEntry _ id <;> trivial
  delById := fun id exact =>
    (delById_cut _ id).imp (fun _ cut => cut.exact exact) fun _ _ => trivial
  delByName := fun name exact =>
    (delByName_cut _ name).imp (fun _ cut => cut.exact exact) fun _ _ => trivial

theorem Counts.stops (counts : Counts n h) : ∀ a, Stops h a → a ≠ .negativeLen := by
  rintro a stops rfl
  exact stops rfl counts.covers

theorem countsRules : Rules Counts (· ≠ .negativeLen) where
  refused := by rintro a (rfl | rfl) <;> simp
  mono := fun counts => ⟨counts.1, by have := counts.2; omega⟩
  empty := by simp [Counts, empty, live]
  addEntry := by
    intro n h e counts
    refine (addEntry_outcome h e).mono ?_
    rintro after ⟨live, len⟩
    obtain ⟨same, small⟩ := counts
    have size : sizes after.live = sizes h.live + e.size := by rw [live]; simp
    refine ⟨?_, by omega⟩
    rw [len, same, int32_eq (by omega) (by omega), size, Nat.cast_add]
  insertEntry := by
    intro n h e counts
    obtain ⟨same, small⟩ := counts
    show int32 (h.len + e.size) = sizes (e :: h.live) ∧ sizes (e :: h.live) + n < 2 ^ 31
    rw [sizes_cons, same, int32_eq (by omega) (by omega)]
    exact ⟨by push_cast; omega, by omega⟩
  findEntry := by
    intro n h id counts
    unfold HttpHeader.findEntry
    split
    · exact Outcome.error (by simp)
    · split
      · exact trivial
      · split
        · exact trivial
        · exact Outcome.error (by simp)
  delById := fun id counts => (delById_cut _ id).imp (fun _ cut => cut.counts counts) counts.stops
  delByName := fun name counts =>
    (delByName_cut _ name).imp (fun _ cut => cut.counts counts) counts.stops

/-! ## Copying -/

/-- There is nothing to delete in a header without entries. -/
theorem delLike_outcome (e : HttpHeaderEntry) (none : h.entries = []) :
    Outcome (fun after => after.entries = []) (· ≠ .negativeLen) (h.delLike e) := by
  unfold delLike
  split
  · unfold HttpHeader.delById
    split
    · exact Outcome.error (by simp)
    · split
      · exact none
      · rw [none]
        exact Outcome.error (by simp)
  · unfold HttpHeader.delByName
    rw [none]
    exact Outcome.ok rfl

/-- Updating a header without entries copies the entries. -/
theorem update_outcome (fresh : HttpHeader) (denied : HdrType → Bool) (none : h.entries = []) :
    Outcome (fun after => after.live = fresh.live.filter fun e => !denied e.id) (· ≠ .negativeLen)
      (h.update fresh denied) := by
  have cleared : Outcome (fun after => after.entries = []) (· ≠ .negativeLen)
      ((fresh.live.filter fun e => !denied e.id).foldlM delLike h) :=
    Outcome.foldlM none fun after e _ left => delLike_outcome e left
  apply cleared.bind
  intro cleared left
  refine (addAll_outcome cleared _).mono fun after all => ?_
  rw [all, live, left, reduceOption_nil, List.nil_append]

theorem assign_outcome (h source : HttpHeader) :
    Outcome (fun after => after.live = source.live ∧ after.len = source.len) (· ≠ .negativeLen)
      (h.assign source) := by
  unfold assign
  split
  · exact Outcome.error (by simp)
  · unfold HttpHeader.clean
    split
    · exact Outcome.error (by simp)
    · show Outcome _ _ (HttpHeader.update _ _ _ >>= _)
      apply (update_outcome source (fun _ => false) (h := HttpHeader.empty h.owner) rfl).bind
      intro after all
      exact ⟨all.trans (filter_eq_self.2 fun _ _ => rfl), rfl⟩

/-! ## Runs -/

/--
The operation does not miss the length: nothing is copy constructed from a header with entries,
and the values that the anonymizer puts in are in all as long as the ones they replace.
-/
def Keeps (h : HttpHeader) : Op → Prop
  | .copy source => source.live = []
  | .mangleList mangle =>
      sizes h.live = sizes (denied mangle 0 h.entries) +
        sizes (mangled mangle 0 h.entries).reduceOption
  | .addEntry _ | .insertEntry _ | .putInt _ _ | .putInt64 _ _ | .putTime _ _ _
  | .insertTime _ _ _ | .putStr _ _ | .putAuth _ _ | .putWarning _ _ _ | .putExt _ _ | .putCc _
  | .putContRange _ | .putRange _ | .putSc _ | .delById _ | .delByName _ | .delAt _ | .append _
  | .update _ _ | .parse _ _ | .clean | .assign _ | .removeConnectionHeaderEntries
  | .removeHopByHopEntries => True

/-- What an operation can add before it deletes. -/
def Op.growth : Op → ℕ
  | .parse _ block => lineBudget (splitLines block).1
  | .addEntry _ | .insertEntry _ | .putInt _ _ | .putInt64 _ _ | .putTime _ _ _
  | .insertTime _ _ _ | .putStr _ _ | .putAuth _ _ | .putWarning _ _ _ | .putExt _ _ | .putCc _
  | .putContRange _ | .putRange _ | .putSc _ | .delById _ | .delByName _ | .delAt _ | .append _
  | .update _ _ | .clean | .copy _ | .assign _ | .removeConnectionHeaderEntries
  | .removeHopByHopEntries | .mangleList _ => 0

theorem run_lenExact (op : Op) (exact : h.LenExact)
    (sources : ∀ other, op.source = some other → other.LenExact) (keeps : Keeps h op) :
    Outcome LenExact (fun _ => True) (op.run h) := by
  apply lenRules.run op exact
  intro special
  cases op with
  | delAt positions =>
      apply Outcome.bind (Outcome.foldlM exact fun after pos _ kept =>
        (delAt_cut after pos).imp (fun _ cut => cut.exact kept) fun _ _ => trivial)
      intro after kept
      exact kept
  | copy source =>
      have none : source.live = [] := keeps
      have len := sources source rfl
      rw [LenExact, none] at len
      show Outcome _ _ (HttpHeader.copy source)
      unfold HttpHeader.copy HttpHeader.update
      rw [none]
      exact Outcome.ok len
  | assign source =>
      refine (assign_outcome h source).imp ?_ fun _ _ => trivial
      rintro after ⟨live, len⟩
      rw [LenExact, live, len]
      exact sources source rfl
  | removeConnectionHeaderEntries =>
      exact (removeConnectionHeaderEntries_cut h).imp (fun _ cut => cut.exact exact) fun _ _ => trivial
  | removeHopByHopEntries =>
      apply ((removeConnectionHeaderEntries_cut h).imp (fun _ cut => cut.exact exact)
        fun _ _ => trivial).bind
      intro middle kept
      exact ((hopByHop_cut middle).imp (fun _ cut => cut.exact kept) fun _ _ => trivial).bind
        fun result left => left
  | mangleList mangle =>
      refine (mangleList_outcome h mangle).imp ?_ fun _ _ => trivial
      rintro after ⟨live, len⟩
      exact (cut_of_sizes (by rw [live]; exact keeps) len).exact exact
  | _ => cases special

/-! ## The assertion of `delAt` -/

section Assertion

variable {h : HttpHeader}

theorem addEntry_counts (h : HttpHeader) (e : HttpHeaderEntry) :
    Outcome (fun _ => True) (· ≠ .negativeLen) (h.addEntry e) :=
  (addEntry_outcome h e).mono fun _ _ => trivial

theorem create_counts (id : HdrType) (name value : Bytes) :
    Outcome (fun _ => True) (· ≠ .negativeLen) (HttpHeaderEntry.create id name value) :=
  (create_outcome id name value).imp (fun _ done => done) countsRules.refused

theorem putField_counts (type : FieldType) (h : HttpHeader) (id : HdrType) (text : Bytes) :
    Outcome (fun _ => True) (· ≠ .negativeLen) (putField type h id text) := by
  unfold putField
  split
  · exact Outcome.error (by simp)
  · exact (create_counts id [] text).bind fun e _ => addEntry_counts h e

theorem putPacked_counts (id : HdrType) (packed : Bytes) (counts : Counts 0 h) :
    Outcome (fun _ => True) (· ≠ .negativeLen) (putPacked id h packed) := by
  apply (countsRules.delById id counts).bind
  intro result _
  exact (create_counts id [] packed).bind fun e _ => addEntry_counts result.1 e

theorem update_counts (fresh : HttpHeader) (denied : HdrType → Bool) (counts : Counts 0 h) :
    Outcome (fun _ => True) (· ≠ .negativeLen) (h.update fresh denied) := by
  apply Outcome.bind (Outcome.foldlM counts fun after e _ kept => countsRules.delLike e kept)
  intro after _
  exact (addAll_outcome after _).mono fun _ _ => trivial

/-- An operation does not stop at the length if the length is right before it. -/
theorem run_counts (op : Op) (counts : Counts op.growth h) :
    Outcome (fun _ => True) (· ≠ .negativeLen) (op.run h) := by
  have zero : ∀ {number : ℤ} {x : Except Abort HttpHeader},
      Outcome (fun _ => True) (· ≠ .negativeLen) x →
        Outcome (fun _ => True) (· ≠ .negativeLen) (if number < 0 then .error .contract else x) := by
    intro number x outcome
    split
    · exact Outcome.error (by simp)
    · exact outcome
  cases op with
  | addEntry e => exact addEntry_counts h e
  | insertEntry e => exact trivial
  | putInt id number => exact zero (putField_counts .int h id _)
  | putInt64 id number => exact zero (putField_counts .int64 h id _)
  | putTime id htime text => exact zero (putField_counts .date1123 h id text)
  | insertTime id htime text =>
      show Outcome _ _ (HttpHeader.insertTime h id htime text)
      unfold insertTime
      split
      · exact Outcome.error (by simp)
      · exact (create_counts id [] text).bind fun e _ => trivial
  | putStr id str => exact putField_counts .str h id str
  | putAuth authScheme realm => exact putField_counts .str h .wwwAuthenticate _
  | putWarning visibleAppname code text => exact putField_counts .str h .warning _
  | putExt name value => exact (create_counts _ name value).bind fun e _ => addEntry_counts h e
  | putCc packed => exact putPacked_counts .cacheControl packed counts
  | putContRange packed => exact putPacked_counts .contentRange packed counts
  | putRange packed => exact putPacked_counts .range packed counts
  | putSc packed => exact putPacked_counts .surrogateControl packed counts
  | delById id => exact (countsRules.delById id counts).bind fun result _ => trivial
  | delByName name => exact (countsRules.delByName name counts).bind fun result _ => trivial
  | delAt positions =>
      apply Outcome.bind (Outcome.foldlM counts fun after pos _ kept =>
        (delAt_cut after pos).imp (fun _ cut => cut.counts kept) kept.stops)
      intro after _
      exact trivial
  | append src => exact (addAll_outcome h src.live).mono fun _ _ => trivial
  | update fresh denied => exact update_counts fresh denied counts
  | parse relaxed block =>
      exact (countsRules.parse counts).bind fun result _ => trivial
  | clean => exact (countsRules.clean h).mono fun _ _ => trivial
  | copy source =>
      exact (update_outcome source (fun _ => false) rfl).mono fun _ _ => trivial
  | assign source => exact (assign_outcome h source).mono fun _ _ => trivial
  | removeConnectionHeaderEntries =>
      exact (removeConnectionHeaderEntries_cut h).imp (fun _ _ => trivial) counts.stops
  | removeHopByHopEntries =>
      apply ((removeConnectionHeaderEntries_cut h).imp (fun _ cut => cut.counts counts)
        counts.stops).bind
      intro middle kept
      exact ((hopByHop_cut middle).imp (fun _ cut => cut.counts kept) kept.stops).bind
        fun result _ => trivial
  | mangleList mangle =>
      exact (mangleList_outcome h mangle).imp (fun _ _ => trivial) counts.stops

end Assertion

/--
In every run of operations that do not miss the length, it is the packed size as long as that fits
into an `int`, and then no operation stops at the assertion of `delAt`.
-/
theorem len_exact {h : HttpHeader} (reached : Reachable Keeps h) :
    (h.packInto.length < 2 ^ 31 → h.len = h.packInto.length) ∧
      ∀ op : Op, h.packInto.length + op.growth < 2 ^ 31 → op.run h ≠ .error .negativeLen := by
  have exact : h.LenExact := by
    induction reached with
    | empty owner => exact lenRules.empty
    | step _ _ keeps done ih sources => exact (run_lenExact _ ih sources keeps).of_ok done
  rw [length_packInto]
  refine ⟨fun small => (exact.counts (n := 0) small).1, fun op small failed => ?_⟩
  exact (run_counts op (exact.counts small)).of_error failed rfl

theorem len_exact_hostHeader : hostHeader.len = 9 ∧ hostHeader.packInto.length = 9 ∧
    (Op.delById .host).run hostHeader ≠ .error .negativeLen := by
  have size : hostHeader.packInto.length = 9 := by decide
  have exact := len_exact (reachable_hostHeader trivial)
  exact ⟨by rw [exact.1 (by rw [size]; decide), size]; rfl, size,
    exact.2 _ (by rw [size]; decide)⟩

/-- A copy of a header with one field. -/
def copiedHeader : HttpHeader :=
  { hostHeader with len := int32 (hostHeader.len + hostEntry.size) }

/-- The field after the anonymizer put a longer value in. -/
def mangledHeader : HttpHeader :=
  { hostHeader with entries := [some { hostEntry with value := ascii "none" }] }

/-- A copy counts its entries twice, and deleting a longer value trips the assertion. -/
theorem len_missed :
    Reachable (fun _ _ => True) copiedHeader ∧ copiedHeader.len ≠ copiedHeader.packInto.length ∧
      Reachable (fun _ _ => True) mangledHeader ∧
      (Op.delById .host).run mangledHeader = .error .negativeLen := by
  have host : Reachable (fun _ _ => True) hostHeader := reachable_hostHeader trivial
  refine ⟨?_, by decide, ?_, rfl⟩
  · refine @Reachable.step _ hostHeader _ (.copy hostHeader) host ?_ trivial rfl
    rintro other ⟨⟩
    exact host
  · exact @Reachable.step _ _ _ (.mangleList fun _ _ => .replace (ascii "none")) host
      (by simp [Op.source]) trivial rfl

end HttpHeader
end Squid
