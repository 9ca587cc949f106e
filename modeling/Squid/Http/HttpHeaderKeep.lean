import Squid.Http.HttpHeaderFields
import Squid.Http.HttpHeaderMask
import Mathlib.Data.Int.ConditionallyCompleteOrder
import Mathlib.Order.ConditionallyCompleteLattice.Basic
import Mathlib.Order.WithBot

/-!
# The fields that a header keeps

Of the entries of a block all are kept, in their order, but one `Content-Length` only: the first of
the greatest, where it was found, and none at all in a chunked message.
-/

namespace Squid
namespace HttpHeader

open CRuntime List

/-- A `Content-Length` field. -/
def isLength (e : HttpHeaderEntry) : Bool := e.id = .contentLength

/-- The number in a `Content-Length` field. -/
def lengthOf (e : HttpHeaderEntry) : WithBot ℤ := (httpHeaderParseOffset e.value).elim ⊥ (↑)

/-- Numbers are compared as integers. -/
instance : DecidableLE (WithBot ℤ) := @WithBot.decidableLE ℤ Int.instLEInt Int.decLe

variable {e : HttpHeaderEntry}

variable {e2 : HttpHeaderEntry}

theorem overrides_iff : overrides e e2 = true ↔ lengthOf e2 < lengthOf e := by
  unfold overrides lengthOf
  cases httpHeaderParseOffset e.value with
  | none => simp
  | some l1 =>
      cases httpHeaderParseOffset e2.value with
      | none => simp
      | some l2 => simp

/-! ## One entry after the other -/

/-- The entries that are kept when another one is read. -/
def keepLength (kept : List HttpHeaderEntry) (e : HttpHeaderEntry) : List HttpHeaderEntry :=
  if isLength e then
    if kept.any fun e2 => isLength e2 && lengthOf e ≤ lengthOf e2 then kept
    else kept.filter (fun e2 => !isLength e2) ++ [e]
  else kept ++ [e]

/-- There is at most one `Content-Length`. -/
def Single (entries : List HttpHeaderEntry) : Prop := (entries.filter isLength).length ≤ 1

variable {kept : List HttpHeaderEntry}

theorem single_keepLength (e : HttpHeaderEntry) (single : Single kept) :
    Single (keepLength kept e) := by
  unfold Single at single ⊢
  unfold keepLength
  split
  · split
    · exact single
    · simp [List.filter_filter, filter_cons]
      split <;> simp
  · rename_i other
    simpa [filter_append, other] using single

variable {entries : List HttpHeaderEntry} {f : HttpHeaderEntry}

theorem Single.eq (single : Single entries) (member : e ∈ entries) (other : f ∈ entries)
    (length : isLength e = true) (lengthOther : isLength f = true) : e = f := by
  have shown : e ∈ entries.filter isLength := mem_filter.2 ⟨member, length⟩
  have shownOther : f ∈ entries.filter isLength := mem_filter.2 ⟨other, lengthOther⟩
  obtain ⟨c, one⟩ : ∃ c, entries.filter isLength = [c] :=
    length_eq_one_iff.1 (Nat.le_antisymm single (length_pos_of_mem shown))
  rw [one, mem_singleton] at shown shownOther
  rw [shown, shownOther]

/-- What happens to the entries that are kept. -/
theorem keepLength_cases (kept : List HttpHeaderEntry) (e : HttpHeaderEntry) :
    isLength e = false ∧ keepLength kept e = kept ++ [e] ∨
      isLength e = true ∧ (∃ c ∈ kept, isLength c = true ∧ lengthOf e ≤ lengthOf c) ∧
        keepLength kept e = kept ∨
      isLength e = true ∧ (∀ c ∈ kept, isLength c = true → lengthOf c < lengthOf e) ∧
        keepLength kept e = kept.filter (fun c => !isLength c) ++ [e] := by
  unfold keepLength
  split
  · rename_i length
    split
    · rename_i greater
      exact .inr (.inl ⟨length, by simpa using greater, rfl⟩)
    · rename_i less
      exact .inr (.inr ⟨length, by simpa using less, rfl⟩)
  · rename_i other
    exact .inl ⟨by simpa using other, rfl⟩

theorem mem_of_mem_keepLength (member : f ∈ keepLength kept e) : f ∈ kept ∨ f = e := by
  rcases keepLength_cases kept e with ⟨-, keeps⟩ | ⟨-, -, keeps⟩ | ⟨-, -, keeps⟩
  · simpa [keeps] using member
  · exact .inl (keeps ▸ member)
  · rw [keeps, mem_append, mem_singleton] at member
    exact member.imp_left mem_of_mem_filter

/-- The entries of a run are entries that are read. -/
theorem mem_of_mem_foldl_keepLength (member : f ∈ entries.foldl keepLength kept) :
    f ∈ kept ∨ f ∈ entries := by
  induction entries generalizing kept with
  | nil => exact .inl member
  | cons e entries ih =>
      rcases ih member with member | member
      · rcases mem_of_mem_keepLength member with member | rfl
        · exact .inl member
        · exact .inr (by simp)
      · exact .inr (by simp [member])

theorem single_foldl_keepLength (single : Single kept) :
    Single (entries.foldl keepLength kept) := by
  induction entries generalizing kept with
  | nil => exact single
  | cons e entries ih => exact ih (single_keepLength e single)

/-! ## The loop of `HttpHeader::parse` -/

/-- An entry that is not rejected for blanks in its name. -/
def Allowed (relaxed : Bool) (e : HttpHeaderEntry) : Prop :=
  ¬ (e.id = .other ∧ e.name.any (ascii " \t\n\r").contains ∧ !relaxed)

variable {h : HttpHeader}

theorem MaskExact.findEntry_eq {id : HdrType} (exact : h.MaskExact)
    (notList : id ∉ HdrType.listHeaders) : h.findEntry id = .ok (h.live.find? (·.id = id)) := by
  unfold HttpHeader.findEntry
  rw [if_neg notList]
  split
  · rename_i absent
    rw [List.find?_eq_none.2]
    intro e member same
    have present := (exact id).2 ⟨e, member, of_decide_eq_true same⟩
    simp [present] at absent
  · rename_i present
    obtain ⟨e, member, same⟩ : ∃ e ∈ h.live, e.id = id := (exact id).1 (by simpa using present)
    split
    · rename_i found
      rw [found]
    · rename_i absent
      exact absurd (decide_eq_true same) (by simpa using List.find?_eq_none.1 absent e member)

theorem delById_live (id : HdrType) (exact : h.MaskExact) :
    Outcome (fun result => result.1.live = h.live.filter (fun e => !decide (e.id = id)) ∧
      result.1.owner = h.owner) (fun _ => True) (h.delById id) := by
  unfold HttpHeader.delById
  split
  · exact trivial
  · split
    · rename_i absent
      refine ⟨(filter_eq_self.2 fun e member => ?_).symm, rfl⟩
      by_contra same
      have present := (exact id).2 ⟨e, member, by simpa using same⟩
      simp [present] at absent
    · apply ((delLoop_all (·.id = id) sameBits sameBits h).imp (fun _ done => done) (by simp)).bind
      rintro ⟨after, count⟩ deleted
      dsimp only
      split
      · exact trivial
      · exact ⟨deleted.live, deleted.owner⟩

theorem addEntry_live (h : HttpHeader) (e : HttpHeaderEntry) :
    Outcome (fun after => after.live = h.live ++ [e] ∧ after.owner = h.owner) (fun _ => True)
      (h.addEntry e) := by
  unfold addEntry
  split
  · exact trivial
  · exact ⟨by simp [live, reduceOption_append], rfl⟩

theorem keepLength_of_other (other : isLength e = false) : keepLength kept e = kept ++ [e] := by
  rw [keepLength, if_neg (by simp [other])]

theorem keepLength_of_none (none : ∀ f ∈ kept, isLength f = false) :
    keepLength kept e = kept ++ [e] := by
  unfold keepLength
  split
  · rw [if_neg, filter_eq_self.2 fun f member => by simp [none f member]]
    simp only [List.any_eq_true, Bool.and_eq_true, not_exists, not_and]
    intro f member isLength
    simp [none f member] at isLength
  · rfl

/-- The only `Content-Length` decides. -/
theorem keepLength_of_find (single : Single kept) (found : kept.find? isLength = some e2)
    (length : isLength e = true) :
    keepLength kept e = if lengthOf e2 < lengthOf e then kept.filter (fun f => !isLength f) ++ [e]
      else kept := by
  have member := mem_of_find?_eq_some found
  have isLength2 := List.find?_some found
  rw [keepLength, if_pos length]
  by_cases greater : lengthOf e2 < lengthOf e
  · rw [if_pos greater, if_neg]
    simp only [List.any_eq_true, Bool.and_eq_true, decide_eq_true_eq, not_exists, not_and, not_le]
    intro f other isLength
    rwa [single.eq other member isLength isLength2]
  · rw [if_neg greater, if_pos]
    simp only [List.any_eq_true, Bool.and_eq_true, decide_eq_true_eq]
    exact ⟨e2, member, isLength2, not_lt.1 greater⟩

variable {relaxed : Bool}

/-- What is added for an entry. -/
theorem addParsed_live (exact : h.MaskExact) (single : Single h.live) :
    Outcome (fun result => ∀ after ∈ result, after.live = keepLength h.live e ∧
      after.owner = h.owner ∧ Allowed relaxed e) (fun _ => True) (h.addParsed relaxed e) := by
  have added : ∀ {g : HttpHeader}, keepLength h.live e = g.live ++ [e] → g.owner = h.owner →
      Allowed relaxed e → Outcome (fun result => ∀ after ∈ result,
        after.live = keepLength h.live e ∧
        after.owner = h.owner ∧ Allowed relaxed e) (fun _ => True) (some <$> g.addEntry e) := by
    intro g keeps sameOwner allowed
    refine (addEntry_live g e).bind ?_
    rintro after ⟨live, owner⟩
    rintro _ ⟨⟩
    exact ⟨live.trans keeps.symm, owner.trans sameOwner, allowed⟩
  have unallowed : Outcome (fun result => ∀ after ∈ result, after.live = keepLength h.live e ∧
      after.owner = h.owner ∧ Allowed relaxed e) (fun _ : Abort => True)
      (.ok (none : Option HttpHeader)) := Outcome.ok (by simp)
  by_cases length : e.id = .contentLength
  · have allowed : Allowed relaxed e := by simp [Allowed, length]
    have isLength : HttpHeader.isLength e = true := decide_eq_true length
    have lookup : h.earlierLength e = .ok (h.live.find? HttpHeader.isLength) := by
      rw [earlierLength, if_pos length, exact.findEntry_eq (by rw [length]; decide), length]
      rfl
    unfold HttpHeader.addParsed
    rw [lookup]
    cases found : h.live.find? HttpHeader.isLength with
    | none =>
        show Outcome _ _ (if _ then _ else _)
        rw [if_neg fun white => allowed white]
        refine added (keepLength_of_none fun f member => ?_) rfl allowed
        simpa using List.find?_eq_none.1 found f member
    | some e2 =>
        have keeps := keepLength_of_find single found isLength
        have later : (e.value ≠ e2.value ∧ overrides e e2 = true) ↔ lengthOf e2 < lengthOf e := by
          rw [overrides_iff]
          refine ⟨And.right, fun greater => ⟨fun same => ?_, greater⟩⟩
          simp [lengthOf, same] at greater
        show Outcome _ _ (if _ then _ else if _ then _ else _)
        split
        · exact unallowed
        · split
          · rename_i replaced
            rw [if_pos (later.1 replaced)] at keeps
            refine (delById_live e2.id exact).bind ?_
            rintro ⟨after, count⟩ ⟨live, owner⟩
            refine added ?_ owner allowed
            have isLength2 : HttpHeader.isLength e2 = true := List.find?_some found
            rw [keeps, live, of_decide_eq_true isLength2]
            rfl
          · rename_i stays
            rw [if_neg fun greater => stays (later.2 greater)] at keeps
            refine Outcome.ok ?_
            rintro _ ⟨⟩
            exact ⟨keeps.symm, rfl, allowed⟩
  · have lookup : h.earlierLength e = .ok none := if_neg length
    unfold HttpHeader.addParsed
    rw [lookup]
    show Outcome _ _ (if _ then _ else _)
    split
    · exact unallowed
    · rename_i allowed
      exact added (keepLength_of_other (decide_eq_false length)) rfl allowed

/-- A header holds what is kept of the entries that texts give. -/
structure Holds (relaxed : Bool) (texts : List Bytes) (h after : HttpHeader) : Prop where
  exact : after.MaskExact
  live : after.live = (texts.filterMap (HttpHeaderEntry.parse relaxed)).foldl keepLength h.live
  allowed : ∀ e ∈ texts.filterMap (HttpHeaderEntry.parse relaxed), Allowed relaxed e

theorem Holds.nil (exact : h.MaskExact) :
    Holds relaxed [] h h := ⟨exact, rfl, by simp⟩

theorem Holds.skip {relaxed : Bool} {texts : List Bytes} {text : Bytes} {h after : HttpHeader}
    (unparsed : HttpHeaderEntry.parse relaxed text = none) (holds : Holds relaxed texts h after) :
    Holds relaxed (text :: texts) h after := by
  have same : (text :: texts).filterMap (HttpHeaderEntry.parse relaxed) =
      texts.filterMap (HttpHeaderEntry.parse relaxed) := filterMap_cons_none unparsed
  exact ⟨holds.exact, by rw [same, holds.live], by rw [same]; exact holds.allowed⟩

variable {after : HttpHeader} {texts : List Bytes}

theorem Holds.add {text : Bytes} {between : HttpHeader}
    (parsed : HttpHeaderEntry.parse relaxed text = some e)
    (added : between.live = keepLength h.live e) (allowed : Allowed relaxed e)
    (holds : Holds relaxed texts between after) : Holds relaxed (text :: texts) h after := by
  have same : (text :: texts).filterMap (HttpHeaderEntry.parse relaxed) =
      e :: texts.filterMap (HttpHeaderEntry.parse relaxed) := filterMap_cons_some parsed
  refine ⟨holds.exact, ?_, ?_⟩
  · rw [same, foldl_cons, ← added, holds.live]
  · rw [same, forall_mem_cons]
    exact ⟨allowed, holds.allowed⟩

/-- By induction on the lines: the header holds what is kept of the entries of the fields. -/
theorem parseLines_live {tail : Bytes} {lines : List Bytes} {field : Option Bytes}
    (exact : h.MaskExact) (single : Single h.live) :
    Outcome (fun result => ∀ after ∈ result,
        Holds relaxed (fieldTexts relaxed h.owner tail lines field) h after)
      (fun _ => True) (parseLines relaxed tail lines field h) := by
  induction lines generalizing field h with
  | nil =>
      cases field with
      | none =>
          refine Outcome.ok fun after member => ?_
          split at member
          · obtain rfl := Option.mem_some_iff.1 member
            exact Holds.nil exact
          · cases member
      | some text => exact Outcome.ok (by simp)
  | cons line lines ih =>
      cases scanned : scanLine relaxed h.owner field.isNone line with
      | none =>
          simp only [HttpHeader.parseLines, scanned]
          exact Outcome.ok (by simp)
      | some scan =>
          obtain ⟨body, cr⟩ := scan
          simp only [HttpHeader.parseLines, fieldTexts, scanned]
          split
          · exact ih exact single
          · split
            · rename_i empty
              refine Outcome.ok fun after member => ?_
              split at member
              · rename_i last
                obtain rfl := Option.mem_some_iff.1 member
                rw [last.1, empty]
                exact Holds.skip (by cases relaxed <;> rfl) (Holds.nil exact)
              · cases member
            · split
              · rename_i unparsed
                split
                · exact (ih exact single).mono fun result holds after member =>
                    (holds after member).skip unparsed
                · exact Outcome.ok (by simp)
              · rename_i e parsed
                cases result : h.addParsed relaxed e with
                | error a => exact trivial
                | ok added =>
                    cases added with
                    | none => exact Outcome.ok (by simp)
                    | some between =>
                        obtain ⟨live, owner, allowed⟩ :=
                          (addParsed_live exact single).of_ok result between rfl
                        have exactAfter :=
                          (maskRules.addParsed (n := 0) relaxed exact).of_ok result between rfl
                        have singleAfter : Single between.live := by
                          rw [live]
                          exact single_keepLength e single
                        refine (ih exactAfter singleAfter).mono fun result holds after member => ?_
                        rw [owner] at holds
                        exact (holds after member).add parsed live allowed

/-! ## Chunked messages -/

/-- A header with some entries. -/
def ofEntries (entries : List HttpHeaderEntry) : HttpHeader :=
  refreshMask { empty .none with entries := entries.map some }

theorem ofEntries_live (entries : List HttpHeaderEntry) : (ofEntries entries).live = entries := by
  simp [ofEntries, refreshMask, live, List.reduceOption]

/-- Whether the `Transfer-Encoding` fields among some entries say that a message is chunked. -/
def chunkedBy (entries : List HttpHeaderEntry) : Bool :=
  match (ofEntries entries).chunked with
  | .ok chunked => chunked
  | .error _ => false

/-- Only the `Transfer-Encoding` fields count. -/
theorem chunked_congr {g : HttpHeader} (exact : h.MaskExact) (exactOther : g.MaskExact)
    (same : h.live.filter (·.id = .transferEncoding) = g.live.filter (·.id = .transferEncoding)) :
    h.chunked = g.chunked := by
  have marked : ∀ {h : HttpHeader}, h.MaskExact →
      (h.mask .transferEncoding = true ↔ h.live.filter (·.id = .transferEncoding) ≠ []) := by
    intro h exact
    rw [exact .transferEncoding, Ne, filter_eq_nil_iff]
    simp
  have mask : h.mask .transferEncoding = g.mask .transferEncoding := by
    rw [Bool.eq_iff_iff, marked exact, marked exactOther, same]
  have list : h.getList .transferEncoding = g.getList .transferEncoding := by
    unfold getList
    rw [mask, same]
  have listed : HdrType.transferEncoding ∈ HdrType.listHeaders := by decide
  unfold chunked hasListMember getStrOrList has
  simp only [listed, if_true, reduceCtorEq, if_false, mask, list]

/-- What is left of the entries of a block. -/
def keptEntries (entries : List HttpHeaderEntry) : List HttpHeaderEntry :=
  if chunkedBy entries then (entries.foldl keepLength []).filter fun e => !isLength e
  else entries.foldl keepLength []

section Filtered

variable {p : HttpHeaderEntry → Bool} (other : ∀ e, p e = true → isLength e = false)
include other

theorem filter_filter_other (entries : List HttpHeaderEntry) :
    (entries.filter fun e => !isLength e).filter p = entries.filter p := by
  rw [List.filter_filter]
  refine filter_congr fun e _ => ?_
  cases holds : p e with
  | true => simp [other e holds]
  | false => rfl

/-- All entries that are no `Content-Length` are kept. -/
theorem filter_foldl_keepLength (kept entries : List HttpHeaderEntry) :
    (entries.foldl keepLength kept).filter p = kept.filter p ++ entries.filter p := by
  have step : ∀ (kept : List HttpHeaderEntry) (e : HttpHeaderEntry),
      (keepLength kept e).filter p = kept.filter p ++ [e].filter p := by
    intro kept e
    unfold keepLength
    split
    · rename_i length
      have unmet : p e = false := by
        by_contra met
        rw [other e (by simpa using met)] at length
        cases length
      split
      · simp [unmet]
      · rw [filter_append, filter_filter_other other]
    · rw [filter_append]
  induction entries generalizing kept with
  | nil => simp
  | cons e entries ih =>
      rw [foldl_cons, ih, step, List.append_assoc, ← filter_append, singleton_append]

theorem filter_keptEntries (entries : List HttpHeaderEntry) :
    (keptEntries entries).filter p = entries.filter p := by
  unfold keptEntries
  split
  · rw [filter_filter_other other, filter_foldl_keepLength other, filter_nil, List.nil_append]
  · rw [filter_foldl_keepLength other, filter_nil, List.nil_append]

end Filtered

theorem mem_of_mem_keptEntries (member : e ∈ keptEntries entries) : e ∈ entries := by
  have kept : e ∈ entries.foldl keepLength [] := by
    unfold keptEntries at member
    split at member
    · exact mem_of_mem_filter member
    · exact member
  rcases mem_of_mem_foldl_keepLength kept with member | member
  · cases member
  · exact member

theorem single_nil : Single [] := Nat.zero_le 1

theorem single_keptEntries (entries : List HttpHeaderEntry) : Single (keptEntries entries) := by
  unfold keptEntries
  split
  · unfold Single
    rw [List.filter_filter]
    simp
  · exact single_foldl_keepLength single_nil

/-- What the loop of `HttpHeader::parse` makes of a block. -/
theorem parseBlock_live (relaxed : Bool) (owner : Owner) (block : Bytes) :
    Outcome (fun result => ∀ after ∈ result, 0 ∉ block ∧ Holds relaxed
        (fieldTexts relaxed owner (splitLines block).2 (splitLines block).1 none) (empty owner) after)
      (fun _ => True) ((empty owner).parseBlock relaxed block) := by
  unfold parseBlock
  split
  · exact Outcome.ok (by simp)
  · rename_i nul
    exact (parseLines_live maskRules.empty single_nil).mono fun result holds after member =>
      ⟨nul, holds after member⟩

/-- The header after the loop is chunked where the block is. -/
theorem Holds.chunked {owner : Owner} (holds : Holds relaxed texts (empty owner) after) :
    after.chunked = (ofEntries (texts.filterMap (HttpHeaderEntry.parse relaxed))).chunked := by
  refine chunked_congr holds.exact (refreshMask_exact _) ?_
  rw [ofEntries_live, holds.live, filter_foldl_keepLength]
  · rfl
  · intro e coded
    simp [isLength, of_decide_eq_true coded]

/-- What `HttpHeader::parse` makes of a block that it accepts. -/
theorem parse_live (relaxed : Bool) (owner : Owner) (block : Bytes) :
    Outcome (fun result => result.2 = true →
        result.1.live = keptEntries (blockEntries relaxed owner block) ∧
          (ofEntries (blockEntries relaxed owner block)).chunked =
            .ok (chunkedBy (blockEntries relaxed owner block)) ∧
          0 ∉ block ∧ ∀ e ∈ blockEntries relaxed owner block, Allowed relaxed e)
      (fun _ => True) ((empty owner).parse relaxed block) := by
  unfold parse
  apply (parseBlock_live relaxed owner block).bind
  rintro (_ | after) loop
  · exact (Outcome.any _).bind fun cleaned _ => Outcome.ok (by simp)
  · obtain ⟨nul, holds⟩ := loop after rfl
    have coded : Outcome (fun chunked => (ofEntries (blockEntries relaxed owner block)).chunked =
        .ok chunked) (fun _ => True) after.chunked := by
      have same : (ofEntries (blockEntries relaxed owner block)).chunked = after.chunked :=
        holds.chunked.symm
      rw [same]
      cases after.chunked with
      | ok chunked => exact Outcome.ok rfl
      | error a => exact trivial
    apply coded.bind
    intro chunked done
    have by_eq : chunkedBy (blockEntries relaxed owner block) = chunked := by
      rw [chunkedBy, done]
    rw [by_eq]
    split
    · rename_i isChunked
      refine (delById_live .contentLength holds.exact).bind fun result deleted => ?_
      refine Outcome.ok fun _ => ⟨?_, done, nul, holds.allowed⟩
      rw [keptEntries, by_eq, if_pos isChunked]
      exact deleted.1.trans (congrArg _ holds.live)
    · rename_i notChunked
      refine Outcome.ok fun _ => ⟨?_, done, nul, holds.allowed⟩
      rw [keptEntries, by_eq, if_neg notChunked]
      exact holds.live

end HttpHeader
end Squid
