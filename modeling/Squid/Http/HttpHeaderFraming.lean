import Squid.Http.HttpHeaderNormal
import Squid.Http.StrListSegments

/-!
# The framing fields of a header

After parsing a header has one `Content-Length` at most, the greatest one.  It has none where
`hasListMember` finds `chunked` among the transfer codings, which it does only where nothing, or a
certain byte, stands directly behind the word.
-/

namespace Squid
namespace HttpHeader

open CRuntime

/-! ## Transfer codings -/

/-- The value of the `Transfer-Encoding` fields among some entries. -/
def transferEncoding (entries : List HttpHeaderEntry) : Bytes :=
  ((entries.filter (·.id = .transferEncoding)).foldlM
    (fun s e => strListAdd s e.value 44) []).toOption.getD []

/-- The list has the member `chunked`. -/
def ListsChunked (list : Bytes) : Prop :=
  ∃ member ∈ StrList.members (StrList.segments 44 false list), member.map toLower = ascii "chunked"

/-- An item of the list is `chunked` with nothing or with `=`, `,` or `;` directly behind it. -/
def MarksChunked (list : Bytes) : Prop :=
  ∃ item ∈ strListItems 44 (list.length + 1) list,
    (item.1.take 7).map toLower = ascii "chunked" ∧ item.1.getD 7 0 ∈ [61, 44, 59, 0]

theorem mask_transferEncoding (entries : List HttpHeaderEntry) :
    (ofEntries entries).mask .transferEncoding = true ↔
      entries.filter (·.id = .transferEncoding) ≠ [] := by
  have exact : (ofEntries entries).MaskExact := refreshMask_exact _
  rw [exact .transferEncoding, ofEntries_live, Ne, List.filter_eq_nil_iff]
  simp

/-- The entries say that the message is chunked. -/
theorem chunkedBy_iff {entries : List HttpHeaderEntry} {chunked : Bool}
    (coded : (ofEntries entries).chunked = .ok chunked) :
    chunkedBy entries = true ↔ MarksChunked (transferEncoding entries) := by
  have listed : HdrType.transferEncoding ∈ HdrType.listHeaders := by decide
  have same : chunkedBy entries = chunked := by rw [chunkedBy, coded]
  rw [same]
  unfold HttpHeader.chunked hasListMember getStrOrList getList has at coded
  simp only [listed, not_true_eq_false, if_true, reduceCtorEq, if_false, ofEntries_live] at coded
  by_cases some : (ofEntries entries).mask .transferEncoding = true
  · simp only [some] at coded
    cases list : (entries.filter (·.id = .transferEncoding)).foldlM
        (fun s e => strListAdd s e.value 44) [] with
    | error a =>
        rw [list] at coded
        cases coded
    | ok value =>
        rw [list] at coded
        have found := Except.ok.inj coded
        rw [← found]
        have word : (ascii "chunked").length = 7 ∧
          (ascii "chunked").map toLower = ascii "chunked" := by decide +kernel
        have known : transferEncoding entries = value := by rw [transferEncoding, list]; rfl
        rw [known, MarksChunked, List.any_eq_true]
        simp only [word, Bool.and_eq_true, beq_iff_eq, List.contains_iff_mem]
  · have none : entries.filter (·.id = .transferEncoding) = [] := by
      simpa using (mask_transferEncoding entries).not.mp some
    simp only [some] at coded
    cases coded
    have known : transferEncoding entries = [] := by rw [transferEncoding, none]; rfl
    have blank : strListItems 44 1 [] = [] := by decide +kernel
    simp [known, MarksChunked, blank]

/-! ## Framing -/

/-- How a header says where its message ends. -/
structure Framing (relaxed : Bool) (entries : List HttpHeaderEntry) (h : HttpHeader) : Prop where
  /-- At most one `Content-Length`. -/
  single : (h.live.filter isLength).length ≤ 1
  /-- None in a chunked message. -/
  chunked : ListsChunked (transferEncoding h.live) → h.live.filter isLength = []
  /-- If all are numbers, it is the greatest that was read. -/
  greatest : relaxed = true →
    (∀ e ∈ entries, isLength e = true → (httpHeaderParseOffset e.value).isSome = true) →
      ∀ kept ∈ h.live, isLength kept = true → kept ∈ entries ∧
        ∃ n, httpHeaderParseOffset kept.value = some n ∧ ∀ e ∈ entries, isLength e = true →
          ∀ m, httpHeaderParseOffset e.value = some m → m ≤ n

/-- The fields of a block frame its message, unless `chunked` is listed but not marked. -/
theorem parse_framing {relaxed : Bool} {owner : Owner} {block : Bytes} {h : HttpHeader}
    (accepted : (empty owner).parse relaxed block = .ok (h, true)) :
    Framing relaxed (blockEntries relaxed owner block) h ↔
      (ListsChunked (transferEncoding (blockEntries relaxed owner block)) →
        MarksChunked (transferEncoding (blockEntries relaxed owner block)) ∨
          ∀ e ∈ blockEntries relaxed owner block, isLength e = false) := by
  obtain ⟨live, coded, -, -⟩ := (parse_live relaxed owner block).of_ok accepted rfl
  generalize blockEntries relaxed owner block = entries at live coded
  have coding : transferEncoding h.live = transferEncoding entries := by
    rw [transferEncoding, transferEncoding, live, filter_keptEntries]
    intro e coded
    simp [isLength, of_decide_eq_true coded]
  have marks := chunkedBy_iff coded
  constructor
  · intro framing lists
    by_cases marked : chunkedBy entries = true
    · exact .inl (marks.mp marked)
    · refine .inr fun e member => Bool.eq_false_iff.mpr fun length => ?_
      obtain ⟨c, kept, isLength, -⟩ := @exists_le_of_mem [] entries e (.inr member) length
      have none := framing.chunked (by rwa [coding])
      rw [live, keptEntries, if_neg marked] at none
      exact List.filter_eq_nil_iff.mp none c kept isLength
  · intro condition
    refine ⟨by rw [live]; exact single_keptEntries entries, ?_, ?_⟩
    · intro lists
      rw [List.filter_eq_nil_iff]
      intro e member
      rw [live] at member
      rcases condition (by rwa [coding] at lists) with marked | none
      · rw [keptEntries, if_pos (marks.mpr marked)] at member
        simpa using (List.mem_filter.mp member).2
      · simp [none e (mem_of_mem_keptEntries member)]
    · intro _ numbers kept member length
      rw [live] at member
      have read := mem_of_mem_keptEntries member
      obtain ⟨n, number⟩ := Option.isSome_iff_exists.mp (numbers kept read length)
      refine ⟨read, n, number, ?_⟩
      intro e inside isLength m other
      have unmarked : ¬ chunkedBy entries = true := by
        intro marked
        rw [keptEntries, if_pos marked] at member
        simp [length] at member
      rw [keptEntries, if_neg unmarked] at member
      obtain ⟨c, inRun, lengthRun, le⟩ := @exists_le_of_mem [] entries e (.inr inside) isLength
      obtain rfl := (single_foldl_keepLength single_nil).eq inRun member lengthRun length
      simpa [lengthOf, number, other] using le

/-- Whether a block is accepted, its transfer codings and the number of lengths that are kept. -/
def parsedFraming (block : Bytes) : Option (Bool × Bytes × ℕ) :=
  ((empty .request).parse true block).toOption.map fun result =>
    (result.2, transferEncoding result.1.live, (result.1.live.filter isLength).length)

theorem of_parsedFraming {block list : Bytes} {count : ℕ}
    (parsed : parsedFraming block = some (true, list, count)) :
    ∃ h, (empty .request).parse true block = .ok (h, true) ∧ transferEncoding h.live = list ∧
      (h.live.filter isLength).length = count := by
  unfold parsedFraming at parsed
  cases result : (empty .request).parse true block with
  | error a => simp [result, Except.toOption] at parsed
  | ok pair =>
      obtain ⟨h, accepted⟩ := pair
      obtain ⟨rfl, coding, lengths⟩ : accepted = true ∧ transferEncoding h.live = list ∧
          (h.live.filter isLength).length = count := by
        simpa [result, Except.toOption] using parsed
      exact ⟨h, rfl, coding, lengths⟩

/-- A relaxed parser keeps one of two lengths. -/
theorem parse_framing_lengths : ∃ h,
    (empty .request).parse true (ascii "Content-Length: 5\r\nContent-Length: 7\r\n") =
        .ok (h, true) ∧
      Framing true (blockEntries true .request
        (ascii "Content-Length: 5\r\nContent-Length: 7\r\n")) h := by
  have parsed : parsedFraming (ascii "Content-Length: 5\r\nContent-Length: 7\r\n") =
      some (true, [], 1) := by decide +kernel
  obtain ⟨h, accepted, -, -⟩ := of_parsedFraming parsed
  refine ⟨h, accepted, (parse_framing accepted).mpr ?_⟩
  have none : transferEncoding (blockEntries true .request
      (ascii "Content-Length: 5\r\nContent-Length: 7\r\n")) = [] := by decide +kernel
  rw [none]
  rintro ⟨member, listed, -⟩
  exact absurd listed (by simp [StrList.segments, StrList.members, StrList.strip])

/-- A length is kept though `chunked` is listed: a space is behind the word. -/
theorem parse_framing_space :
    ¬ ∀ relaxed owner block h, (empty owner).parse relaxed block = .ok (h, true) →
      Framing relaxed (blockEntries relaxed owner block) h := by
  intro framed
  have parsed : parsedFraming
      (ascii "Content-Length: 5\r\nTransfer-Encoding: chunked , gzip\r\n") =
        some (true, ascii "chunked , gzip", 1) := by decide +kernel
  obtain ⟨h, accepted, coding, one⟩ := of_parsedFraming parsed
  have lists : ListsChunked (ascii "chunked , gzip") :=
    ⟨ascii "chunked", by decide +kernel, by decide +kernel⟩
  rw [(framed _ _ _ h accepted).chunked (by rwa [coding])] at one
  exact absurd one (by decide)

end HttpHeader
end Squid
