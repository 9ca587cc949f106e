import Squid.Http.StrListWords
import Squid.Http.HttpHdrCc

/-!
# Packing a `Cache-Control` header

Of each directive the first item that is not ignored decides.  What is written has no value of
`stale-if-error` and no field names of `private` and `no-cache`, so it is read as the directives
without these.
-/

namespace Squid
namespace HttpHdrCc

open CRuntime List Option StrList

/-! ## What is stored -/

/-- The field names that an item lists. -/
def fieldNames (item : Bytes × ℕ) : Bytes :=
  ((itemValue item).bind fun p => httpHeaderParseQuotedString p (valueLen item)).getD []

/-- An item that is not ignored, of a directive that is not set yet. -/
def accepted (item : Bytes × ℕ) : CcType → Bool
  | .CC_MAX_AGE | .CC_S_MAXAGE | .CC_MIN_FRESH | .CC_STALE_IF_ERROR =>
      (seconds (itemValue item)).isSome
  | .CC_NO_CACHE =>
      (itemValue item).all fun p => (httpHeaderParseQuotedString p (valueLen item)).isSome
  | .CC_OTHER => false
  | _ => true

/-- The item sets a directive. -/
def decides (type : CcType) (item : Bytes × ℕ) : Bool :=
  itemType item = type && accepted item type

/-- The first item that sets a directive. -/
def first (items : List (Bytes × ℕ)) (type : CcType) : Option (Bytes × ℕ) :=
  items.find? (decides type)

/-- What is stored for a list of items. -/
def stored (items : List (Bytes × ℕ)) : HttpHdrCc where
  mask type := (first items type).isSome
  max_age := ((first items .CC_MAX_AGE).bind fun item => seconds (itemValue item)).getD (-1)
  s_maxage := ((first items .CC_S_MAXAGE).bind fun item => seconds (itemValue item)).getD (-1)
  max_stale :=
    ((first items .CC_MAX_STALE).map fun item =>
      (seconds (itemValue item)).getD MAX_STALE_ANY).getD (-1)
  stale_if_error :=
    ((first items .CC_STALE_IF_ERROR).bind fun item => seconds (itemValue item)).getD (-1)
  min_fresh := ((first items .CC_MIN_FRESH).bind fun item => seconds (itemValue item)).getD (-1)
  private_ := ((first items .CC_PRIVATE).map fieldNames).getD []
  no_cache := ((first items .CC_NO_CACHE).map fieldNames).getD []
  other := joined [44, 32] ((items.filter (itemType · = .CC_OTHER)).map text)

variable {item : Bytes × ℕ} {items : List (Bytes × ℕ)} {type : CcType}

theorem of_first (found : first items type = some item) :
    item ∈ items ∧ itemType item = type ∧ accepted item type = true := by
  have decided := List.find?_some found
  rw [decides, Bool.and_eq_true, decide_eq_true_iff] at decided
  exact ⟨mem_of_find?_eq_some found, decided⟩

theorem first_append (items : List (Bytes × ℕ)) (item : Bytes × ℕ) (type : CcType) :
    first (items ++ [item]) type =
      (first items type).or (if decides type item then some item else none) := by
  rw [first, List.find?_append, first]
  congr 1
  cases decided : decides type item <;> simp [decided]

theorem first_append_of_ne (ne : itemType item ≠ type) :
    first (items ++ [item]) type = first items type := by
  simp [first_append, decides, ne]

/-- Once a directive is set, its items are ignored. -/
theorem first_append_of_set (set : (first items type).isSome = true) :
    first (items ++ [item]) type = first items type := by
  obtain ⟨one, found⟩ := isSome_iff_exists.mp set
  rw [first_append, found, some_or]

theorem stored_append_of_set (set : (first items (itemType item)).isSome = true)
    (known : itemType item ≠ .CC_OTHER) : stored (items ++ [item]) = stored items := by
  have same : ∀ type, first (items ++ [item]) type = first items type := by
    intro type
    by_cases ne : itemType item = type
    · rw [ne] at set
      exact first_append_of_set set
    · exact first_append_of_ne ne
  simp [stored, same, filter_append, known]

/-- An item of a directive that is not set yet changes what is stored for this directive. -/
theorem stored_append (isType : itemType item = type) (unset : first items type = none)
    (known : type ≠ .CC_OTHER) :
    parseDirective (stored items) type (itemValue item) (valueLen item) (item.1.take item.2) =
      .ok (stored (items ++ [item])) := by
  have here : first (items ++ [item]) type = if accepted item type then some item else none := by
    simp [first_append, unset, decides, isType]
  have there : ∀ other, type ≠ other → first (items ++ [item]) other = first items other :=
    fun other ne => first_append_of_ne (isType ▸ ne)
  have others : (items ++ [item]).filter (itemType · = .CC_OTHER) =
      items.filter (itemType · = .CC_OTHER) := by
    simp [filter_append, isType, known]
  have mask : (stored (items ++ [item])).mask =
      setMask (stored items).mask type (accepted item type) := by
    funext bit
    by_cases same : bit = type
    · simp only [stored, setMask, same, if_true, here]
      split <;> simp_all
    · simp only [stored, setMask, same, if_false, there bit (Ne.symm same)]
  cases type with
  | CC_OTHER => exact absurd rfl known
  | CC_MAX_AGE | CC_S_MAXAGE | CC_MIN_FRESH | CC_STALE_IF_ERROR =>
      refine congrArg Except.ok (HttpHdrCc.ext mask.symm ?_ ?_ ?_ ?_ ?_ ?_ ?_ ?_) <;>
        simp [stored, there, others, here, accepted]
      obtain value | ⟨value, some⟩ := eq_none_or_eq_some (seconds (itemValue item)) <;>
        simp [*]
  | CC_MAX_STALE =>
      refine congrArg Except.ok (HttpHdrCc.ext mask.symm ?_ ?_ ?_ ?_ ?_ ?_ ?_ ?_) <;>
        simp [stored, there, others, here, accepted]
  | CC_PRIVATE =>
      refine congrArg Except.ok (HttpHdrCc.ext mask.symm ?_ ?_ ?_ ?_ ?_ ?_ ?_ ?_) <;>
        simp [stored, there, others, here, accepted, unset, fieldNames]
      cases itemValue item <;> simp
  | CC_NO_CACHE =>
      simp only [accepted] at mask here
      cases value : itemValue item with
      | none =>
          simp only [value, all_none, if_true] at mask here
          refine congrArg Except.ok (HttpHdrCc.ext mask.symm ?_ ?_ ?_ ?_ ?_ ?_ ?_ ?_) <;>
            simp [stored, there, others, here, fieldNames, value]
      | some p =>
          simp only [value, all_some] at mask here
          cases quoted : httpHeaderParseQuotedString p (valueLen item) with
          | none =>
              simp only [parseDirective, quoted, isSome_none] at mask here ⊢
              refine congrArg Except.ok (HttpHdrCc.ext ?_ ?_ ?_ ?_ ?_ ?_ ?_ ?_ ?_)
              · rw [mask]
                funext bit
                by_cases same : bit = .CC_NO_CACHE
                · simp [setMask, same, stored, unset]
                · simp [setMask, same]
              all_goals simp [stored, there, others, here, unset]
          | some temp =>
              simp only [parseDirective, quoted, isSome_some, if_true] at mask here ⊢
              refine congrArg Except.ok (HttpHdrCc.ext mask.symm ?_ ?_ ?_ ?_ ?_ ?_ ?_ ?_) <;>
                simp [stored, there, others, here, fieldNames, value, quoted, unset]
  | _ =>
      refine congrArg Except.ok (HttpHdrCc.ext mask.symm ?_ ?_ ?_ ?_ ?_ ?_ ?_ ?_) <;>
        simp [stored, there, others]

/-- The texts of the items that are not known. -/
def otherTexts (items : List (Bytes × ℕ)) : List Bytes :=
  (items.filter (itemType · = .CC_OTHER)).map text

theorem otherTexts_eq (items : List (Bytes × ℕ)) :
    otherTexts items =
      (items.map text).filter fun word =>
        CcType.ofName (word.takeWhile (· != 61)) = .CC_OTHER := by
  rw [List.filter_map]
  rfl

theorem otherTexts_append (items : List (Bytes × ℕ)) (item : Bytes × ℕ) :
    otherTexts (items ++ [item]) =
      otherTexts items ++ if itemType item = .CC_OTHER then [text item] else [] := by
  rw [otherTexts, filter_append, List.map_append, otherTexts]
  congr 1
  by_cases other : itemType item = .CC_OTHER <;> simp [other]

theorem stored_other_append (items : List (Bytes × ℕ)) (other : itemType item = .CC_OTHER) :
    stored (items ++ [item]) = { stored items with
      other := joined [44, 32] (otherTexts items ++ [text item]) } := by
  have there : ∀ type, first (items ++ [item]) type = first items type := by
    intro type
    by_cases ne : itemType item = type
    · have never : decides type item = false := by simp [decides, ← ne, other, accepted]
      simp [first_append, never]
    · exact first_append_of_ne ne
  have texts := otherTexts_append items item
  rw [if_pos other] at texts
  unfold otherTexts at texts ⊢
  simp only [stored, there, texts]

theorem otherTexts_ne (ne : ∀ item ∈ items, text item ≠ []) :
    ∀ word ∈ otherTexts items, word ≠ [] := by
  intro word member
  obtain ⟨item, inside, rfl⟩ := List.mem_map.mp member
  exact ne item (mem_of_mem_filter inside)

/-- `other` is the list of the items that are not known. -/
theorem strListAdd_stored (ne : ∀ item ∈ items, text item ≠ []) (word : Bytes) :
    HttpHeader.strListAdd (stored items).other word 44 =
      if stringLimit < (joined [44, 32] (otherTexts items ++ [word])).length then
        .error .stringSize
      else
        .ok (joined [44, 32] (otherTexts items ++ [word])) := by
  have list : (stored items).other = joined [44, 32] (otherTexts items) := rfl
  rw [HttpHeader.strListAdd, list]
  by_cases empty : otherTexts items = []
  · simp [empty, joined, others]
  · rw [if_neg (joined_ne_nil _ empty (otherTexts_ne ne)), joined_append _ empty]

theorem other_length_le (items : List (Bytes × ℕ)) (item : Bytes × ℕ) :
    (stored items).other.length ≤ (stored (items ++ [item])).other.length := by
  change (joined _ (otherTexts items)).length ≤
    (joined _ (otherTexts (items ++ [item]))).length
  rw [otherTexts_append]
  split
  · by_cases empty : otherTexts items = []
    · simp [empty, joined]
    · rw [joined_append _ empty, List.append_assoc, length_append]
      omega
  · rw [List.append_nil]

/-- What the loop of `parse` leaves. -/
theorem parseItems_eq (items : List (Bytes × ℕ)) (ne : ∀ item ∈ items, text item ≠ []) :
    items.foldlM parseItem {} =
      if stringLimit < (stored items).other.length then .error .stringSize
      else .ok (stored items) := by
  induction items using List.reverseRecOn with
  | nil => rfl
  | append_singleton items item ih =>
      have before := ih fun one member => ne one (by simp [member])
      have longer := other_length_le items item
      rw [foldlM_append, before]
      by_cases big : stringLimit < (stored items).other.length
      · rw [if_pos big, if_pos (by omega)]
        rfl
      · rw [if_neg big]
        change List.foldlM parseItem (stored items) [item] = _
        rw [foldlM_cons]
        simp only [foldlM_nil, bind_pure]
        by_cases other : itemType item = .CC_OTHER
        · have add := @strListAdd_stored items (fun one member => ne one (by simp [member]))
            (text item)
          rw [parseItem, if_neg (fun set => set.2 other), other, parseDirective]
          change (do return { stored items with
            other := ← HttpHeader.strListAdd (stored items).other (text item) 44 }) = _
          rw [add, stored_other_append items other]
          split <;> rfl
        · have same : (stored (items ++ [item])).other = (stored items).other := by
            have texts := otherTexts_append items item
            rw [if_neg other, List.append_nil] at texts
            exact congrArg (joined [44, 32]) texts
          rw [same, if_neg big]
          by_cases set : (first items (itemType item)).isSome = true
          · rw [parseItem, if_pos ⟨set, other⟩, stored_append_of_set set other]
          · rw [parseItem, if_neg (fun both => set both.1)]
            exact stored_append rfl (by simpa using set) other

/-- The words of a list that was read are not empty. -/
theorem ccItems_ne (s : Bytes) : ∀ item ∈ ccItems s, text item ≠ [] := by
  intro item member
  have listed := listed_items (s.length + 1) s
  exact (word_of_listed listed (List.mem_map_of_mem member)).ne

/-- What `parse` returns. -/
theorem parse_eq (s : Bytes) :
    parse s =
      if stringLimit < (stored (ccItems s)).other.length then .error .stringSize
      else .ok ((stored (ccItems s)).any, stored (ccItems s)) := by
  rw [parse, parseItems_eq _ (ccItems_ne s)]
  split <;> rfl

theorem parse_of_items {s : Bytes} (found : ccItems s = items)
    (small : ¬ stringLimit < (stored items).other.length) (some : (stored items).any = true) :
    parse s = .ok (true, stored items) := by
  rw [parse_eq, found, if_neg small, some]

/-! ## What is written -/

/-- The directives that are written. -/
def flags (cc : HttpHdrCc) : List CcType :=
  CcType.all.filter fun flag => cc.mask flag ∧ flag ≠ .CC_OTHER

variable {flag : CcType}

variable {cc : HttpHdrCc}

theorem mem_flags : flag ∈ cc.flags ↔ cc.mask flag = true ∧ flag ≠ .CC_OTHER := by
  have every : flag ∈ CcType.all := by cases flag <;> decide
  simp [flags, every]

/-- What the loop of `packInto` writes. -/
theorem foldl_packFlag (cc : HttpHdrCc) (rest done : List CcType) :
    rest.foldl cc.packFlag (joined [44, 32] (done.map cc.directive), done.length) =
      let written := done ++ rest.filter fun flag => cc.mask flag ∧ flag ≠ .CC_OTHER
      (joined [44, 32] (written.map cc.directive), written.length) := by
  induction rest generalizing done with
  | nil => simp
  | cons flag rest ih =>
      rw [foldl_cons, packFlag]
      by_cases set : cc.mask flag = true ∧ flag ≠ .CC_OTHER
      · have one : joined [44, 32] (done.map cc.directive) ++
            (if done.length ≠ 0 then [44, 32] else []) ++ cc.directive flag =
            joined [44, 32] ((done ++ [flag]).map cc.directive) := by
          rw [List.map_append]
          by_cases empty : done = []
          · simp [empty, joined, others]
          · rw [if_pos (by simpa using empty), List.map_cons, List.map_nil,
              joined_append _ (by simpa using empty)]
        have next := ih (done ++ [flag])
        rw [length_append, length_singleton] at next
        rw [if_pos set]
        dsimp only
        rw [one, next, filter_cons_of_pos (by simpa using set), ← append_cons]
      · rw [if_neg set, ih, filter_cons_of_neg (by simpa using set)]

/-- A header that was parsed is written as the list of its directives and of the other items. -/
theorem packInto_stored (some : (stored items).any = true)
    (ne : ∀ item ∈ items, text item ≠ []) :
    packInto (stored items) =
      joined [44, 32]
        ((stored items).flags.map (stored items).directive ++ otherTexts items) := by
  have written := foldl_packFlag (stored items) CcType.all []
  change List.foldl _ ([], 0) _ = _ at written
  have list : (stored items).other = joined [44, 32] (otherTexts items) := rfl
  rw [packInto, if_pos some, written]
  dsimp only
  rw [List.nil_append]
  change (if (stored items).other ≠ [] then joined [44, 32]
      ((stored items).flags.map (stored items).directive) ++
        (if (stored items).flags.length ≠ 0 then [44, 32] else []) ++ (stored items).other
    else joined [44, 32] ((stored items).flags.map (stored items).directive)) = _
  by_cases empty : otherTexts items = []
  · rw [list, empty, if_neg (by simp [joined]), List.append_nil]
  · rw [list, if_pos (joined_ne_nil _ empty (otherTexts_ne ne))]
    by_cases none : (stored items).flags = []
    · simp [none, joined]
    · rw [if_pos (by simpa using none), joined_append_list _ (by simpa using none) empty]

/-! ## Directives are words -/

/-- No directive has a byte that quotes, separates or is skipped. -/
theorem of_mem_directive (known : flag ≠ .CC_OTHER) {b : UInt8} (member : b ∈ cc.directive flag) :
    b ≠ 0 ∧ b ≠ 34 ∧ b ≠ 44 ∧ isSpace b = false := by
  rw [directive, mem_append] at member
  rcases member with name | value
  · have plain : ∀ b ∈ flag.name, b ≠ 0 ∧ b ≠ 34 ∧ b ≠ 44 ∧ isSpace b = false := by
      cases flag <;> first | exact absurd rfl known | decide +kernel
    exact plain b name
  · cases printed : cc.printedValue flag with
    | none => simp [printed] at value
    | some v =>
        rw [printed, mem_cons] at value
        rcases value with rfl | number
        · decide
        · rcases of_mem_decimal number with rfl | digit
          · decide
          · obtain ⟨blank, -, -⟩ := plain_of_isDigit digit
            refine ⟨?_, ?_, ?_, blank⟩ <;> rintro rfl <;> exact absurd digit (by decide)

theorem directive_ne_nil (cc : HttpHdrCc) (flag : CcType) : cc.directive flag ≠ [] := by
  have name : flag.name ≠ [] := by cases flag <;> decide
  simp [directive, name]

theorem word_directive (cc : HttpHdrCc) (known : flag ≠ .CC_OTHER) :
    Word (cc.directive flag) ∧ Closed (cc.directive flag) := by
  have plain : ∀ b ∈ cc.directive flag, b ≠ 0 ∧ b ≠ 34 ∧ b ≠ 44 ∧ isSpace b = false :=
    fun b member => of_mem_directive known member
  have closed : Closed (cc.directive flag) := by
    apply scan_of_plain
    intro b member
    obtain ⟨zero, quote, comma, -⟩ := plain b member
    exact ⟨zero, quote, comma, comma⟩
  refine ⟨⟨directive_ne_nil cc flag, ?_, ?_, by rw [closed]; rfl⟩, closed⟩
  · intro b head
    obtain ⟨-, -, comma, blank⟩ := plain b (mem_of_mem_head? head)
    exact isListGap_of_not_space blank comma
  · intro b last
    exact (plain b (mem_of_mem_getLast? last)).2.2.2

/-- The items of what was written. -/
theorem items_packInto (some : (stored items).any = true)
    (listed : Listed (items.map text)) :
    List.Forall₂ IsItem (ccItems (packInto (stored items)))
      ((stored items).flags.map (stored items).directive ++ otherTexts items) := by
  have words : Listed
      ((stored items).flags.map (stored items).directive ++ otherTexts items) := by
    apply listed_append
    · intro word member
      obtain ⟨flag, set, rfl⟩ := List.mem_map.mp member
      exact word_directive _ (mem_flags.mp set).2
    · exact listed_sublist (filter_sublist.map text) listed
  rw [packInto_stored some fun item member =>
    (word_of_listed listed (List.mem_map_of_mem member)).ne]
  refine strListItems_joined (by decide +kernel) words ?_
  have long := length_le_joined [44, 32] words
  omega

/-! ## What is read again -/

/-- The type of an item whose text is known. -/
theorem itemType_of_text {other : Bytes × ℕ} (same : text item = text other) :
    itemType item = itemType other :=
  congrArg (fun text : Bytes => CcType.ofName (text.takeWhile (· != 61))) same

section Directive

variable {cc : HttpHdrCc} {flag : CcType} {item : Bytes × ℕ}

section

variable (isItem : IsItem item (cc.directive flag))
include isItem

theorem itemName_directive : itemName item = flag.name := by
  obtain ⟨rest, rfl, -⟩ := isItem
  have plain : ∀ b ∈ flag.name, (b != 61) = true := by cases flag <;> decide +kernel
  rw [itemName, take_left' rfl, directive, takeWhile_append_of_pos plain]
  cases cc.printedValue flag <;> simp

theorem itemType_directive : itemType item = flag := by
  rw [itemType, itemName_directive isItem]
  cases flag <;> decide

/-- A directive without a number is read without a value. -/
theorem itemValue_of_none (none : cc.printedValue flag = none) : itemValue item = Option.none := by
  obtain ⟨rest, rfl, -⟩ := isItem
  have plain : 61 ∉ flag.name := by cases flag <;> decide
  rw [itemValue, take_left' rfl, directive, none, List.append_nil, if_neg plain]

/-- The number behind a directive is read. -/
theorem seconds_directive {value : ℤ} (printed : cc.printedValue flag = some value)
    (nonneg : 0 ≤ value) (small : value < 2 ^ 31) : seconds (itemValue item) = some value := by
  have name := itemName_directive isItem
  obtain ⟨rest, rfl, stop⟩ := isItem
  have behind : itemValue (cc.directive flag ++ rest, (cc.directive flag).length) =
      some (decimal value ++ rest) := by
    rw [itemValue, name, take_left' rfl, directive, printed, if_pos (by simp)]
    simp
  have ends : rest.takeWhile (isDigit 10) = [] := by
    rcases stop with rfl | ⟨tail, rfl⟩ <;> rfl
  have number : atoi (decimal value ++ rest) = value := by
    rw [atoi, strtoll_decimal (by omega) (by omega) ends, int32_eq (by omega) small]
  have digit : isDigit 10 ((decimal value ++ rest).headD 0) = true := by
    obtain ⟨b, tail, split⟩ := exists_cons_of_ne_nil (digits_ne_nil value.toNat)
    rw [decimal_of_nonneg nonneg, split]
    exact isDigit_of_mem_digits value.toNat b (by rw [split]; simp)
  simp only [seconds, behind, bind_some, httpHeaderParseInt, number, digit,
    not_true_eq_false, and_false, if_false]
  rw [if_neg (by omega)]

end

end Directive

variable {value : ℤ}

theorem seconds_mem {p : Option Bytes} (found : seconds p = some value) :
    0 ≤ value ∧ value < 2 ^ 31 := by
  obtain ⟨number, parsed, found⟩ := bind_eq_some_iff.mp found
  rw [ite_none_left_eq_some, some.injEq] at found
  obtain ⟨nonneg, rfl⟩ := found
  obtain ⟨text, -, parsed⟩ := bind_eq_some_iff.mp parsed
  rw [httpHeaderParseInt, ite_none_left_eq_some, some.injEq] at parsed
  have bounds := int32_mem (strtoll 10 text).1
  rw [← parsed.2, atoi] at nonneg ⊢
  omega

/-- A directive of a known type whose number, if it has one, is what is stored. -/
theorem printedValue_stored (set : (stored items).mask flag = true)
    (printed : (stored items).printedValue flag = some value) : 0 ≤ value ∧ value < 2 ^ 31 := by
  obtain ⟨item, found⟩ := isSome_iff_exists.mp
    (show (first items flag).isSome = true from set)
  obtain ⟨-, -, accepts⟩ := of_first found
  cases flag with
  | CC_MAX_AGE | CC_S_MAXAGE | CC_MIN_FRESH =>
      obtain ⟨number, some⟩ := isSome_iff_exists.mp
        (show (seconds (itemValue item)).isSome = true from accepts)
      have same : number = value := by simpa [printedValue, stored, found, some] using printed
      exact same ▸ seconds_mem some
  | CC_MAX_STALE =>
      cases number : seconds (itemValue item) with
      | none => simp [printedValue, stored, found, number] at printed
      | some n =>
          have same : n = value := by
            simp only [printedValue, stored, found, number, map_some, getD_some,
              ite_none_right_eq_some, some.injEq] at printed
            exact printed.2
          exact same ▸ seconds_mem number
  | _ => simp [printedValue] at printed

/-- A directive that was written is accepted, but for `stale-if-error`. -/
theorem accepted_directive (set : (stored items).mask flag = true) (known : flag ≠ .CC_OTHER)
    (isItem : IsItem item ((stored items).directive flag)) :
    accepted item flag = true ↔ flag ≠ .CC_STALE_IF_ERROR := by
  have number : ∀ {value}, (stored items).printedValue flag = some value →
      seconds (itemValue item) = some value := by
    intro value printed
    obtain ⟨nonneg, small⟩ := printedValue_stored set printed
    exact seconds_directive isItem printed nonneg small
  cases flag with
  | CC_OTHER => exact absurd rfl known
  | CC_MAX_AGE | CC_S_MAXAGE | CC_MIN_FRESH => simp [accepted, number rfl]
  | CC_STALE_IF_ERROR => simp [accepted, itemValue_of_none isItem rfl, seconds]
  | CC_NO_CACHE => simp [accepted, itemValue_of_none isItem rfl]
  | _ => simp [accepted]

/-- What is read of a directive is what was written. -/
theorem first_packed {again : List (Bytes × ℕ)} (same : List.Forall₂ IsItem again
      ((stored items).flags.map (stored items).directive ++ otherTexts items)) (flag : CcType) :
    (((stored items).mask flag = true ∧ flag ≠ .CC_STALE_IF_ERROR) ∧
      ∃ item, first again flag = some item ∧
        IsItem item ((stored items).directive flag)) ∨
    (¬((stored items).mask flag = true ∧ flag ≠ .CC_STALE_IF_ERROR) ∧ first again flag = none) := by
  have found : ∀ item, first again flag = some item →
      (stored items).mask flag = true ∧ flag ≠ .CC_STALE_IF_ERROR ∧
        IsItem item ((stored items).directive flag) := by
    intro item found
    obtain ⟨inside, isType, accepts⟩ := of_first found
    obtain ⟨word, member, isItem⟩ := exists_word same inside
    rcases mem_append.mp member with known | unknown
    · obtain ⟨other, listed, rfl⟩ := List.mem_map.mp known
      obtain ⟨set, known⟩ := mem_flags.mp listed
      obtain rfl := (itemType_directive isItem).symm.trans isType
      exact ⟨set, (accepted_directive set known isItem).mp accepts, isItem⟩
    · obtain ⟨before, inside, text⟩ := List.mem_map.mp unknown
      have other := of_decide_eq_true (mem_filter.mp inside).2
      rw [itemType_of_text (isItem.text.trans text.symm), other] at isType
      rw [← isType] at accepts
      exact absurd accepts (by simp [accepted])
  by_cases set : (stored items).mask flag = true ∧ flag ≠ .CC_STALE_IF_ERROR
  · refine .inl ⟨set, ?_⟩
    have known : flag ≠ .CC_OTHER := by
      rintro rfl
      obtain ⟨item, one⟩ := isSome_iff_exists.mp
        (show (first items .CC_OTHER).isSome = true from set.1)
      exact absurd (of_first one).2.2 (by simp [accepted])
    obtain ⟨item, member, isItem⟩ := exists_item same
      (List.mem_append_left _ (List.mem_map_of_mem (mem_flags.mpr ⟨set.1, known⟩)))
    have decided : decides flag item = true :=
      Bool.and_eq_true_iff.mpr ⟨decide_eq_true (itemType_directive isItem),
        (accepted_directive set.1 known isItem).mpr set.2⟩
    obtain ⟨one, some⟩ := isSome_iff_exists.mp
      (List.find?_isSome.mpr ⟨item, member, decided⟩)
    exact ⟨one, some, (found one some).2.2⟩
  · refine .inr ⟨set, ?_⟩
    rcases eq_none_or_eq_some (first again flag) with none | ⟨item, one⟩
    · exact none
    · exact absurd ⟨(found item one).1, (found item one).2.1⟩ set

/-- What is left of a header that was written. -/
def forget (cc : HttpHdrCc) : HttpHdrCc :=
  { cc with
    mask := setMask cc.mask .CC_STALE_IF_ERROR false
    stale_if_error := -1
    private_ := []
    no_cache := [] }

section Again

variable {items again : List (Bytes × ℕ)}
  (same : List.Forall₂ IsItem again
    ((stored items).flags.map (stored items).directive ++ otherTexts items))

include same

/-- A number that was written is read again. -/
theorem number_again {value : ℤ} (known : flag ≠ .CC_STALE_IF_ERROR)
    (printed : (stored items).printedValue flag = some value)
    (unset : first items flag = none → value = -1) :
    ((first again flag).bind fun item => seconds (itemValue item)).getD (-1) = value := by
  rcases first_packed same flag with ⟨set, item, found, isItem⟩ | ⟨unwritten, found⟩
  · obtain ⟨nonneg, small⟩ := printedValue_stored set.1 printed
    rw [found, bind_some, seconds_directive isItem printed nonneg small, getD_some]
  · rw [found, bind_none, getD_none, unset]
    have never : ¬ (first items flag).isSome = true := fun set => unwritten ⟨set, known⟩
    simpa using never

/-- A list of field names that was not written is not read. -/
theorem fieldNames_again (none : (stored items).printedValue flag = none) :
    ((first again flag).map fieldNames).getD [] = [] := by
  rcases first_packed same flag with ⟨-, item, found, isItem⟩ | ⟨-, found⟩
  · simp [found, fieldNames, itemValue_of_none isItem none]
  · simp [found]

theorem max_stale_again :
    ((first again .CC_MAX_STALE).map fun item =>
      (seconds (itemValue item)).getD MAX_STALE_ANY).getD (-1) = (stored items).max_stale := by
  rcases first_packed same .CC_MAX_STALE with ⟨set, item, found, isItem⟩ | ⟨unwritten, found⟩
  · rw [found, map_some, getD_some]
    by_cases default : (stored items).max_stale = MAX_STALE_ANY
    · have none : (stored items).printedValue .CC_MAX_STALE = none := by
        simp [printedValue, default]
      rw [itemValue_of_none isItem none, default]
      rfl
    · have printed : (stored items).printedValue .CC_MAX_STALE =
          some (stored items).max_stale := by
        simp [printedValue, default]
      obtain ⟨nonneg, small⟩ := printedValue_stored set.1 printed
      rw [seconds_directive isItem printed nonneg small, getD_some]
  · have never : first items .CC_MAX_STALE = none := by
      simpa [stored] using unwritten
    simp [found, stored, never]

theorem otherTexts_again : otherTexts again = otherTexts items := by
  have known : ∀ word ∈ (stored items).flags.map (stored items).directive,
      CcType.ofName (word.takeWhile (· != 61)) ≠ .CC_OTHER := by
    intro word member
    obtain ⟨flag, set, rfl⟩ := List.mem_map.mp member
    have isItem : IsItem ((stored items).directive flag ++ [], _)
      ((stored items).directive flag) := ⟨[], rfl, .inl rfl⟩
    have type := itemType_directive isItem
    rw [← isItem.text]
    exact fun other => (mem_flags.mp set).2 (type.symm.trans other)
  rw [otherTexts_eq again, map_text_of_items same, filter_append,
    filter_eq_nil_iff.mpr (by simpa using known), List.nil_append, otherTexts_eq items,
    List.filter_filter]
  simp

/-- What is read again. -/
theorem stored_again : stored again = forget (stored items) := by
  refine HttpHdrCc.ext ?_ ?_ ?_ ?_ ?_ ?_ ?_ ?_ ?_
  · funext flag
    change (first again flag).isSome = setMask (stored items).mask .CC_STALE_IF_ERROR false flag
    rcases first_packed same flag with ⟨set, item, found, -⟩ | ⟨unwritten, found⟩
    · simp [found, setMask, set.1, set.2]
    · by_cases stale : flag = .CC_STALE_IF_ERROR
      · rw [found, stale]
        simp [setMask]
      · have never : (stored items).mask flag = false := by simpa [stale] using unwritten
        simp [found, setMask, stale, never]
  · exact number_again same (by decide) rfl fun none => by simp [stored, forget, none]
  · exact number_again same (by decide) rfl fun none => by simp [stored, forget, none]
  · exact max_stale_again same
  · rcases first_packed same .CC_STALE_IF_ERROR with ⟨⟨-, stale⟩, -⟩ | ⟨-, found⟩
    · exact absurd rfl stale
    · simp [stored, found, forget]
  · exact number_again same (by decide) rfl fun none => by simp [stored, forget, none]
  · exact fieldNames_again same rfl
  · exact fieldNames_again same rfl
  · exact congrArg (joined [44, 32]) (otherTexts_again same)

end Again

/-- Nothing of the items is missing in what is written for them. -/
structure Kept (items : List (Bytes × ℕ)) : Prop where
  /-- No item has a valid `stale-if-error`. -/
  stale_if_error : ∀ item ∈ items, decides .CC_STALE_IF_ERROR item = false
  /-- The first `private` has no field names. -/
  private_ : ∀ item ∈ first items .CC_PRIVATE, fieldNames item = []
  /-- The first `no-cache` that is valid has no field names. -/
  no_cache : ∀ item ∈ first items .CC_NO_CACHE, fieldNames item = []

theorem names_eq_nil_iff {found : Option (Bytes × ℕ)} :
    (found.map fieldNames).getD [] = [] ↔ ∀ item ∈ found, fieldNames item = [] := by
  cases found <;> simp

theorem forget_eq_iff (items : List (Bytes × ℕ)) :
    forget (stored items) = stored items ↔ Kept items := by
  constructor
  · intro kept
    refine ⟨?_, ?_, ?_⟩
    · have unset : (stored items).mask .CC_STALE_IF_ERROR = false := by
        rw [← kept]
        simp [forget, setMask]
      simpa [stored, first] using unset
    · exact names_eq_nil_iff.mp (congrArg HttpHdrCc.private_ kept).symm
    · exact names_eq_nil_iff.mp (congrArg HttpHdrCc.no_cache kept).symm
  · rintro ⟨stale, privates, caches⟩
    have none : first items .CC_STALE_IF_ERROR = none := by simpa [first] using stale
    refine HttpHdrCc.ext ?_ rfl rfl rfl ?_ rfl ?_ ?_ rfl
    · funext flag
      by_cases here : flag = .CC_STALE_IF_ERROR
      · simp [forget, setMask, here, stored, none]
      · simp [forget, setMask, here]
    · simp [forget, stored, none]
    · exact (names_eq_nil_iff.mpr privates).symm
    · exact (names_eq_nil_iff.mpr caches).symm

/--
A `Cache-Control` header that was parsed is the same when it is parsed from what is written for it,
if and only if it has nothing that is not written.
-/
theorem parse_packInto {s : Bytes} {cc : HttpHdrCc} (parsed : parse s = .ok (true, cc)) :
    parse (packInto cc) = .ok (true, cc) ↔ Kept (ccItems s) := by
  have small : ¬ stringLimit < (stored (ccItems s)).other.length := by
    intro big
    rw [parse_eq, if_pos big] at parsed
    simp at parsed
  rw [parse_eq, if_neg small, Except.ok.injEq, Prod.mk.injEq] at parsed
  obtain ⟨some, rfl⟩ := parsed
  have again := stored_again (items_packInto some (listed_items (s.length + 1) s))
  have same : ¬ stringLimit < (forget (stored (ccItems s))).other.length := small
  rw [parse_eq, again, if_neg same, Except.ok.injEq, Prod.mk.injEq, ← forget_eq_iff]
  refine and_iff_right_of_imp fun kept => ?_
  rw [kept, some]

theorem parse_packInto_plain :
    ∃ cc, parse (ascii "max-age=5, a=\"b,c\"") = .ok (true, cc) ∧
      parse (packInto cc) = .ok (true, cc) := by
  have items : ccItems (ascii "max-age=5, a=\"b,c\"") =
      [(ascii "max-age=5, a=\"b,c\"", 9), (ascii "a=\"b,c\"", 7)] := by decide +kernel
  have parsed := parse_of_items items (by decide +kernel) (by decide +kernel)
  refine ⟨_, parsed, (parse_packInto parsed).mpr ?_⟩
  rw [items]
  have privates : first [(ascii "max-age=5, a=\"b,c\"", 9), (ascii "a=\"b,c\"", 7)]
    .CC_PRIVATE = none := by decide +kernel
  have caches : first [(ascii "max-age=5, a=\"b,c\"", 9), (ascii "a=\"b,c\"", 7)]
    .CC_NO_CACHE = none := by decide +kernel
  exact ⟨by decide +kernel, by simp [privates], by simp [caches]⟩

/-- The number of `stale-if-error` is not written. -/
theorem parse_packInto_stale_if_error :
    ¬ ∀ s cc, parse s = .ok (true, cc) → parse (packInto cc) = .ok (true, cc) := by
  intro kept
  have items : ccItems (ascii "public, stale-if-error=5") =
      [(ascii "public, stale-if-error=5", 6), (ascii "stale-if-error=5", 16)] := by decide +kernel
  have written : packInto (stored [(ascii "public, stale-if-error=5", 6),
      (ascii "stale-if-error=5", 16)]) = ascii "public, stale-if-error" := by decide +kernel
  have again := kept _ _ (parse_of_items items (by decide +kernel) (by decide +kernel))
  rw [written] at again
  have mask := congrArg
    (fun result => result.toOption.map fun p => p.2.mask .CC_STALE_IF_ERROR) again
  exact absurd mask (by decide +kernel)

end HttpHdrCc
end Squid
