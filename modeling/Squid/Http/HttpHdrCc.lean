import Squid.Library.Decimal
import Squid.Http.HttpReply

/-!
# `HttpHdrCc`

The `Cache-Control` header of `src/HttpHdrCc.cc`: directives are parsed into a mask and the values
of some of them, and written from these.
-/

namespace Squid

open CRuntime Option

/-! ## Values of directives -/

def httpHeaderParseInt (start : Bytes) : Option ℤ :=
  let value := atoi start
  if value = 0 ∧ ¬ isDigit 10 (start.headD 0) then none else some value

/-- A byte that the inner loop of `httpHeaderParseQuotedString` passes. -/
def isQuotedText (b : UInt8) : Bool := b != 92 && b != 34 && 31 < b && b != 127

/-- The end of a turn of the loop of `httpHeaderParseQuotedString`: some text, or a quoted pair. -/
def quotedText (len n : ℕ) (pos : Bytes) : Option (Bytes × ℕ) :=
  let quoted := if pos.headD 0 = 92 then 1 else 0
  if quoted = 1 ∧ ((pos.drop 1).headD 0 = 0 ∨ len < n + 1) then
    none
  else
    let text := ((pos.drop quoted).take (len - (n + quoted))).takeWhile isQuotedText
    let stop := (pos.drop (quoted + text.length)).headD 0
    if stop ≤ 31 ∧ stop ≠ 13 ∧ stop ≠ 10 ∨ stop = 127 then none
    else some (text, quoted + text.length)

/--
A turn of the loop of `httpHeaderParseQuotedString`, `n` bytes behind the first quote mark: what is
appended to the value and how many bytes are passed.
-/
def quotedTurn (len n : ℕ) (pos : Bytes) : Option (Bytes × ℕ) :=
  let cr := if pos.headD 0 = 13 then 1 else 0
  if cr = 1 ∧ (len < n + 1 ∨ (pos.drop 1).headD 0 ≠ 10) then
    none
  else if (pos.drop cr).headD 0 = 10 then
    let next := (pos.drop (cr + 1)).headD 0
    if len < n + cr + 1 ∨ next ≠ 32 ∧ next ≠ 9 then none else some ([32], cr + 2)
  else
    quotedText len n pos

variable {count len n : ℕ} {pos text : Bytes}

/-- A byte that is no line end is passed. -/
theorem quotedText_pos (inside : n < len) (quote : pos.headD 0 ≠ 34) (cr : pos.headD 0 ≠ 13)
    (lf : pos.headD 0 ≠ 10) (turned : quotedText len n pos = some (text, count)) : 0 < count := by
  by_cases backslash : pos.headD 0 = 92
  · simp only [quotedText, if_pos backslash, ite_none_left_eq_some, some.injEq,
      Prod.mk.injEq] at turned
    omega
  · simp only [quotedText, if_neg backslash, zero_ne_one, false_and, if_false, List.drop_zero,
      Nat.zero_add, Nat.add_zero, ite_none_left_eq_some, some.injEq, Prod.mk.injEq]
      at turned
    obtain ⟨control, rfl, rfl⟩ := turned
    cases pos with
    | nil => simp at control
    | cons b pos =>
        rw [List.headD_cons] at quote cr lf backslash
        obtain ⟨left, more⟩ := Nat.exists_eq_succ_of_ne_zero (show len - n ≠ 0 by omega)
        rw [more, List.take_succ_cons] at control ⊢
        by_cases passed : isQuotedText b = true
        · simp [passed]
        · rw [List.takeWhile_cons_of_neg passed, List.length_nil, List.drop_zero,
            List.headD_cons] at control
          simp only [isQuotedText, Bool.and_eq_true, bne_iff_ne, decide_eq_true_eq, ne_eq,
            backslash, quote, not_false_eq_true, true_and, cr, lf, and_true] at control passed
          rw [not_or, UInt8.not_le] at control
          exact absurd control passed

/-- Every turn passes a byte. -/
theorem quotedTurn_pos (inside : n < len) (quote : pos.headD 0 ≠ 34)
    (turned : quotedTurn len n pos = some (text, count)) : 0 < count := by
  by_cases cr : pos.headD 0 = 13
  · simp only [quotedTurn, if_pos cr, ite_none_left_eq_some, true_and, not_or, not_not]
      at turned
    obtain ⟨⟨-, lf⟩, turned⟩ := turned
    rw [if_pos lf, ite_none_left_eq_some, some.injEq, Prod.mk.injEq] at turned
    omega
  · simp only [quotedTurn, if_neg cr, zero_ne_one, false_and, if_false, List.drop_zero] at turned
    by_cases lf : pos.headD 0 = 10
    · rw [if_pos lf, ite_none_left_eq_some, some.injEq, Prod.mk.injEq] at turned
      omega
    · rw [if_neg lf] at turned
      exact quotedText_pos inside quote cr lf turned

/-- The loop of `httpHeaderParseQuotedString`. -/
def quotedLoop (len n : ℕ) (pos val : Bytes) : Option Bytes :=
  if _more : n < len ∧ pos.headD 0 ≠ 34 then
    match _turned : quotedTurn len n pos with
    | none => none
    | some (text, count) => quotedLoop len (n + count) (pos.drop count) (val ++ text)
  else if pos.headD 0 = 34 then
    some val
  else
    none
termination_by len - n
decreasing_by
  have passed := quotedTurn_pos _more.1 _more.2 _turned
  omega

def httpHeaderParseQuotedString (start : Bytes) (len : ℕ) : Option Bytes :=
  if start.headD 0 = 34 then quotedLoop len 1 start.tail [] else none

/-! ## Directives -/

/-- `http_hdr_cc_type`. -/
inductive CcType
  | CC_PUBLIC
  | CC_PRIVATE
  | CC_NO_CACHE
  | CC_NO_STORE
  | CC_NO_TRANSFORM
  | CC_MUST_REVALIDATE
  | CC_PROXY_REVALIDATE
  | CC_MAX_AGE
  | CC_S_MAXAGE
  | CC_MAX_STALE
  | CC_MIN_FRESH
  | CC_ONLY_IF_CACHED
  | CC_STALE_IF_ERROR
  | CC_OTHER
  deriving DecidableEq

namespace CcType

/-- The types in the order of the enumeration. -/
def all : List CcType :=
  [.CC_PUBLIC, .CC_PRIVATE, .CC_NO_CACHE, .CC_NO_STORE, .CC_NO_TRANSFORM, .CC_MUST_REVALIDATE,
    .CC_PROXY_REVALIDATE, .CC_MAX_AGE, .CC_S_MAXAGE, .CC_MAX_STALE, .CC_MIN_FRESH,
    .CC_ONLY_IF_CACHED, .CC_STALE_IF_ERROR, .CC_OTHER]

/-- `CcAttrs`. -/
def name : CcType → Bytes
  | .CC_PUBLIC => ascii "public"
  | .CC_PRIVATE => ascii "private"
  | .CC_NO_CACHE => ascii "no-cache"
  | .CC_NO_STORE => ascii "no-store"
  | .CC_NO_TRANSFORM => ascii "no-transform"
  | .CC_MUST_REVALIDATE => ascii "must-revalidate"
  | .CC_PROXY_REVALIDATE => ascii "proxy-revalidate"
  | .CC_MAX_AGE => ascii "max-age"
  | .CC_S_MAXAGE => ascii "s-maxage"
  | .CC_MAX_STALE => ascii "max-stale"
  | .CC_MIN_FRESH => ascii "min-fresh"
  | .CC_ONLY_IF_CACHED => ascii "only-if-cached"
  | .CC_STALE_IF_ERROR => ascii "stale-if-error"
  | .CC_OTHER => ascii "Other,"

/-- `CcNameToIdMap`, whose keys are compared with their case. -/
def ofName (name : Bytes) : CcType := (all.find? (·.name = name)).getD .CC_OTHER

end CcType

def MAX_STALE_ANY : ℤ := 0x7fffffff

/-- `HttpHdrCc`.  An unset number is `-1`. -/
@[ext]
structure HttpHdrCc where
  mask : CcType → Bool := fun _ => false
  max_age : ℤ := -1
  s_maxage : ℤ := -1
  max_stale : ℤ := -1
  stale_if_error : ℤ := -1
  min_fresh : ℤ := -1
  private_ : Bytes := []
  no_cache : Bytes := []
  other : Bytes := []

namespace HttpHdrCc

/-- `HttpHdrCc::setMask`. -/
def setMask (mask : CcType → Bool) (id : CcType) (newval : Bool) : CcType → Bool :=
  fun bit => if bit = id then newval else mask bit

/-- The number behind a `=`, where there is one and it is not negative. -/
def seconds (p : Option Bytes) : Option ℤ :=
  (p.bind httpHeaderParseInt).bind fun value => if value < 0 then none else some value

/-- The `switch` of `HttpHdrCc::parse`: a directive of a type, with what is behind its `=`, how long
that is, and the whole item. -/
def parseDirective (cc : HttpHdrCc) (type : CcType) (p : Option Bytes) (len : ℕ) (item : Bytes) :
    Except Abort HttpHdrCc :=
  match type with
  | .CC_MAX_AGE => .ok { cc with
      mask := setMask cc.mask .CC_MAX_AGE (seconds p).isSome
      max_age := (seconds p).getD (-1) }
  | .CC_S_MAXAGE => .ok { cc with
      mask := setMask cc.mask .CC_S_MAXAGE (seconds p).isSome
      s_maxage := (seconds p).getD (-1) }
  | .CC_MAX_STALE => .ok { cc with
      mask := setMask cc.mask .CC_MAX_STALE true
      max_stale := (seconds p).getD MAX_STALE_ANY }
  | .CC_MIN_FRESH => .ok { cc with
      mask := setMask cc.mask .CC_MIN_FRESH (seconds p).isSome
      min_fresh := (seconds p).getD (-1) }
  | .CC_STALE_IF_ERROR => .ok { cc with
      mask := setMask cc.mask .CC_STALE_IF_ERROR (seconds p).isSome
      stale_if_error := (seconds p).getD (-1) }
  | .CC_PRIVATE => .ok { cc with
      mask := setMask cc.mask .CC_PRIVATE true
      private_ :=
        match p with
        | none => []
        | some p => cc.private_ ++ (httpHeaderParseQuotedString p len).getD [] }
  | .CC_NO_CACHE =>
      match p with
      | none => .ok { cc with mask := setMask cc.mask .CC_NO_CACHE true, no_cache := [] }
      | some p =>
          match httpHeaderParseQuotedString p len with
          | some temp => .ok { cc with
              mask := setMask cc.mask .CC_NO_CACHE true
              no_cache := cc.no_cache ++ temp }
          | none => .ok cc
  | .CC_OTHER => do return { cc with other := ← HttpHeader.strListAdd cc.other item 44 }
  | .CC_PUBLIC | .CC_NO_STORE | .CC_NO_TRANSFORM | .CC_MUST_REVALIDATE | .CC_PROXY_REVALIDATE
  | .CC_ONLY_IF_CACHED => .ok { cc with mask := setMask cc.mask type true }

/-- The name of an item. -/
def itemName (item : Bytes × ℕ) : Bytes := (item.1.take item.2).takeWhile (· != 61)

/-- Its type. -/
def itemType (item : Bytes × ℕ) : CcType := CcType.ofName (itemName item)

/-- What is behind its `=`. -/
def itemValue (item : Bytes × ℕ) : Option Bytes :=
  if 61 ∈ item.1.take item.2 then some (item.1.drop ((itemName item).length + 1)) else none

/-- How long that is. -/
def valueLen (item : Bytes × ℕ) : ℕ := item.2 - (itemName item).length - 1

/-- The loop body of `HttpHdrCc::parse`. -/
def parseItem (cc : HttpHdrCc) (item : Bytes × ℕ) : Except Abort HttpHdrCc :=
  if cc.mask (itemType item) ∧ itemType item ≠ .CC_OTHER then
    .ok cc
  else
    parseDirective cc (itemType item) (itemValue item) (valueLen item) (item.1.take item.2)

/-- The items of a `Cache-Control` header. -/
def ccItems (str : Bytes) : List (Bytes × ℕ) := strListItems 44 (str.length + 1) str

/-- `mask != 0`. -/
def any (cc : HttpHdrCc) : Bool := CcType.all.any cc.mask

/-- `HttpHdrCc::parse`, of a new object. -/
def parse (str : Bytes) : Except Abort (Bool × HttpHdrCc) := do
  let cc ← (ccItems str).foldlM parseItem {}
  return (cc.any, cc)

/-- The number that is written for a directive. -/
def printedValue (cc : HttpHdrCc) : CcType → Option ℤ
  | .CC_MAX_AGE => some cc.max_age
  | .CC_S_MAXAGE => some cc.s_maxage
  | .CC_MAX_STALE => if cc.max_stale ≠ MAX_STALE_ANY then some cc.max_stale else none
  | .CC_MIN_FRESH => some cc.min_fresh
  | _ => none

/-- What is written for a directive. -/
def directive (cc : HttpHdrCc) (flag : CcType) : Bytes :=
  flag.name ++
    match cc.printedValue flag with
    | some value => 61 :: decimal value
    | none => []

/-- The loop body of `HttpHdrCc::packInto`, with the text so far and `pcount`. -/
def packFlag (cc : HttpHdrCc) (p : Bytes × ℕ) (flag : CcType) : Bytes × ℕ :=
  if cc.mask flag ∧ flag ≠ .CC_OTHER then
    (p.1 ++ (if p.2 ≠ 0 then [44, 32] else []) ++ cc.directive flag, p.2 + 1)
  else
    p

/-- `HttpHdrCc::packInto`. -/
def packInto (cc : HttpHdrCc) : Bytes :=
  if cc.any then
    let p := CcType.all.foldl cc.packFlag ([], 0)
    if cc.other ≠ [] then p.1 ++ (if p.2 ≠ 0 then [44, 32] else []) ++ cc.other else p.1
  else
    []

end HttpHdrCc
end Squid
