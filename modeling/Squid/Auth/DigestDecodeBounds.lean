import Squid.Auth.DigestDecode

/-!
# Decoding a Digest header stays in bounds

Every length is in bounds if no directive has an empty name, none whose name is one byte longer than
`domain`, `uri` or `qop` has a lone quote for a value, and no `nc` is longer than eight bytes; and
only then.
-/

namespace Squid
namespace Digest

open CRuntime List Traced

variable {start : Bytes} {len pos : ℕ}

/-! ## Quoted strings -/

/-- The computation is in bounds and moves the position on. -/
def Advances (pos : ℕ) (x : Traced Access (Option (Bytes × ℕ))) : Prop :=
  x.All Access.InBounds ∧ ∀ more next, x.result = some (more, next) → pos < next

theorem Advances.mono {x : Traced Access (Option (Bytes × ℕ))} {before : ℕ}
    (advances : Advances pos x) (le : before ≤ pos) : Advances before x :=
  ⟨advances.1, fun more next done => le.trans_lt (advances.2 more next done)⟩

theorem advances_none : Advances pos (return none) := ⟨Traced.all_pure _ _, nofun⟩

/-- An iteration that has skipped a byte, or stands at a byte that is copied, moves on. -/
theorem quotedCopy_advances {before : ℕ} (le : before ≤ pos)
    (copies : before = pos → isControl (start.getD pos 0) = false → 0 < plainSpan start len pos) :
    Advances before (quotedCopy start len pos) := by
  unfold quotedCopy
  dsimp only
  split
  · exact advances_none
  next fine =>
    constructor
    · rw [Traced.all_bind, all_emit]
      exact ⟨Int.natCast_nonneg _, all_pure _ _⟩
    · intro more next done
      cases done
      rcases le.eq_or_lt with same | skipped
      · by_contra stays
        have none : plainSpan start len pos = 0 := by omega
        rw [none, Nat.add_zero, Bool.not_eq_true] at fine
        exact (copies same fine).ne' none
      · omega

theorem quotedFold_advances : Advances pos (quotedFold start len pos) := by
  unfold quotedFold
  dsimp only
  split
  · exact advances_none
  · constructor
    · rw [Traced.all_bind, all_emit]
      exact ⟨by decide, all_pure _ _⟩
    · intro more next done
      cases done
      omega

theorem plainSpan_pos (inside : pos < len) (plain : isPlain (start.getD pos 0) = true) :
    0 < plainSpan start len pos := by
  have present : pos < start.length := by
    by_contra outside
    rw [getD_eq_default _ _ (by omega)] at plain
    cases plain
  rw [getD_eq_getElem _ _ present] at plain
  obtain ⟨rest, more⟩ : ∃ rest, len - pos = rest + 1 := ⟨len - pos - 1, by omega⟩
  rw [plainSpan, drop_eq_getElem_cons present, more, take_succ_cons,
    takeWhile_cons_of_pos plain, length_cons]
  exact Nat.succ_pos _

theorem quotedStep_advances (inside : pos < len) (more : start.getD pos 0 ≠ 34) :
    Advances pos (quotedStep start len pos) := by
  unfold quotedStep
  dsimp only
  split
  · split
    · exact advances_none
    · exact quotedFold_advances.mono (Nat.le_succ pos)
  · split
    · exact quotedFold_advances
    · split
      · split
        · exact advances_none
        · exact quotedCopy_advances (Nat.le_succ pos) fun same => (Nat.succ_ne_self pos same.symm).elim
      next cr lf escape =>
        refine quotedCopy_advances le_rfl fun _ fine => plainSpan_pos inside ?_
        generalize start.getD pos 0 = b at *
        simp only [isControl, isPlain] at *
        grind

theorem all_quotedLoop {fuel : ℕ} (enough : len ≤ pos + fuel) (val : Bytes) :
    (quotedLoop start len fuel pos val).All Access.InBounds := by
  induction fuel generalizing pos val with
  | zero =>
      unfold quotedLoop
      rw [if_neg fun more => by omega]
      exact all_pure _ _
  | succ fuel ih =>
      unfold quotedLoop
      split
      next more =>
        have advances := quotedStep_advances more.2 more.1
        dsimp only
        rw [Traced.all_bind]
        refine ⟨advances.1, ?_⟩
        split
        · exact all_pure _ _
        next more next done =>
          have further := advances.2 _ _ done
          exact ih (by omega) _
      · exact all_pure _ _

theorem all_httpHeaderParseQuotedString (start : Bytes) (len : ℕ) :
    (httpHeaderParseQuotedString start len).All Access.InBounds := by
  unfold httpHeaderParseQuotedString
  split
  · exact all_pure _ _
  · rw [Traced.all_bind]
    refine ⟨all_quotedLoop (by omega) [], ?_⟩
    split
    · exact all_pure _ _
    · exact all_pure _ _

/-! ## Directives -/

variable {item : Bytes} {ilen : ℕ}

/-- Its value would be taken without the quotes around it, but it is a single quote. -/
def LoneQuote (item : Bytes) (ilen : ℕ) : Prop :=
  (keyIs item ilen (ascii "domain") = true ∨ keyIs item ilen (ascii "uri") = true ∨
    keyIs item ilen (ascii "qop") = true) ∧
  vlen item ilen = 1 ∧ item.getD (nlen item ilen + 1) 0 = 34

/-- A directive that is decoded in bounds. -/
structure Tame (item : Bytes) (ilen : ℕ) : Prop where
  named : 0 < nlen item ilen
  closed : ¬ LoneQuote item ilen
  /-- The value of `nc`, without quotes, fits. -/
  short : attrOf item ilen = some .nc → 0 < vlen item ilen → ∀ value,
    (directiveValue item ilen).result = .parsed value → (value.getD []).length ≤ 8

theorem limitInit_all_iff (str : Bytes) (len : ℤ) :
    (limitInit str len).All Access.InBounds ↔ 0 ≤ len := by
  rw [limitInit, Traced.all_bind, all_emit]
  exact and_iff_left (all_pure _ _)

theorem limitInit_defined {str : Bytes} {len : ℤ} (positive : 0 ≤ len) :
    (limitInit str len).result = .parsed (some (str.take len.toNat)) := by
  simp only [limitInit, result_bind, result_pure, if_neg positive.not_gt]

theorem httpHeaderParseQuotedString_defined (start : Bytes) (len : ℕ) :
    (httpHeaderParseQuotedString start len).result = .failed ∨
      ∃ val, (httpHeaderParseQuotedString start len).result = .parsed (some val) := by
  unfold httpHeaderParseQuotedString
  split
  · exact .inl rfl
  · rw [result_bind]
    split
    · exact .inl rfl
    next val pos _ =>
      rw [result_pure]
      split
      · exact .inl rfl
      · exact .inr ⟨val, rfl⟩

theorem headD_drop (item : Bytes) (n : ℕ) : (item.drop n).headD 0 = item.getD n 0 := by
  rw [headD_eq_head?_getD, List.head?_drop, getD_eq_getElem?_getD]

/-- Quotes are taken off, unless there is only one byte. -/
theorem wrapped_all_iff {p : Bytes} {vlen : ℕ} {other : Traced Access DirectiveValue}
    (fine : other.All Access.InBounds) (positive : 0 < vlen) :
    (if p.headD 0 = 34 ∧ p.getD (vlen - 1) 0 = 34 then limitInit p.tail (vlen - 2)
      else other).All Access.InBounds ↔ ¬ (vlen = 1 ∧ p.headD 0 = 34) := by
  split
  next wrapped =>
    rw [limitInit_all_iff]
    exact ⟨fun two one => by omega, fun two => by
      by_contra one
      exact two ⟨by omega, wrapped.1⟩⟩
  next bare =>
    refine iff_of_true fine fun one => bare ⟨one.2, ?_⟩
    rw [one.1, Nat.sub_self, ← headD_eq_getD]
    exact one.2

theorem directiveValue_all_iff (positive : 0 < vlen item ilen) :
    (directiveValue item ilen).All Access.InBounds ↔ ¬ LoneQuote item ilen := by
  unfold directiveValue LoneQuote
  rw [← headD_drop]
  dsimp only
  generalize item.drop (nlen item ilen + 1) = p
  by_cases spaced : keyIs item ilen (ascii "domain") = true ∨ keyIs item ilen (ascii "uri") = true
  · rw [if_pos spaced, wrapped_all_iff (all_pure _ _) positive]
    exact not_congr (and_iff_right (or_assoc.mp (.inl spaced))).symm
  · rw [if_neg spaced]
    split
    next qop =>
      rw [wrapped_all_iff ((limitInit_all_iff _ _).mpr (Int.natCast_nonneg _)) positive]
      exact not_congr (and_iff_right (.inr (.inr qop))).symm
    next other =>
      have tame : ¬ ((keyIs item ilen (ascii "domain") = true ∨
          keyIs item ilen (ascii "uri") = true ∨ keyIs item ilen (ascii "qop") = true) ∧
          vlen item ilen = 1 ∧ p.headD 0 = 34) := fun lone =>
        (or_assoc.mpr lone.1).elim spaced other
      refine iff_of_true ?_ tame
      split
      · exact all_httpHeaderParseQuotedString _ _
      · exact (limitInit_all_iff _ _).mpr (Int.natCast_nonneg _)

theorem DigestAttr.length_of_idByName {name : Bytes} {attr : DigestAttr}
    (found : DigestAttr.idByName name = some attr) : name.length = attr.name.length := by
  have same := List.find?_some found
  simpa using congrArg List.length (beq_iff_eq.mp same)

theorem nlen_le (item : Bytes) (ilen : ℕ) : nlen item ilen ≤ item.length :=
  (takeWhile_sublist _).length_le.trans (length_take_le' _ _)

/-- No attribute is named `domain` or `uri` with one byte more. -/
theorem attrOf_of_keyIs
    (key : keyIs item ilen (ascii "domain") = true ∨ keyIs item ilen (ascii "uri") = true) :
    attrOf item ilen = none := by
  have length : nlen item ilen = 7 ∨ nlen item ilen = 4 := by
    simp only [keyIs, decide_eq_true_eq] at key
    have domain : (ascii "domain").length = 6 := by decide
    have uri : (ascii "uri").length = 3 := by decide
    omega
  by_contra known
  obtain ⟨attr, found⟩ := Option.ne_none_iff_exists'.mp known
  have same := DigestAttr.length_of_idByName found
  rw [length_take, min_eq_left (nlen_le item ilen)] at same
  have names : attr.name.length ≠ 7 ∧ attr.name.length ≠ 4 := by
    cases attr <;> decide
  rcases length with seven | four
  · exact names.1 (same.symm.trans seven)
  · exact names.2 (same.symm.trans four)

/-- In bounds the value of a directive is defined behaviour, and it is an undefined `String` only
where the name is unknown. -/
theorem directiveValue_defined (positive : 0 < vlen item ilen) (closed : ¬ LoneQuote item ilen) :
    (directiveValue item ilen).result = .failed ∨
      ∃ value, (directiveValue item ilen).result = .parsed value ∧
        (value = none → attrOf item ilen = none) := by
  have inBounds := (directiveValue_all_iff positive).mpr closed
  unfold directiveValue at inBounds ⊢
  dsimp only at inBounds ⊢
  generalize item.drop (nlen item ilen + 1) = p at inBounds ⊢
  split at inBounds
  next spaced =>
    rw [if_pos spaced]
    have unknown := attrOf_of_keyIs spaced
    split at inBounds
    next wrapped =>
      rw [if_pos wrapped]
      exact .inr ⟨_, limitInit_defined ((limitInit_all_iff _ _).mp inBounds), fun _ => unknown⟩
    next bare =>
      rw [if_neg bare]
      exact .inr ⟨none, rfl, fun _ => unknown⟩
  next spaced =>
    rw [if_neg spaced]
    split at inBounds
    next qop =>
      rw [if_pos qop]
      split at inBounds
      next wrapped =>
        rw [if_pos wrapped]
        exact .inr ⟨_, limitInit_defined ((limitInit_all_iff _ _).mp inBounds), nofun⟩
      next bare =>
        rw [if_neg bare]
        exact .inr ⟨_, limitInit_defined (Int.natCast_nonneg _), nofun⟩
    next other =>
      rw [if_neg other]
      split
      · rcases httpHeaderParseQuotedString_defined p (vlen item ilen) with failed | ⟨val, parsed⟩
        · exact .inl failed
        · exact .inr ⟨some val, parsed, nofun⟩
      · exact .inr ⟨_, limitInit_defined (Int.natCast_nonneg _), nofun⟩

/-- A value is stored in bounds unless it is an `nc` that is too long, and then decoding goes on. -/
theorem storeValue_spec (fields : Fields) {attr : Option DigestAttr} {value : Option Bytes}
    (known : value = none → attr = none) :
    ((storeValue fields attr value).All Access.InBounds ↔
      (attr = some .nc → (value.getD []).length ≤ 8)) ∧
    ((attr = some .nc → (value.getD []).length ≤ 8) →
      ∃ stored, (storeValue fields attr value).result = some stored) := by
  cases attr with
  | none => exact ⟨iff_of_true (all_pure _ _) (by simp), fun _ => ⟨fields, rfl⟩⟩
  | some attr =>
      obtain ⟨value, rfl⟩ : ∃ text, value = some text :=
        Option.ne_none_iff_exists'.mp fun none => by cases known none
      have copied : (xstrndup (some value)).All Access.InBounds := by
        rw [xstrndup, Traced.all_bind, all_emit]
        exact ⟨Int.natCast_nonneg (value.length + 1), all_pure _ _⟩
      cases attr with
      | nc =>
          constructor
          · rw [storeValue, Traced.all_bind, copyNc, Traced.all_bind, all_emit]
            simp only [all_pure, and_true, Access.InBounds, Option.getD_some, true_imp_iff]
            exact Nat.succ_le_succ_iff
          · intro short
            simp only [storeValue, copyNc, result_bind, result_pure]
            rw [if_pos (Nat.succ_le_succ (short rfl))]
            exact ⟨_, rfl⟩
      | _ =>
          refine ⟨iff_of_true ?_ (by simp), fun _ => ⟨_, rfl⟩⟩
          rw [storeValue, Traced.all_bind]
          exact ⟨copied, all_pure _ _⟩

/-- A directive is decoded in bounds if and only if it is a tame one, and then decoding goes on. -/
theorem decodeDirective_spec (fields : Fields) (item : Bytes) (ilen : ℕ) :
    ((decodeDirective fields item ilen).All Access.InBounds ↔ Tame item ilen) ∧
    (Tame item ilen → ∃ decoded, (decodeDirective fields item ilen).result = some decoded) := by
  have named : Access.InBounds (.slice (nlen item ilen - 1)) ↔ 0 < nlen item ilen := by
    simp only [Access.InBounds]
    omega
  unfold decodeDirective
  rw [Traced.all_bind, all_emit, named]
  simp only [result_bind]
  split
  next positive =>
    rw [Traced.all_bind, directiveValue_all_iff positive]
    by_cases lone : LoneQuote item ilen
    · exact ⟨iff_of_false (fun ok => ok.2.1 lone) fun tame => tame.closed lone,
        fun tame => (tame.closed lone).elim⟩
    rcases directiveValue_defined positive lone with failed | ⟨value, parsed, known⟩
    · simp only [failed, result_bind]
      refine ⟨⟨fun ok => ⟨ok.1, lone, fun _ _ value parsed => ?_⟩, fun tame => ?_⟩,
        fun _ => ⟨fields, rfl⟩⟩
      · rw [failed] at parsed
        cases parsed
      · exact ⟨tame.named, lone, all_pure _ _⟩
    · obtain ⟨stored, goes⟩ := storeValue_spec fields known
      simp only [parsed, result_bind]
      rw [stored]
      refine ⟨⟨fun ok => ⟨ok.1, lone, fun nc _ other same => ?_⟩, fun tame => ?_⟩, fun tame => ?_⟩
      · rw [parsed] at same
        cases same
        exact ok.2.2 nc
      · exact ⟨tame.named, lone, fun nc => tame.short nc positive value parsed⟩
      · exact goes fun nc => tame.short nc positive value parsed
  next empty =>
    constructor
    · refine ⟨fun ok => ⟨ok.1, fun lone => ?_, fun _ positive => (empty positive).elim⟩,
        fun tame => ⟨tame.named, all_pure _ _⟩⟩
      rw [lone.2.1] at empty
      exact empty one_pos
    · exact fun _ => ⟨fields, rfl⟩

/-! ## The header -/

theorem decodeDirectives_all_iff {fuel : ℕ} {pos : Bytes} (enough : pos.length ≤ fuel)
    (fields : Fields) :
    (decodeDirectives fuel pos fields).All Access.InBounds ↔
      ∀ directive ∈ strListItems 44 fuel pos, Tame directive.1 directive.2 := by
  induction fuel generalizing pos fields with
  | zero =>
      obtain rfl : pos = [] := List.length_eq_zero_iff.mp (Nat.le_zero.mp enough)
      exact iff_of_true (all_pure _ _) nofun
  | succ fuel ih =>
      unfold decodeDirectives strListItems
      cases found : strListGetItem 44 pos with
      | none => exact iff_of_true (all_pure _ _) nofun
      | some directive =>
          obtain ⟨item, ilen, after⟩ := directive
          have shorter := (strListGetItem_spec found).2.2
          obtain ⟨inBounds, goes⟩ := decodeDirective_spec fields item ilen
          dsimp only
          rw [Traced.all_bind, forall_mem_cons, inBounds]
          refine and_congr_right fun tame => ?_
          obtain ⟨decoded, next⟩ := goes tame
          rw [next]
          exact ih (by omega) decoded

/-- Decoding a header stays in bounds if and only if all its directives are tame, or the header is too
long for a `String`. -/
theorem decodeFields_inBounds_iff (proxy_auth : Bytes) :
    (decodeFields proxy_auth).All Access.InBounds ↔
      ((directives proxy_auth).length + 1 < 65536 →
        ∀ directive ∈ strListItems 44 (directives proxy_auth).length (directives proxy_auth),
          Tame directive.1 directive.2) := by
  unfold decodeFields
  dsimp only
  split
  next fits =>
    rw [Traced.all_bind, all_emit, decodeDirectives_all_iff le_rfl, forall_prop_of_true fits]
    exact and_iff_right (Int.natCast_nonneg _)
  next long => exact iff_of_true (all_pure _ _) fun fits => (long fits).elim

/-- `nc` with nine digits is written over the field behind it. -/
theorem overrun_nineDigits :
    Access.nc 10 ∈ (decodeFields (ascii "Digest nc=000000001")).events ∧
      ¬ (decodeFields (ascii "Digest nc=000000001")).All Access.InBounds := by
  have written : Access.nc 10 ∈ (decodeFields (ascii "Digest nc=000000001")).events := by
    decide +kernel
  exact ⟨written, fun all => absurd (all _ written) (by decide)⟩

end Digest
end Squid
