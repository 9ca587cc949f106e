import Squid.Library.CRuntime
import Mathlib.Algebra.Order.Group.Unbundled.Int

/-!
# Decimal numbers

What `printf` writes for an integer, and what `strtoll` reads back.
-/

namespace CRuntime

/-- The text of a number. -/
def digits (n : ℕ) : Bytes := (Nat.toDigits 10 n).map fun c => UInt8.ofNat c.toNat

/-- The text that `%d` makes of an integer. -/
def decimal (x : ℤ) : Bytes := if x < 0 then 45 :: digits x.natAbs else digits x.natAbs

theorem digit_of_char {c : Char} (digit : c.isDigit = true) :
    isDigit 10 (UInt8.ofNat c.toNat) = true ∧
      (digitValue 10 (UInt8.ofNat c.toNat)).getD 0 = c.toNat - 48 := by
  have range : 48 ≤ c.toNat ∧ c.toNat ≤ 57 := Char.isDigit_iff_toNat.mp digit
  have value : (UInt8.ofNat c.toNat).toNat = c.toNat := by
    rw [UInt8.toNat_ofNat']
    omega
  refine ⟨(isDigit_ten_iff _).mpr (by rwa [value]), ?_⟩
  have inside : 48 ≤ UInt8.ofNat c.toNat ∧ UInt8.ofNat c.toNat ≤ 57 := by
    simpa only [UInt8.le_iff_toNat_le, value, UInt8.reduceToNat] using range
  have small : c.toNat - 48 < 10 := by omega
  simp [digitValue, if_pos inside, value, Option.filter, small]

theorem isDigit_of_mem_digits (n : ℕ) : ∀ b ∈ digits n, isDigit 10 b = true := by
  intro b member
  obtain ⟨c, inside, rfl⟩ := List.mem_map.mp member
  exact (digit_of_char (Nat.isDigit_of_mem_toDigits (by decide) (by decide) inside)).1

theorem magnitude_map {text : List Char} (all : ∀ c ∈ text, c.isDigit = true) (start : ℕ) :
    (text.map fun c => UInt8.ofNat c.toNat).foldl
        (fun value b => value * 10 + (digitValue 10 b).getD 0) start =
      Nat.ofDigitChars 10 text start := by
  induction text generalizing start with
  | nil => rfl
  | cons c text ih =>
      rw [List.map_cons, List.foldl_cons, (digit_of_char (all c List.mem_cons_self)).2,
        ih fun other member => all other (List.mem_cons_of_mem c member), mul_comm start]
      rfl

theorem magnitude_digits (n : ℕ) : magnitude 10 (digits n) = n := by
  have all : ∀ c ∈ Nat.toDigits 10 n, c.isDigit = true := fun c inside =>
    Nat.isDigit_of_mem_toDigits (by decide) (by decide) inside
  exact (magnitude_map all 0).trans Nat.ofDigitChars_ten_toDigits

theorem digits_ne_nil (n : ℕ) : digits n ≠ [] := by
  simp [digits, Nat.toDigits_ne_nil]

theorem decimal_ne_nil (x : ℤ) : decimal x ≠ [] := by
  unfold decimal
  split
  · simp
  · exact digits_ne_nil _

theorem decimal_of_nonneg {x : ℤ} (nonneg : 0 ≤ x) : decimal x = digits x.toNat := by
  rw [decimal, if_neg (by omega), show x.natAbs = x.toNat by omega]

/-- The text of an integer has digits, and a dash in front of a negative one. -/
theorem of_mem_decimal {x : ℤ} {b : UInt8} (member : b ∈ decimal x) :
    b = 45 ∨ isDigit 10 b = true := by
  unfold decimal at member
  split at member
  · rcases List.mem_cons.mp member with dash | digit
    · exact .inl dash
    · exact .inr (isDigit_of_mem_digits _ b digit)
  · exact .inr (isDigit_of_mem_digits _ b member)

/-- White space, a sign and digits are read up to the byte behind them. -/
theorem strtoll_of_signed {s text rest : Bytes} {negative : Bool}
    (signed : skipSign (s.dropWhile isSpace) = (negative, text ++ rest)) (ne : text ≠ [])
    (all : ∀ b ∈ text, isDigit 10 b = true) (stop : rest.takeWhile (isDigit 10) = []) :
    strtoll 10 s = (saturate negative (magnitude 10 text), rest) := by
  have taken : (text ++ rest).takeWhile (isDigit 10) = text := by
    rw [List.takeWhile_append_of_pos all, stop, List.append_nil]
  have dropped : (text ++ rest).dropWhile (isDigit 10) = rest := by
    rw [List.dropWhile_append_of_pos all]
    exact List.dropWhile_eq_self_iff.mpr (List.takeWhile_eq_nil_iff.mp stop)
  simp only [strtoll, signed, skipHexMark_of_ne (show (10 : ℕ) ≠ 16 by decide), taken, dropped,
    if_neg ne]

/-- Digits are read up to the byte behind them. -/
theorem strtoll_of_digits {text rest : Bytes} (ne : text ≠ [])
    (all : ∀ b ∈ text, isDigit 10 b = true) (stop : rest.takeWhile (isDigit 10) = []) :
    strtoll 10 (text ++ rest) = (saturate false (magnitude 10 text), rest) := by
  apply strtoll_of_signed _ ne all stop
  obtain ⟨b, tail, rfl⟩ := List.exists_cons_of_ne_nil ne
  obtain ⟨blank, minus, plus⟩ := plain_of_isDigit (all b (by simp))
  simp [blank, skipSign_of_ne _ minus plus]

/-- What `%d` writes is read back. -/
theorem strtoll_decimal {x : ℤ} (low : -2 ^ 63 ≤ x) (high : x < 2 ^ 63) {rest : Bytes}
    (stop : rest.takeWhile (isDigit 10) = []) : strtoll 10 (decimal x ++ rest) = (x, rest) := by
  have all := isDigit_of_mem_digits x.natAbs
  have some := digits_ne_nil x.natAbs
  unfold decimal
  split
  · rename_i negative
    rw [@strtoll_of_signed (45 :: digits x.natAbs ++ rest) (digits x.natAbs) rest true rfl some all
      stop, magnitude_digits]
    refine Prod.ext ?_ rfl
    simp only [saturate, if_true]
    omega
  · rename_i nonneg
    rw [strtoll_of_digits some all stop, magnitude_digits]
    refine Prod.ext ?_ rfl
    simp only [saturate, Bool.false_eq_true, if_false]
    omega

end CRuntime
