import Mathlib.Data.List.Induction
import Mathlib.Data.List.TakeWhile
import Mathlib.Algebra.Order.Ring.Int
import Mathlib.Tactic.Common

/-!
# Integers and strings of the C runtime

Signed results wrap around.  A pointer into a C string is the list of the bytes from there
on; a zero byte, and the end of the list, terminate the string.  `strtoll` follows the GNU
implementation: white space and one sign are skipped, an out-of-range magnitude saturates, and
without digits nothing is consumed.
-/

namespace CRuntime

open List

/-- Bytes of a string, or of a buffer. -/
abbrev Bytes := List UInt8

/-! ## Signed integers -/

/-- The `short` that an exact result wraps to. -/
def int16 (x : ℤ) : ℤ := (x + 2 ^ 15) % 2 ^ 16 - 2 ^ 15

theorem int16_eq {x : ℤ} (low : -2 ^ 15 ≤ x) (high : x < 2 ^ 15) : int16 x = x := by
  unfold int16
  omega

/-- The `int` that an exact result wraps to. -/
def int32 (x : ℤ) : ℤ := (x + 2 ^ 31) % 2 ^ 32 - 2 ^ 31

theorem int32_eq {x : ℤ} (low : -2 ^ 31 ≤ x) (high : x < 2 ^ 31) : int32 x = x := by
  unfold int32
  omega

theorem int32_mem (x : ℤ) : -2 ^ 31 ≤ int32 x ∧ int32 x < 2 ^ 31 := by
  unfold int32
  omega

theorem int32_add_int32 (x y : ℤ) : int32 (x + int32 y) = int32 (x + y) := by
  unfold int32
  omega

theorem int32_add_mul (x factor : ℤ) : int32 (x + 2 ^ 32 * factor) = int32 x := by
  unfold int32
  omega

theorem int32_mul_int32 (x y : ℤ) : int32 (x * int32 y) = int32 (x * y) := by
  have shifted : int32 y = y + 2 ^ 32 * -((y + 2 ^ 31) / 2 ^ 32) := by
    unfold int32
    omega
  rw [shifted, mul_add, mul_left_comm, int32_add_mul]

/-- The `int64_t` that an exact result wraps to. -/
def int64 (x : ℤ) : ℤ := (x + 2 ^ 63) % 2 ^ 64 - 2 ^ 63

theorem int64_eq {x : ℤ} (low : -2 ^ 63 ≤ x) (high : x < 2 ^ 63) : int64 x = x := by
  unfold int64
  omega

theorem int64_mem (x : ℤ) : -2 ^ 63 ≤ int64 x ∧ int64 x < 2 ^ 63 := by
  unfold int64
  omega

/-- Passing through `uint64_t` does not change the result. -/
theorem int64_emod (x : ℤ) : int64 (int64 x % 2 ^ 64) = int64 x := by
  unfold int64
  omega

/-! ## Unsigned integers -/

/-- The `unsigned short` that an exact result wraps to. -/
def uint16 (x : ℕ) : ℕ := x % 2 ^ 16

/-- The `unsigned int` that an exact result wraps to. -/
def uint32 (x : ℕ) : ℕ := x % 2 ^ 32

theorem uint32_eq {x : ℕ} (high : x < 2 ^ 32) : uint32 x = x := Nat.mod_eq_of_lt high

theorem uint32_lt (x : ℕ) : uint32 x < 2 ^ 32 := Nat.mod_lt _ (by decide)

/-! ## Characters -/

/-- `isspace` in the C locale. -/
def isSpace (b : UInt8) : Bool := b == 32 || (9 ≤ b && b ≤ 13)

/-- `tolower` in the C locale. -/
def toLower (b : UInt8) : UInt8 := if 65 ≤ b ∧ b ≤ 90 then b + 32 else b

/-- The C string at a pointer. -/
def cstr (s : Bytes) : Bytes := s.takeWhile (· != 0)

/-- `strtok` at what is left of a C string: the token, and what is left behind its end. -/
def strtok (delimiter : UInt8 → Bool) (s : Bytes) : Option (Bytes × Bytes) :=
  let start := s.dropWhile delimiter
  if start = [] then none
  else some (start.takeWhile (!delimiter ·), (start.dropWhile (!delimiter ·)).tail)

/-- Value of a digit or letter in a base. -/
def digitValue (base : ℕ) (b : UInt8) : Option ℕ :=
  let value :=
    if 48 ≤ b ∧ b ≤ 57 then some (b.toNat - 48)
    else if 97 ≤ b ∧ b ≤ 122 then some (b.toNat - 87)
    else if 65 ≤ b ∧ b ≤ 90 then some (b.toNat - 55)
    else none
  value.filter (· < base)

/-- The byte is a digit in the base. -/
def isDigit (base : ℕ) (b : UInt8) : Bool := (digitValue base b).isSome

/-! ## C strings -/

section Strings

variable {p : UInt8 → Bool} {s t : Bytes} {c : UInt8}

theorem takeWhile_stop (stop : p c = false) : (s ++ c :: t).takeWhile p = s.takeWhile p := by
  induction s with
  | nil => simp [stop]
  | cons x s ih =>
      rw [cons_append, takeWhile_cons, takeWhile_cons, ih]

theorem dropWhile_stop (stop : p c = false) :
    (s ++ c :: t).dropWhile p = s.dropWhile p ++ c :: t := by
  induction s with
  | nil => simp [stop]
  | cons x s ih =>
      rw [cons_append, dropWhile_cons, dropWhile_cons, ih]
      split <;> rfl

theorem cstr_of_plain (plain : 0 ∉ s) : cstr s = s := by
  refine takeWhile_eq_self_iff.mpr fun b member => bne_iff_ne.mpr ?_
  rintro rfl
  exact plain member

/-- A string ends at its first zero byte. -/
theorem cstr_append_of_plain (plain : 0 ∉ s) (t : Bytes) : cstr (s ++ t) = s ++ cstr t := by
  refine takeWhile_append_of_pos fun b member => bne_iff_ne.mpr ?_
  rintro rfl
  exact plain member

theorem cstr_cons (nonzero : c ≠ 0) (t : Bytes) : cstr (c :: t) = c :: cstr t :=
  takeWhile_cons_of_pos (bne_iff_ne.mpr nonzero)

theorem strtok_shorter {delimiter : UInt8 → Bool} {token rest : Bytes}
    (found : strtok delimiter s = some (token, rest)) : rest.length < s.length := by
  simp only [strtok, Option.ite_none_left_eq_some, Option.some.injEq, Prod.mk.injEq] at found
  obtain ⟨some, rfl, rfl⟩ := found
  have positive : 0 < (s.dropWhile delimiter).length := length_pos_iff.mpr some
  have first := (dropWhile_suffix (l := s) delimiter).length_le
  have second := (dropWhile_suffix (l := s.dropWhile delimiter) (!delimiter ·)).length_le
  rw [length_tail]
  omega

end Strings

/-! ## `strtoll` -/

/-- Number written by digits. -/
def magnitude (base : ℕ) (digits : Bytes) : ℕ :=
  digits.foldl (fun value b => value * base + (digitValue base b).getD 0) 0

/-- The nearest `int64_t`. -/
def saturate (negative : Bool) (value : ℕ) : ℤ :=
  if negative then max (-2 ^ 63) (-(value : ℤ)) else min (2 ^ 63 - 1) (value : ℤ)

/-- Skip one sign, telling whether it is a minus. -/
def skipSign : Bytes → Bool × Bytes
  | 45 :: s => (true, s)
  | 43 :: s => (false, s)
  | s => (false, s)

/-- Skip the `0x` that may precede a hexadecimal number. -/
def skipHexMark (base : ℕ) : Bytes → Bytes
  | 48 :: x :: s => if base = 16 ∧ (x = 120 ∨ x = 88) then s else 48 :: x :: s
  | s => s

/-- `strtoll`: the number and the end pointer. -/
def strtoll (base : ℕ) (s : Bytes) : ℤ × Bytes :=
  let signed := skipSign (s.dropWhile isSpace)
  let unmarked := skipHexMark base signed.2
  let digits := unmarked.takeWhile (isDigit base)
  if digits = [] then
    if unmarked.length < signed.2.length then (0, signed.2.tail) else (0, s)
  else
    (saturate signed.1 (magnitude base digits), unmarked.dropWhile (isDigit base))

theorem saturate_mem (negative : Bool) (value : ℕ) :
    -2 ^ 63 ≤ saturate negative value ∧ saturate negative value < 2 ^ 63 := by
  unfold saturate
  split <;> omega

theorem strtoll_mem (base : ℕ) (s : Bytes) :
    -2 ^ 63 ≤ (strtoll base s).1 ∧ (strtoll base s).1 < 2 ^ 63 := by
  simp only [strtoll]
  split
  · split <;> simp
  · exact saturate_mem _ _

variable {b : UInt8} {base : ℕ}

theorem digitValue_lt {value : ℕ} (digit : digitValue base b = some value) : value < base := by
  simpa using (Option.filter_eq_some_iff.mp digit).2

theorem skipHexMark_of_ne (decimal : base ≠ 16) (s : Bytes) : skipHexMark base s = s := by
  unfold skipHexMark
  split <;> simp [decimal]

theorem isDigit_ten_iff (b : UInt8) : isDigit 10 b = true ↔ 48 ≤ b.toNat ∧ b.toNat ≤ 57 := by
  have bound := b.toNat_lt
  simp only [isDigit, digitValue, UInt8.le_iff_toNat_le, UInt8.reduceToNat]
  split
  · simp
    omega
  · split
    · simp
      omega
    · split
      · simp
        omega
      · simp
        omega

theorem isDigit_sixteen_iff (b : UInt8) : isDigit 16 b = true ↔
    48 ≤ b.toNat ∧ b.toNat ≤ 57 ∨ 97 ≤ b.toNat ∧ b.toNat ≤ 102 ∨
      65 ≤ b.toNat ∧ b.toNat ≤ 70 := by
  have bound := b.toNat_lt
  simp only [isDigit, digitValue, UInt8.le_iff_toNat_le, UInt8.reduceToNat]
  split
  · simp
    omega
  · split
    · simp
      omega
    · split
      · simp
        omega
      · simp
        omega

/-- A hexadecimal digit is neither white space nor a sign. -/
theorem plain_of_isDigit_sixteen (digit : isDigit 16 b = true) :
    isSpace b = false ∧ b ≠ 45 ∧ b ≠ 43 := by
  rw [isDigit_sixteen_iff] at digit
  simp only [isSpace, UInt8.le_iff_toNat_le, ← UInt8.toNat_inj, UInt8.reduceToNat,
    Bool.or_eq_false_iff, beq_eq_false_iff_ne, Bool.and_eq_false_iff, decide_eq_false_iff_not, ne_eq]
  omega

/-- A decimal digit is neither white space nor a sign. -/
theorem plain_of_isDigit (digit : isDigit 10 b = true) : isSpace b = false ∧ b ≠ 45 ∧ b ≠ 43 := by
  rw [isDigit_ten_iff] at digit
  simp only [isSpace, UInt8.le_iff_toNat_le, ← UInt8.toNat_inj, UInt8.reduceToNat,
    Bool.or_eq_false_iff, beq_eq_false_iff_ne, Bool.and_eq_false_iff, decide_eq_false_iff_not, ne_eq]
  omega

theorem skipSign_of_ne (s : Bytes) (minus : b ≠ 45) (plus : b ≠ 43) :
    skipSign (b :: s) = (false, b :: s) := by
  unfold skipSign
  split <;> simp_all

/-- What comes before the rest is one sign or nothing. -/
theorem skipSign_spec (s : Bytes) : ∃ sign, s = sign ++ (skipSign s).2 ∧
    ((sign = [] ∨ sign = [43]) ∧ (skipSign s).1 = false ∨
      sign = [45] ∧ (skipSign s).1 = true) := by
  unfold skipSign
  split
  · exact ⟨[45], rfl, .inr ⟨rfl, rfl⟩⟩
  · exact ⟨[43], rfl, .inl ⟨.inr rfl, rfl⟩⟩
  · exact ⟨[], rfl, .inl ⟨.inl rfl, rfl⟩⟩

/-- The digits at the start of a decimal number decide its value. -/
theorem strtoll_digits {digits rest : Bytes} (ne : digits ≠ [])
    (all : ∀ b ∈ digits, isDigit 10 b = true) (stop : rest.takeWhile (isDigit 10) = []) :
    (strtoll 10 (digits ++ rest)).1 = saturate false (magnitude 10 digits) := by
  obtain ⟨b, tail, rfl⟩ := exists_cons_of_ne_nil ne
  obtain ⟨blank, minus, plus⟩ := plain_of_isDigit (all b (by simp))
  have taken : ((b :: tail) ++ rest).takeWhile (isDigit 10) = b :: tail := by
    rw [takeWhile_append_of_pos all, stop, List.append_nil]
  simp only [cons_append] at taken ⊢
  simp [strtoll, dropWhile_cons, blank, skipSign_of_ne _ minus plus,
    skipHexMark_of_ne (show (10 : ℕ) ≠ 16 by decide), taken]

/-! ## Hexadecimal numbers -/

theorem digitValue_sixteen_ne_zero (digit : isDigit 16 b = true) (ne : b ≠ 48) :
    (digitValue 16 b).getD 0 ≠ 0 := by
  rw [isDigit_sixteen_iff] at digit
  simp only [ne_eq, ← UInt8.toNat_inj, UInt8.reduceToNat] at ne
  simp only [digitValue, UInt8.le_iff_toNat_le, UInt8.reduceToNat]
  split
  · rw [Option.filter_some, if_pos (by simp; omega)]
    simp
    omega
  · split
    · rw [Option.filter_some, if_pos (by simp; omega)]
      simp
      omega
    · rw [if_pos (by omega), Option.filter_some, if_pos (by simp; omega)]
      simp
      omega

theorem magnitude_append_ne_zero (positive : 0 < base) {front : Bytes}
    (ne : magnitude base front ≠ 0) (back : Bytes) : magnitude base (front ++ back) ≠ 0 := by
  unfold magnitude at ne ⊢
  rw [foldl_append]
  generalize front.foldl (fun value b => value * base + (digitValue base b).getD 0) 0 =
    value at ne ⊢
  induction back generalizing value with
  | nil => exact ne
  | cons b back ih =>
      apply ih
      have grows : value * base ≠ 0 := Nat.mul_ne_zero ne (by omega)
      exact Nat.ne_of_gt (Nat.add_pos_left (Nat.pos_of_ne_zero grows) _)

/-- A number has fewer than as many values as its digits allow. -/
theorem magnitude_lt (positive : 0 < base) (digits : Bytes) :
    magnitude base digits < base ^ digits.length := by
  induction digits using List.reverseRecOn with
  | nil => exact Nat.one_pos
  | append_singleton digits b ih =>
      have digit : (digitValue base b).getD 0 < base := by
        cases found : digitValue base b with
        | none => exact positive
        | some value => exact digitValue_lt found
      have appended : magnitude base (digits ++ [b]) =
          magnitude base digits * base + (digitValue base b).getD 0 := by
        rw [magnitude, foldl_append]
        rfl
      rw [appended, length_append, length_singleton, pow_succ]
      calc magnitude base digits * base + (digitValue base b).getD 0
          < magnitude base digits * base + base := Nat.add_lt_add_left digit _
        _ = (magnitude base digits + 1) * base := (Nat.succ_mul _ _).symm
        _ ≤ base ^ digits.length * base := Nat.mul_le_mul_right base ih

theorem saturate_false_eq_zero {value : ℕ} : saturate false value = 0 ↔ value = 0 := by
  simp only [saturate, Bool.false_eq_true, if_false]
  omega

theorem saturate_false_nonneg (value : ℕ) : 0 ≤ saturate false value := by
  simp only [saturate, Bool.false_eq_true, if_false]
  omega

theorem skipHexMark_of_head (ne : b ≠ 48) (s : Bytes) : skipHexMark base (b :: s) = b :: s := by
  unfold skipHexMark
  split
  · simp_all
  · rfl

variable {s : Bytes}

theorem skipHexMark_of_all (all : ∀ b ∈ s, isDigit 16 b = true) : skipHexMark 16 s = s := by
  unfold skipHexMark
  split
  next x rest =>
    have digit := all x (by simp)
    refine if_neg fun mark => ?_
    rcases mark.2 with rfl | rfl
    · exact absurd digit (by decide)
    · exact absurd digit (by decide)
  next => rfl

/-- Nothing is read where no digit follows the white space and the sign. -/
theorem strtoll_none
    (none : ∀ d rest, (skipSign (s.dropWhile isSpace)).2 = d :: rest → isDigit 16 d = false) :
    strtoll 16 s = (0, s) := by
  unfold strtoll
  generalize skipSign (s.dropWhile isSpace) = signed at none ⊢
  obtain ⟨negative, t⟩ := signed
  cases t with
  | nil => simp [skipHexMark]
  | cons d rest =>
      have digit := none d rest rfl
      have ne : d ≠ 48 := by
        rintro rfl
        simp [show isDigit 16 48 = true by decide] at digit
      simp [skipHexMark_of_head ne, digit]

/-- A number that starts with a digit other than zero. -/
theorem strtoll_some {rest : Bytes} {negative : Bool} {d : UInt8}
    (signed : skipSign (s.dropWhile isSpace) = (negative, d :: rest)) (digit : isDigit 16 d = true)
    (ne : d ≠ 48) :
    strtoll 16 s = (saturate negative (magnitude 16 (d :: rest.takeWhile (isDigit 16))),
      rest.dropWhile (isDigit 16)) := by
  simp [strtoll, signed, skipHexMark_of_head ne, digit]

variable {blanks : Bytes}

section

variable (spaces : ∀ b ∈ blanks, isSpace b = true)
include spaces

theorem dropWhile_blanks (stop : s.dropWhile isSpace = s) :
    (blanks ++ s).dropWhile isSpace = s := by
  rw [dropWhile_append_of_pos spaces, stop]

/-- White space and a sign are not a number. -/
theorem strtoll_sign {sign : Bytes} (kinds : sign = [] ∨ sign = [43] ∨ sign = [45]) :
    strtoll 16 (blanks ++ sign) = (0, blanks ++ sign) := by
  apply strtoll_none
  have stop : sign.dropWhile isSpace = sign := by rcases kinds with rfl | rfl | rfl <;> rfl
  rw [dropWhile_blanks spaces stop]
  rcases kinds with rfl | rfl | rfl <;> simp [skipSign]

/-- White space, a sign and one digit are. -/
theorem strtoll_sign_digit {sign : Bytes} {d : UInt8} (digit : isDigit 16 d = true)
    (kinds : sign = [] ∨ sign = [43] ∨ sign = [45] ∧ d = 48) :
    strtoll 16 (blanks ++ (sign ++ [d])) = (saturate false (magnitude 16 [d]), []) := by
  obtain ⟨blank, minus, plus⟩ := plain_of_isDigit_sixteen digit
  have stop : (sign ++ [d]).dropWhile isSpace = sign ++ [d] := by
    rcases kinds with rfl | rfl | ⟨rfl, -⟩
    · simp [blank]
    · rfl
    · rfl
  have read : ∀ negative, skipSign (sign ++ [d]) = (negative, [d]) →
      strtoll 16 (blanks ++ (sign ++ [d])) = (saturate negative (magnitude 16 [d]), []) := by
    intro negative signed
    have unmarked : skipHexMark 16 [d] = [d] := by simp [skipHexMark]
    have taken : [d].takeWhile (isDigit 16) = [d] := by simp [digit]
    have dropped : [d].dropWhile (isDigit 16) = [] := by simp [digit]
    simp only [strtoll, dropWhile_blanks spaces stop, signed, unmarked, taken, dropped]
    rfl
  rcases kinds with rfl | rfl | ⟨rfl, rfl⟩
  · exact read false (skipSign_of_ne _ minus plus)
  · exact read false rfl
  · exact read true rfl

end

/-- Digits without a `0x`. -/
theorem strtoll_hex {digits rest : Bytes} (ne : digits ≠ [])
    (all : ∀ b ∈ digits, isDigit 16 b = true) (stop : rest.takeWhile (isDigit 16) = [])
    (unmarked : skipHexMark 16 (digits ++ rest) = digits ++ rest) :
    strtoll 16 (digits ++ rest) = (saturate false (magnitude 16 digits), rest) := by
  obtain ⟨b, tail, rfl⟩ := exists_cons_of_ne_nil ne
  obtain ⟨blank, minus, plus⟩ := plain_of_isDigit_sixteen (all b (by simp))
  have taken : ((b :: tail) ++ rest).takeWhile (isDigit 16) = b :: tail := by
    rw [takeWhile_append_of_pos all, stop, List.append_nil]
  have dropped : ((b :: tail) ++ rest).dropWhile (isDigit 16) = rest := by
    rw [dropWhile_append_of_pos all]
    exact dropWhile_eq_self_iff.mpr (takeWhile_eq_nil_iff.mp stop)
  simp only [cons_append] at taken dropped unmarked ⊢
  simp [strtoll, blank, skipSign_of_ne _ minus plus, unmarked, taken, dropped]

/-- Digits after a `0x`; without digits the number is the zero of the mark. -/
theorem strtoll_marked {x : UInt8} (mark : x = 120 ∨ x = 88) (s : Bytes) :
    strtoll 16 (48 :: x :: s) =
      if s.takeWhile (isDigit 16) = [] then (0, x :: s)
      else (saturate false (magnitude 16 (s.takeWhile (isDigit 16))),
        s.dropWhile (isDigit 16)) := by
  have signed : skipSign ((48 :: x :: s).dropWhile isSpace) = (false, 48 :: x :: s) := rfl
  have unmarked : skipHexMark 16 (48 :: x :: s) = s := by simp [skipHexMark, mark]
  have shorter : s.length < (48 :: x :: s).length := by simp only [length_cons]; omega
  simp only [strtoll, signed, unmarked, if_pos shorter, tail_cons]

/-- A negative decimal number is white space, a minus sign and digits. -/
theorem strtoll_neg (negative : (strtoll 10 s).1 < 0) :
    ∃ blanks digits rest, s = blanks ++ 45 :: (digits ++ rest) ∧
      (∀ b ∈ blanks, isSpace b = true) ∧ digits ≠ [] ∧ (∀ b ∈ digits, isDigit 10 b = true) ∧
      rest.takeWhile (isDigit 10) = [] ∧
      (strtoll 10 s).1 = saturate true (magnitude 10 digits) := by
  have split_blanks := takeWhile_append_dropWhile (p := isSpace) (l := s)
  have marked := skipHexMark_of_ne (show (10 : ℕ) ≠ 16 by decide)
  simp only [strtoll, marked, lt_self_iff_false, if_false] at negative ⊢
  generalize signed : skipSign (s.dropWhile isSpace) = result at negative ⊢
  obtain ⟨minus, t⟩ := result
  dsimp only at negative ⊢
  split at negative
  · simp at negative
  rename_i found
  cases minus with
  | false =>
      simp only [saturate, Bool.false_eq_true, if_false] at negative
      omega
  | true =>
      have start : s.dropWhile isSpace = 45 :: t := by
        unfold skipSign at signed
        split at signed <;> simp_all
      refine ⟨s.takeWhile isSpace, t.takeWhile (isDigit 10), t.dropWhile (isDigit 10), ?_, ?_,
        found, ?_, ?_, ?_⟩
      · rw [takeWhile_append_dropWhile, ← start, split_blanks]
      · exact fun b member => mem_takeWhile_imp member
      · exact fun b member => mem_takeWhile_imp member
      · rw [takeWhile_eq_nil_iff]
        intro found
        simpa using dropWhile_get_zero_not _ t found
      · rw [if_neg found]

end CRuntime
