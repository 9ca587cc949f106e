import Mathlib.Data.List.Basic
import Mathlib.Data.Nat.ModEq

/-!
# Sets of numbers as words of bits

A list of words of width `w` represents the set of the numbers `n` whose bit `n % w` is set in the
word `n / w`.  Masking one word with a single bit adds or removes exactly one member, appended zero
words add none, and a word that differs from the word of all ones has a clear bit.
-/

namespace WordBitmap

variable {w : ℕ}

/-- The bit of number `n`; words behind the end of the list read as zero. -/
def bit (words : List (BitVec w)) (n : ℕ) : Bool :=
  (words[n / w]?.getD 0#w).getLsbD (n % w)

variable {n : ℕ} {word : BitVec w} {words : List (BitVec w)}

theorem bit_of_getElem? (at_word : words[n / w]? = some word) :
    bit words n = word.getLsbD (n % w) := by
  rw [bit, at_word, Option.getD_some]

theorem bit_of_length_le (outside : words.length ≤ n / w) : bit words n = false := by
  rw [bit, List.getElem?_eq_none outside, Option.getD_none, BitVec.getLsbD_zero]

variable {i : ℕ}

/-- Testing a word with a mask of one bit reads that bit. -/
theorem and_mask_ne_zero (word : BitVec w) (inside : i < w) :
    word &&& (1#w <<< i) ≠ 0#w ↔ word.getLsbD i = true := by
  rw [← BitVec.twoPow_eq, BitVec.and_twoPow]
  cases word.getLsbD i with
  | false => simp
  | true =>
      have nonzero : BitVec.twoPow w i ≠ 0#w := by
        intro zero
        have same := congrArg (fun word => BitVec.getLsbD word i) zero
        simp [inside] at same
      simpa using nonzero

variable {j : ℕ}

theorem getLsbD_or_mask (word : BitVec w) (inside : j < w) :
    (word ||| (1#w <<< i)).getLsbD j = (decide (i = j) || word.getLsbD j) := by
  rw [← BitVec.twoPow_eq, BitVec.getLsbD_or, BitVec.getLsbD_twoPow, Bool.or_comm]
  by_cases same : i = j
  · simp [same, inside]
  · simp [same]

theorem getLsbD_and_not_mask (word : BitVec w) (inside : j < w) :
    (word &&& ~~~(1#w <<< i)).getLsbD j = (!decide (i = j) && word.getLsbD j) := by
  rw [← BitVec.twoPow_eq, BitVec.getLsbD_and, BitVec.getLsbD_not, BitVec.getLsbD_twoPow,
    Bool.and_comm]
  by_cases same : i = j
  · simp [same, inside]
  · simp [same, inside]

/-- Two numbers are equal when they have the same word and the same bit. -/
theorem eq_of_div_mod {m : ℕ} (word : m / w = n / w) (place : m % w = n % w) : m = n := by
  rw [← Nat.div_add_mod m w, ← Nat.div_add_mod n w, word, place]

/-- Replace the word of `n` by one that differs from it at most in the bit of `n`. -/
theorem bit_set (words : List (BitVec w)) {next : BitVec w} {value : Bool} (wide : 0 < w)
    (at_word : words[n / w]? = some word)
    (replaced : ∀ j < w, next.getLsbD j = if n % w = j then value else word.getLsbD j) (k : ℕ) :
    bit (words.set (n / w) next) k = if k = n then value else bit words k := by
  have inside := Nat.mod_lt k wide
  by_cases same : n / w = k / w
  · have next_at : (words.set (n / w) next)[k / w]? = some next := by
      rw [← same, List.getElem?_set_self (List.getElem?_eq_some_iff.mp at_word).1]
    rw [bit_of_getElem? next_at, replaced _ inside, bit_of_getElem? (same ▸ at_word)]
    by_cases place : n % w = k % w
    · rw [if_pos place, if_pos (eq_of_div_mod same place).symm]
    · rw [if_neg place, if_neg fun equal => place (by rw [equal])]
  · rw [bit, List.getElem?_set_ne same, if_neg fun equal => same (by rw [equal])]
    rfl

theorem bit_append_zeros (words : List (BitVec w)) (count n : ℕ) :
    bit (words ++ List.replicate count 0#w) n = bit words n := by
  rcases Nat.lt_or_ge (n / w) words.length with inside | outside
  · rw [bit, List.getElem?_append_left inside]
    rfl
  · rw [bit_of_length_le outside, bit, List.getElem?_append_right outside, List.getElem?_replicate]
    split <;> simp

theorem bit_zeros (count n : ℕ) : bit (List.replicate count 0#w) n = false := by
  rw [← List.nil_append (List.replicate count 0#w), bit_append_zeros,
    bit_of_length_le (Nat.zero_le _)]

/-- A word with a clear bit is not the word of all ones, and the other way round. -/
theorem ne_allOnes_iff (word : BitVec w) :
    word ≠ BitVec.allOnes w ↔ ∃ i < w, word.getLsbD i = false := by
  constructor
  · intro differs
    by_contra none_clear
    push Not at none_clear
    refine differs (BitVec.eq_of_getLsbD_eq fun i inside => ?_)
    rw [BitVec.getLsbD_allOnes, decide_eq_true inside]
    exact Bool.eq_true_of_not_eq_false (none_clear i inside)
  · rintro ⟨i, inside, clear⟩ rfl
    rw [BitVec.getLsbD_allOnes, decide_eq_true inside] at clear
    cases clear

/-- Step along `0, …, n - 1` and from `n - 1` back to `0`, at most `fuel` times, until `found`. -/
def scan {n : ℕ} (found : Fin n → Bool) : ℕ → Fin n → Fin n
  | 0, i => i
  | fuel + 1, i =>
      if found i then i
      else scan found fuel ⟨(i + 1) % n, Nat.mod_lt _ (Nat.zero_lt_of_lt i.isLt)⟩

/-- A scan finds every index that it reaches within its steps. -/
theorem found_scan {found : Fin n → Bool} {fuel : ℕ} {start target : Fin n}
    (good : found target = true) (steps : ℕ) (few : steps < fuel)
    (reaches : ((start : ℕ) + steps) % n = target) : found (scan found fuel start) = true := by
  induction fuel generalizing start steps with
  | zero => omega
  | succ fuel ih =>
      rw [scan]
      cases here : found start with
      | true => rw [if_pos rfl, here]
      | false =>
          rw [if_neg Bool.false_ne_true]
          cases steps with
          | zero =>
              rw [Nat.add_zero, Nat.mod_eq_of_lt start.isLt] at reaches
              rw [Fin.ext reaches, good] at here
              cases here
          | succ steps =>
              refine ih steps (by omega) ?_
              rw [← reaches, Nat.mod_add_mod, Nat.add_assoc, Nat.add_comm 1 steps]

/-- A whole round of the scan finds an index if there is one. -/
theorem found_scan_round {n : ℕ} {found : Fin n → Bool} (start target : Fin n)
    (good : found target = true) : found (scan found n start) = true := by
  have before := start.isLt
  have there := target.isLt
  rcases Nat.lt_or_ge (target : ℕ) start with behind | ahead
  · refine found_scan good (n - start + target) (by omega) ?_
    rw [show (start : ℕ) + (n - start + target) = target + n by omega, Nat.add_mod_right,
      Nat.mod_eq_of_lt there]
  · refine found_scan good (target - start) (by omega) ?_
    rw [show (start : ℕ) + (target - start) = target by omega, Nat.mod_eq_of_lt there]

end WordBitmap
