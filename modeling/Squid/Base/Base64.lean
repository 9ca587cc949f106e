import Mathlib.Logic.Function.Basic
import Squid.Library.CRuntime

/-!
# Base64

`lib/base64.c` encodes three bytes at a time through a shifted accumulator, the last one or two
bytes with `=` signs behind them, and decodes four characters at a time with `=` read as zero bits.
-/

namespace Squid.Base

open CRuntime List

def base64_code : Bytes :=
  "ABCDEFGHIJKLMNOPQRSTUVWXYZabcdefghijklmnopqrstuvwxyz0123456789+/".toList.map fun c =>
    UInt8.ofNat c.toNat

/-- `base64_code[i]`. -/
def base64_digit (i : ℕ) : UInt8 := base64_code.getD i 0

/-- `base64_value` after `base64_init`; 61 is `=`. -/
def base64_value : UInt8 → ℤ :=
  Function.update ((List.range 64).foldl (fun table (i : ℕ) =>
    Function.update table (base64_digit i) i) fun _ => -1) 61 0

/-- `base64_decode_len` of the string in front of the terminator. -/
def base64_decode_len (data : Bytes) : ℤ :=
  if data = [] then 0
  else
    let terminatorLen := (data.reverse.takeWhile (· == 61)).length
    (data.length / 4 * 3 : ℕ) - terminatorLen

/-- The bytes of one quantum of 24 bits, as far as there is room; whether the buffer is full. -/
def putBytes (result_size : ℕ) (result : Bytes) (val : ℕ) : Bytes × Bool :=
  let high := UInt8.ofNat (val >>> 16 &&& 0xff)
  let mid := UInt8.ofNat (val >>> 8 &&& 0xff)
  let low := UInt8.ofNat (val &&& 0xff)
  if result.length + 4 ≤ result_size then
    let result := result ++ [high, mid, low]
    (result, decide (result.length = result_size))
  else
    let result := result ++ [high]
    if result.length = result_size then (result, true)
    else
      let result := result ++ [mid]
      if result.length = result_size then (result, true)
      else
        let result := result ++ [low]
        (result, decide (result.length = result_size))

/-- The loop of `base64_decode`; `result` holds the `j` bytes written so far. -/
def decodeLoop (result_size : ℕ) : Bytes → Bytes → ℕ → ℕ → Bytes
  | [], result, _, _ => result
  | p :: data, result, val, c =>
      if base64_value p < 0 then decodeLoop result_size data result val c
      else
        let val := val <<< 6 + (base64_value p).toNat
        if c + 1 < 4 then decodeLoop result_size data result val (c + 1)
        else
          match putBytes result_size result val with
          | (result, true) => result
          | (result, false) => decodeLoop result_size data result 0 0

/-- `base64_decode` of the string in front of the terminator: the bytes written. -/
def base64_decode (result_size : ℕ) (p : Bytes) : Bytes :=
  if result_size = 0 then [] else decodeLoop result_size p [] 0 0

def base64_encode_len (len : ℕ) : ℕ := (len + 2) / 3 * 4 + 1

/-- Put characters one by one, looking for room before each but the first; whether the room was
used up before the last. -/
def putChars (result_size : ℕ) : Bytes → Bytes → Bytes × Bool
  | result, [] => (result, false)
  | result, [c] => (result ++ [c], false)
  | result, c :: chars =>
      if result_size ≤ (result ++ [c]).length then (result ++ [c], true)
      else putChars result_size (result ++ [c]) chars

/-- The four characters of the accumulator. -/
def quantum (bits : ℕ) : Bytes :=
  [base64_digit (bits >>> 18), base64_digit (bits >>> 12 &&& 0x3f),
    base64_digit (bits >>> 6 &&& 0x3f), base64_digit (bits &&& 0x3f)]

/-- The variables of `base64_encode`; `result` holds the `out_cnt` characters written so far. -/
structure Encoding where
  result : Bytes
  bits : ℕ
  char_count : ℕ

/-- The loop of `base64_encode`. -/
def encodeLoop (result_size : ℕ) : Bytes → Encoding → Encoding
  | [], e => e
  | c :: data, e =>
      let bits := e.bits + c.toNat
      let char_count := e.char_count + 1
      if char_count = 3 then
        if result_size ≤ e.result.length then ⟨e.result, bits, char_count⟩
        else if e.result.length + 4 ≤ result_size then
          encodeLoop result_size data ⟨e.result ++ quantum bits, 0, 0⟩
        else
          match putChars result_size e.result (quantum bits) with
          | (result, true) => ⟨result, bits, char_count⟩
          | (result, false) => encodeLoop result_size data ⟨result, 0, 0⟩
      else encodeLoop result_size data ⟨e.result, bits <<< 8, char_count⟩

/-- What `base64_encode` does behind its loop: the characters written and the number returned. -/
def encodeTail (result_size : ℕ) (e : Encoding) : Bytes × ℕ :=
  if e.char_count ≠ 0 then
    let bits := e.bits <<< (16 - 8 * e.char_count)
    if result_size ≤ e.result.length then (e.result, result_size)
    else
      let chars :=
        if e.char_count = 1 then (quantum bits).take 2 ++ [61, 61] else (quantum bits).take 3 ++ [61]
      match putChars result_size e.result chars with
      | (result, true) => (result, result_size)
      | (result, false) =>
          (result, if result_size ≤ result.length then result_size else result.length)
  else (e.result, if result_size ≤ e.result.length then result_size else e.result.length)

/-- `base64_encode`: the characters written and the number returned. -/
def base64_encode (result_size : ℤ) (data : Bytes) : Bytes × ℕ :=
  if data.head? = some 0 ∨ result_size < 1 ∨ data.length < 1 then ([], 0)
  else encodeTail result_size.toNat (encodeLoop result_size.toNat data ⟨[], 0, 0⟩)

/-- `base64_encode_str`: the contents of the buffer up to what was written, and the number
returned. -/
def base64_encode_str (result_max_size : ℤ) (data : Bytes) : Bytes × ℤ :=
  if result_max_size < 1 then ([], 0)
  else
    let (result, used) := base64_encode result_max_size data
    if result_max_size ≤ used then
      (result.set (result_max_size.toNat - 1) 0, result_max_size)
    else (result ++ [0], used + 1)

/-! ### Digits and quanta -/

theorem base64_digit_spec {i : ℕ} (small : i < 64) :
    base64_value (base64_digit i) = i ∧ base64_digit i ≠ 0 ∧ base64_digit i ≠ 61 := by
  have all : ∀ i : Fin 64, base64_value (base64_digit i) = (i : ℕ) ∧ base64_digit i ≠ 0 ∧
      base64_digit i ≠ 61 := by
    decide +kernel
  exact all ⟨i, small⟩

theorem base64_value_pad : base64_value 61 = (0 : ℕ) := Function.update_self ..

/-- The accumulator after three bytes. -/
def pack (a b c : UInt8) : ℕ := ((0 + a.toNat) <<< 8 + b.toNat) <<< 8 + c.toNat

theorem pack_eq (a b c : UInt8) :
    pack a b c = a.toNat * 65536 + b.toNat * 256 + c.toNat ∧ pack a b c < 16777216 := by
  have := a.toNat_lt
  have := b.toNat_lt
  have := c.toNat_lt
  rw [pack, Nat.shiftLeft_eq, Nat.shiftLeft_eq]
  omega

theorem quantum_eq (bits : ℕ) :
    quantum bits = [base64_digit (bits / 262144), base64_digit (bits / 4096 % 64),
      base64_digit (bits / 64 % 64), base64_digit (bits % 64)] := by
  have mask (n : ℕ) : n &&& 0x3f = n % 64 := Nat.and_two_pow_sub_one_eq_mod n 6
  rw [quantum, mask, mask, mask, Nat.shiftRight_eq_div_pow, Nat.shiftRight_eq_div_pow,
    Nat.shiftRight_eq_div_pow]

/-- The digits of an accumulator. -/
theorem quantum_digits {bits : ℕ} (small : bits < 16777216) :
    ∃ d₀ d₁ d₂ d₃, d₀ < 64 ∧ d₁ < 64 ∧ d₂ < 64 ∧ d₃ < 64 ∧
      quantum bits = [base64_digit d₀, base64_digit d₁, base64_digit d₂, base64_digit d₃] ∧
      bits = ((d₀ * 64 + d₁) * 64 + d₂) * 64 + d₃ := by
  exact ⟨bits / 262144, bits / 4096 % 64, bits / 64 % 64, bits % 64, by omega, by omega,
    by omega, by omega, quantum_eq bits, by omega⟩

variable {result_size : ℕ}

/-- The three bytes of a quantum are written as far as there is room. -/
theorem putBytes_pack (result : Bytes) (a b c : UInt8) (room : result.length < result_size) :
    putBytes result_size result (pack a b c) =
      (result ++ [a, b, c].take (result_size - result.length),
        decide (result_size ≤ result.length + 3)) := by
  obtain ⟨value, -⟩ := pack_eq a b c
  have := a.toNat_lt
  have := b.toNat_lt
  have := c.toNat_lt
  have mask (n : ℕ) : n &&& 0xff = n % 256 := Nat.and_two_pow_sub_one_eq_mod n 8
  have high : UInt8.ofNat (pack a b c >>> 16 &&& 0xff) = a := by
    rw [mask, Nat.shiftRight_eq_div_pow, value,
      show (a.toNat * 65536 + b.toNat * 256 + c.toNat) / 2 ^ 16 % 256 = a.toNat by omega,
      UInt8.ofNat_toNat]
  have mid : UInt8.ofNat (pack a b c >>> 8 &&& 0xff) = b := by
    rw [mask, Nat.shiftRight_eq_div_pow, value,
      show (a.toNat * 65536 + b.toNat * 256 + c.toNat) / 2 ^ 8 % 256 = b.toNat by omega,
      UInt8.ofNat_toNat]
  have low : UInt8.ofNat (pack a b c &&& 0xff) = c := by
    rw [mask, value, show (a.toNat * 65536 + b.toNat * 256 + c.toNat) % 256 = c.toNat by omega,
      UInt8.ofNat_toNat]
  simp only [putBytes, high, mid, low, length_append, length_cons, length_nil,
    append_assoc, cons_append, nil_append, Nat.add_assoc, Nat.zero_add]
  rcases Nat.lt_or_ge (result.length + 3) result_size with wide | narrow
  · rw [if_pos (by omega), take_of_length_le (by simp; omega),
      decide_eq_false (show ¬ result_size ≤ result.length + 3 by omega),
      decide_eq_false (show ¬ result.length + 3 = result_size by omega)]
  · rw [if_neg (by omega), decide_eq_true narrow]
    rcases (by omega : result_size = result.length + 1 ∨ result_size = result.length + 2 ∨
      result_size = result.length + 3) with rfl | rfl | rfl
    · rw [if_pos rfl, Nat.add_sub_cancel_left]
      rfl
    · rw [if_neg (by omega), if_pos rfl, Nat.add_sub_cancel_left]
      rfl
    · rw [if_neg (by omega), if_neg (by omega), Nat.add_sub_cancel_left, decide_eq_true rfl]
      rfl

/-- A character with a value goes into the accumulator. -/
theorem decodeLoop_cons (result_size : ℕ) {p : UInt8} {d : ℕ} (value : base64_value p = d)
    (data result : Bytes) (val : ℕ) {c : ℕ} (few : c + 1 < 4) :
    decodeLoop result_size (p :: data) result val c =
      decodeLoop result_size data result (val * 64 + d) (c + 1) := by
  rw [decodeLoop, value, if_neg (by omega)]
  simp only [if_pos few, Int.toNat_natCast, Nat.shiftLeft_eq]

/-- Four characters with values give one quantum of bytes. -/
theorem decodeLoop_quantum (result_size : ℕ) {p₀ p₁ p₂ p₃ : UInt8} {d₀ d₁ d₂ d₃ bits : ℕ}
    (v₀ : base64_value p₀ = d₀) (v₁ : base64_value p₁ = d₁) (v₂ : base64_value p₂ = d₂)
    (v₃ : base64_value p₃ = d₃) (whole : bits = ((d₀ * 64 + d₁) * 64 + d₂) * 64 + d₃)
    (data result : Bytes) :
    decodeLoop result_size (p₀ :: p₁ :: p₂ :: p₃ :: data) result 0 0 =
      if (putBytes result_size result bits).2 then (putBytes result_size result bits).1
      else decodeLoop result_size data (putBytes result_size result bits).1 0 0 := by
  rw [decodeLoop_cons result_size v₀ _ _ _ (by decide),
    decodeLoop_cons result_size v₁ _ _ _ (by decide),
    decodeLoop_cons result_size v₂ _ _ _ (by decide), decodeLoop, v₃, if_neg (by omega)]
  simp only [Int.toNat_natCast, Nat.shiftLeft_eq]
  rw [if_neg (by decide), show (((0 * 64 + d₀) * 64 + d₁) * 64 + d₂) * 2 ^ 6 + d₃ = bits by omega]
  cases putBytes result_size result bits with
  | mk result full => cases full <;> rfl

/-! ### The text of a byte string -/

/-- The text of a byte string: four characters for each three bytes, and `=` signs for the bytes
that the last quantum lacks. -/
def encoded : Bytes → Bytes
  | [] => []
  | [a] => (quantum (pack a 0 0)).take 2 ++ [61, 61]
  | [a, b] => (quantum (pack a b 0)).take 3 ++ [61]
  | a :: b :: c :: rest => quantum (pack a b c) ++ encoded rest

theorem length_encoded (x : Bytes) : (encoded x).length = (x.length + 2) / 3 * 4 := by
  induction x using encoded.induct with
  | case1 => rfl
  | case2 a => simp [encoded, quantum]
  | case3 a b => simp [encoded, quantum]
  | case4 a b c rest ih =>
      rw [encoded, length_append, ih]
      simp only [quantum, length_cons, length_nil]
      omega

theorem putChars_room (result chars : Bytes) (room : result.length + chars.length ≤ result_size) :
    putChars result_size result chars = (result ++ chars, false) := by
  induction chars generalizing result with
  | nil => rw [putChars, append_nil]
  | cons c chars ih =>
      cases chars with
      | nil => rw [putChars]
      | cons d chars =>
          rw [length_cons, length_cons] at room
          have more : ¬ result_size ≤ (result ++ [c]).length := by
            rw [length_append, length_singleton]
            omega
          rw [putChars, if_neg more, ih, append_assoc, singleton_append]
          · rw [length_append, length_singleton, length_cons]
            omega
          · simp

/-- The number returned is that of the characters written. -/
theorem clamp_eq {n : ℕ} (room : n ≤ result_size) :
    (if result_size ≤ n then result_size else n) = n := by
  split <;> omega

theorem encodeTail_room {e : Encoding} (open_quantum : e.char_count ≠ 0) {chars : Bytes}
    (text : (if e.char_count = 1 then
      (quantum (e.bits <<< (16 - 8 * e.char_count))).take 2 ++ [61, 61]
      else (quantum (e.bits <<< (16 - 8 * e.char_count))).take 3 ++ [61]) = chars)
    (nonempty : 0 < chars.length) (room : e.result.length + chars.length ≤ result_size) :
    encodeTail result_size e = (e.result ++ chars, (e.result ++ chars).length) := by
  rw [encodeTail, if_pos open_quantum]
  simp only [text]
  rw [if_neg (by omega), putChars_room _ _ room]
  rw [← length_append] at room
  simp only [clamp_eq room]

/-- With room for the whole text the loop and the tail write it. -/
theorem encodeLoop_eq (x result : Bytes) (room : result.length + (encoded x).length ≤ result_size) :
    encodeTail result_size (encodeLoop result_size x ⟨result, 0, 0⟩) =
      (result ++ encoded x, (result ++ encoded x).length) := by
  induction x using encoded.induct generalizing result with
  | case1 =>
      rw [encoded, length_nil, Nat.add_zero] at room
      rw [encodeLoop, encodeTail, if_neg (by simp), encoded, append_nil]
      simp only [clamp_eq room]
  | case2 a =>
      have loop : encodeLoop result_size [a] ⟨result, 0, 0⟩ =
          ⟨result, (0 + a.toNat) <<< 8, 1⟩ := by
        simp only [encodeLoop]
        rw [if_neg (by decide)]
      rw [loop]
      refine encodeTail_room (by simp) ?_ (by rw [length_encoded]; simp) room
      rfl
  | case3 a b =>
      have loop : encodeLoop result_size [a, b] ⟨result, 0, 0⟩ =
          ⟨result, ((0 + a.toNat) <<< 8 + b.toNat) <<< 8, 2⟩ := by
        simp only [encodeLoop]
        rw [if_neg (by decide), if_neg (by decide)]
      rw [loop]
      refine encodeTail_room (by simp) ?_ (by rw [length_encoded]; simp) room
      rfl
  | case4 a b c rest ih =>
      rw [encoded, length_append] at room
      have four : (quantum (pack a b c)).length = 4 := rfl
      have step : encodeLoop result_size (a :: b :: c :: rest) ⟨result, 0, 0⟩ =
          encodeLoop result_size rest ⟨result ++ quantum (pack a b c), 0, 0⟩ := by
        simp only [encodeLoop]
        rw [if_neg (by decide), if_neg (by decide), if_pos (by decide), if_neg (by omega),
          if_pos (by omega)]
        rfl
      rw [step, ih _ (by rw [length_append]; omega), encoded, append_assoc]

/-- Decoding the quantum of three bytes, with the last characters possibly `=` signs. -/
theorem decodeLoop_pack (result data : Bytes) {a b c p₂ p₃ : UInt8} {d₂ d₃ : ℕ}
    (room : result.length < result_size) (v₂ : base64_value p₂ = d₂) (v₃ : base64_value p₃ = d₃)
    (second : pack a b c / 64 % 64 = d₂) (third : pack a b c % 64 = d₃) :
    decodeLoop result_size ((quantum (pack a b c)).take 2 ++ p₂ :: p₃ :: data) result 0 0 =
      if result_size ≤ result.length + 3 then
        result ++ [a, b, c].take (result_size - result.length)
      else decodeLoop result_size data (result ++ [a, b, c]) 0 0 := by
  obtain ⟨e₀, e₁, e₂, e₃, lt₀, lt₁, lt₂, lt₃, chars, whole⟩ := quantum_digits (pack_eq a b c).2
  have same₂ : e₂ = d₂ := by omega
  have same₃ : e₃ = d₃ := by omega
  subst same₂
  subst same₃
  rw [chars]
  change decodeLoop result_size (base64_digit e₀ :: base64_digit e₁ :: p₂ :: p₃ :: data) result 0 0 = _
  rw [decodeLoop_quantum result_size (base64_digit_spec lt₀).1 (base64_digit_spec lt₁).1 v₂ v₃
    whole, putBytes_pack result a b c room]
  by_cases full : result_size ≤ result.length + 3
  · rw [if_pos (decide_eq_true full), if_pos full]
  · rw [if_neg fun is_full => full (of_decide_eq_true is_full), if_neg full,
      take_of_length_le (by simp; omega)]

/-- The first bytes of a last quantum, whether or not the buffer has room for the others. -/
theorem take_pack {n : ℕ} (result : Bytes) {a b c : UInt8} (few : n ≤ 3)
    (room : result.length + n ≤ result_size) :
    (if result_size ≤ result.length + 3 then
        result ++ [a, b, c].take (result_size - result.length)
      else result ++ [a, b, c]).take (result.length + n) = result ++ [a, b, c].take n := by
  split
  · rw [take_length_add_append, take_take, Nat.min_eq_left (by omega)]
  · rw [take_length_add_append]

/-- The first bytes that are decoded from the text of a byte string are the byte string. -/
theorem decodeLoop_encoded (x result : Bytes) (room : result.length + x.length ≤ result_size) :
    (decodeLoop result_size (encoded x) result 0 0).take (result.length + x.length) =
      result ++ x := by
  induction x using encoded.induct generalizing result with
  | case1 =>
      rw [encoded, decodeLoop, append_nil, length_nil, Nat.add_zero, take_length]
  | case2 a =>
      rw [length_singleton] at room ⊢
      obtain ⟨value, -⟩ := pack_eq a 0 0
      rw [UInt8.toNat_zero] at value
      rw [encoded, decodeLoop_pack result [] (by omega) base64_value_pad base64_value_pad
        (by omega) (by omega), decodeLoop, take_pack result (by decide) room]
      rfl
  | case3 a b =>
      rw [show [a, b].length = 2 from rfl] at room ⊢
      obtain ⟨value, -⟩ := pack_eq a b 0
      rw [UInt8.toNat_zero] at value
      have digit := (base64_digit_spec (Nat.mod_lt (pack a b 0 / 64) (by decide : 0 < 64))).1
      have chars : (quantum (pack a b 0)).take 3 ++ [61] =
          (quantum (pack a b 0)).take 2 ++ base64_digit (pack a b 0 / 64 % 64) :: 61 :: [] := by
        rw [quantum_eq]
        rfl
      rw [encoded, chars, decodeLoop_pack result [] (by omega) digit base64_value_pad rfl
        (by omega), decodeLoop, take_pack result (by decide) room]
      rfl
  | case4 a b c rest ih =>
      rw [show (a :: b :: c :: rest).length = 3 + rest.length by simp; omega] at room ⊢
      have digit₂ := (base64_digit_spec (Nat.mod_lt (pack a b c / 64) (by decide : 0 < 64))).1
      have digit₃ := (base64_digit_spec (Nat.mod_lt (pack a b c) (by decide : 0 < 64))).1
      have chars : quantum (pack a b c) ++ encoded rest = (quantum (pack a b c)).take 2 ++
          base64_digit (pack a b c / 64 % 64) :: base64_digit (pack a b c % 64) ::
            encoded rest := by
        rw [quantum_eq]
        rfl
      rw [encoded, chars, decodeLoop_pack result _ (by omega) digit₂ digit₃ rfl rfl]
      by_cases full : result_size ≤ result.length + 3
      · have ended : rest = [] := List.length_eq_zero_iff.mp (by omega)
        have size : result_size = result.length + 3 := by omega
        rw [if_pos full, ended, size, Nat.add_sub_cancel_left, take_of_length_le (by simp)]
        rfl
      · have next := ih (result ++ [a, b, c]) (by rw [length_append]; simp; omega)
        rw [length_append, append_assoc, Nat.add_assoc] at next
        rw [if_neg full]
        exact next

/-! ### The length of the decoded text -/

/-- The text ends with its `=` signs behind a digit. -/
theorem encoded_pad {x : Bytes} (nonempty : x ≠ []) :
    ∃ front d, d ≠ 61 ∧ encoded x = front ++ d :: List.replicate ((3 - x.length % 3) % 3) 61 := by
  induction x using encoded.induct with
  | case1 => exact absurd rfl nonempty
  | case2 a =>
      obtain ⟨d₀, d₁, d₂, d₃, -, lt₁, -, -, chars, -⟩ := quantum_digits (pack_eq a 0 0).2
      refine ⟨[base64_digit d₀], base64_digit d₁, (base64_digit_spec lt₁).2.2, ?_⟩
      rw [encoded, chars]
      rfl
  | case3 a b =>
      obtain ⟨d₀, d₁, d₂, d₃, -, -, lt₂, -, chars, -⟩ := quantum_digits (pack_eq a b 0).2
      refine ⟨[base64_digit d₀, base64_digit d₁], base64_digit d₂, (base64_digit_spec lt₂).2.2, ?_⟩
      rw [encoded, chars]
      rfl
  | case4 a b c rest ih =>
      obtain ⟨d₀, d₁, d₂, d₃, -, -, -, lt₃, chars, -⟩ := quantum_digits (pack_eq a b c).2
      rcases eq_or_ne rest [] with rfl | more
      · refine ⟨[base64_digit d₀, base64_digit d₁, base64_digit d₂], base64_digit d₃,
          (base64_digit_spec lt₃).2.2, ?_⟩
        rw [encoded, chars, encoded]
        simp
      · obtain ⟨front, d, digit, text⟩ := ih more
        refine ⟨quantum (pack a b c) ++ front, d, digit, ?_⟩
        rw [encoded, text, append_assoc,
          show (a :: b :: c :: rest).length % 3 = rest.length % 3 by
            simp only [length_cons]
            omega]

theorem base64_decode_len_encoded (x : Bytes) : base64_decode_len (encoded x) = x.length := by
  rcases eq_or_ne x [] with rfl | nonempty
  · rfl
  · obtain ⟨front, d, digit, text⟩ := encoded_pad nonempty
    have pads : (encoded x).reverse.takeWhile (· == 61) =
        List.replicate ((3 - x.length % 3) % 3) 61 := by
      rw [text, reverse_append, reverse_cons, reverse_replicate, append_assoc,
        takeWhile_append_of_pos (by simp), singleton_append,
        takeWhile_cons_of_neg (by simpa using digit), append_nil]
    have some_text : encoded x ≠ [] := by
      rw [text]
      simp
    rw [base64_decode_len, if_neg some_text]
    simp only [pads, length_replicate, length_encoded]
    have positive := List.length_pos_iff.mpr nonempty
    omega

/-! ### The round trip -/

/-- The text of a byte string has no NUL. -/
theorem plain_encoded (x : Bytes) : 0 ∉ encoded x := by
  have digits {bits : ℕ} (small : bits < 16777216) : 0 ∉ quantum bits := by
    obtain ⟨d₀, d₁, d₂, d₃, lt₀, lt₁, lt₂, lt₃, chars, -⟩ := quantum_digits small
    rw [chars]
    simp [(base64_digit_spec lt₀).2.1.symm, (base64_digit_spec lt₁).2.1.symm,
      (base64_digit_spec lt₂).2.1.symm, (base64_digit_spec lt₃).2.1.symm]
  induction x using encoded.induct with
  | case1 => exact not_mem_nil
  | case2 a =>
      rw [encoded, mem_append, not_or]
      exact ⟨fun member => digits (pack_eq a 0 0).2 (mem_of_mem_take member), by decide⟩
  | case3 a b =>
      rw [encoded, mem_append, not_or]
      exact ⟨fun member => digits (pack_eq a b 0).2 (mem_of_mem_take member), by decide⟩
  | case4 a b c rest ih =>
      rw [encoded, mem_append, not_or]
      exact ⟨digits (pack_eq a b c).2, ih⟩

/-- What `base64_encode_str` leaves in a large enough buffer: nothing but the terminator when the
data starts with a NUL. -/
theorem base64_encode_str_eq {x : Bytes} (nonempty : x ≠ []) {result_max_size : ℤ}
    (enough : base64_encode_len x.length ≤ result_max_size) :
    base64_encode_str result_max_size x =
      (if x.head? = some 0 then [0] else encoded x ++ [0],
        if x.head? = some 0 then 1 else ((encoded x).length : ℤ) + 1) := by
  have length := length_encoded x
  have positive := List.length_pos_iff.mpr nonempty
  rw [base64_encode_len] at enough
  rw [base64_encode_str, if_neg (by omega), base64_encode]
  by_cases nul : x.head? = some 0
  · rw [if_pos (.inl nul), if_pos nul, if_pos nul]
    simp only [Nat.cast_zero, nil_append]
    rw [if_neg (by omega)]
    rfl
  · have proper : ¬ (x.head? = some 0 ∨ result_max_size < 1 ∨ x.length < 1) := by
      rintro (first | small | short)
      · exact nul first
      · omega
      · omega
    have fits : ([] : Bytes).length + (encoded x).length ≤ result_max_size.toNat := by
      rw [length_nil, length]
      omega
    rw [if_neg proper, if_neg nul, if_neg nul, encodeLoop_eq x [] fits]
    simp only [nil_append]
    rw [if_neg (by omega)]

/-- Decoding what was encoded gives the bytes back, and their number, exactly when they do not
start with a NUL. -/
theorem base64_round_trip_iff (x : Bytes) (nonempty : x ≠ []) (result_max_size : ℤ)
    (enough : base64_encode_len x.length ≤ result_max_size) (result_size : ℕ)
    (room : x.length ≤ result_size) :
    ((base64_decode result_size (cstr (base64_encode_str result_max_size x).1)).take x.length = x ∧
      base64_decode_len (cstr (base64_encode_str result_max_size x).1) = x.length) ↔
    x.head? ≠ some 0 := by
  have positive := List.length_pos_iff.mpr nonempty
  rw [base64_encode_str_eq nonempty enough]
  by_cases nul : x.head? = some 0
  · rw [if_pos nul]
    refine iff_of_false (fun same => ?_) (not_not_intro nul)
    have none_left : (0 : ℤ) = x.length := same.2
    omega
  · rw [if_neg nul]
    refine iff_of_true ?_ nul
    have text : cstr (encoded x ++ [0]) = encoded x := by
      rw [cstr_append_of_plain (plain_encoded x)]
      exact append_nil _
    rw [text, base64_decode, if_neg (by omega)]
    have decoded := decodeLoop_encoded x [] (by simpa using room)
    rw [length_nil, Nat.zero_add, nil_append] at decoded
    exact ⟨decoded, base64_decode_len_encoded x⟩

theorem base64_round_trip_iff_abc :
    (base64_decode 3 (cstr (base64_encode_str 5 [97, 98, 99]).1)).take 3 = [97, 98, 99] :=
  ((base64_round_trip_iff [97, 98, 99] (by decide) 5 (by decide) 3 (by decide)).mpr
    (by decide)).1

/-- A byte string that starts with a NUL is encoded as the empty text. -/
theorem base64_nul_lost :
    ¬ ∀ x : Bytes, x ≠ [] → ∀ result_max_size : ℤ,
      (base64_encode_len x.length : ℤ) ≤ result_max_size → ∀ result_size, x.length ≤ result_size →
      (base64_decode result_size (cstr (base64_encode_str result_max_size x).1)).take x.length = x ∧
        base64_decode_len (cstr (base64_encode_str result_max_size x).1) = x.length := by
  intro all
  have wrong := (all [0, 1, 2] (by decide) 5 (by decide) 3 (by decide)).2
  revert wrong
  decide

end Squid.Base
