import Mathlib.Data.Finset.Card
import Mathlib.Data.Finset.Range
import Squid.Library.LabelledRun
import Squid.Library.WordBitmap

/-!
# The map of used swap file numbers

`FileMap` keeps one bit for each file number in an array of `unsigned long` and doubles the array
when a number does not fit, up to `2 ^ 24` bits.  Its callers set only clear bits and clear only
set bits.  Under that contract the map is a finite set of numbers with its size, and `allocate`
finds a number outside the set.
-/

namespace Squid.Fs

open Option

/-- `SIZEOF_LONG`; the source treats every size but 8 like 4. -/
inductive LongSize where
  | four
  | eight

def LONG_BIT_SHIFT : LongSize → ℕ
  | .eight => 6
  | .four => 5

def BITS_IN_A_LONG : LongSize → ℕ
  | .eight => 0x40
  | .four => 0x20

def LONG_BIT_MASK : LongSize → ℕ
  | .eight => 0x3F
  | .four => 0x1F

def ALL_ONES : (long : LongSize) → BitVec (BITS_IN_A_LONG long)
  | .eight => 0xFFFFFFFFFFFFFFFF#64
  | .four => 0xFFFFFFFF#32

def FM_INITIAL_NUMBER : ℕ := 1 <<< 14

variable {long : LongSize}

theorem bits_pos (long : LongSize) : 0 < BITS_IN_A_LONG long := by
  cases long <;> decide

theorem shiftRight_eq (long : LongSize) (n : ℕ) :
    n >>> LONG_BIT_SHIFT long = n / BITS_IN_A_LONG long := by
  cases long <;> exact Nat.shiftRight_eq_div_pow n _

theorem and_mask_eq (long : LongSize) (n : ℕ) :
    n &&& LONG_BIT_MASK long = n % BITS_IN_A_LONG long := by
  cases long with
  | four => exact Nat.and_two_pow_sub_one_eq_mod n 5
  | eight => exact Nat.and_two_pow_sub_one_eq_mod n 6

theorem ALL_ONES_eq (long : LongSize) : ALL_ONES long = BitVec.allOnes (BITS_IN_A_LONG long) := by
  cases long <;> rfl

/-- The words fill a power of two between the initial number of bits and `2 ^ 24`. -/
structure FileMap (long : LongSize) where
  capacity_ : ℕ
  /-- `usedSlots_`, an `unsigned int`. -/
  usedSlots_ : UInt32
  nwords : ℕ
  bitmap : List (BitVec (BITS_IN_A_LONG long))
  doubled : ∃ k ≤ 10, capacity_ = FM_INITIAL_NUMBER <<< k
  filled : nwords = capacity_ >>> LONG_BIT_SHIFT long
  sized : bitmap.length = nwords

namespace FileMap

variable {m m' : FileMap long}

/-- `FileMap::FileMap`. -/
def new (long : LongSize) : FileMap long where
  capacity_ := FM_INITIAL_NUMBER
  usedSlots_ := 0
  nwords := FM_INITIAL_NUMBER >>> LONG_BIT_SHIFT long
  bitmap := List.replicate (FM_INITIAL_NUMBER >>> LONG_BIT_SHIFT long) 0#_
  doubled := ⟨0, Nat.zero_le _, rfl⟩
  filled := rfl
  sized := List.length_replicate

theorem capacity_pow (m : FileMap long) : ∃ k ≤ 10, m.capacity_ = 2 ^ (14 + k) := by
  obtain ⟨k, few, exact_capacity⟩ := m.doubled
  refine ⟨k, few, ?_⟩
  rw [exact_capacity, FM_INITIAL_NUMBER, ← Nat.shiftLeft_add, Nat.shiftLeft_eq, Nat.one_mul]

theorem capacity_pos (m : FileMap long) : 0 < m.capacity_ := by
  obtain ⟨k, _, power⟩ := m.capacity_pow
  rw [power]
  exact Nat.two_pow_pos _

theorem capacity_le (m : FileMap long) : m.capacity_ ≤ 1 <<< 24 := by
  obtain ⟨k, few, power⟩ := m.capacity_pow
  rw [power, Nat.shiftLeft_eq, Nat.one_mul]
  exact Nat.pow_le_pow_right (by decide) (by omega)

/-- The words hold exactly `capacity_` bits. -/
theorem capacity_eq (m : FileMap long) : m.capacity_ = m.nwords * BITS_IN_A_LONG long := by
  obtain ⟨k, _, exact_capacity⟩ := m.doubled
  rw [m.filled, shiftRight_eq]
  refine (Nat.div_mul_cancel ?_).symm
  rw [exact_capacity, Nat.shiftLeft_eq]
  exact Dvd.dvd.mul_right (by cases long <;> decide) _

variable {n : ℕ}

theorem word_lt (m : FileMap long) (inside : n < m.capacity_) :
    n >>> LONG_BIT_SHIFT long < m.nwords := by
  rw [shiftRight_eq]
  exact Nat.div_lt_of_lt_mul (by rwa [Nat.mul_comm, ← m.capacity_eq])

theorem doubled_grow (m : FileMap long) (fits : m.capacity_ <<< 1 ≤ 1 <<< 24) :
    ∃ k ≤ 10, m.capacity_ <<< 1 = FM_INITIAL_NUMBER <<< k := by
  obtain ⟨k, _, exact_capacity⟩ := m.doubled
  refine ⟨k + 1, ?_, by rw [exact_capacity, ← Nat.shiftLeft_add]⟩
  rw [exact_capacity, FM_INITIAL_NUMBER, ← Nat.shiftLeft_add, ← Nat.shiftLeft_add,
    Nat.shiftLeft_eq, Nat.shiftLeft_eq, Nat.one_mul, Nat.one_mul] at fits
  have exponent := (Nat.pow_le_pow_iff_right (by decide)).mp fits
  omega

theorem nwords_grow_le (m : FileMap long) :
    m.nwords ≤ (m.capacity_ <<< 1) >>> LONG_BIT_SHIFT long := by
  rw [m.filled, shiftRight_eq, shiftRight_eq, Nat.shiftLeft_eq]
  exact Nat.div_le_div_right (by omega)

/-- `FileMap::grow`: the old words in front of zero words; `none` where the assertion on the
capacity fails. -/
def grow (m : FileMap long) : Option (FileMap long) :=
  if fits : m.capacity_ <<< 1 ≤ 1 <<< 24 then
    some
      { capacity_ := m.capacity_ <<< 1
        usedSlots_ := m.usedSlots_
        nwords := (m.capacity_ <<< 1) >>> LONG_BIT_SHIFT long
        bitmap := m.bitmap ++
          List.replicate ((m.capacity_ <<< 1) >>> LONG_BIT_SHIFT long - m.nwords) 0#_
        doubled := m.doubled_grow fits
        filled := rfl
        sized := by
          rw [List.length_append, List.length_replicate, m.sized]
          have := m.nwords_grow_le
          omega }
  else none

theorem capacity_grow (grown : m.grow = some m') :
    m'.capacity_ = 2 * m.capacity_ ∧ m'.capacity_ ≤ 1 <<< 24 := by
  rw [grow] at grown
  split at grown
  case isTrue fits =>
    cases some.inj grown
    have twice : m.capacity_ <<< 1 = 2 * m.capacity_ := by
      rw [Nat.shiftLeft_eq]
      omega
    exact ⟨twice, fits⟩
  case isFalse => cases grown

theorem grow_measure (grown : m.grow = some m') :
    1 <<< 24 - m'.capacity_ < 1 <<< 24 - m.capacity_ := by
  obtain ⟨twice, fits⟩ := capacity_grow grown
  have := m.capacity_pos
  omega

/-- The map can grow as long as it holds fewer than `2 ^ 24` bits. -/
theorem grow_of_lt (small : m.capacity_ < 1 <<< 24) : ∃ m', m.grow = some m' := by
  have fits : m.capacity_ <<< 1 ≤ 1 <<< 24 := by
    obtain ⟨k, _, power⟩ := m.capacity_pow
    rw [power, Nat.shiftLeft_eq, Nat.one_mul] at small
    have exponent := (Nat.pow_lt_pow_iff_right (by decide)).mp small
    rw [power, Nat.shiftLeft_eq, Nat.shiftLeft_eq, Nat.one_mul, ← Nat.pow_add]
    exact Nat.pow_le_pow_right (by decide) (by omega)
  rw [grow, dif_pos fits]
  exact ⟨_, rfl⟩

/-- The `while` loop of `setBit`. -/
def growFor (m : FileMap long) (file_number : ℕ) : Option (FileMap long) :=
  if m.capacity_ ≤ file_number then
    match _again : m.grow with
    | none => none
    | some m' => m'.growFor file_number
  else some m
termination_by 1 <<< 24 - m.capacity_
decreasing_by exact grow_measure _again

/-- `1L << (file_number & LONG_BIT_MASK)`. -/
def bitmask (long : LongSize) (file_number : ℕ) : BitVec (BITS_IN_A_LONG long) :=
  1#_ <<< (file_number &&& LONG_BIT_MASK long)

/-- `FileMap::setBit`, with its result next to the map. -/
def setBit (m : FileMap long) (file_number : ℕ) : Option (Bool × FileMap long) :=
  (m.growFor file_number).bind fun m =>
    m.bitmap[file_number >>> LONG_BIT_SHIFT long]?.map fun word =>
      (decide (file_number ≠ 0),
        { m with
          bitmap := m.bitmap.set (file_number >>> LONG_BIT_SHIFT long)
            (word ||| bitmask long file_number)
          usedSlots_ := m.usedSlots_ + 1
          sized := by rw [List.length_set, m.sized] })

/-- `FileMap::clearBit`; `none` where the word lies outside the array. -/
def clearBit (m : FileMap long) (file_number : ℕ) : Option (FileMap long) :=
  m.bitmap[file_number >>> LONG_BIT_SHIFT long]?.map fun word =>
    { m with
      bitmap := m.bitmap.set (file_number >>> LONG_BIT_SHIFT long)
        (word &&& ~~~bitmask long file_number)
      usedSlots_ := m.usedSlots_ - 1
      sized := by rw [List.length_set, m.sized] }

/-- `bitmap[word]` inside the array. -/
def wordAt (m : FileMap long) (word : Fin m.nwords) : BitVec (BITS_IN_A_LONG long) :=
  m.bitmap.get (word.cast m.sized.symm)

/-- `FileMap::testBit`. -/
def testBit (m : FileMap long) (file_number : ℕ) : Bool :=
  if inside : file_number < m.capacity_ then
    m.wordAt ⟨file_number >>> LONG_BIT_SHIFT long, m.word_lt inside⟩ &&&
      bitmask long file_number != 0#_
  else false

/-- The suggestion that `allocate` starts from. -/
def suggested (m : FileMap long) (suggestion : ℕ) : Fin m.capacity_ :=
  if inside : suggestion < m.capacity_ then ⟨suggestion, inside⟩ else ⟨0, m.capacity_pos⟩

/-- The first loop of `allocate`: the next word, round the array, that is not all ones. -/
def openWord (m : FileMap long) (suggestion : Fin m.capacity_) : Fin m.nwords :=
  WordBitmap.scan (fun word => m.wordAt word != ALL_ONES long) m.nwords
    ⟨(suggestion : ℕ) >>> LONG_BIT_SHIFT long, m.word_lt suggestion.isLt⟩

/-- The second loop of `allocate`: the first clear bit of the word. -/
def openBit (m : FileMap long) (word : Fin m.nwords) : Option ℕ :=
  ((List.range (BITS_IN_A_LONG long)).map fun bit =>
    (word : ℕ) <<< LONG_BIT_SHIFT long ||| bit).find? fun suggestion => !m.testBit suggestion

/-- `FileMap::allocate`: the number found, with the map that may have grown. -/
def allocate (m : FileMap long) (suggestion : ℕ) : Option (ℕ × FileMap long) :=
  if !m.testBit (m.suggested suggestion) then some (m.suggested suggestion, m)
  else
    match m.openBit (m.openWord (m.suggested suggestion)) with
    | some found => some (found, m)
    | none =>
        match _again : m.grow with
        | none => none
        | some m' => m'.allocate (m'.capacity_ >>> 1)
termination_by 1 <<< 24 - m.capacity_
decreasing_by exact grow_measure _again

/-- `FileMap::capacity`. -/
def capacity (m : FileMap long) : ℕ := m.capacity_

/-- `FileMap::numFilesInMap`. -/
def numFilesInMap (m : FileMap long) : ℕ := m.usedSlots_.toNat

/-! ### What each operation does to the bits -/

theorem testBit_eq (m : FileMap long) (n : ℕ) : m.testBit n = WordBitmap.bit m.bitmap n := by
  have wide := bits_pos long
  rw [testBit]
  split
  case isTrue inside =>
    have at_word : m.bitmap[n / BITS_IN_A_LONG long]? =
        some (m.wordAt ⟨n >>> LONG_BIT_SHIFT long, m.word_lt inside⟩) := by
      rw [wordAt, List.get_eq_getElem, List.getElem?_eq_some_iff]
      have bound := m.word_lt inside
      rw [← m.sized, shiftRight_eq] at bound
      exact ⟨bound, by simp only [Fin.val_cast, shiftRight_eq]⟩
    rw [WordBitmap.bit_of_getElem? at_word, bitmask, and_mask_eq, Bool.eq_iff_iff, bne_iff_ne]
    exact WordBitmap.and_mask_ne_zero _ (Nat.mod_lt n wide)
  case isFalse outside =>
    refine (WordBitmap.bit_of_length_le ?_).symm
    rw [m.sized, Nat.le_div_iff_mul_le wide, ← m.capacity_eq]
    exact Nat.le_of_not_lt outside

theorem lt_capacity_of_testBit (used : m.testBit n = true) : n < m.capacity_ := by
  rw [testBit] at used
  split at used
  case isTrue inside => exact inside
  case isFalse => cases used

@[simp]
theorem testBit_new (n : ℕ) : (new long).testBit n = false := by
  rw [testBit_eq]
  exact WordBitmap.bit_zeros _ n

/-- Growing keeps the members and their count. -/
theorem testBit_grow (grown : m.grow = some m') (n : ℕ) :
    m'.testBit n = m.testBit n ∧ m'.usedSlots_ = m.usedSlots_ := by
  rw [grow] at grown
  split at grown
  case isTrue =>
    cases some.inj grown
    exact ⟨by rw [testBit_eq, testBit_eq]; exact WordBitmap.bit_append_zeros _ _ n, rfl⟩
  case isFalse => cases grown

theorem growFor_of_lt (inside : n < m.capacity_) : m.growFor n = some m := by
  rw [growFor, if_neg (Nat.not_le_of_lt inside)]

theorem growFor_of_le (outside : m.capacity_ ≤ n) :
    m.growFor n = m.grow.bind fun m' => m'.growFor n := by
  rw [growFor, if_pos outside]
  cases m.grow <;> rfl

/-- The loop of `setBit` makes room for the number and keeps the members. -/
theorem growFor_spec (grown : m.growFor n = some m') :
    n < m'.capacity_ ∧ (∀ k, m'.testBit k = m.testBit k) ∧ m'.usedSlots_ = m.usedSlots_ := by
  induction m using growFor.induct n with
  | case1 m outside failed =>
      rw [growFor_of_le outside, failed, bind_none] at grown
      cases grown
  | case2 m outside next step ih =>
      rw [growFor_of_le outside, step, bind_some] at grown
      obtain ⟨room, same, used⟩ := ih grown
      refine ⟨room, fun k => ?_, ?_⟩
      · rw [same k, (testBit_grow step k).1]
      · rw [used, (testBit_grow step n).2]
  | case3 m inside =>
      have fits := Nat.lt_of_not_le inside
      rw [growFor_of_lt fits] at grown
      cases some.inj grown
      exact ⟨fits, fun _ => rfl, rfl⟩

/-- A number of at most 24 bits gets its room. -/
theorem growFor_of_small (small : n < 1 <<< 24) : ∃ m', m.growFor n = some m' := by
  induction m using growFor.induct n with
  | case1 m outside failed =>
      obtain ⟨next, step⟩ := grow_of_lt (Nat.lt_of_le_of_lt outside small)
      rw [failed] at step
      cases step
  | case2 m outside next step ih =>
      rw [growFor_of_le outside, step, bind_some]
      exact ih
  | case3 m inside => exact ⟨m, growFor_of_lt (Nat.lt_of_not_le inside)⟩

theorem word_of_lt (inside : n < m.capacity_) :
    ∃ word, m.bitmap[n >>> LONG_BIT_SHIFT long]? = some word := by
  have bound := m.word_lt inside
  rw [← m.sized] at bound
  exact ⟨_, List.getElem?_eq_getElem bound⟩

variable {result : Bool}

/-- Setting a bit adds its number and counts one more. -/
theorem setBit_spec (set : m.setBit n = some (result, m')) :
    (∀ k, m'.testBit k = (decide (k = n) || m.testBit k)) ∧
      m'.usedSlots_ = m.usedSlots_ + 1 := by
  rw [setBit, bind_eq_some_iff] at set
  obtain ⟨wide, grown, set⟩ := set
  obtain ⟨-, same, used⟩ := growFor_spec grown
  rw [map_eq_some_iff] at set
  obtain ⟨word, at_word, pair⟩ := set
  cases pair
  refine ⟨fun k => ?_, congrArg (· + 1) used⟩
  have replaced : ∀ j < BITS_IN_A_LONG long, (word ||| bitmask long n).getLsbD j =
      if n % BITS_IN_A_LONG long = j then true else word.getLsbD j := by
    intro j inside
    rw [bitmask, and_mask_eq, WordBitmap.getLsbD_or_mask word inside]
    by_cases place : n % BITS_IN_A_LONG long = j <;> simp [place]
  rw [← same k, testBit_eq, testBit_eq]
  simp only [shiftRight_eq] at at_word ⊢
  rw [WordBitmap.bit_set _ (bits_pos long) at_word replaced]
  by_cases equal : k = n <;> simp [equal]

theorem setBit_of_small (small : n < 1 <<< 24) : ∃ result m', m.setBit n = some (result, m') := by
  obtain ⟨wide, grown⟩ := growFor_of_small (m := m) small
  obtain ⟨word, at_word⟩ := word_of_lt (growFor_spec grown).1
  rw [setBit, grown, bind_some, at_word]
  exact ⟨_, _, rfl⟩

/-- Clearing a bit removes its number and counts one less. -/
theorem clearBit_spec (cleared : m.clearBit n = some m') :
    (∀ k, m'.testBit k = (!decide (k = n) && m.testBit k)) ∧
      m'.usedSlots_ = m.usedSlots_ - 1 := by
  rw [clearBit, map_eq_some_iff] at cleared
  obtain ⟨word, at_word, rfl⟩ := cleared
  refine ⟨fun k => ?_, rfl⟩
  have replaced : ∀ j < BITS_IN_A_LONG long, (word &&& ~~~bitmask long n).getLsbD j =
      if n % BITS_IN_A_LONG long = j then false else word.getLsbD j := by
    intro j inside
    rw [bitmask, and_mask_eq, WordBitmap.getLsbD_and_not_mask word inside]
    by_cases place : n % BITS_IN_A_LONG long = j <;> simp [place]
  rw [testBit_eq, testBit_eq]
  simp only [shiftRight_eq] at at_word ⊢
  rw [WordBitmap.bit_set _ (bits_pos long) at_word replaced]
  by_cases equal : k = n <;> simp [equal]

theorem clearBit_of_testBit (used : m.testBit n = true) : ∃ m', m.clearBit n = some m' := by
  obtain ⟨word, at_word⟩ := word_of_lt (lt_capacity_of_testBit used)
  rw [clearBit, at_word]
  exact ⟨_, rfl⟩

/-! ### The search of `allocate` -/

variable {bit : ℕ}

/-- The number with the given word and bit. -/
theorem word_or_bit {word : ℕ} (inside : bit < BITS_IN_A_LONG long) :
    word <<< LONG_BIT_SHIFT long ||| bit = BITS_IN_A_LONG long * word + bit := by
  cases long with
  | four =>
      change bit < 2 ^ 5 at inside
      change word <<< 5 ||| bit = 2 ^ 5 * word + bit
      rw [← Nat.shiftLeft_add_eq_or_of_lt inside, Nat.shiftLeft_eq, Nat.mul_comm]
  | eight =>
      change bit < 2 ^ 6 at inside
      change word <<< 6 ||| bit = 2 ^ 6 * word + bit
      rw [← Nat.shiftLeft_add_eq_or_of_lt inside, Nat.shiftLeft_eq, Nat.mul_comm]

theorem lt_capacity_of_word (word : Fin m.nwords) (inside : bit < BITS_IN_A_LONG long) :
    BITS_IN_A_LONG long * word + bit < m.capacity_ := by
  have next : BITS_IN_A_LONG long * (word + 1) ≤ BITS_IN_A_LONG long * m.nwords :=
    Nat.mul_le_mul_left _ word.isLt
  rw [m.capacity_eq, Nat.mul_comm m.nwords]
  rw [Nat.mul_add] at next
  omega

/-- A bit of a word of the array is what `testBit` says of its number. -/
theorem getLsbD_wordAt (word : Fin m.nwords) (inside : bit < BITS_IN_A_LONG long) :
    (m.wordAt word).getLsbD bit = m.testBit (BITS_IN_A_LONG long * word + bit) := by
  have wide := bits_pos long
  have at_word : m.bitmap[(BITS_IN_A_LONG long * word + bit) / BITS_IN_A_LONG long]? =
      some (m.wordAt word) := by
    rw [Nat.mul_add_div wide, Nat.div_eq_of_lt inside, Nat.add_zero, wordAt,
      List.get_eq_getElem, List.getElem?_eq_some_iff]
    exact ⟨by rw [m.sized]; exact word.isLt, rfl⟩
  rw [testBit_eq, WordBitmap.bit_of_getElem? at_word, Nat.mul_add_mod, Nat.mod_eq_of_lt inside]

theorem openBit_spec {word : Fin m.nwords} (found : m.openBit word = some n) :
    m.testBit n = false ∧ n < m.capacity_ := by
  have clear := List.find?_some found
  have member := List.mem_of_find?_eq_some found
  obtain ⟨bit, inside, rfl⟩ := List.mem_map.mp member
  rw [List.mem_range] at inside
  refine ⟨by simpa using clear, ?_⟩
  rw [word_or_bit inside]
  exact lt_capacity_of_word word inside

/-- The search fails on a full map only. -/
theorem full_of_openBit {suggestion : Fin m.capacity_}
    (none_found : m.openBit (m.openWord suggestion) = none) (inside : n < m.capacity_) :
    m.testBit n = true := by
  refine Bool.eq_true_of_not_eq_false fun clear => ?_
  have wide := bits_pos long
  have place := Nat.mod_lt n wide
  have split_n : BITS_IN_A_LONG long * (n / BITS_IN_A_LONG long) + n % BITS_IN_A_LONG long = n :=
    Nat.div_add_mod n _
  have open_at : (m.wordAt ⟨n >>> LONG_BIT_SHIFT long, m.word_lt inside⟩ != ALL_ONES long) =
      true := by
    rw [bne_iff_ne, ALL_ONES_eq, WordBitmap.ne_allOnes_iff]
    refine ⟨n % BITS_IN_A_LONG long, place, ?_⟩
    rw [getLsbD_wordAt _ place]
    simp only [shiftRight_eq]
    rw [split_n, clear]
  have stops := @WordBitmap.found_scan_round m.nwords (fun word => m.wordAt word != ALL_ONES long)
    ⟨(suggestion : ℕ) >>> LONG_BIT_SHIFT long, m.word_lt suggestion.isLt⟩ _ open_at
  rw [bne_iff_ne, ALL_ONES_eq, WordBitmap.ne_allOnes_iff] at stops
  obtain ⟨bit, bit_lt, bit_clear⟩ := stops
  have missed := List.find?_eq_none.mp none_found
    ((m.openWord suggestion : ℕ) <<< LONG_BIT_SHIFT long ||| bit)
    (List.mem_map.mpr ⟨bit, List.mem_range.mpr bit_lt, rfl⟩)
  rw [word_or_bit bit_lt, ← getLsbD_wordAt _ bit_lt] at missed
  exact missed (by simpa [openWord, ALL_ONES_eq] using bit_clear)

variable {suggestion : ℕ}

theorem allocate_of_free (free : m.testBit (m.suggested suggestion) = false) :
    m.allocate suggestion = some (↑(m.suggested suggestion), m) := by
  rw [allocate, free]
  rfl

theorem allocate_of_used (used : m.testBit (m.suggested suggestion) = true) :
    m.allocate suggestion = match m.openBit (m.openWord (m.suggested suggestion)) with
      | some found => some (found, m)
      | none => m.grow.bind fun m' => m'.allocate (m'.capacity_ >>> 1) := by
  rw [allocate, used]
  simp only [Bool.not_true, Bool.false_eq_true, if_false]
  cases m.openBit (m.openWord (m.suggested suggestion)) with
  | some found => rfl
  | none => cases m.grow <;> rfl

/-- `allocate` finds a number outside the set and below the capacity, and changes no membership. -/
theorem allocate_spec (found : m.allocate suggestion = some (n, m')) :
    m.testBit n = false ∧ n < m'.capacity_ ∧ (∀ k, m'.testBit k = m.testBit k) ∧
      m'.usedSlots_ = m.usedSlots_ := by
  induction m, suggestion using allocate.induct with
  | case1 m suggestion free =>
      have clear : m.testBit (m.suggested suggestion) = false := by simpa using free
      rw [allocate_of_free clear] at found
      cases found
      exact ⟨clear, Fin.isLt _, fun _ => rfl, rfl⟩
  | case2 m suggestion used number here =>
      rw [allocate_of_used (by simpa using used), here] at found
      cases found
      exact ⟨(openBit_spec here).1, (openBit_spec here).2, fun _ => rfl, rfl⟩
  | case3 m suggestion used here failed =>
      rw [allocate_of_used (by simpa using used), here, failed] at found
      cases found
  | case4 m suggestion used here next step ih =>
      rw [allocate_of_used (by simpa using used), here, step] at found
      obtain ⟨clear, below, same, count⟩ := ih found
      refine ⟨?_, below, fun k => ?_, ?_⟩
      · rw [← (testBit_grow step n).1, clear]
      · rw [same k, (testBit_grow step k).1]
      · rw [count, (testBit_grow step n).2]

/-- `allocate` does not fail while a number below `2 ^ 24` is unused. -/
theorem allocate_of_unused (suggestion : ℕ) (small : n < 1 <<< 24) (unused : m.testBit n = false) :
    ∃ found m', m.allocate suggestion = some (found, m') := by
  induction m, suggestion using allocate.induct with
  | case1 m suggestion free => exact ⟨_, _, allocate_of_free (by simpa using free)⟩
  | case2 m suggestion used number here =>
      rw [allocate_of_used (by simpa using used), here]
      exact ⟨_, _, rfl⟩
  | case3 m suggestion used here failed =>
      have outside : m.capacity_ ≤ n := by
        refine Nat.le_of_not_lt fun inside => ?_
        rw [full_of_openBit here inside] at unused
        cases unused
      obtain ⟨next, step⟩ := grow_of_lt (Nat.lt_of_le_of_lt outside small)
      rw [failed] at step
      cases step
  | case4 m suggestion used here next step ih =>
      rw [allocate_of_used (by simpa using used), here, step]
      exact ih (by rw [(testBit_grow step n).1, unused])

/-! ### The map as a set of numbers -/

/-- The map stands for the set `S`: the set bits are the members, the counter is the size. -/
structure Represents (m : FileMap long) (S : Finset ℕ) : Prop where
  member : ∀ n, m.testBit n = true ↔ n ∈ S
  size : m.numFilesInMap = S.card

variable {S : Finset ℕ}

theorem Represents.testBit_of_notMem (rep : m.Represents S) (fresh : n ∉ S) : m.testBit n = false :=
  Bool.eq_false_of_not_eq_true fun used => fresh ((rep.member n).mp used)

/-- All members lie below the capacity. -/
theorem Represents.card_le (rep : m.Represents S) : S.card ≤ 1 <<< 24 := by
  have inside : S ⊆ Finset.range m.capacity_ := by
    intro n member
    exact Finset.mem_range.mpr (lt_capacity_of_testBit ((rep.member n).mpr member))
  have bound := Finset.card_le_card inside
  rw [Finset.card_range] at bound
  exact bound.trans m.capacity_le

theorem Represents.congr (rep : m.Represents S) (same : ∀ k, m'.testBit k = m.testBit k)
    (used : m'.usedSlots_ = m.usedSlots_) :
    m'.Represents S where
  member n := by rw [same n, rep.member n]
  size := by rw [numFilesInMap, used, ← rep.size, numFilesInMap]

theorem represents_new : (new long).Represents ∅ where
  member n := by simp
  size := rfl

theorem Represents.setBit (rep : m.Represents S) (fresh : n ∉ S)
    (set : m.setBit n = some (result, m')) : m'.Represents (insert n S) := by
  obtain ⟨bits, used⟩ := setBit_spec set
  refine ⟨fun k => ?_, ?_⟩
  · rw [bits k, Bool.or_eq_true, decide_eq_true_eq, rep.member k, Finset.mem_insert]
  · have size := rep.size
    have few := rep.card_le
    rw [numFilesInMap] at size
    rw [numFilesInMap, used, Finset.card_insert_of_notMem fresh, UInt32.toNat_add, size]
    exact Nat.mod_eq_of_lt (by change S.card + 1 < 2 ^ 32; omega)

theorem Represents.clearBit (rep : m.Represents S) (used : n ∈ S)
    (cleared : m.clearBit n = some m') : m'.Represents (S.erase n) := by
  obtain ⟨bits, count⟩ := clearBit_spec cleared
  refine ⟨fun k => ?_, ?_⟩
  · rw [bits k, Bool.and_eq_true, Bool.not_eq_true', decide_eq_false_iff_not, rep.member k,
      Finset.mem_erase]
  · have size := rep.size
    have some_used := Finset.card_pos.mpr ⟨n, used⟩
    rw [numFilesInMap] at size
    have one_le : (1 : UInt32) ≤ m.usedSlots_ := by
      rw [UInt32.le_iff_toNat_le, size]
      exact some_used
    rw [numFilesInMap, count, Finset.card_erase_of_mem used, UInt32.toNat_sub_of_le _ _ one_le,
      size]
    rfl

/-- With fewer than `2 ^ 24` members some number of 24 bits is unused. -/
theorem Represents.exists_unused (rep : m.Represents S) (few : S.card < 1 <<< 24) :
    ∃ n < 1 <<< 24, m.testBit n = false := by
  have some_left : S.card < (Finset.range (1 <<< 24)).card := by rwa [Finset.card_range]
  obtain ⟨n, small, fresh⟩ := Finset.exists_mem_notMem_of_card_lt_card some_left
  exact ⟨n, Finset.mem_range.mp small, rep.testBit_of_notMem fresh⟩

/-! ### Runs -/

/-- The operations of the callers. -/
inductive Call where
  | setBit (file_number : ℕ)
  | clearBit (file_number : ℕ)
  | allocate (suggestion : ℕ)
deriving DecidableEq

/-- One operation on the map; `none` where the source aborts or leaves the array. -/
def next (m : FileMap long) : Call → Option (FileMap long)
  | .setBit file_number => (m.setBit file_number).map Prod.snd
  | .clearBit file_number => m.clearBit file_number
  | .allocate suggestion => (m.allocate suggestion).map Prod.snd

/-- What an operation is for: the numbers set and not cleared since. -/
def Call.effect (S : Finset ℕ) : Call → Finset ℕ
  | .setBit file_number => insert file_number S
  | .clearBit file_number => S.erase file_number
  | .allocate _ => S

/-- Callers set clear bits, clear set bits and allocate while fewer than `2 ^ 24` numbers are in
use. -/
def Call.Proper (S : Finset ℕ) : Call → Prop
  | .setBit file_number => file_number ∉ S
  | .clearBit file_number => file_number ∈ S
  | .allocate _ => S.card < 1 <<< 24

/-- The numbers set and not cleared since, after a list of operations. -/
def inUse (calls : List Call) : Finset ℕ :=
  calls.foldl Call.effect ∅

/-- Every operation is proper for the numbers in use when it is called. -/
def Proper (S : Finset ℕ) : List Call → Prop
  | [] => True
  | call :: calls => call.Proper S ∧ Proper (call.effect S) calls

variable {call : Call}

/-- Every proper operation keeps the correspondence. -/
theorem Represents.next (rep : m.Represents S) (ok : call.Proper S) (step : m.next call = some m') :
    m'.Represents (call.effect S) := by
  cases call with
  | setBit n =>
      rw [FileMap.next, map_eq_some_iff] at step
      obtain ⟨⟨result, after⟩, set, rfl⟩ := step
      exact rep.setBit ok set
  | clearBit n => exact rep.clearBit ok step
  | allocate suggestion =>
      rw [FileMap.next, map_eq_some_iff] at step
      obtain ⟨⟨n, after⟩, found, rfl⟩ := step
      obtain ⟨-, -, same, used⟩ := allocate_spec found
      exact rep.congr same used

/-- A proper operation fails only where it sets a number of more than 24 bits. -/
theorem Represents.exists_next (rep : m.Represents S) (ok : call.Proper S)
    (small : ∀ n, call = .setBit n → n < 1 <<< 24) : ∃ m', m.next call = some m' := by
  cases call with
  | setBit n =>
      obtain ⟨result, after, set⟩ := setBit_of_small (m := m) (small n rfl)
      exact ⟨after, by rw [FileMap.next, set, map_some]⟩
  | clearBit n => exact clearBit_of_testBit ((rep.member n).mpr ok)
  | allocate suggestion =>
      obtain ⟨n, bound, unused⟩ := rep.exists_unused ok
      obtain ⟨found, after, step⟩ := allocate_of_unused suggestion bound unused
      exact ⟨after, by rw [FileMap.next, step, map_some]⟩

variable {calls : List Call}

theorem Represents.exec (rep : m.Represents S) (ok : Proper S calls)
    (run : LabelledRun.exec FileMap.next m calls = some m') :
    m'.Represents (calls.foldl Call.effect S) := by
  induction calls generalizing m S with
  | nil =>
      cases some.inj run
      exact rep
  | cons call calls ih =>
      rw [LabelledRun.exec_cons, bind_eq_some_iff] at run
      obtain ⟨middle, step, later⟩ := run
      exact ih (rep.next ok.1 step) ok.2 later

theorem Represents.exists_exec (rep : m.Represents S) (ok : Proper S calls)
    (small : ∀ n, Call.setBit n ∈ calls → n < 1 <<< 24) :
    ∃ m', LabelledRun.exec FileMap.next m calls = some m' := by
  induction calls generalizing m S with
  | nil => exact ⟨m, rfl⟩
  | cons call calls ih =>
      obtain ⟨middle, step⟩ := rep.exists_next ok.1 fun n equal => small n (by simp [equal])
      rw [LabelledRun.exec_cons, step, bind_some]
      exact ih (rep.next ok.1 step) ok.2 fun n member => small n (List.mem_cons_of_mem _ member)

/-- The map refines the finite set of the numbers in use. -/
theorem fileMap_refines (calls : List Call) (ok : Proper ∅ calls) :
    ((∀ n, Call.setBit n ∈ calls → n < 1 <<< 24) →
      ∃ m, LabelledRun.exec next (new long) calls = some m) ∧
    ∀ m, LabelledRun.exec next (new long) calls = some m →
      (∀ n, m.testBit n = true ↔ n ∈ inUse calls) ∧
      m.numFilesInMap = (inUse calls).card ∧
      (∀ m', m.grow = some m' → ∀ n, m'.testBit n = m.testBit n) ∧
      ((inUse calls).card < 1 <<< 24 → ∀ suggestion, ∃ n m',
        m.allocate suggestion = some (n, m') ∧ n ∉ inUse calls ∧ n < m'.capacity ∧
          ∀ k, m'.testBit k = m.testBit k) := by
  refine ⟨fun small => represents_new.exists_exec ok small, fun m run => ?_⟩
  have rep : m.Represents (inUse calls) := represents_new.exec ok run
  refine ⟨rep.member, rep.size, fun m' grown n => (testBit_grow grown n).1, ?_⟩
  intro few suggestion
  obtain ⟨n, small, unused⟩ := rep.exists_unused few
  obtain ⟨found, m', step⟩ := allocate_of_unused suggestion small unused
  obtain ⟨clear, below, same, -⟩ := allocate_spec step
  refine ⟨found, m', step, fun member => ?_, below, same⟩
  rw [(rep.member found).mpr member] at clear
  cases clear

theorem fileMap_refines_grown :
    ∃ m, LabelledRun.exec next (new .eight)
        [.setBit 3, .setBit 20000, .clearBit 3, .allocate 20000] = some m ∧
      m.testBit 20000 = true ∧ m.testBit 3 = false ∧ m.numFilesInMap = 1 := by
  have ok : Proper ∅ [.setBit 3, .setBit 20000, .clearBit 3, .allocate 20000] := by
    simp [Proper, Call.Proper, Call.effect]
  obtain ⟨ends, all⟩ := @fileMap_refines .eight _ ok
  obtain ⟨m, run⟩ := ends (by simp)
  obtain ⟨member, size, -⟩ := all m run
  refine ⟨m, run, (member 20000).mpr (by decide), ?_, size⟩
  exact Bool.eq_false_of_not_eq_true fun used => absurd ((member 3).mp used) (by decide)

end FileMap

end Squid.Fs
