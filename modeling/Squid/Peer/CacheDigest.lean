import Squid.Library.LabelledRun
import Squid.Library.WordBitmap
import Squid.Peer.PeerDigest
import Mathlib.Data.List.Forall2

/-!
# Cache digests

The calls of `src/CacheDigest.cc` that make, resize, copy, fill and test a digest.  A digest is
handled through its number in the order of creation.  A failed assertion, a division by zero and an
access outside the mask stop the program.
-/

namespace Squid
namespace PeerDigest

open CRuntime LabelledRun List Option

/-- `cache_key`, of `SQUID_MD5_DIGEST_LENGTH` bytes. -/
def CacheKey : Type := { key : Bytes // key.length = 16 }

instance : DecidableEq CacheKey := inferInstanceAs (DecidableEq (Subtype _))

/-- `tmp_keys`, as `htonl` leaves them. -/
def CacheKey.words (key : CacheKey) : List ℕ :=
  [ntoh key.1 0 4, ntoh key.1 4 4, ntoh key.1 8 4, ntoh key.1 12 4]

/-! ## Digests -/

def cacheDigestClone (cd : CacheDigest) : Option CacheDigest := do
  let clone ← (cacheDigestCreate cd.capacity cd.bits_per_entry).toOption
  if cd.mask_size = clone.mask_size then
    some { clone with mask := cd.mask, count := cd.count, del_count := cd.del_count,
                      sized := cd.sized }
  else none

def cacheDigestClear (cd : CacheDigest) : CacheDigest :=
  { cd with mask := List.replicate cd.mask_size 0, count := 0, del_count := 0,
            sized := by rw [length_replicate]; exact cd.sized }

def cacheDigestChangeCap (cd : CacheDigest) (new_cap : ℤ) : Option CacheDigest :=
  (cacheDigestCreate new_cap cd.bits_per_entry).toOption.map fun fresh =>
    { fresh with count := cd.count, del_count := cd.del_count }

def CBIT_BIT (bit : ℕ) : UInt8 := UInt8.ofBitVec (1#8 <<< (bit % 8))

/-- `CBIT_TEST`; `none` outside the mask. -/
def CBIT_TEST (mask : Bytes) (bit : ℕ) : Option Bool :=
  mask[bit / 8]?.map fun b => b &&& CBIT_BIT bit ≠ 0

def CBIT_SET (mask : Bytes) (bit : ℕ) : Bytes :=
  mask.modify (bit / 8) (· ||| CBIT_BIT bit)

/-- The conjunction of `cacheDigestTest`. -/
def testBits (mask : Bytes) : List ℕ → Option Bool
  | [] => some true
  | bit :: hashed_keys => do
      if ← CBIT_TEST mask bit then testBits mask hashed_keys else some false

def cacheDigestTest (cd : CacheDigest) (key : CacheKey) : Option Bool := do
  testBits cd.mask (← cacheDigestHashKey cd key.words)

/-- The tests of `cacheDigestAdd`, with `on_xition_cnt`. -/
def turnOn : Bytes → List ℕ → Option (Bytes × ℕ)
  | mask, [] => some (mask, 0)
  | mask, bit :: hashed_keys => do
      if ← CBIT_TEST mask bit then turnOn mask hashed_keys
      else
        let (mask', on_xition_cnt) ← turnOn (CBIT_SET mask bit) hashed_keys
        some (mask', on_xition_cnt + 1)

@[simp]
theorem CBIT_SET_length (mask : Bytes) (bit : ℕ) : (CBIT_SET mask bit).length = mask.length :=
  length_modify ..

variable {hashed_keys : List ℕ} {mask : Bytes}

theorem turnOn_length {mask' : Bytes} {on_xition_cnt : ℕ}
    (turned : turnOn mask hashed_keys = some (mask', on_xition_cnt)) :
    mask'.length = mask.length := by
  induction hashed_keys generalizing mask on_xition_cnt with
  | nil =>
      cases turned
      rfl
  | cons bit hashed_keys ih =>
      simp only [turnOn, bind_eq_bind, bind_eq_some_iff] at turned
      obtain ⟨on, -, turned⟩ := turned
      split at turned
      · exact ih turned
      · obtain ⟨rest, later, same⟩ := bind_eq_some_iff.mp turned
        cases same
        rw [ih later, CBIT_SET_length]

/-- `cacheDigestAdd`, with the number of bits that it turns on. -/
def cacheDigestAdd (cd : CacheDigest) (key : CacheKey) : Option (CacheDigest × ℕ) := do
  let hashed_keys ← cacheDigestHashKey cd key.words
  match turned : turnOn cd.mask hashed_keys with
  | none => none
  | some (mask, on_xition_cnt) =>
      some ({ cd with mask, count := int32 (cd.count + 1),
                      sized := (turnOn_length turned).symm ▸ cd.sized }, on_xition_cnt)

/-! ## Calls -/

/-- A call; digests are numbered. -/
inductive Call where
  | cacheDigestCreate (capacity bpe : ℤ)
  | cacheDigestClear (cd : ℕ)
  | cacheDigestChangeCap (cd : ℕ) (new_cap : ℤ)
  | cacheDigestAdd (cd : ℕ) (key : CacheKey)
  | cacheDigestClone (cd : ℕ)

/-- Make a call. -/
def call (digests : List CacheDigest) : Call → Option (List CacheDigest)
  | .cacheDigestCreate capacity bpe => do
      some (digests ++ [← (cacheDigestCreate capacity bpe).toOption])
  | .cacheDigestClear d => do
      some (digests.set d (cacheDigestClear (← digests[d]?)))
  | .cacheDigestChangeCap d new_cap => do
      some (digests.set d (← cacheDigestChangeCap (← digests[d]?) new_cap))
  | .cacheDigestAdd d key => do
      some (digests.set d (← cacheDigestAdd (← digests[d]?) key).1)
  | .cacheDigestClone d => do
      some (digests ++ [← cacheDigestClone (← digests[d]?)])

/-- A capacity with which the size of the mask fits an `int`. -/
def GoodCapacity (capacity bpe : ℤ) : Prop := 0 < capacity ∧ 0 < bpe ∧ capacity * bpe + 7 < 2 ^ 31

instance (capacity bpe : ℤ) : Decidable (GoodCapacity capacity bpe) :=
  inferInstanceAs (Decidable (_ ∧ _))

/-- Calls for digests that exist, with good capacities. -/
def Permitted (digests : List CacheDigest) : Call → Prop
  | .cacheDigestCreate capacity bpe => GoodCapacity capacity bpe
  | .cacheDigestChangeCap d new_cap => ∃ cd ∈ digests[d]?, GoodCapacity new_cap cd.bits_per_entry
  | .cacheDigestClear d | .cacheDigestAdd d _ | .cacheDigestClone d => d < digests.length

instance (digests : List CacheDigest) : DecidablePred (Permitted digests)
  | .cacheDigestCreate capacity bpe => inferInstanceAs (Decidable (GoodCapacity capacity bpe))
  | .cacheDigestChangeCap d new_cap =>
      inferInstanceAs (Decidable (∃ cd ∈ digests[d]?, GoodCapacity new_cap cd.bits_per_entry))
  | .cacheDigestClear d => inferInstanceAs (Decidable (d < digests.length))
  | .cacheDigestAdd d _ => inferInstanceAs (Decidable (d < digests.length))
  | .cacheDigestClone d => inferInstanceAs (Decidable (d < digests.length))

/-- The keys added to every digest since it was last cleared or resized; a clone starts with those
of the digest that it is a copy of. -/
def account (added : List (List CacheKey)) : Call → List (List CacheKey)
  | .cacheDigestCreate _ _ => added ++ [[]]
  | .cacheDigestClear d | .cacheDigestChangeCap d _ => added.set d []
  | .cacheDigestAdd d key => added.modify d (key :: ·)
  | .cacheDigestClone d => added ++ [(added[d]?).getD []]

/-! ## Bits -/

/-- The mask as a set of numbers. -/
def maskWords (mask : Bytes) : List (BitVec 8) := mask.map UInt8.toBitVec

theorem CBIT_TEST_eq {bit : ℕ} (inside : bit / 8 < mask.length) :
    CBIT_TEST mask bit = some (WordBitmap.bit (maskWords mask) bit) := by
  have at_word : (maskWords mask)[bit / 8]? = some mask[bit / 8].toBitVec := by
    rw [maskWords, List.getElem?_map, List.getElem?_eq_getElem inside, map_some]
  have test := WordBitmap.and_mask_ne_zero mask[bit / 8].toBitVec (Nat.mod_lt bit (by decide : 0 < 8))
  rw [CBIT_TEST, List.getElem?_eq_getElem inside, map_some, WordBitmap.bit_of_getElem? at_word,
    some_inj, Bool.eq_iff_iff, ← test, decide_eq_true_iff, Ne, Ne, ← UInt8.toBitVec_inj]
  rfl

theorem bit_CBIT_SET {bit : ℕ} (inside : bit / 8 < mask.length) (k : ℕ) :
    WordBitmap.bit (maskWords (CBIT_SET mask bit)) k =
      if k = bit then true else WordBitmap.bit (maskWords mask) k := by
  have at_word : (maskWords mask)[bit / 8]? = some mask[bit / 8].toBitVec := by
    rw [maskWords, List.getElem?_map, List.getElem?_eq_getElem inside, map_some]
  have stored : maskWords (CBIT_SET mask bit) =
      (maskWords mask).set (bit / 8) (mask[bit / 8].toBitVec ||| 1#8 <<< (bit % 8)) := by
    rw [CBIT_SET, modify_eq_set, List.getElem?_eq_getElem inside]
    exact map_set
  rw [stored]
  apply WordBitmap.bit_set (maskWords mask) (by decide) at_word
  intro j place
  rw [WordBitmap.getLsbD_or_mask _ place]
  by_cases same : bit % 8 = j <;> simp [same]

/-- A test reads the bits of all hashed keys. -/
theorem testBits_eq (inside : ∀ bit ∈ hashed_keys, bit < mask.length * 8) :
    testBits mask hashed_keys =
      some (decide (∀ bit ∈ hashed_keys, WordBitmap.bit (maskWords mask) bit = true)) := by
  induction hashed_keys with
  | nil => simp [testBits]
  | cons bit hashed_keys ih =>
      obtain ⟨first, rest⟩ := forall_mem_cons.mp inside
      simp only [testBits, CBIT_TEST_eq (Nat.div_lt_of_lt_mul (by omega : bit < 8 * mask.length)),
        bind_eq_bind, bind_some, ih rest]
      cases on : WordBitmap.bit (maskWords mask) bit <;> simp [on]

/-- `turnOn` adds the hashed keys to the bits of the mask. -/
theorem turnOn_spec (inside : ∀ bit ∈ hashed_keys, bit < mask.length * 8) :
    ∃ mask' on_xition_cnt, turnOn mask hashed_keys = some (mask', on_xition_cnt) ∧
      mask'.length = mask.length ∧
      ∀ k, WordBitmap.bit (maskWords mask') k =
        (decide (k ∈ hashed_keys) || WordBitmap.bit (maskWords mask) k) := by
  induction hashed_keys generalizing mask with
  | nil => exact ⟨mask, 0, rfl, rfl, by simp⟩
  | cons bit hashed_keys ih =>
      obtain ⟨first, rest⟩ := forall_mem_cons.mp inside
      have place : bit / 8 < mask.length := Nat.div_lt_of_lt_mul (by omega)
      simp only [turnOn, CBIT_TEST_eq place, bind_eq_bind, bind_some]
      cases on : WordBitmap.bit (maskWords mask) bit with
      | true =>
          obtain ⟨mask', on_xition_cnt, turned, length, bits⟩ := ih rest
          refine ⟨mask', on_xition_cnt, by simpa using turned, length, fun k => ?_⟩
          rw [bits]
          by_cases same : k = bit <;> simp [same, on]
      | false =>
          obtain ⟨mask', on_xition_cnt, turned, length, bits⟩ :=
            @ih (CBIT_SET mask bit) (by rwa [CBIT_SET_length])
          refine ⟨mask', on_xition_cnt + 1, by simp [turned], by rw [length, CBIT_SET_length],
            fun k => ?_⟩
          rw [bits, bit_CBIT_SET place]
          by_cases same : k = bit <;> simp [same]

/-! ## Sizes -/

/-- The size of the mask is the one that belongs to the capacity and the bits of an entry. -/
structure CacheDigest.Sized (cd : CacheDigest) : Prop where
  good : GoodCapacity cd.capacity cd.bits_per_entry
  mask_size : cd.mask_size = cacheDigestCalcMaskSize cd.capacity cd.bits_per_entry

variable {bpe capacity : ℤ}

theorem cacheDigestCalcMaskSize_eq (good : GoodCapacity capacity bpe) :
    cacheDigestCalcMaskSize capacity bpe = (capacity * bpe + 7).toNat / 8 := by
  obtain ⟨capacity_pos, bpe_pos, fits⟩ := good
  have product := Int.mul_pos capacity_pos bpe_pos
  have exact : int32 (capacity * bpe) = capacity * bpe := int32_eq (by omega) (by omega)
  rw [cacheDigestCalcMaskSize, exact, int32_eq (by omega) (by omega),
    Int.emod_eq_of_lt (by omega) (by omega)]

theorem cacheDigestCalcMaskSize_bounds (good : GoodCapacity capacity bpe) :
    0 < cacheDigestCalcMaskSize capacity bpe ∧ cacheDigestCalcMaskSize capacity bpe * 8 < 2 ^ 31 := by
  rw [cacheDigestCalcMaskSize_eq good]
  obtain ⟨capacity_pos, bpe_pos, fits⟩ := good
  have product := Int.mul_pos capacity_pos bpe_pos
  omega

/-- A good capacity makes an empty digest. -/
theorem cacheDigestCreate_of_good (good : GoodCapacity capacity bpe) :
    ∃ cd, cacheDigestCreate capacity bpe = .ok cd ∧ cd.Sized ∧
      cd.capacity = capacity ∧ cd.bits_per_entry = bpe := by
  have positive := (cacheDigestCalcMaskSize_bounds good).1
  refine ⟨_, by rw [cacheDigestCreate, dif_pos ⟨good.1, good.2.1⟩, dif_pos positive], ⟨good, ?_⟩, rfl,
    rfl⟩
  exact length_replicate

section Sized

variable {cd : CacheDigest}

theorem CacheDigest.Sized.bit_count (sized : cd.Sized) : cd.bit_count = cd.mask_size * 8 := by
  have bounds := cacheDigestCalcMaskSize_bounds sized.good
  rw [← sized.mask_size] at bounds
  rw [CacheDigest.bit_count, int32_eq (by omega) (by omega)]
  omega

/-- The hashed keys are bits of the mask. -/
theorem CacheDigest.Sized.hashKey (sized : cd.Sized) (tmp_keys : List ℕ) :
    cacheDigestHashKey cd tmp_keys = some (tmp_keys.map (· % (cd.mask_size * 8))) ∧
      ∀ bit ∈ tmp_keys.map (· % (cd.mask_size * 8)), bit < cd.mask.length * 8 := by
  have positive : 0 < cd.mask_size * 8 := Nat.mul_pos cd.sized (by decide)
  constructor
  · rw [cacheDigestHashKey, sized.bit_count, if_neg positive.ne']
  · simp only [List.mem_map, forall_exists_index, and_imp, forall_apply_eq_imp_iff₂]
    exact fun word _ => Nat.mod_lt word positive

/-- A key tests true exactly if all its bits are on. -/
theorem CacheDigest.Sized.test_iff (sized : cd.Sized) (key : CacheKey) :
    ∃ found, cacheDigestTest cd key = some found ∧ (found = true ↔
      ∀ bit ∈ key.words.map (· % (cd.mask_size * 8)),
        WordBitmap.bit (maskWords cd.mask) bit = true) := by
  obtain ⟨hashed, inside⟩ := sized.hashKey key.words
  refine ⟨_, by rw [cacheDigestTest, hashed, bind_eq_bind, bind_some,
    testBits_eq inside], decide_eq_true_iff⟩

end Sized

/-! ## Runs -/

/-- A digest whose size is right, and in which keys test true. -/
structure Holds (cd : CacheDigest) (keys : List CacheKey) : Prop where
  sized : cd.Sized
  found : ∀ key ∈ keys, cacheDigestTest cd key = some true

variable {cd : CacheDigest}

theorem holds_nil (sized : cd.Sized) : Holds cd [] := ⟨sized, by simp⟩

/-- The copy of a digest is made, and it tests as the digest does. -/
theorem cacheDigestClone_spec (sized : cd.Sized) :
    ∃ clone, cacheDigestClone cd = some clone ∧ clone.Sized ∧
      ∀ key, cacheDigestTest clone key = cacheDigestTest cd key := by
  obtain ⟨fresh, created, fresh_sized, capacity, bits_per_entry⟩ :=
    cacheDigestCreate_of_good sized.good
  have same : cd.mask_size = fresh.mask_size := by
    rw [sized.mask_size, fresh_sized.mask_size, capacity, bits_per_entry]
  refine ⟨{ fresh with mask := cd.mask, count := cd.count, del_count := cd.del_count,
                       sized := cd.sized }, ?_, ⟨fresh_sized.good, ?_⟩, fun key => rfl⟩
  · rw [cacheDigestClone, created]
    simp only [Except.toOption, bind_eq_bind, bind_some, if_pos same]
  · exact same.trans fresh_sized.mask_size

theorem cacheDigestChangeCap_spec {new_cap : ℤ} (good : GoodCapacity new_cap cd.bits_per_entry) :
    ∃ changed, cacheDigestChangeCap cd new_cap = some changed ∧ changed.Sized := by
  obtain ⟨fresh, created, sized, -⟩ := cacheDigestCreate_of_good good
  exact ⟨{ fresh with count := cd.count, del_count := cd.del_count },
    by rw [cacheDigestChangeCap, created]; rfl, ⟨sized.good, sized.mask_size⟩⟩

theorem cacheDigestClear_sized (sized : cd.Sized) : (cacheDigestClear cd).Sized :=
  ⟨sized.good, length_replicate.trans sized.mask_size⟩

/-- Adding a key keeps the keys before it. -/
theorem cacheDigestAdd_spec {keys : List CacheKey} (holds : Holds cd keys) (key : CacheKey) :
    ∃ cd' on_xition_cnt, cacheDigestAdd cd key = some (cd', on_xition_cnt) ∧
      Holds cd' (key :: keys) := by
  obtain ⟨hashed, inside⟩ := holds.sized.hashKey key.words
  obtain ⟨mask', on_xition_cnt, turned, length, bits⟩ := turnOn_spec inside
  have stored : ∃ cd', cacheDigestAdd cd key = some (cd', on_xition_cnt) ∧ cd'.mask = mask' ∧
      cd'.capacity = cd.capacity ∧ cd'.bits_per_entry = cd.bits_per_entry := by
    simp only [cacheDigestAdd, hashed, bind_eq_bind, bind_some]
    split
    · next failed => rw [turned] at failed; cases failed
    · next mask on_xition_cnt' turned' =>
        cases turned.symm.trans turned'
        exact ⟨_, rfl, rfl, rfl, rfl⟩
  obtain ⟨cd', added, rfl, capacity, bits_per_entry⟩ := stored
  have sized : cd'.Sized := by
    refine ⟨?_, ?_⟩
    · rw [capacity, bits_per_entry]
      exact holds.sized.good
    · rw [capacity, bits_per_entry]
      exact length.trans holds.sized.mask_size
  have same_size : cd'.mask_size = cd.mask_size := length
  refine ⟨cd', on_xition_cnt, added, sized, fun other member => ?_⟩
  obtain ⟨found, tested, iff⟩ := sized.test_iff other
  rw [tested, some_inj, iff, same_size]
  intro bit at_bit
  rw [bits]
  obtain rfl | before := mem_cons.mp member
  · simp only [at_bit, decide_true, Bool.true_or]
  · obtain ⟨found', tested', iff'⟩ := holds.sized.test_iff other
    rw [holds.found other before, some_inj] at tested'
    rw [iff'.mp tested'.symm bit at_bit, Bool.or_true]

theorem forall₂_set {α β : Type*} {related : α → β → Prop} {xs : List α} {ys : List β}
    (all : List.Forall₂ related xs ys) {x : α} {y : β} (new : related x y) (i : ℕ) :
    List.Forall₂ related (xs.set i x) (ys.set i y) := by
  induction all generalizing i with
  | nil => exact .nil
  | cons first _ ih =>
      cases i with
      | zero => exact .cons new ‹_›
      | succ i => exact .cons first (ih i)

theorem forall₂_getElem? {α β : Type*} {related : α → β → Prop} {xs : List α} {ys : List β}
    (all : List.Forall₂ related xs ys) {i : ℕ} {x : α} (at_x : xs[i]? = some x) :
    ∃ y, ys[i]? = some y ∧ related x y := by
  induction all generalizing i with
  | nil => simp at at_x
  | cons first _ ih =>
      cases i with
      | zero =>
          cases at_x
          exact ⟨_, rfl, first⟩
      | succ i => exact ih at_x

/-- A permitted call succeeds, and every digest holds its keys after it. -/
theorem call_holds {digests : List CacheDigest} {added : List (List CacheKey)} {label : Call}
    (holds : List.Forall₂ Holds digests added) (permitted : Permitted digests label) :
    ∃ digests', call digests label = some digests' ∧
      List.Forall₂ Holds digests' (account added label) := by
  cases label with
  | cacheDigestCreate capacity bpe =>
      obtain ⟨cd, created, sized, -⟩ := cacheDigestCreate_of_good permitted
      exact ⟨digests ++ [cd], by simp [call, created, Except.toOption],
        rel_append holds (.cons (holds_nil sized) .nil)⟩
  | cacheDigestClear d =>
      obtain ⟨cd, present⟩ : ∃ cd, digests[d]? = some cd := ⟨_, List.getElem?_eq_getElem permitted⟩
      obtain ⟨keys, -, held⟩ := forall₂_getElem? holds present
      refine ⟨digests.set d (cacheDigestClear cd), by simp [call, present], ?_⟩
      exact forall₂_set holds (holds_nil (cacheDigestClear_sized held.sized)) d
  | cacheDigestChangeCap d new_cap =>
      obtain ⟨cd, present, good⟩ := permitted
      obtain ⟨changed, resized, sized⟩ := cacheDigestChangeCap_spec good
      refine ⟨digests.set d changed, by simp [call, mem_def.mp present, resized], ?_⟩
      exact forall₂_set holds (holds_nil sized) d
  | cacheDigestAdd d key =>
      obtain ⟨cd, present⟩ : ∃ cd, digests[d]? = some cd := ⟨_, List.getElem?_eq_getElem permitted⟩
      obtain ⟨keys, at_keys, held⟩ := forall₂_getElem? holds present
      obtain ⟨cd', on_xition_cnt, stored, held'⟩ := cacheDigestAdd_spec held key
      have modified : added.modify d (key :: ·) = added.set d (key :: keys) := by
        rw [modify_eq_set, at_keys, getD_some]
      refine ⟨digests.set d cd', ?_, ?_⟩
      · exact bind_eq_some_iff.mpr ⟨cd, present,
          bind_eq_some_iff.mpr ⟨(cd', on_xition_cnt), stored, rfl⟩⟩
      · rw [account, modified]
        exact forall₂_set holds held' d
  | cacheDigestClone d =>
      obtain ⟨cd, present⟩ : ∃ cd, digests[d]? = some cd := ⟨_, List.getElem?_eq_getElem permitted⟩
      obtain ⟨keys, at_keys, held⟩ := forall₂_getElem? holds present
      obtain ⟨clone, cloned, sized, same⟩ := cacheDigestClone_spec held.sized
      refine ⟨digests ++ [clone], by simp [call, present, cloned], ?_⟩
      rw [account, at_keys, getD_some]
      exact rel_append holds
        (.cons ⟨sized, fun key member => (same key).trans (held.found key member)⟩ .nil)

/-- After any permitted calls, the keys added to a digest since it was last cleared or resized, there
or before it was copied, test true; hashed keys are bits of the mask, and a copy of a digest can be
made and tests as the digest. -/
theorem no_false_negatives (calls : List Call) (permitted : Allowed call Permitted [] calls) :
    ∃ digests, exec call [] calls = some digests ∧
      List.Forall₂ (fun cd keys => ∀ key ∈ keys, cacheDigestTest cd key = some true) digests
        (calls.foldl account []) ∧
      ∀ cd ∈ digests,
        (∀ key : CacheKey, ∃ hashed_keys, cacheDigestHashKey cd key.words = some hashed_keys ∧
          hashed_keys.length = 4 ∧ ∀ bit ∈ hashed_keys, bit < cd.mask_size * 8) ∧
        ∃ clone, cacheDigestClone cd = some clone ∧
          ∀ key, cacheDigestTest clone key = cacheDigestTest cd key := by
  have run : ∀ (calls : List Call) digests added, List.Forall₂ Holds digests added →
      Allowed call Permitted digests calls → ∃ digests', exec call digests calls = some digests' ∧
        List.Forall₂ Holds digests' (calls.foldl account added) := by
    intro calls
    induction calls with
    | nil => exact fun digests added holds _ => ⟨digests, rfl, holds⟩
    | cons label calls ih =>
        intro digests added holds allowed
        obtain ⟨middle, step, held⟩ := call_holds holds allowed.1
        obtain ⟨last, rest, held'⟩ := ih middle _ held (allowed.2 middle step)
        exact ⟨last, by rw [exec_cons, step, bind_some, rest], held'⟩
  obtain ⟨digests, made, holds⟩ := run calls [] [] .nil permitted
  refine ⟨digests, made, holds.imp fun _ _ held => held.found, fun cd member => ?_⟩
  obtain ⟨i, at_cd⟩ := mem_iff_getElem?.mp member
  obtain ⟨keys, -, held⟩ := forall₂_getElem? holds at_cd
  obtain ⟨clone, cloned, -, same⟩ := cacheDigestClone_spec held.sized
  exact ⟨fun key => ⟨_, (held.sized.hashKey key.words).1, by simp [CacheKey.words],
    (held.sized.hashKey key.words).2⟩, clone, cloned, same⟩

/-- A key of sixteen equal bytes. -/
def plainKey (b : UInt8) : CacheKey := ⟨List.replicate 16 b, List.length_replicate⟩

/-- A key is added, the digest is copied, and then resized; the copy still has the key. -/
theorem no_false_negatives_sample :
    ∃ digests, exec call [] [.cacheDigestCreate 3 5, .cacheDigestAdd 0 (plainKey 7),
        .cacheDigestClone 0, .cacheDigestChangeCap 0 10, .cacheDigestAdd 1 (plainKey 9)] =
          some digests ∧
      List.Forall₂ (fun cd keys => ∀ key ∈ keys, cacheDigestTest cd key = some true) digests
        [[], [plainKey 9, plainKey 7]] := by
  obtain ⟨digests, made, found, -⟩ := no_false_negatives
    [.cacheDigestCreate 3 5, .cacheDigestAdd 0 (plainKey 7), .cacheDigestClone 0,
      .cacheDigestChangeCap 0 10, .cacheDigestAdd 1 (plainKey 9)] (by decide +kernel)
  exact ⟨digests, made, found⟩

end PeerDigest
end Squid
