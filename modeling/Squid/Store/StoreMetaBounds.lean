import Squid.Store.StoreMeta
import Mathlib.Order.Interval.Set.Basic
import Mathlib.Data.Int.Interval
import Mathlib.Order.Interval.Finset.Basic

/-!
# Corrupted cache files

The length of a field is read from the file, is added to the position as an `int` and may be
negative: the next field can be anywhere.  The unpacking is safe exactly if the fields follow each
other inside the buffer and no position is taken twice.
-/

namespace Squid
namespace StoreMeta

open CRuntime Walk Option Traced

/-! ## The parts without a loop -/

theorem safe_read_one {buflen : ℕ} {position : ℤ} :
    (Access.read position 1).Safe buflen ↔ 0 ≤ position ∧ position < buflen := by
  refine ⟨fun safe => safe position le_rfl (by simp), fun inside index low high => ?_⟩
  push_cast at high
  omega

theorem safe_read {buflen count : ℕ} {first : ℤ} (low : 0 ≤ first) (high : first + count ≤ buflen) :
    (Access.read first count).Safe buflen := by
  intro index above below
  omega

theorem all_zeros {buf : Memory} {buflen : ℕ} (count : ℕ) {i : ℤ} (low : 0 ≤ i)
    (high : i + count ≤ buflen) : (zeros buf count i).All (Access.Safe buflen) := by
  induction count generalizing i with
  | zero => exact all_pure _ _
  | succ count ih =>
      rw [zeros, Traced.all_bind, all_emit, safe_read_one]
      push_cast at high
      refine ⟨⟨low, by omega⟩, ?_⟩
      split
      · exact all_pure _ _
      · exact ih (by omega) (by omega)

theorem all_isBufferZero (buf : Memory) (buflen : ℕ) :
    (isBufferZero buf buflen).All (Access.Safe buflen) := by
  unfold isBufferZero
  split
  · exact all_pure _ _
  · exact all_zeros 10 le_rfl (by push_cast; omega)

/-- A buffer of zeros is not a sane one. -/
theorem of_isBufferZero {buf : Memory} {buflen : ℕ}
    (zero : (isBufferZero buf buflen).result = true) :
    0 < buflen ∧ buf 0 ≠ metaOk := by
  unfold isBufferZero at zero
  split at zero
  · cases zero
  · refine ⟨by omega, fun ok => ?_⟩
    have nonzero : buf 0 ≠ 0 := by
      rw [ok]
      decide
    rw [zeros, result_bind, if_pos nonzero] at zero
    cases zero

theorem all_isBufferSane {buf : Memory} {buflen : ℕ} :
    (isBufferSane buf buflen).All (Access.Safe buflen) ↔
      0 < buflen ∧ (buf 0 = metaOk → 5 ≤ buflen) := by
  rw [isBufferSane, Traced.all_bind, all_emit, safe_read_one]
  refine and_congr (by simp) ?_
  by_cases ok : buf 0 = metaOk
  · simp only [ok, ne_eq, not_true_eq_false, if_false, Traced.all_bind, all_emit,
      all_pure, and_true, true_imp_iff]
    refine ⟨fun safe => ?_, fun long => safe_read (by simp) (by push_cast; omega)⟩
    have last := safe 4 (by simp) (by simp)
    omega
  · simp [ok]

theorem result_isBufferSane {buf : Memory} {buflen : ℕ} :
    (isBufferSane buf buflen).result = true ↔
      buf 0 = metaOk ∧ minimumBufferLength ≤ hdrLen buf ∧ hdrLen buf ≤ buflen := by
  by_cases ok : buf 0 = metaOk
  · simp only [isBufferSane, ok, ne_eq, not_true_eq_false, if_false, true_and, result_bind,
      result_pure]
    exact decide_eq_true_iff
  · simp [isBufferSane, ok]

/-- The visitor copies what it assumes. -/
theorem all_initStoreEntry {buflen : ℕ} (what : EntryData × Bytes) (x : Field) :
    (initStoreEntry what x).All (Access.Safe buflen) := by
  have agree : ∀ {assumed : ℤ} {after : EntryData × Bytes}, x.length = assumed →
      Traced.All (Access.Safe buflen) (do
        .emit (.assertion (x.length = assumed))
        .emit (.copy x.length assumed)
        return after : Traced Access (EntryData × Bytes)) := by
    intro assumed after same
    simp [Access.Safe, same]
  have valid := x.valid
  unfold initStoreEntry
  split
  · rename_i kind
    rw [kind] at valid
    exact agree (of_decide_eq_true valid)
  · rename_i kind
    rw [kind] at valid
    exact agree (of_decide_eq_true valid)
  · rename_i kind
    rw [kind] at valid
    exact agree (of_decide_eq_true valid)
  all_goals exact all_pure _ _

/-! ## The loop -/

/-- The position of the next field. -/
def nextField (buf : Memory) (hdrLen position : ℤ) : Option ℤ :=
  if moreToProcess hdrLen position ∧ fieldEnd buf position ≤ hdrLen then some (fieldEnd buf position)
  else none

/-- The field at a position does not leave the buffer. -/
def FieldInside (buf : Memory) (hdrLen : ℤ) (buflen : ℕ) (position : ℤ) : Prop :=
  0 ≤ position ∧
    (fieldEnd buf position ≤ hdrLen →
      (accepts (charAt buf position) (fieldLength buf position)).isSome →
        position + 5 + fieldLength buf position ≤ buflen)

theorem int32_mem (x : ℤ) : -2 ^ 31 ≤ int32 x ∧ int32 x < 2 ^ 31 := by
  unfold int32
  omega

theorem moreToProcess_iff {hdrLen position : ℤ} (long : 5 ≤ hdrLen) (short : hdrLen < 2 ^ 31)
    (low : 0 ≤ position) (high : position < 2 ^ 31) :
    moreToProcess hdrLen position = true ↔ position + 5 ≤ hdrLen := by
  have first : int32 (hdrLen - position) = hdrLen - position := int32_eq (by omega) (by omega)
  have second : int32 (hdrLen - position - 5) = hdrLen - position - 5 :=
    int32_eq (by omega) (by omega)
  rw [moreToProcess, decide_eq_true_iff, first, minimumBufferLength, second]
  omega

theorem safe_read_iff {buflen : ℕ} {position length : ℤ} (low : 0 ≤ position)
    (here : position ≤ buflen) (natural : 0 ≤ length) :
    (Access.read position length.toNat).Safe buflen ↔ position + length ≤ buflen := by
  refine ⟨fun safe => ?_, fun high => safe_read low (by omega)⟩
  by_cases empty : length = 0
  · omega
  · have last := safe (position + length - 1) (by omega) (by omega)
    omega

theorem all_factory {buf : Memory} {type length position : ℤ} {property : Access → Prop} :
    (factory type length buf position).All property ↔
      ((accepts type length).isSome → property (.read position length.toNat)) := by
  unfold factory
  split
  · rename_i rejected
    simp [rejected]
  · rename_i kind accepted
    simp [accepted]

theorem result_doOneEntry {buf : Memory} {hdrLen position : ℤ} :
    (doOneEntry buf hdrLen position).result.map Prod.snd =
      if fieldEnd buf position ≤ hdrLen then some (fieldEnd buf position) else none := by
  by_cases beyond : hdrLen < fieldEnd buf position
  · simp [doOneEntry, beyond, not_le.2 beyond]
  · simp [doOneEntry, beyond, not_lt.1 beyond]

theorem all_doOneEntry {buf : Memory} {hdrLen position : ℤ} {buflen : ℕ} (long : 5 ≤ hdrLen)
    (short : hdrLen < 2 ^ 31) (within : hdrLen ≤ buflen) (high : position < 2 ^ 31)
    (more : moreToProcess hdrLen position = true) :
    (doOneEntry buf hdrLen position).All (Access.Safe buflen) ↔
      FieldInside buf hdrLen buflen position := by
  rw [doOneEntry, Traced.all_bind, all_emit, Traced.all_bind, all_emit, safe_read_one, FieldInside]
  by_cases low : 0 ≤ position
  · have room := (moreToProcess_iff long short low high).1 more
    have start : int32 (position + 1) = position + 1 := int32_eq (by omega) (by omega)
    have behind : fieldStart position = position + 5 := by
      rw [fieldStart, start, int32_eq (by omega) (by omega)]
      omega
    have lengthRead : (Access.read (int32 (position + 1)) 4).Safe buflen := by
      rw [start]
      exact safe_read (by omega) (by push_cast; omega)
    have here : position < buflen := by omega
    simp only [low, here, lengthRead, true_and]
    by_cases ends : fieldEnd buf position ≤ hdrLen
    · rw [if_neg (not_lt.2 ends), Traced.all_bind, all_factory, behind]
      simp only [all_pure, and_true, ends, true_imp_iff]
      refine forall_congr' fun accepted => ?_
      obtain ⟨kind, chosen⟩ := isSome_iff_exists.1 accepted
      exact safe_read_iff (by omega) (by omega) (Kind.validLength_bounds (accepts_valid chosen)).1
    · rw [if_pos (not_le.1 ends)]
      simp [ends]
  · refine ⟨fun safe => absurd safe.1.1 low, fun inside => absurd inside.1 low⟩

/-- The loop ends with the walk from field to field. -/
theorem isSome_unpack {buf : Memory} {hdrLen position : ℤ} (turns : ℕ) :
    (unpack buf hdrLen turns position).result.isSome ↔
      walk (nextField buf hdrLen) turns position = none := by
  induction turns generalizing position with
  | zero => simp [unpack]
  | succ turns ih =>
      have next := @result_doOneEntry buf hdrLen position
      rw [unpack, walk_succ, nextField]
      by_cases more : moreToProcess hdrLen position = true
      · simp only [more, true_and, if_true]
        rw [← next, result_bind]
        cases (doOneEntry buf hdrLen position).result with
        | none => simp [unpackTurn]
        | some entry => simp [unpackTurn, ih]
      · simp [more]

/-- The loop is safe where each field it comes to is inside the buffer. -/
theorem all_unpack {buf : Memory} {hdrLen position : ℤ} {buflen : ℕ} (long : 5 ≤ hdrLen)
    (short : hdrLen < 2 ^ 31) (within : hdrLen ≤ buflen) (high : position < 2 ^ 31) (turns : ℕ) :
    (unpack buf hdrLen turns position).All (Access.Safe buflen) ↔
      ∀ n < turns, ∀ place, walk (nextField buf hdrLen) n position = some place →
        moreToProcess hdrLen place = true → FieldInside buf hdrLen buflen place := by
  induction turns generalizing position with
  | zero => simp [unpack]
  | succ turns ih =>
      have next := @result_doOneEntry buf hdrLen position
      rw [Nat.forall_lt_succ_left]
      simp only [walk_zero, walk_succ, some.injEq, forall_eq']
      by_cases more : moreToProcess hdrLen position = true
      · have following : nextField buf hdrLen position =
            (doOneEntry buf hdrLen position).result.map Prod.snd := by
          simp [next, nextField, more]
        rw [unpack, if_pos more, Traced.all_bind, all_doOneEntry long short within high more,
          following]
        simp only [more, true_imp_iff]
        refine and_congr_right fun _ => ?_
        cases entry : (doOneEntry buf hdrLen position).result with
        | none => simp [unpackTurn]
        | some pair =>
            obtain ⟨newNode, place⟩ := pair
            have bounded : place < 2 ^ 31 := by
              rw [entry] at next
              split at next
              · obtain rfl : place = fieldEnd buf position := by simpa using next
                exact (int32_mem _).2
              · cases next
            simp only [unpackTurn, Traced.all_bind, all_pure, and_true, map_some, bind_some]
            exact ih bounded
      · simp [unpack, nextField, more]

theorem nextField_lt {buf : Memory} {hdrLen here after : ℤ} (_ : here < 2 ^ 31)
    (onward : nextField buf hdrLen here = some after) : after < 2 ^ 31 := by
  unfold nextField at onward
  split at onward
  · obtain rfl := some.inj onward
    exact (int32_mem _).2
  · cases onward

/-! ## The whole buffer -/

/--
The fields that are met are inside the buffer, and none is met twice: at a negative position or
with a negative length, the next field can be one that was met before.
-/
def SoundFields (buf : Memory) (buflen : ℕ) : Prop :=
  ∀ n place, walk (nextField buf (hdrLen buf)) n 5 = some place →
    moreToProcess (hdrLen buf) place = true →
      FieldInside buf (hdrLen buf) buflen place ∧
        ∀ m < n, walk (nextField buf (hdrLen buf)) m 5 ≠ some place

/-- The buffer holds the length of the meta data, and fields that can be followed. -/
def Sound (buf : Memory) (buflen : ℕ) : Prop :=
  0 < buflen ∧ (buf 0 = metaOk → 5 ≤ buflen ∧
    (minimumBufferLength ≤ hdrLen buf → hdrLen buf ≤ buflen → SoundFields buf buflen))

/-- The loop ends and is safe where the fields are sound. -/
theorem unpack_safe_iff {buf : Memory} {buflen : ℕ} (long : minimumBufferLength ≤ hdrLen buf)
    (within : hdrLen buf ≤ buflen) :
    (∃ turns, (unpack buf (hdrLen buf) turns 5).result.isSome ∧
        (unpack buf (hdrLen buf) turns 5).All (Access.Safe buflen)) ↔ SoundFields buf buflen := by
  have short : hdrLen buf < 2 ^ 31 := (int32_mem _).2
  refine ⟨?_, fun sound => ?_⟩
  · rintro ⟨turns, ends, safe⟩ n place visited more
    rw [isSome_unpack] at ends
    rw [@all_unpack _ _ 5 _ long short within (by decide)] at safe
    have early : n < turns := by
      by_contra late
      rw [walk_eq_none_of_le ends (not_lt.1 late)] at visited
      cases visited
    exact ⟨safe n early place visited more, fun m less again => ne_of_ends ends less again visited⟩
  · have onward : ∀ {place}, (nextField buf (hdrLen buf) place).isSome →
        moreToProcess (hdrLen buf) place = true := by
      intro place some
      by_contra stop
      simp [nextField, stop] at some
    obtain ⟨turns, ends⟩ : ∃ turns, walk (nextField buf (hdrLen buf)) turns 5 = none := by
      apply @ends_of_ne _ _ _ (Set.Icc 0 (hdrLen buf)) (Set.finite_Icc 0 (hdrLen buf))
      · intro n place visited some
        obtain ⟨⟨low, -⟩, -⟩ := sound n place visited (onward some)
        have bounded : place < 2 ^ 31 := 
          @inv_of_walk _ _ _ _ (fun here => here < 2 ^ 31) nextField_lt _ (by decide) visited
        have room := (moreToProcess_iff long short low bounded).1 (onward some)
        exact ⟨low, by omega⟩
      · intro first second place less visited some again
        exact (sound second place again (onward some)).2 first less visited
    refine ⟨turns, (isSome_unpack turns).2 ends, ?_⟩
    rw [@all_unpack _ _ 5 _ long short within (by decide)]
    exact fun n _ place visited more => (sound n place visited more).1

theorem createStoreMeta_of_sane {buf : Memory} {buflen : ℕ} (turns : ℕ)
    (sane : (isBufferSane buf buflen).result = true) :
    (createStoreMeta turns buf buflen (1 + 4)).result = (unpack buf (hdrLen buf) turns 5).result ∧
      ((createStoreMeta turns buf buflen (1 + 4)).All (Access.Safe buflen) ↔
        (unpack buf (hdrLen buf) turns 5).All (Access.Safe buflen)) := by
  obtain ⟨ok, long, within⟩ := result_isBufferSane.1 sane
  have enough : 5 ≤ buflen := by
    unfold minimumBufferLength at long
    omega
  have reads : (isBufferSane buf buflen).All (Access.Safe buflen) :=
    all_isBufferSane.2 ⟨by omega, fun _ => enough⟩
  have lengthRead : (Access.read 1 4).Safe buflen := safe_read (by decide) (by push_cast; omega)
  refine ⟨?_, ?_⟩
  · simp [createStoreMeta, sane]
  · simp only [createStoreMeta, sane, Traced.all_bind, all_emit, reads, lengthRead,
      Bool.not_true, Bool.false_eq_true, if_false, true_and]
    exact and_iff_right rfl

/--
Rebuilding an entry ends, reads inside the buffer, copies what its visitor assumes and fails no
assertion, exactly if the buffer is sound.
-/
theorem storeRebuildParseEntry_safe_iff (buf : Memory) (buflen : ℕ) (tmpe : EntryData) (key : Bytes)
    (badflags expectedSize : ℕ) :
    (∃ turns,
        (storeRebuildParseEntry turns buf buflen tmpe key badflags expectedSize).result.isSome ∧
          (storeRebuildParseEntry turns buf buflen tmpe key badflags expectedSize).All
            (Access.Safe buflen)) ↔
      Sound buf buflen := by
  cases zero : (isBufferZero buf buflen).result with
  | true =>
      obtain ⟨positive, notOk⟩ := of_isBufferZero zero
      refine ⟨fun _ => ⟨positive, fun ok => absurd ok notOk⟩, fun _ => ⟨0, ?_, ?_⟩⟩
      · simp [storeRebuildParseEntry, zero]
      · simp [storeRebuildParseEntry, zero, all_isBufferZero]
  | false =>
      cases sane : (isBufferSane buf buflen).result with
      | false =>
          have insane :
              ¬ (buf 0 = metaOk ∧ minimumBufferLength ≤ hdrLen buf ∧ hdrLen buf ≤ buflen) := by
            rw [← result_isBufferSane, sane]
            simp
          simp only [storeRebuildParseEntry, zero, sane, Traced.all_bind, all_isBufferZero,
            all_isBufferSane, result_bind, Bool.false_eq_true, if_false, Bool.not_false, if_true,
            all_pure, result_pure, isSome_some, true_and, and_true, exists_const, Sound]
          grind
      | true =>
          obtain ⟨ok, long, within⟩ := result_isBufferSane.1 sane
          have enough : 5 ≤ buflen := by
            unfold minimumBufferLength at long
            omega
          have sound : Sound buf buflen ↔ SoundFields buf buflen := by
            simp only [Sound, ok, long, within, enough, true_imp_iff, true_and]
            exact ⟨And.right, fun fields => ⟨by omega, fields⟩⟩
          rw [sound, ← unpack_safe_iff long within]
          refine exists_congr fun turns => ?_
          obtain ⟨created, safe⟩ := createStoreMeta_of_sane turns sane
          have reads : (isBufferSane buf buflen).All (Access.Safe buflen) :=
            all_isBufferSane.2 ⟨by omega, fun _ => enough⟩
          simp only [storeRebuildParseEntry, zero, sane, Traced.all_bind, all_isBufferZero, reads,
            safe, created, result_bind, Bool.false_eq_true, if_false, Bool.not_true, true_and]
          cases (unpack buf (hdrLen buf) turns 5).result with
          | none => simp only [result_pure, isSome_none, Bool.false_eq_true, false_and]
          | some list =>
              cases list with
              | nil => simp only [result_pure, all_pure, isSome_some, and_true]
              | cons x list =>
                  simp only [result_bind, result_pure, isSome_some, true_and, Traced.all_bind,
                    all_pure, and_true, all_foldlM all_initStoreEntry]

/-- A buffer with zeros around it. -/
def bufferOf (bytes : Bytes) : Memory := fun index =>
  if 0 ≤ index then bytes.getD index.toNat 0 else 0

/-- Ten bytes of meta data with one field, of the length `-5`. -/
def loopBuffer : Memory := bufferOf [3, 10, 0, 0, 0, 4, 251, 255, 255, 255]

/-- An entry without data. -/
def blankEntry : EntryData := ⟨0, 0, 0, 0, 0, 0, 0⟩

/-- The field of length `-5` is unpacked for ever. -/
theorem storeRebuildParseEntry_loopBuffer : ¬ ∃ turns,
    (storeRebuildParseEntry turns loopBuffer 10 blankEntry [] 0 0).result.isSome ∧
      (storeRebuildParseEntry turns loopBuffer 10 blankEntry [] 0 0).All (Access.Safe 10) := by
  rintro ⟨turns, ends, -⟩
  have zero : (isBufferZero loopBuffer 10).result = false := by decide
  have sane : (isBufferSane loopBuffer 10).result = true := by decide
  have back : walk (nextField loopBuffer (hdrLen loopBuffer)) 1 5 = some 5 := by decide
  have endless : (unpack loopBuffer (hdrLen loopBuffer) turns 5).result = none := by
    by_contra some
    exact walk_ne_none_of_return (by decide) back turns
      ((isSome_unpack turns).1 (isSome_iff_ne_none.2 some))
  have created := (createStoreMeta_of_sane turns sane).1.trans endless
  simp only [storeRebuildParseEntry, result_bind, zero, sane, Bool.false_eq_true, if_false,
    Bool.not_true, created, result_pure, isSome_none] at ends

end StoreMeta
end Squid
