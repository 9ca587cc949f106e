import Squid.Library.CRuntime

/-!
# Growing buffers

`MemBuf`, as in `src/MemBuf.cc`: a buffer that takes its memory from pools, grows up to a limit and
always leaves a byte for a terminator.
-/

namespace Squid

open CRuntime

/-- `memFindBufSizeType`: what is allocated for a buffer. -/
def memFindBufSizeType (net_size : ℕ) : ℕ :=
  if net_size ≤ 2 * 1024 then 2 * 1024
  else if net_size ≤ 4 * 1024 then 4 * 1024
  else if net_size ≤ 8 * 1024 then 8 * 1024
  else if net_size ≤ 16 * 1024 then 16 * 1024
  else if net_size ≤ 32 * 1024 then 32 * 1024
  else if net_size ≤ 64 * 1024 then 64 * 1024
  else net_size

/-- `MEM_BUF_MAX_SIZE`: no buffer may grow beyond what `init()` allows. -/
def memBufMaxSize : ℕ := 2 * 1000 * 1024 * 1024

/-- `MemBuf`, neither null nor stolen. -/
structure MemBuf where
  content : Bytes := []
  capacity : ℕ
  max_capacity : ℕ

namespace MemBuf

def potentialSpaceSize (mb : MemBuf) : ℕ := mb.max_capacity - (mb.content.length + 1)

/-- `grow`; `none` if an assertion fails. -/
def grow (mb : MemBuf) (min_cap : ℕ) : Option MemBuf :=
  -- sizes above 64 KB are multiples of it
  let new_cap := if 64 * 1024 < min_cap then (min_cap + 64 * 1024 - 1) / (64 * 1024) * (64 * 1024)
    else min_cap
  let new_cap := min new_cap mb.max_capacity
  if mb.capacity < min_cap ∧ mb.capacity < new_cap then
    some { mb with capacity := memFindBufSizeType new_cap }
  else none

/-- `append`, with `appended` and `terminate`; `none` if an assertion fails. -/
def append (mb : MemBuf) (newContent : Bytes) : Option MemBuf :=
  if newContent = [] then some mb
  else
    let size := mb.content.length + newContent.length
    (if mb.capacity < size + 1 then mb.grow (size + 1) else some mb).bind fun mb =>
      if size < mb.capacity then some { mb with content := mb.content ++ newContent } else none

def spaceSize (mb : MemBuf) : ℕ := mb.capacity - (mb.content.length + 1)

/-- `space` for the required bytes; `none` if an assertion fails. -/
def space (mb : MemBuf) (required : ℕ) : Option MemBuf :=
  if mb.capacity ≤ mb.content.length + required then mb.grow (mb.content.length + required + 1)
  else some mb

/-- `appended`, with the bytes that were put into the space; `none` if an assertion fails. -/
def appended (mb : MemBuf) (newContent : Bytes) : Option MemBuf :=
  if mb.content.length + newContent.length < mb.capacity then
    some { mb with content := mb.content ++ newContent }
  else none

/-- `truncate`; `none` if an assertion fails. -/
def truncate (mb : MemBuf) (tailSize : ℕ) : Option MemBuf :=
  if tailSize ≤ mb.content.length then
    some { mb with content := mb.content.take (mb.content.length - tailSize) }
  else none

/-- `consume`; `none` if an assertion fails. -/
def consume (mb : MemBuf) (shiftSize : ℕ) : Option MemBuf :=
  if shiftSize ≤ mb.content.length then some { mb with content := mb.content.drop shiftSize }
  else none

/-- `init` of a null buffer; `none` if an assertion fails. -/
def init (szInit szMax : ℤ) : Option MemBuf :=
  if 0 < szInit ∧ 0 < szMax then
    grow { capacity := 0, max_capacity := szMax.toNat } szInit.toNat
  else none

/-- There is room for a terminator. -/
def Terminated (mb : MemBuf) : Prop := mb.content.length < mb.capacity

theorem le_memFindBufSizeType (net_size : ℕ) : net_size ≤ memFindBufSizeType net_size := by
  unfold memFindBufSizeType
  repeat' split
  all_goals omega

variable {mb : MemBuf} {min_cap : ℕ}

/-- A buffer grows to what is below its limit. -/
theorem grow_some (less : mb.capacity < min_cap) (room : min_cap ≤ mb.max_capacity) :
    ∃ capacity, min_cap ≤ capacity ∧ mb.grow min_cap = some { mb with capacity } := by
  have steps : min_cap ≤ if 64 * 1024 < min_cap then
      (min_cap + 64 * 1024 - 1) / (64 * 1024) * (64 * 1024) else min_cap := by
    split
    · have whole := Nat.div_add_mod (min_cap + 64 * 1024 - 1) (64 * 1024)
      have rest := Nat.mod_lt (min_cap + 64 * 1024 - 1) (show 0 < 64 * 1024 by decide)
      omega
    · exact le_rfl
  have enough := le_min steps room
  refine ⟨_, enough.trans (le_memFindBufSizeType _), ?_⟩
  exact if_pos ⟨less, less.trans_le enough⟩

theorem memFindBufSizeType_le (net_size : ℕ) :
    memFindBufSizeType net_size ≤ max (64 * 1024) net_size := by
  unfold memFindBufSizeType
  repeat' split
  all_goals omega

theorem grow_le {after : MemBuf} (large : 64 * 1024 ≤ mb.max_capacity)
    (grown : mb.grow min_cap = some after) : after.capacity ≤ mb.max_capacity := by
  simp only [grow, Option.ite_none_right_eq_some, Option.some.injEq] at grown
  rw [← grown.2]
  exact (memFindBufSizeType_le _).trans (max_le large (min_le_right _ _))

/-- The space that was asked for is there, and the buffer is not larger than it may be. -/
theorem space_some {required : ℕ} (room : mb.content.length + required < mb.max_capacity)
    (large : 64 * 1024 ≤ mb.max_capacity) (small : mb.capacity ≤ mb.max_capacity) :
    ∃ capacity, mb.space required = some { mb with capacity } ∧
      mb.content.length + required < capacity ∧ capacity ≤ mb.max_capacity := by
  unfold space
  split
  · next less =>
      obtain ⟨capacity, enough, grown⟩ := grow_some (Nat.lt_succ_of_le less) room
      exact ⟨capacity, grown, enough, grow_le large grown⟩
  · next enough => exact ⟨mb.capacity, rfl, Nat.not_le.mp enough, small⟩

/-- A buffer that is given some room starts empty. -/
theorem init_some {szInit szMax : ℤ} (positive : 0 < szInit) (room : szInit ≤ szMax) :
    ∃ mb, init szInit szMax = some mb ∧ mb.content = [] ∧ mb.max_capacity = szMax.toNat ∧
      mb.Terminated := by
  obtain ⟨capacity, enough, result⟩ := @grow_some ⟨[], 0, szMax.toNat⟩ szInit.toNat
    (by dsimp only; omega) (by dsimp only; omega)
  refine ⟨⟨[], capacity, szMax.toNat⟩, ?_, rfl, rfl, ?_⟩
  · unfold init
    rw [if_pos (by omega)]
    exact result
  · unfold Terminated
    dsimp only [List.length_nil]
    omega

/-- What fits below the limit is appended. -/
theorem append_some (terminated : mb.Terminated) {newContent : Bytes}
    (room : mb.content.length + newContent.length < mb.max_capacity) :
    ∃ after, mb.append newContent = some after ∧ after.content = mb.content ++ newContent ∧
      after.max_capacity = mb.max_capacity ∧ after.Terminated := by
  unfold append
  split
  · next empty => exact ⟨mb, rfl, by simp [empty], rfl, terminated⟩
  · have large : ∃ capacity, mb.content.length + newContent.length < capacity ∧
        (if mb.capacity < mb.content.length + newContent.length + 1 then
          mb.grow (mb.content.length + newContent.length + 1) else some mb) =
            some { mb with capacity } := by
      split
      · next small =>
          obtain ⟨capacity, enough, grown⟩ := grow_some small (by omega)
          exact ⟨capacity, by omega, grown⟩
      · exact ⟨mb.capacity, by omega, rfl⟩
    obtain ⟨capacity, enough, grown⟩ := large
    refine ⟨⟨mb.content ++ newContent, capacity, mb.max_capacity⟩, ?_, rfl, rfl, ?_⟩
    · dsimp only
      rw [grown]
      exact if_pos enough
    · unfold Terminated
      rw [List.length_append]
      exact enough

end MemBuf
end Squid
