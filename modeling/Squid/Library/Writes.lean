import Mathlib.Data.List.Basic

/-!
# What has been written to a memory

A memory maps an index to the value that was written there last, if any was.  Writes of adjacent
segments, in either order, are one write.
-/

namespace Writes

variable {α : Type}

/-- Write a list of values from an index on. -/
def write (mem : ℕ → Option α) (first : ℕ) (values : List α) : ℕ → Option α :=
  fun i => if first ≤ i ∧ i < first + values.length then values[i - first]? else mem i

/-- The values of a segment; what was not written is as it was before. -/
def segment (mem : ℕ → Option α) (before : ℕ → α) (count : ℕ) : List α :=
  (List.range count).map fun i => (mem i).getD (before i)

variable {mem : ℕ → Option α} {first : ℕ} {front back : List α}

@[simp]
theorem write_nil : write mem first [] = mem := by
  funext i
  exact if_neg (by simp)

/-- A write behind another one. -/
theorem write_append :
    write (write mem first front) (first + front.length) back = write mem first (front ++ back) := by
  funext i
  simp only [write, List.length_append]
  by_cases low : i < first + front.length
  · rw [if_neg (by omega)]
    by_cases inside : first ≤ i
    · rw [if_pos ⟨inside, low⟩, if_pos (by omega), List.getElem?_append_left (by omega)]
    · rw [if_neg (by omega), if_neg (by omega)]
  · by_cases inside : i < first + front.length + back.length
    · rw [if_pos (by omega), if_pos (by omega), List.getElem?_append_right (by omega)]
      congr 1
      omega
    · rw [if_neg (by omega), if_neg (by omega), if_neg (by omega)]

/-- A write in front of another one. -/
theorem write_prepend :
    write (write mem (first + front.length) back) first front = write mem first (front ++ back) := by
  rw [← write_append]
  funext i
  simp only [write]
  by_cases low : i < first + front.length
  · by_cases inside : first ≤ i
    · rw [if_pos ⟨inside, low⟩, if_neg (by omega), if_pos ⟨inside, low⟩]
    · rw [if_neg (by omega), if_neg (by omega), if_neg (by omega), if_neg (by omega)]
  · rw [if_neg (by omega)]
    split
    · rfl
    · rw [if_neg (by omega)]

theorem write_zero (values : List α) (i : ℕ) : write (fun _ => none) 0 values i = values[i]? := by
  rw [write]
  split
  next => rw [Nat.sub_zero]
  next outside => rw [List.getElem?_eq_none (by omega)]

/-- A memory that was written from its start on. -/
theorem segment_write_zero (values : List α) (before : ℕ → α) :
    segment (write (fun _ => none) 0 values) before values.length = values := by
  refine List.ext_getElem? fun i => ?_
  simp only [segment, List.getElem?_map, write_zero]
  by_cases inside : i < values.length
  · rw [List.getElem?_range inside]
    simp [List.getElem?_eq_getElem inside]
  · rw [List.getElem?_eq_none (by rw [List.length_range]; omega),
      List.getElem?_eq_none (show values.length ≤ i by omega)]
    rfl

end Writes
