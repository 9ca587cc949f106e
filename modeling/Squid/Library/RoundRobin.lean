import Mathlib.Data.List.Rotate

/-!
# Round robin

A cursor walks around the positions below `count`.  The positions come after it in the order in
which it meets them, its own position last.  Moving to the next position that is wanted turns the
list of the wanted positions by one.
-/

namespace RoundRobin

open List

variable {count cur : ℕ}

/-- The positions in the order in which a cursor meets them. -/
def after (count cur : ℕ) : List ℕ := (List.range count).rotate (cur + 1)

@[simp]
theorem after_length : (after count cur).length = count := by
  rw [after, length_rotate, length_range]

theorem mem_after_iff {k : ℕ} : k ∈ after count cur ↔ k < count := by
  rw [after, mem_rotate, mem_range]

theorem after_getElem? {k : ℕ} (inside : k < count) :
    (after count cur)[k]? = some ((k + (cur + 1)) % count) := by
  have nonempty : 0 < count := by omega
  rw [after, List.getElem?_rotate (by rwa [length_range]), length_range,
    List.getElem?_range (Nat.mod_lt _ nonempty)]

variable {back front : List ℕ} {next : ℕ}

/-- At a later position, the ones before it come last. -/
theorem after_of_split (split : after count cur = front ++ next :: back) :
    after count next = back ++ front ++ [next] := by
  have place : next = (front.length + (cur + 1)) % count := by
    have length := congrArg List.length split
    rw [after_length, length_append, length_cons] at length
    have found := @after_getElem? count cur front.length (by omega)
    rw [split, List.getElem?_append_right le_rfl, Nat.sub_self, List.getElem?_cons_zero] at found
    exact Option.some.inj found
  have turned := rotate_mod (List.range count) (front.length + (cur + 1))
  rw [length_range, ← place] at turned
  have whole : after count next = (front ++ next :: back).rotate (front.length + 1) := by
    rw [← split, after, after, ← rotate_rotate, turned, rotate_rotate, rotate_rotate]
    congr 1
    omega
  rw [whole, ← rotate_rotate, rotate_append_length_eq, cons_append, rotate_cons_succ, rotate_zero]

/-- Moving to the next wanted position turns the wanted positions by one. -/
theorem filter_after_of_split {wanted : ℕ → Bool} (split : after count cur = front ++ next :: back)
    (passed : ∀ k ∈ front, wanted k = false) (found : wanted next = true) :
    (after count next).filter wanted = ((after count cur).filter wanted).rotate 1 := by
  have none_before : front.filter wanted = [] :=
    filter_eq_nil_iff.mpr fun k member => by simp [passed k member]
  rw [after_of_split split, split]
  simp [none_before, found]

end RoundRobin
