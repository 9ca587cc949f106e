import Squid.Library.CRuntime
import Mathlib.Data.List.GetD

/-!
# Delimited lists in header fields

`strListGetItem` of `src/StrList.cc` iterates through a string of items that a delimiter separates.
White space around a delimiter belongs to it, and a delimiter inside a quoted string does not
separate.
-/

namespace Squid

open CRuntime

/-- `strspn(pos, delim[2])`: white space and delimiters before an item. -/
def isListGap (del b : UInt8) : Bool :=
  b == 32 || b == del || b == 44 || b == 9 || b == 13 || b == 10

/-- The scan for the end of an item.  The bytes that `strcspn` jumps over are passed one by one. -/
def findDelimiter (del : UInt8) : Bool → Bytes → Bytes
  | _, [] => []
  | quoted, b :: s =>
      if b = 0 then
        b :: s
      else if b = 34 then
        findDelimiter del (!quoted) s
      else if quoted then
        if b = 92 then
          match s with
          | [] => []
          | escaped :: t => if escaped = 0 then s else findDelimiter del true t
        else
          findDelimiter del true s
      else if b = del ∨ b = 44 then
        b :: s
      else
        findDelimiter del false s

/-- Length of an item without the white space at its end. -/
def rtrim (item : Bytes) : ℕ → ℕ
  | 0 => 0
  | len + 1 => if isSpace (item.getD len 0) then rtrim item len else len + 1

/-- `strListGetItem`: the start of the next item, its length and the position after it. -/
def strListGetItem (del : UInt8) (pos : Bytes) : Option (Bytes × ℕ × Bytes) :=
  let item := pos.dropWhile (isListGap del)
  let after := findDelimiter del false item
  let ilen := rtrim item (item.length - after.length)
  if 0 < ilen then some (item, ilen, after) else none

/-- The items of the list that starts at `pos`. -/
def strListItems (del : UInt8) : ℕ → Bytes → List (Bytes × ℕ)
  | 0, _ => []
  | fuel + 1, pos =>
      match strListGetItem del pos with
      | none => []
      | some (item, ilen, after) => (item, ilen) :: strListItems del fuel after

/-! ## Where an item ends -/

/-- The byte ends an item: the string ends there, or a delimiter or white space follows. -/
def EndsItem (del b : UInt8) : Prop := b = 0 ∨ b = del ∨ b = 44 ∨ isSpace b = true

/-- The scan stops at the end of the string or at a delimiter. -/
theorem findDelimiter_spec (del : UInt8) (quoted : Bool) (s : Bytes) :
    ∃ passed, s = passed ++ findDelimiter del quoted s ∧
      EndsItem del ((findDelimiter del quoted s).headD 0) := by
  fun_induction findDelimiter del quoted s with
  | case1 => exact ⟨[], rfl, .inl rfl⟩
  | case2 quoted s => exact ⟨[], rfl, .inl rfl⟩
  | case3 quoted s _ ih =>
      obtain ⟨passed, split, stop⟩ := ih
      exact ⟨34 :: passed, by simp [← split], stop⟩
  | case4 => exact ⟨[92], rfl, .inl rfl⟩
  | case5 => exact ⟨[92], rfl, .inl rfl⟩
  | case6 escaped t _ _ _ ih =>
      obtain ⟨passed, split, stop⟩ := ih
      exact ⟨92 :: escaped :: passed, by simp [← split], stop⟩
  | case7 b s _ _ _ ih =>
      obtain ⟨passed, split, stop⟩ := ih
      exact ⟨b :: passed, by simp [← split], stop⟩
  | case8 quoted b s _ _ _ found =>
      refine ⟨[], rfl, .inr ?_⟩
      rcases found with rfl | rfl
      · exact .inl rfl
      · exact .inr (.inl rfl)
  | case9 quoted b s _ _ _ _ ih =>
      obtain ⟨passed, split, stop⟩ := ih
      exact ⟨b :: passed, by simp [← split], stop⟩

theorem rtrim_le (item : Bytes) (len : ℕ) : rtrim item len ≤ len := by
  induction len with
  | zero => exact le_rfl
  | succ len ih =>
      simp only [rtrim]
      split
      · omega
      · exact le_rfl

/-- What follows the trimmed item is white space up to the old end. -/
theorem rtrim_stop (item : Bytes) (len : ℕ) :
    rtrim item len = len ∨ isSpace (item.getD (rtrim item len) 0) = true := by
  induction len with
  | zero => exact .inl rfl
  | succ len ih =>
      simp only [rtrim]
      split
      · rename_i space
        rcases ih with same | stop
        · rw [same]
          exact .inr space
        · exact .inr stop
      · exact .inl rfl

/-- An item is not empty, it ends where `EndsItem` says, and the position moves on. -/
theorem strListGetItem_spec {del : UInt8} {pos item after : Bytes} {ilen : ℕ}
    (found : strListGetItem del pos = some (item, ilen, after)) :
    0 < ilen ∧ EndsItem del (item.getD ilen 0) ∧ after.length < pos.length := by
  simp only [strListGetItem, Option.ite_none_right_eq_some, Option.some.injEq, Prod.mk.injEq]
    at found
  obtain ⟨nonempty, rfl, rfl, rfl⟩ := found
  generalize start : pos.dropWhile (isListGap del) = item at nonempty ⊢
  obtain ⟨passed, split, stop⟩ := findDelimiter_spec del false item
  generalize findDelimiter del false item = after at split stop nonempty ⊢
  have shorter : item.length ≤ pos.length := start ▸ List.length_dropWhile_le _ _
  have trimmed := rtrim_le item (item.length - after.length)
  have length : item.length = passed.length + after.length := by rw [split, List.length_append]
  refine ⟨nonempty, ?_, by omega⟩
  rcases rtrim_stop item (item.length - after.length) with whole | space
  · rw [whole, show item.length - after.length = passed.length by omega, split]
    rw [List.getD_append_right _ _ _ _ le_rfl, Nat.sub_self]
    cases after <;> exact stop
  · exact .inr (.inr (.inr space))

end Squid
