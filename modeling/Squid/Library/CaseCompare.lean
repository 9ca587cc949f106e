import Squid.Library.CRuntime

/-!
# Comparing strings without their case

`strncasecmp`, whose sign is that of the first two letters that differ.
-/

namespace CRuntime

/-- `strncasecmp`, with the count first. -/
def strncasecmp : ℕ → Bytes → Bytes → ℤ
  | 0, _, _ => 0
  | n + 1, a, b =>
      let x := toLower (a.headD 0)
      let y := toLower (b.headD 0)
      if x ≠ y then x.toNat - y.toNat
      else if x = 0 then 0
      else strncasecmp n a.tail b.tail

theorem strncasecmp_of_take_eq {n : ℕ} {a b : Bytes} (same : a.take n = b.take n) :
    strncasecmp n a b = 0 := by
  induction n generalizing a b with
  | zero => rfl
  | succ n ih =>
      have head : a.headD 0 = b.headD 0 := by
        have first := congrArg (List.headD · 0) same
        cases a <;> cases b <;> simp_all
      have tail : a.tail.take n = b.tail.take n := by
        have rest := congrArg List.tail same
        cases a <;> cases b <;> simp_all
      rw [strncasecmp, head, if_neg (not_not.mpr rfl), ih tail, ite_self]

end CRuntime
