import Mathlib.Tactic

/-! Signed 64-bit arithmetic on integers: each operation's result is brought back into the range. -/

namespace Fib

def int64 (x : ℤ) : ℤ := (x + 2 ^ 63) % 2 ^ 64 - 2 ^ 63

def IsInt64 (x : ℤ) : Prop := -2 ^ 63 ≤ x ∧ x < 2 ^ 63

instance (x : ℤ) : Decidable (IsInt64 x) := inferInstanceAs (Decidable (_ ∧ _))

theorem int64_eq_iff {x : ℤ} : int64 x = x ↔ IsInt64 x := by
  unfold IsInt64 int64
  omega

theorem IsInt64.eq {x : ℤ} (h : IsInt64 x) : int64 x = x := int64_eq_iff.2 h

theorem int64_add_left (x y : ℤ) : int64 (int64 x + y) = int64 (x + y) := by
  unfold int64
  omega

end Fib
