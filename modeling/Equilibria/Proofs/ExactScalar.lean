import Mathlib
import Equilibria.Number.Scalar

/-!
# Computing in exact rationals

Over the rationals every test of a domain of computation is the plain one: a value is negligible
when it is zero, and two values agree when they are equal.  The lemmas here restate the tests in
that form, once, so that no later proof opens the instance.
-/

namespace Equilibria

namespace Scalar

theorem isNegligible_iff (a : ℚ) : isNegligible a = true ↔ a = 0 := decide_eq_true_iff

theorem isZero_iff (a : ℚ) : isZero a = true ↔ a = 0 := decide_eq_true_iff

theorem isBelowZero_iff (a : ℚ) : isBelowZero a = true ↔ a < 0 := decide_eq_true_iff

theorem isStrictlyPositive_iff (a : ℚ) : isStrictlyPositive a = true ↔ 0 < a := by
  rw [isStrictlyPositive, Bool.and_eq_true, Bool.not_eq_true', Bool.not_eq_true',
    ← Bool.not_eq_true, ← Bool.not_eq_true, isNegligible_iff, isBelowZero_iff, not_lt]
  exact ⟨fun h => lt_of_le_of_ne h.2 (Ne.symm h.1), fun h => ⟨h.ne', h.le⟩⟩

theorem isStrictlyNegative_iff (a : ℚ) : isStrictlyNegative a = true ↔ a < 0 := by
  rw [isStrictlyNegative, Bool.and_eq_true, Bool.not_eq_true', ← Bool.not_eq_true,
    isNegligible_iff, isBelowZero_iff]
  exact ⟨fun h => h.2, fun h => ⟨h.ne, h⟩⟩

theorem approxEq_iff (a b : ℚ) : approxEq a b = true ↔ a = b :=
  (isNegligible_iff _).trans sub_eq_zero

theorem abs_eq (a : ℚ) : Scalar.abs a = |a| := by
  show (if a < 0 then -a else a) = |a|
  split_ifs with h
  · exact (abs_of_neg h).symm
  · exact (abs_of_nonneg (not_lt.mp h)).symm

theorem sum_eq (as : List ℚ) : sum as = as.sum := List.sum_eq_foldl.symm

theorem allNegligible_iff (as : List ℚ) : allNegligible as = true ↔ ∀ a ∈ as, a = 0 := by
  simp only [allNegligible, List.all_eq_true, isNegligible_iff]

end Scalar

end Equilibria
