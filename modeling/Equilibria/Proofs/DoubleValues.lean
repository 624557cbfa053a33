import Mathlib
import Equilibria.Number.Scalar
import Equilibria.Proofs.FloatOperations
import Equilibria.Settings

/-!
# Doubles and the rationals that they stand for

A double of finite size stands for a rational, and an operation gives the double next to the exact
result:

* `Double.value` — the rational of a double;
* `Double.Computes` — a double stands for a rational up to rounding;
* `Double.computes_add`, `computes_sub`, `computes_mul`, `computes_div` — the operations;
* `Double.finite_of_add` — what a finite sum says about its terms;
* `Double.isNegligible_iff`, `Double.lt_iff`, `Double.ofRational_nat` — comparisons and small integers.
-/

namespace Equilibria

namespace Binary64

theorem isFinite_eq (x : Float) : isFinite x = (toRational? x).isSome := by
  unfold isFinite toRational?
  cases ofFloat x <;> rfl

/-- The word of a natural number, which is shifted to the length of a significand. -/
theorem nearestWord_nat {n k : ℕ} (hpos : 0 < n) (hk : n.log2 + k = 52)
    (hnormal : IsNormal (n * 2 ^ k) (-k)) : nearestWord n 1 = (1074 - k) * 2 ^ 52 + n * 2 ^ k := by
  have hlower := hnormal.lower
  have hupper := hnormal.upper
  have hlead : floorLog2 n 1 = n.log2 := by
    have hle : powLeQuotient 2 n 1 n.log2 = true := by
      rw [powLeQuotient_iff two_pos one_pos, Nat.cast_one, div_one, zpow_natCast]
      exact_mod_cast Nat.log2_self_le hpos.ne'
    have hone : Nat.log2 1 = 0 := rfl
    rw [floorLog2, hone, Nat.cast_zero, sub_zero]
    exact if_pos hle
  have hexponent : max ((n.log2 : ℤ) - 52) (-1074) = -(k : ℤ) := by omega
  have hscaled : scaleQuotient 2 n 1 (k : ℤ) = (n * 2 ^ k, 1) := rfl
  have hinfinity : infinityWord = 2047 * 2 ^ 52 := rfl
  have hplace : (-(k : ℤ) + 1074).toNat = 1074 - k := by omega
  have hround : roundHalfEven (n * 2 ^ k) 1 = n * 2 ^ k := by
    simpa using roundHalfEven_mul_right (n * 2 ^ k) 1 one_pos
  rw [nearestWord, if_neg hpos.ne']
  simp only [hlead, hexponent, neg_neg, hscaled, hround, hplace, Nat.pow_eq]
  exact min_eq_left (by omega)

/-- A natural number of at most 53 bits is the double nearest to itself. -/
theorem toRational?_ofRational_nat {n : ℕ} (hpos : 0 < n) (hlt : n < 2 ^ 53) :
    toRational? (ofRational n) = some (n : ℚ) := by
  obtain ⟨k, hk, hnormal⟩ := exists_isNormal_mul hpos hlt
  have hlower := hnormal.lower
  have hupper := hnormal.upper
  have hword := nearestWord_nat hpos hk hnormal
  have hparts := HasParts.ofSignWord (w := nearestWord n 1) (le_nearestWord hpos) (by
    have hinfinity : infinityWord = 2047 * 2 ^ 52 := rfl
    omega)
  have hsignificand : 2 ^ 52 + nearestWord n 1 % 2 ^ 52 = n * 2 ^ k := by omega
  have hexponent : ((nearestWord n 1 / 2 ^ 52 : ℕ) : ℤ) - 1075 = -k := by omega
  rw [hsignificand, hexponent] at hparts
  obtain ⟨hm, hunpack⟩ := hparts.unpack_eq
  have hfloat : ofRational n = ofSignWord false (nearestWord n 1) := by
    have hsign : decide ((n : ℚ).num < 0) = false := decide_eq_false (by rw [Rat.num_natCast]; omega)
    rw [ofRational, hsign, Rat.num_natCast, Rat.den_natCast, Int.natAbs_natCast]
  rw [hfloat, toRational?_eq, hunpack]
  refine congrArg some ?_
  rw [factor, one_mul, zpow_neg, zpow_natCast]
  push_cast
  field_simp

end Binary64

namespace Double

open Binary64 (roundingError)

variable {a b : Double} {x : ℚ}

/-- The rational that a double stands for, zero if there is none. -/
def value (a : Double) : ℚ := a.toRational?.getD 0

theorem isFinite_eq (a : Double) : a.isFinite = a.toRational?.isSome := by
  cases a with
  | number x => exact Binary64.isFinite_eq x
  | undefined s => rfl

/-- A double of finite size is a float with a value. -/
theorem exists_number (ha : a.isFinite = true) :
    ∃ z, a = .number z ∧ a.value ∈ Binary64.toRational? z := by
  cases a with
  | number z =>
    refine ⟨z, rfl, ?_⟩
    rw [isFinite_eq] at ha
    obtain ⟨x, hx⟩ := Option.isSome_iff_exists.mp ha
    have hx' : Binary64.toRational? z = some x := hx
    rw [value, hx, hx']
    rfl
  | undefined s => cases ha

theorem toRational?_ofResult (z : Float) : (ofResult z).toRational? = Binary64.toRational? z := by
  unfold ofResult
  split_ifs with hnan
  · have hunpack : z.toModel.unpack.isNaN = true := hnan
    rw [Binary64.toRational?_eq]
    cases hz : z.toModel.unpack with
    | notANumber => rfl
    | infinity s => rfl
    | zero s =>
      rw [hz] at hunpack
      cases hunpack
    | finite s m e hm =>
      rw [hz] at hunpack
      cases hunpack
  · rfl

/-! ### Operations -/

/-- A double stands for a rational up to rounding, and it is of finite size unless the rational is
large. -/
structure Computes (a : Double) (x : ℚ) : Prop where
  close : a.isFinite = true → |a.value - x| ≤ roundingError x
  finite : |x| ≤ 2 ^ 200 → a.isFinite = true

theorem Computes.of_float {z : Float} (h : Binary64.Computes z x) : Computes (ofResult z) x where
  close hfinite := by
    rw [isFinite_eq, toRational?_ofResult] at hfinite
    obtain ⟨v, hv⟩ := Option.isSome_iff_exists.mp hfinite
    have hvalue : (ofResult z).value = v := by rw [value, toRational?_ofResult, hv]; rfl
    rw [hvalue]
    exact h.close v hv
  finite hsmall := by
    rw [isFinite_eq, toRational?_ofResult]
    exact h.finite hsmall

theorem computes_add (ha : a.isFinite = true) (hb : b.isFinite = true) :
    Computes (a + b) (a.value + b.value) := by
  obtain ⟨z, rfl, hz⟩ := exists_number ha
  obtain ⟨w, rfl, hw⟩ := exists_number hb
  exact .of_float (Binary64.computes_add hz hw)

theorem computes_sub (ha : a.isFinite = true) (hb : b.isFinite = true) :
    Computes (a - b) (a.value - b.value) := by
  obtain ⟨z, rfl, hz⟩ := exists_number ha
  obtain ⟨w, rfl, hw⟩ := exists_number hb
  exact .of_float (Binary64.computes_sub hz hw)

theorem computes_mul (ha : a.isFinite = true) (hb : b.isFinite = true) :
    Computes (a * b) (a.value * b.value) := by
  obtain ⟨z, rfl, hz⟩ := exists_number ha
  obtain ⟨w, rfl, hw⟩ := exists_number hb
  exact .of_float (Binary64.computes_mul hz hw)

theorem computes_div (ha : a.isFinite = true) (hb : b.isFinite = true) (hne : b.value ≠ 0) :
    Computes (a / b) (a.value / b.value) := by
  obtain ⟨z, rfl, hz⟩ := exists_number ha
  obtain ⟨w, rfl, hw⟩ := exists_number hb
  exact .of_float (Binary64.computes_div hz hw hne)

/-- **Both terms of a finite sum are finite.** -/
theorem finite_of_add (h : (a + b).isFinite = true) : a.isFinite = true ∧ b.isFinite = true := by
  cases a with
  | undefined s => cases h
  | number z =>
    cases b with
    | undefined s => cases h
    | number w =>
      have hsum : (ofResult (z + w)).isFinite = true := h
      rw [isFinite_eq, toRational?_ofResult] at hsum
      rw [isFinite_eq, isFinite_eq]
      exact Binary64.isSome_of_add hsum

/-! ### Comparisons -/

theorem lt_iff (ha : a.isFinite = true) (hb : b.isFinite = true) : a < b ↔ a.value < b.value := by
  obtain ⟨z, rfl, hz⟩ := exists_number ha
  obtain ⟨w, rfl, hw⟩ := exists_number hb
  exact Binary64.lt_iff hz hw

theorem finite_zero : (0 : Double).isFinite = true := by decide +kernel

theorem value_zero : (0 : Double).value = 0 := by decide +kernel

theorem finite_one : (1 : Double).isFinite = true := by decide +kernel

theorem value_one : (1 : Double).value = 1 := by decide +kernel

/-- The size below which a double counts as zero. -/
def tolerance : ℚ := (Double.number Scalar.zeroTolerance).value

theorem le_tolerance : 1 / 10 ^ 9 ≤ tolerance := by decide +kernel

theorem mem_tolerance : tolerance ∈ Binary64.toRational? Scalar.zeroTolerance := by decide +kernel

theorem isNegligible_iff (ha : a.isFinite = true) :
    Scalar.isNegligible a = true ↔ |a.value| < tolerance := by
  obtain ⟨z, rfl, hz⟩ := exists_number ha
  have habs : |value (.number z)| ∈ Binary64.toRational? z.abs := by
    rw [Binary64.toRational?_abs, Option.mem_def.mp hz]
    rfl
  rw [← Binary64.lt_iff habs mem_tolerance]
  exact decide_eq_true_iff

/-- A double that is hardly below zero is not strictly negative. -/
theorem isStrictlyNegative_eq_false (ha : a.isFinite = true) (hlow : -tolerance < a.value) :
    Scalar.isStrictlyNegative a = false := by
  rw [Scalar.isStrictlyNegative, Bool.and_eq_false_iff, Bool.not_eq_false', isNegligible_iff ha]
  rcases lt_or_ge a.value 0 with hneg | hnonneg
  · left
    rw [abs_of_neg hneg]
    linarith
  · right
    obtain ⟨z, rfl, hz⟩ := exists_number ha
    have hzero : (0 : ℚ) ∈ Binary64.toRational? 0.0 := by decide +kernel
    exact decide_eq_false fun hlt => not_lt.mpr hnonneg ((Binary64.lt_iff hz hzero).mp hlt)

/-- The double of a small natural number stands for it. -/
theorem ofRational_nat {n : ℕ} (hpos : 0 < n) (hlt : n < 2 ^ 53) :
    (Double.ofRational n).isFinite = true ∧ (Double.ofRational n).value = n := by
  have hvalue : (Double.ofRational n).toRational? = some (n : ℚ) :=
    Binary64.toRational?_ofRational_nat hpos hlt
  rw [isFinite_eq, value, hvalue]
  exact ⟨rfl, rfl⟩

end Double

/-! ### Dampings -/

open Float.Model (UnpackedFloat)

/-- A damping is at least zero and below one, so it is of finite size. -/
theorem toRational?_of_isDamping {w : Float} (h : isDamping w = true) :
    ∃ x, Binary64.toRational? w = some x ∧ 0 ≤ x ∧ x < 1 := by
  obtain ⟨hzero, hone⟩ := Bool.and_eq_true_iff.mp h
  have hzero := of_decide_eq_true hzero
  have hone := of_decide_eq_true hone
  cases hw : Binary64.toRational? w with
  | some x =>
    have hzero' : (0 : ℚ) ∈ Binary64.toRational? 0.0 := by decide +kernel
    have hone' : (1 : ℚ) ∈ Binary64.toRational? 1.0 := by decide +kernel
    exact ⟨x, rfl, (Binary64.le_iff hzero' hw).mp hzero, (Binary64.lt_iff hw hone').mp hone⟩
  | none =>
    rw [Double.le_iff_unpack] at hzero
    rw [Double.lt_iff_unpack] at hone
    rw [Binary64.toRational?_eq] at hw
    exfalso
    have hunpack : (0.0 : Float).toModel.unpack = .zero .positive := rfl
    rw [hunpack] at hzero
    cases hshape : w.toModel.unpack with
    | notANumber =>
      rw [hshape] at hzero
      cases hzero
    | infinity s =>
      rw [hshape] at hzero hone
      cases s with
      | positive => exact absurd hone (by decide +kernel)
      | negative => cases hzero
    | zero s =>
      rw [hshape] at hw
      cases hw
    | finite s m e hm =>
      rw [hshape] at hw
      cases hw

end Equilibria
