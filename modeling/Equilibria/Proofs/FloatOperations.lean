import Mathlib
import Equilibria.Proofs.DoubleOrder
import Equilibria.Proofs.RoundedValues

/-!
# What the operations of floats compute

Each of the four operations rounds its exact result and packs it.  Packing keeps what was rounded, or
makes an infinity of what is out of range:

* `Binary64.Rounded.add`, `Rounded.sub`, `Rounded.mul`, `Rounded.div` — the results before packing;
* `Binary64.Computes` — a float stands for a rational up to rounding, or is too large to be finite;
* `Binary64.computes_add`, `computes_sub`, `computes_mul`, `computes_div` — the four operations;
* `Binary64.isSome_of_add` — a finite sum has finite terms;
* `Binary64.lt_iff`, `Binary64.le_iff` — finite floats compare as their rationals do.
-/

namespace Equilibria

open Float.Model (UnpackedFloat Format totalExponent)
open Float.Model.UnpackedFloat (Sign)

namespace Binary64

variable {m : ℕ} {e : ℤ} {x y : ℚ} {u v : UnpackedFloat} {a b : Float}

/-! ### Sums, products and quotients before packing -/

theorem Rounded.add (hu : IsCanonical u) (hv : IsCanonical v) (hx : x ∈ valueOf u) (hy : y ∈ valueOf v) :
    Rounded (x + y) (UnpackedFloat.add Format.binary64 u v) := by
  cases u with
  | infinity s => cases hx
  | notANumber => cases hx
  | zero s =>
    cases hx
    cases v with
    | infinity s' => cases hy
    | notANumber => cases hy
    | zero s' =>
      cases hy
      rw [add_zero]
      cases s <;> cases s' <;> exact rounded_zero _
    | finite s' m' e' hm' =>
      rw [zero_add]
      exact .of_value hv hy
  | finite s m e hm =>
    cases v with
    | infinity s' => cases hy
    | notANumber => cases hy
    | zero s' =>
      cases hy
      rw [add_zero]
      exact .of_value hu hx
    | finite s' m' e' hm' =>
      cases hx
      cases hy
      have hrounded := rounded_normalize
        (s.apply (UnpackedFloat.decreaseExponent m e (min e e')).1 +
          s'.apply (UnpackedFloat.decreaseExponent m' e' (min e e')).1) (min e e') .positive
      rw [Int.cast_add, cast_apply, cast_apply, Int.cast_natCast, Int.cast_natCast, add_mul, mul_assoc,
        mul_assoc, decreaseExponent_value (min_le_left e e'), decreaseExponent_value (min_le_right e e')]
        at hrounded
      exact hrounded

/-- A difference of numbers is the sum with the other sign. -/
theorem sub_eq_add (hx : x ∈ valueOf u) (hy : y ∈ valueOf v) :
    UnpackedFloat.sub Format.binary64 u v = UnpackedFloat.add Format.binary64 u v.neg := by
  cases u with
  | infinity s => cases hx
  | notANumber => cases hx
  | zero s =>
    cases v with
    | infinity s' => cases hy
    | notANumber => cases hy
    | zero s' => cases s <;> cases s' <;> rfl
    | finite s' m' e' hm' => rfl
  | finite s m e hm =>
    cases v with
    | infinity s' => cases hy
    | notANumber => cases hy
    | zero s' => rfl
    | finite s' m' e' hm' =>
      have happly : ∀ n : ℤ, (-s').apply n = -s'.apply n := fun n => by
        cases s'
        · exact (neg_neg n).symm
        · rfl
      simp only [UnpackedFloat.sub, UnpackedFloat.neg, UnpackedFloat.add, happly, ← sub_eq_add_neg]

theorem IsCanonical.neg (hu : IsCanonical u) : IsCanonical u.neg := by
  cases u with
  | infinity s => exact fun _ _ _ _ h => nomatch h
  | notANumber => exact fun _ _ _ _ h => nomatch h
  | zero s => exact isCanonical_zero (-s)
  | finite s m e hm =>
    intro s' m' e' hm' h
    cases h
    exact hu s m e hm rfl

theorem Rounded.sub (hu : IsCanonical u) (hv : IsCanonical v) (hx : x ∈ valueOf u) (hy : y ∈ valueOf v) :
    Rounded (x - y) (UnpackedFloat.sub Format.binary64 u v) := by
  rw [sub_eq_add hx hy, sub_eq_add_neg]
  refine .add hu hv.neg hx ?_
  rw [valueOf_neg, Option.mem_def.mp hy]
  rfl

/-- A product has as many bits as a significand, unless both factors are at the least exponent. -/
theorem Rounded.mul (hu : IsCanonical u) (hv : IsCanonical v) (hx : x ∈ valueOf u) (hy : y ∈ valueOf v) :
    Rounded (x * y) (UnpackedFloat.mul Format.binary64 u v) := by
  cases u with
  | infinity s => cases hx
  | notANumber => cases hx
  | zero s =>
    cases hx
    rw [zero_mul]
    cases v with
    | infinity s' => cases hy
    | notANumber => cases hy
    | zero s' => exact rounded_zero _
    | finite s' m' e' hm' => exact rounded_zero _
  | finite s m e hm =>
    cases v with
    | infinity s' => cases hy
    | notANumber => cases hy
    | zero s' =>
      cases hy
      rw [mul_zero]
      exact rounded_zero _
    | finite s' m' e' hm' =>
      cases hx
      cases hy
      obtain ⟨-, hleast, hfull⟩ := hu s m e hm rfl
      obtain ⟨-, hleast', hfull'⟩ := hv s' m' e' hm' rfl
      have hexact : Describes ((m * m' : ℕ) : ℚ) (m * m') .exact := rfl
      have hlong : 52 ≤ (m * m').log2 ∨ e + e' ≤ -1074 := by
        rw [Nat.le_log2 (by positivity)]
        rcases hfull with hfull | hfull
        · exact Or.inl (hfull.trans (Nat.le_mul_of_pos_right m hm'))
        · rcases hfull' with hfull' | hfull'
          · exact Or.inl (hfull'.trans (Nat.le_mul_of_pos_left m' hm))
          · exact Or.inr (by omega)
      have hrounded := hexact.rounded (e := e + e') (by rw [targetExponent_eq, totalExponent]; omega)
        (s * s')
      have hvalue : factor (s * s') * (((m * m' : ℕ) : ℚ) * 2 ^ (e + e')) =
          factor s * (m * 2 ^ e) * (factor s' * (m' * 2 ^ e')) := by
        rw [factor_mul, zpow_add₀ two_ne_zero]
        push_cast
        ring
      rwa [hvalue] at hrounded

/-- The quotient is taken with as many more bits as bring its exponent to a least one. -/
theorem exists_divCore_eq (m m' : ℕ) (e e' : ℤ) :
    ∃ (q : ℤ) (k : ℕ), q = min (e - e')
        (Format.binary64.targetExponent (totalExponent m e - totalExponent m' e')) ∧
      q + k = e - e' ∧ UnpackedFloat.divCore Format.binary64 m e m' e' =
        (m * 2 ^ k / m', q, UnpackedFloat.accuracyOfFraction (m * 2 ^ k % m') m') := by
  obtain ⟨q, hq, hle⟩ : ∃ q, q = min (e - e')
      (Format.binary64.targetExponent (totalExponent m e - totalExponent m' e')) ∧ q ≤ e - e' :=
    ⟨_, rfl, min_le_left _ _⟩
  obtain ⟨k, hk⟩ := Int.le.dest hle
  have hamount : (e - e' - q).toNat = k := by omega
  refine ⟨q, k, hq, hk, ?_⟩
  simp only [UnpackedFloat.divCore, ← hq, hamount, Nat.shiftLeft_eq]

/-- A quotient has as many bits as a significand, unless its exponent is not above the least one. -/
theorem le_targetExponent_quotient {m' k : ℕ} {e' q : ℤ} (hm : 0 < m) (hm' : 0 < m')
    (hq : q = min (e - e')
      (Format.binary64.targetExponent (totalExponent m e - totalExponent m' e')))
    (hk : q + k = e - e') : q ≤ Format.binary64.targetExponent (totalExponent (m * 2 ^ k / m') q) := by
  simp only [targetExponent_eq, totalExponent] at hq ⊢
  rcases le_or_gt q (-1074) with hleast | hgreater
  · omega
  · have hlong : 2 ^ 52 ≤ m * 2 ^ k / m' := by
      have hself := Nat.log2_self_le hm.ne'
      have hself' : m' < 2 ^ (m'.log2 + 1) := Nat.lt_log2_self
      rw [Nat.le_div_iff_mul_le hm']
      calc 2 ^ 52 * m' ≤ 2 ^ 52 * 2 ^ (m'.log2 + 1) := Nat.mul_le_mul_left _ hself'.le
        _ = 2 ^ (52 + (m'.log2 + 1)) := (pow_add 2 52 _).symm
        _ ≤ 2 ^ (m.log2 + k) := Nat.pow_le_pow_right two_pos (by omega)
        _ = 2 ^ m.log2 * 2 ^ k := pow_add 2 _ k
        _ ≤ m * 2 ^ k := Nat.mul_le_mul_right _ hself
    have hlog : 52 ≤ (m * 2 ^ k / m').log2 := (Nat.le_log2 (by omega)).mpr hlong
    omega

theorem Rounded.div (hx : x ∈ valueOf u) (hy : y ∈ valueOf v) (hne : y ≠ 0) :
    Rounded (x / y) (UnpackedFloat.div Format.binary64 u v) := by
  cases v with
  | infinity s' => cases hy
  | notANumber => cases hy
  | zero s' =>
    cases hy
    exact absurd rfl hne
  | finite s' m' e' hm' =>
    cases u with
    | infinity s => cases hx
    | notANumber => cases hx
    | zero s =>
      cases hx
      rw [zero_div]
      exact rounded_zero _
    | finite s m e hm =>
      cases hx
      cases hy
      obtain ⟨q, k, hq, hk, hcore⟩ := exists_divCore_eq m m' e e'
      have hrounded := (describes_quotient (n := m * 2 ^ k) hm').rounded
        (le_targetExponent_quotient hm hm' hq hk) (s / s')
      have hvalue : ((m * 2 ^ k : ℕ) : ℚ) / m' * 2 ^ q = m * 2 ^ e / (m' * 2 ^ e') := by
        have hexponent : (2 : ℚ) ^ e = 2 ^ e' * (2 ^ q * 2 ^ k) := by
          rw [← zpow_natCast, ← zpow_add₀ two_ne_zero, ← zpow_add₀ two_ne_zero, hk]
          congr 1
          omega
        have hnonzero : (m' : ℚ) ≠ 0 := by positivity
        have hpow : (2 : ℚ) ^ e' ≠ 0 := by positivity
        rw [hexponent]
        push_cast
        field_simp
      rw [hvalue, factor_div, div_mul_div_comm] at hrounded
      simpa only [UnpackedFloat.div, hcore] using hrounded

/-! ### The four operations -/

/-- A float stands for a rational up to rounding, and it is finite unless the rational is large. -/
structure Computes (z : Float) (x : ℚ) : Prop where
  close : ∀ v ∈ toRational? z, |v - x| ≤ roundingError x
  finite : |x| ≤ 2 ^ 200 → (toRational? z).isSome

theorem Computes.exists_close {c : ℚ} (h : Computes a x) (hx : |x| ≤ c) (hc : c ≤ 2 ^ 200) :
    ∃ v ∈ toRational? a, |v - x| ≤ c / 2 ^ 53 + halfLeast := by
  obtain ⟨v, hv⟩ := Option.isSome_iff_exists.mp (h.finite (hx.trans hc))
  exact ⟨v, hv, (h.close v hv).trans (roundingError_le hx)⟩

theorem halfLeast_le : halfLeast ≤ 1 / 2 ^ 200 := by
  rw [halfLeast, one_div, ← zpow_natCast, ← zpow_neg]
  exact zpow_le_zpow_right₀ one_le_two (by norm_num)

/-- Only a large number has an exponent out of range. -/
theorem Canonical.lt_of_large (h : Canonical m e) (hlarge : 971 < e) : (2 : ℚ) ^ 202 < m * 2 ^ e := by
  have hfull : 2 ^ 52 ≤ m := h.full.resolve_right (by omega)
  have hm : (1 : ℚ) ≤ m := by exact_mod_cast Nat.one_le_two_pow.trans hfull
  have hpow : (2 : ℚ) ^ 202 < 2 ^ e := by
    rw [← zpow_natCast]
    exact zpow_lt_zpow_right₀ one_lt_two (by push_cast; omega)
  exact hpow.trans_le (le_mul_of_one_le_left (by positivity) hm)

/-- **Packing keeps what was rounded**, or makes an infinity of what is too large. -/
theorem Rounded.computes (h : Rounded x u) {z : Float}
    (hz : z.toModel.unpack = UnpackedFloat.unpack Format.binary64 (UnpackedFloat.pack Format.binary64 u)) :
    Computes z x := by
  obtain ⟨hcanonical, v, hv, hclose⟩ := h
  have hkept : UnpackedFloat.unpack Format.binary64 (UnpackedFloat.pack Format.binary64 u) = u →
      Computes z x := by
    intro hsame
    have hvalue : toRational? z = some v := by rw [toRational?_eq, hz, hsame, Option.mem_def.mp hv]
    refine ⟨fun v' hv' => ?_, fun _ => by rw [hvalue]; rfl⟩
    rw [hvalue] at hv'
    cases hv'
    exact hclose
  cases u with
  | infinity s => cases hv
  | notANumber => cases hv
  | zero s => exact hkept (unpack_pack_zero s)
  | finite s m e hm =>
    have hform := hcanonical s m e hm rfl
    rcases le_or_gt e 971 with hgreatest | hlarge
    · exact hkept (hform.unpack_pack hgreatest s hm)
    · have hvalue : toRational? z = none := by
        rw [toRational?_eq, hz, unpack_pack_large hlarge s hm]
        rfl
      refine ⟨fun v' hv' => ?_, fun hsmall => ?_⟩
      · rw [hvalue] at hv'
        cases hv'
      exfalso
      have hlt := hform.lt_of_large hlarge
      have habs : |v| = m * 2 ^ e := by
        cases hv
        rw [abs_mul, abs_factor, one_mul, abs_of_nonneg (by positivity)]
      have htriangle : |v| ≤ |v - x| + |x| := by simpa using abs_add_le (v - x) x
      have hleast := halfLeast_le
      rw [roundingError] at hclose
      rw [habs] at htriangle
      norm_num at hlt hleast hsmall
      linarith

theorem canonical_toModel (a : Float) : IsCanonical a.toModel.unpack :=
  fun _ _ _ _ h => (canonical_of_unpack h).1

theorem toRational?_abs (a : Float) : toRational? a.abs = (toRational? a).map fun x => |x| := by
  have hunpack : a.abs.toModel.unpack = UnpackedFloat.unpack Format.binary64
      (UnpackedFloat.pack Format.binary64 a.toModel.unpack.abs) := rfl
  rw [toRational?_eq, toRational?_eq, hunpack]
  cases ha : a.toModel.unpack with
  | infinity s =>
    show valueOf (UnpackedFloat.unpack _ (UnpackedFloat.pack _ (.infinity _))) = none
    rw [unpack_pack_infinity]
    rfl
  | notANumber => rfl
  | zero s =>
    show valueOf (UnpackedFloat.unpack _ (UnpackedFloat.pack _ (.zero _))) = some |0|
    rw [unpack_pack_zero, abs_zero]
    rfl
  | finite s m e hm =>
    obtain ⟨hform, hgreatest⟩ := canonical_of_unpack ha
    show valueOf (UnpackedFloat.unpack _ (UnpackedFloat.pack _ (.finite _ m e hm))) = some |_|
    rw [hform.unpack_pack hgreatest, abs_mul, abs_factor, one_mul, abs_of_nonneg (by positivity)]
    exact congrArg some (one_mul _)

theorem computes_add (ha : x ∈ toRational? a) (hb : y ∈ toRational? b) : Computes (a + b) (x + y) := by
  rw [toRational?_eq] at ha hb
  exact (Rounded.add (canonical_toModel a) (canonical_toModel b) ha hb).computes rfl

theorem computes_sub (ha : x ∈ toRational? a) (hb : y ∈ toRational? b) : Computes (a - b) (x - y) := by
  rw [toRational?_eq] at ha hb
  exact (Rounded.sub (canonical_toModel a) (canonical_toModel b) ha hb).computes rfl

theorem computes_mul (ha : x ∈ toRational? a) (hb : y ∈ toRational? b) : Computes (a * b) (x * y) := by
  rw [toRational?_eq] at ha hb
  exact (Rounded.mul (canonical_toModel a) (canonical_toModel b) ha hb).computes rfl

theorem computes_div (ha : x ∈ toRational? a) (hb : y ∈ toRational? b) (hne : y ≠ 0) :
    Computes (a / b) (x / y) := by
  rw [toRational?_eq] at ha hb
  exact (Rounded.div ha hb hne).computes rfl

theorem unpack_pack_of_valueOf (h : valueOf u = none) :
    UnpackedFloat.unpack Format.binary64 (UnpackedFloat.pack Format.binary64 u) = u := by
  cases u with
  | infinity s => exact unpack_pack_infinity s
  | notANumber => rfl
  | zero s => cases h
  | finite s m e hm => cases h

/-- A sum with a term that is not finite is not finite. -/
theorem valueOf_add_eq_none (h : valueOf u = none ∨ valueOf v = none) :
    valueOf (UnpackedFloat.add Format.binary64 u v) = none := by
  cases u with
  | notANumber => rfl
  | infinity s =>
    cases v with
    | notANumber => rfl
    | infinity s' => cases s <;> cases s' <;> rfl
    | zero s' => rfl
    | finite s' m' e' hm' => rfl
  | zero s =>
    cases v with
    | notANumber => rfl
    | infinity s' => rfl
    | zero s' => cases h <;> contradiction
    | finite s' m' e' hm' => cases h <;> contradiction
  | finite s m e hm =>
    cases v with
    | notANumber => rfl
    | infinity s' => rfl
    | zero s' => cases h <;> contradiction
    | finite s' m' e' hm' => cases h <;> contradiction

/-- **A sum is finite only if both terms are.** -/
theorem isSome_of_add (h : (toRational? (a + b)).isSome) :
    (toRational? a).isSome ∧ (toRational? b).isSome := by
  have hunpack : (a + b).toModel.unpack = UnpackedFloat.unpack Format.binary64
      (UnpackedFloat.pack Format.binary64
        (UnpackedFloat.add Format.binary64 a.toModel.unpack b.toModel.unpack)) := rfl
  by_contra hnot
  have hnone : valueOf a.toModel.unpack = none ∨ valueOf b.toModel.unpack = none := by
    rw [← toRational?_eq, ← toRational?_eq, ← Option.not_isSome_iff_eq_none, ← Option.not_isSome_iff_eq_none]
    exact not_and_or.mp hnot
  have hsum := valueOf_add_eq_none hnone
  rw [toRational?_eq, hunpack, unpack_pack_of_valueOf hsum, hsum] at h
  cases h

/-! ### The order -/

/-- A significand of full length with a larger exponent makes a larger number. -/
theorem Canonical.lt_of_exponent {m' : ℕ} {e' : ℤ} (h : Canonical m e) (h' : Canonical m' e')
    (hlt : e < e') : (m : ℚ) * 2 ^ e < m' * 2 ^ e' := by
  have hpow : (0 : ℚ) < 2 ^ e := by positivity
  have hupper : (m : ℚ) < 2 ^ 53 := by exact_mod_cast h.upper
  have hfull : (2 : ℚ) ^ 52 ≤ m' := by
    have := h.least
    exact_mod_cast h'.full.resolve_right (by omega)
  calc (m : ℚ) * 2 ^ e < 2 ^ 53 * 2 ^ e := mul_lt_mul_of_pos_right hupper hpow
    _ = 2 ^ 52 * 2 ^ (e + 1) := by rw [zpow_add_one₀ two_ne_zero]; ring
    _ ≤ m' * 2 ^ e' :=
      mul_le_mul hfull (zpow_le_zpow_right₀ one_le_two hlt) (by positivity) (by positivity)

/-- Exponents and significands compare as the numbers do. -/
theorem Canonical.compare_eq {m' : ℕ} {e' : ℤ} (h : Canonical m e) (h' : Canonical m' e') :
    (compare e e').then (compare m m') = compare ((m : ℚ) * 2 ^ e) (m' * 2 ^ e') := by
  rcases lt_trichotomy e e' with hlt | rfl | hgt
  · rw [compare_lt_iff_lt.mpr hlt, compare_lt_iff_lt.mpr (h.lt_of_exponent h' hlt)]
    rfl
  · have hpow : (0 : ℚ) < 2 ^ e := by positivity
    rw [compare_eq_iff_eq.mpr rfl]
    show compare m m' = _
    rcases lt_trichotomy m m' with hlt | rfl | hgt
    · rw [compare_lt_iff_lt.mpr hlt, compare_lt_iff_lt.mpr]
      exact mul_lt_mul_of_pos_right (by exact_mod_cast hlt) hpow
    · rw [compare_eq_iff_eq.mpr rfl, compare_eq_iff_eq.mpr rfl]
    · rw [compare_gt_iff_gt.mpr hgt, compare_gt_iff_gt.mpr]
      exact mul_lt_mul_of_pos_right (by exact_mod_cast hgt) hpow
  · rw [compare_gt_iff_gt.mpr hgt, compare_gt_iff_gt.mpr (h'.lt_of_exponent h hgt)]
    rfl

theorem positive_value (hm : 0 < m) (e : ℤ) : 0 < factor .positive * (m * 2 ^ e) := by
  rw [factor, one_mul]
  positivity

theorem negative_value (hm : 0 < m) (e : ℤ) : factor .negative * (m * 2 ^ e) < 0 := by
  rw [factor, neg_one_mul, neg_neg_iff_pos]
  positivity

theorem compare_neg (x y : ℚ) : compare (-x) (-y) = (compare x y).swap := by
  rcases lt_trichotomy x y with hlt | rfl | hgt
  · rw [compare_lt_iff_lt.mpr hlt, compare_gt_iff_gt.mpr (neg_lt_neg hlt)]
    rfl
  · rw [compare_eq_iff_eq.mpr rfl, compare_eq_iff_eq.mpr rfl]
    rfl
  · rw [compare_gt_iff_gt.mpr hgt, compare_lt_iff_lt.mpr (neg_lt_neg hgt)]
    rfl

/-- **Finite floats compare as the rationals that they stand for.** -/
theorem compare_eq (hu : IsCanonical u) (hv : IsCanonical v) (hx : x ∈ valueOf u) (hy : y ∈ valueOf v) :
    u.compare v = some (compare x y) := by
  cases u with
  | infinity s => cases hx
  | notANumber => cases hx
  | zero s =>
    cases hx
    cases v with
    | infinity s' => cases hy
    | notANumber => cases hy
    | zero s' =>
      cases hy
      exact congrArg some (compare_eq_iff_eq.mpr rfl).symm
    | finite s' m' e' hm' =>
      cases hy
      cases s' with
      | positive => exact congrArg some (compare_lt_iff_lt.mpr (positive_value hm' e')).symm
      | negative => exact congrArg some (compare_gt_iff_gt.mpr (negative_value hm' e')).symm
  | finite s m e hm =>
    cases hx
    have hform := hu s m e hm rfl
    cases v with
    | infinity s' => cases hy
    | notANumber => cases hy
    | zero s' =>
      cases hy
      cases s with
      | positive => exact congrArg some (compare_gt_iff_gt.mpr (positive_value hm e)).symm
      | negative => exact congrArg some (compare_lt_iff_lt.mpr (negative_value hm e)).symm
    | finite s' m' e' hm' =>
      cases hy
      have hsize := hform.compare_eq (hv s' m' e' hm' rfl)
      cases s with
      | positive =>
        cases s' with
        | positive =>
          rw [factor, one_mul, one_mul, ← hsize]
          rfl
        | negative =>
          have hgt := (negative_value hm' e').trans (positive_value hm e)
          exact congrArg some (compare_gt_iff_gt.mpr hgt).symm
      | negative =>
        cases s' with
        | positive =>
          have hlt := (negative_value hm e).trans (positive_value hm' e')
          exact congrArg some (compare_lt_iff_lt.mpr hlt).symm
        | negative =>
          rw [factor, neg_one_mul, neg_one_mul, compare_neg, ← hsize]
          rfl

theorem compare_toModel (ha : x ∈ toRational? a) (hb : y ∈ toRational? b) :
    a.toModel.unpack.compare b.toModel.unpack = some (compare x y) := by
  rw [toRational?_eq] at ha hb
  exact compare_eq (canonical_toModel a) (canonical_toModel b) ha hb

theorem lt_iff (ha : x ∈ toRational? a) (hb : y ∈ toRational? b) : a < b ↔ x < y := by
  rw [Double.lt_iff_unpack, UnpackedFloat.lt, compare_toModel ha hb, beq_iff_eq, Option.some_inj,
    compare_lt_iff_lt]

theorem le_iff (ha : x ∈ toRational? a) (hb : y ∈ toRational? b) : a ≤ b ↔ x ≤ y := by
  rw [Double.le_iff_unpack, UnpackedFloat.le, compare_toModel ha hb, Option.any_some,
    Ordering.isLE_iff_ne_gt, compare_gt_iff_gt, not_lt]

end Binary64

end Equilibria
