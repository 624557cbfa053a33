import Mathlib
import Equilibria.Proofs.BinaryQuotients
import Equilibria.Proofs.ShortestDecimals

/-!
# Rounded values

An operation of two floats takes its exact result and brings it to the length of a significand.  What
comes out stands for the exact result up to half of its last bit:

* `Binary64.valueOf`, `Binary64.toRational?_eq` — the rational of a float;
* `Binary64.Canonical`, `Canonical.unpack_pack` — the one form of a finite float, which packing keeps;
* `Binary64.Rounded`, `Describes.rounded` — a number described by its first bits is rounded once,
  whatever their number;
* `Binary64.rounded_normalize` — a scaled integer is rounded, however long it is.

Below the normal floats the last bit has the weight `2 ^ (-1074)`, so every bound has an absolute part
besides the relative one.
-/

namespace Equilibria

open Float.Model (UnpackedFloat Format totalExponent)
open Float.Model.UnpackedFloat (Sign Accuracy ExtendedMantissa)

namespace Binary64

variable {m r : ℕ} {e : ℤ} {t x : ℚ} {acc : Accuracy} {u : UnpackedFloat}

/-! ### Values -/

/-- The number by which a sign multiplies. -/
def factor : Sign → ℚ
  | .positive => 1
  | .negative => -1

theorem abs_factor (s : Sign) : |factor s| = 1 := by
  cases s <;> simp [factor]

theorem factor_mul (s s' : Sign) : factor (s * s') = factor s * factor s' := by
  cases s <;> cases s' <;> simp [factor]

theorem factor_div (s s' : Sign) : factor (s / s') = factor s / factor s' := by
  cases s <;> cases s' <;> simp [factor] <;> rfl

theorem cast_apply (s : Sign) (n : ℤ) : ((s.apply n : ℤ) : ℚ) = factor s * n := by
  cases s <;> simp [factor, Sign.apply]

/-- The rational that an unpacked float stands for, if it is finite. -/
def valueOf : UnpackedFloat → Option ℚ
  | .zero _ => some 0
  | .finite s m e _ => some (factor s * (m * 2 ^ e))
  | .infinity _ => none
  | .notANumber => none

theorem toRational?_eq (x : Float) : toRational? x = valueOf x.toModel.unpack := by
  have hvalue : ∀ f : Finite, f.toRational =
      (if f.negative then -1 else 1) * (f.significand * 2 ^ f.exponent) := by
    intro f
    have hmagnitude : mkRat (Int.ofNat f.quotient.1) f.quotient.2 = f.significand * 2 ^ f.exponent := by
      have hscaled := scaleQuotient_eq two_pos f.significand 1 f.exponent
      rw [Nat.cast_one, div_one, Nat.cast_two] at hscaled
      rw [← hscaled, Rat.mkRat_eq_div]
      rfl
    unfold Finite.toRational
    dsimp only
    rw [hmagnitude]
    cases f.negative <;> simp
  rw [toRational?, ofFloat_eq]
  cases x.toModel.unpack with
  | infinity s => rfl
  | notANumber => rfl
  | zero s =>
    show some _ = some _
    rw [hvalue]
    simp
  | finite s m e hm =>
    show some _ = some _
    rw [hvalue]
    cases s <;> simp [isNegative, factor]

theorem valueOf_neg (u : UnpackedFloat) : valueOf u.neg = (valueOf u).map fun x => -x := by
  cases u with
  | infinity s => rfl
  | notANumber => rfl
  | zero s =>
    show some (0 : ℚ) = some (-0)
    rw [neg_zero]
  | finite s m e hm =>
    show some _ = some _
    cases s <;> simp [factor]

/-! ### The form of a finite float -/

/-- A significand and an exponent as finite floats have them: the significand is of full length, or
the exponent is the least one. -/
structure Canonical (m : ℕ) (e : ℤ) : Prop where
  upper : m < 2 ^ 53
  least : -1074 ≤ e
  full : 2 ^ 52 ≤ m ∨ e = -1074

/-- A finite float is in this form. -/
def IsCanonical (u : UnpackedFloat) : Prop :=
  ∀ s m e hm, u = .finite s m e hm → Canonical m e

theorem isCanonical_zero (s : Sign) : IsCanonical (.zero s) := by
  intro s' m e hm h
  cases h

/-- What a word unpacks to is canonical, and its exponent is in the range. -/
theorem canonical_of_unpack {b : BitVec 64} {hm : 0 < m}
    (h : UnpackedFloat.unpack Format.binary64 b = .finite s m e hm) : Canonical m e ∧ e ≤ 971 := by
  have hdatum := (ofWord_eq b).trans (congrArg datumOf h)
  have hlt : b.toNat < 2 ^ 64 := b.isLt
  have hpow : ∀ k, Nat.pow 2 k = 2 ^ k := fun k => rfl
  simp only [ofWord, datumOf, hpow] at hdatum
  split_ifs at hdatum
  · simp only [Datum.finite.injEq, Finite.mk.injEq] at hdatum
    exact ⟨⟨by omega, by omega, by omega⟩, by omega⟩
  · simp only [Datum.finite.injEq, Finite.mk.injEq] at hdatum
    exact ⟨⟨by omega, by omega, by omega⟩, by omega⟩

theorem unpack_pack_subnormal (s : Sign) (hm : 0 < m) (hupper : m < 2 ^ 52) :
    UnpackedFloat.unpack Format.binary64 (UnpackedFloat.pack Format.binary64 (.finite s m (-1074) hm)) =
      .finite s m (-1074) hm := by
  have hbias : (Format.binary64.exponentBias : ℤ) = 1023 := rfl
  have hlog : ¬m.log2 + 1 = Format.binary64.mantissaBits := by
    have := Nat.log2_lt (n := m) (k := 52) (by omega)
    have hlength : Format.binary64.mantissaBits = 53 := rfl
    omega
  have hpack : UnpackedFloat.pack Format.binary64 (.finite s m (-1074) hm) =
      UnpackedFloat.packComponents Format.binary64 s 0#11 (BitVec.ofNat _ m) := by
    have hrange : ¬2 ^ 11 ≤ (-1074 + (Format.binary64.exponentBias : ℤ) + (52 : ℕ)).toNat + 1 := by
      rw [hbias]
      omega
    simp only [UnpackedFloat.pack, if_neg hlog, if_neg hrange]
  have hones : ¬0#11 = -1#11 := by decide
  have hmantissa : (BitVec.ofNat 52 m).toNat = m := by
    rw [BitVec.toNat_ofNat]
    omega
  have hnonzero : ¬BitVec.ofNat 52 m = 0#52 := by
    rw [← BitVec.toNat_inj, hmantissa, BitVec.toNat_ofNat]
    omega
  rw [hpack]
  simp only [UnpackedFloat.unpack, UnpackedFloat.unpackMantissa_packComponents,
    UnpackedFloat.unpackExponent_packComponents, unpackSign_packComponents, ofBitVec_toBitVec,
    if_neg hones, if_pos, dif_neg hnonzero, hmantissa]
  rfl

/-- **A canonical float is unpacked as it was packed.** -/
theorem Canonical.unpack_pack (h : Canonical m e) (hgreatest : e ≤ 971) (s : Sign) (hm : 0 < m) :
    UnpackedFloat.unpack Format.binary64 (UnpackedFloat.pack Format.binary64 (.finite s m e hm)) =
      .finite s m e hm := by
  rcases Nat.lt_or_ge m (2 ^ 52) with hlt | hge
  · obtain rfl : e = -1074 := h.full.resolve_left (by omega)
    exact unpack_pack_subnormal s hm hlt
  · exact IsNormal.unpack_pack ⟨hge, h.upper, h.least, hgreatest⟩ s hm

theorem unpack_pack_infinity (s : Sign) :
    UnpackedFloat.unpack Format.binary64 (UnpackedFloat.pack Format.binary64 (.infinity s)) =
      .infinity s := by
  cases s <;> rfl

/-- An exponent out of range makes an infinity. -/
theorem unpack_pack_large (hlarge : 971 < e) (s : Sign) (hm : 0 < m) :
    UnpackedFloat.unpack Format.binary64 (UnpackedFloat.pack Format.binary64 (.finite s m e hm)) =
      .infinity s := by
  have hrange : 2 ^ 11 ≤ (e + (Format.binary64.exponentBias : ℤ) + (52 : ℕ)).toNat + 1 := by
    have hbias : (Format.binary64.exponentBias : ℤ) = 1023 := rfl
    rw [hbias]
    omega
  have hpack : UnpackedFloat.pack Format.binary64 (.finite s m e hm) =
      UnpackedFloat.pack Format.binary64 (.infinity s) := by
    simp only [UnpackedFloat.pack, if_pos hrange]
  rw [hpack, unpack_pack_infinity]

/-! ### Dropping bits -/

/-- What is left is known after any number of bits is dropped. -/
theorem Describes.shift (h : Describes t r acc) (k : ℕ) :
    ∃ acc', ExtendedMantissa.ofMantissaAndAccuracy r acc >>> k =
      .ofMantissaAndAccuracy (r / 2 ^ k) acc' ∧ Describes (t / 2 ^ k) (r / 2 ^ k : ℕ) acc' := by
  induction k with
  | zero =>
    refine ⟨acc, ?_, ?_⟩
    · rw [pow_zero, Nat.div_one]
      rfl
    · rwa [pow_zero, div_one, pow_zero, Nat.div_one]
  | succ k ih =>
    obtain ⟨acc', hshift, hd⟩ := ih
    have hlast : ExtendedMantissa.ofMantissaAndAccuracy r acc >>> (k + 1) =
        (ExtendedMantissa.ofMantissaAndAccuracy r acc >>> k).shiftRightOne := rfl
    have hhalf := hd.half
    rw [Nat.div_div_eq_div_mul, div_div, ← pow_succ, ← pow_succ] at hhalf
    refine ⟨_, ?_, hhalf⟩
    rw [hlast, hshift, shiftRightOne_ofMantissaAndAccuracy, Nat.div_div_eq_div_mul, ← pow_succ]

/-- The bits that remain are as many as a significand has, or the exponent is the least one. -/
theorem shifted_bounds {k : ℕ} (hk : e + k = Format.binary64.targetExponent (totalExponent r e)) :
    r / 2 ^ k < 2 ^ 53 ∧ (2 ^ 52 ≤ r / 2 ^ k ∨ e + k = -1074) := by
  have hself : r < 2 ^ (r.log2 + 1) := Nat.lt_log2_self
  rw [targetExponent_eq, totalExponent] at hk
  constructor
  · rw [Nat.div_lt_iff_lt_mul (by positivity), ← pow_add]
    exact hself.trans_le (Nat.pow_le_pow_right two_pos (by omega))
  · refine or_iff_not_imp_right.mpr fun hne => ?_
    have hlog : r.log2 = 52 + k := by omega
    have hr : r ≠ 0 := by
      rintro rfl
      rw [Nat.log2_zero] at hlog
      omega
    rw [Nat.le_div_iff_mul_le (by positivity), ← pow_add, ← hlog]
    exact Nat.log2_self_le hr

/-- A number described by its first bits is described by as many as a significand has. -/
theorem Describes.shiftToTargetExponent (h : Describes t r acc)
    (he : e ≤ Format.binary64.targetExponent (totalExponent r e)) :
    ∃ r' acc', UnpackedFloat.shiftToTargetExponent Format.binary64 r e acc =
        (.ofMantissaAndAccuracy r' acc', Format.binary64.targetExponent (totalExponent r e)) ∧
      Describes (t * 2 ^ e / 2 ^ Format.binary64.targetExponent (totalExponent r e)) r' acc' ∧
      r' < 2 ^ 53 ∧
      (2 ^ 52 ≤ r' ∨ Format.binary64.targetExponent (totalExponent r e) = -1074) := by
  obtain ⟨k, hk⟩ := Int.le.dest he
  obtain ⟨hlt, hfull⟩ := shifted_bounds hk
  obtain ⟨acc', hshift, hd⟩ := h.shift k
  have hamount : (Format.binary64.targetExponent (totalExponent r e) - e).toNat = k := by omega
  have hvalue : t * 2 ^ e / 2 ^ (e + k) = t / 2 ^ k := by
    rw [zpow_add₀ two_ne_zero, zpow_natCast]
    field_simp
  refine ⟨r / 2 ^ k, acc', ?_, ?_, hlt, ?_⟩
  · simp only [UnpackedFloat.shiftToTargetExponent, UnpackedFloat.shiftToExponent, hamount, hshift, hk]
  · rwa [← hk, hvalue]
  · rwa [← hk]

/-! ### Rounding -/

/-- Half of the least positive float. -/
def halfLeast : ℚ := 2 ^ (-1075 : ℤ)

/-- How far a rounded number is from the exact one at most. -/
def roundingError (x : ℚ) : ℚ := |x| / 2 ^ 53 + halfLeast

theorem halfLeast_pos : 0 < halfLeast := by
  unfold halfLeast
  positivity

theorem roundingError_nonneg (x : ℚ) : 0 ≤ roundingError x :=
  add_nonneg (by positivity) halfLeast_pos.le

theorem roundingError_le {c : ℚ} (h : |x| ≤ c) : roundingError x ≤ c / 2 ^ 53 + halfLeast := by
  unfold roundingError
  gcongr

theorem roundingError_factor_mul (s : Sign) (x : ℚ) : roundingError (factor s * x) = roundingError x := by
  rw [roundingError, abs_mul, abs_factor, one_mul, roundingError]

/-- A float in the form of finite ones that stands for a rational up to rounding; its exponent may be
out of range. -/
structure Rounded (x : ℚ) (u : UnpackedFloat) : Prop where
  canonical : IsCanonical u
  close : ∃ v ∈ valueOf u, |v - x| ≤ roundingError x

theorem RoundsTo.abs_sub_le {q : ℤ} (h : RoundsTo (x / 2 ^ q) r) : |r * 2 ^ q - x| ≤ 2 ^ q / 2 := by
  have hpow : (0 : ℚ) < 2 ^ q := by positivity
  have hbelow := mul_le_mul_of_nonneg_right h.below hpow.le
  have habove := mul_le_mul_of_nonneg_right h.above hpow.le
  rw [div_mul_cancel₀ _ hpow.ne'] at hbelow habove
  rw [abs_sub_le_iff]
  constructor <;> linarith

/-- Half of the last bit is within the rounding error. -/
theorem half_le_roundingError {q : ℤ} (hfull : 2 ^ 52 * 2 ^ q ≤ x ∨ q = -1074) :
    2 ^ q / 2 ≤ roundingError x := by
  unfold roundingError
  rcases hfull with hfull | rfl
  · have hpos := halfLeast_pos
    have hx : |x| / 2 ^ 53 = x / 2 ^ 53 :=
      congrArg (· / 2 ^ 53) (abs_of_nonneg ((by positivity : (0 : ℚ) ≤ 2 ^ 52 * 2 ^ q).trans hfull))
    rw [hx]
    linarith
  · have hhalf : (2 : ℚ) ^ (-1074 : ℤ) / 2 = halfLeast := by
      rw [halfLeast, show (-1074 : ℤ) = -1075 + 1 by norm_num, zpow_add_one₀ two_ne_zero]
      exact mul_div_cancel_right₀ _ two_ne_zero
    rw [hhalf]
    exact le_add_of_nonneg_left (by positivity)

/-- A significand that rounds up to a power of two loses its last bit, which is zero. -/
theorem exists_shiftToTargetExponent_exact (hr : r ≤ 2 ^ 53) (hleast : -1074 ≤ e) :
    ∃ em q, UnpackedFloat.shiftToTargetExponent Format.binary64 r e .exact = (em, q) ∧
      (em.mantissa : ℚ) * 2 ^ q = r * 2 ^ e ∧ em.mantissa < 2 ^ 53 ∧ -1074 ≤ q ∧
      (em.mantissa = r ∧ q = e ∨ 2 ^ 52 ≤ em.mantissa) := by
  rcases hr.lt_or_eq with hlt | rfl
  · exact ⟨_, _, shiftToTargetExponent_of_lt hlt hleast, rfl, hlt, hleast, Or.inl ⟨rfl, rfl⟩⟩
  · have hmantissa : (ExtendedMantissa.ofMantissaAndAccuracy (2 ^ 53)
        .exact).shiftRightOne.mantissa = 2 ^ 52 := rfl
    refine ⟨_, _, shiftToTargetExponent_of_ge le_rfl (by norm_num) hleast, ?_, ?_, by omega, Or.inr ?_⟩
    · rw [hmantissa, zpow_add_one₀ two_ne_zero]
      push_cast
      ring
    · rw [hmantissa]
      norm_num
    · rw [hmantissa]

/-- **A number described by its first bits is rounded**, as long as none of them is missing. -/
theorem Describes.rounded (h : Describes t r acc)
    (he : e ≤ Format.binary64.targetExponent (totalExponent r e)) (s : Sign) :
    Rounded (factor s * (t * 2 ^ e)) (UnpackedFloat.roundWithAccuracy Format.binary64 s r e acc) := by
  obtain ⟨r', acc', hfirst, hd, hlt, hfull⟩ := h.shiftToTargetExponent he
  have hleast : -1074 ≤ Format.binary64.targetExponent (totalExponent r e) := le_max_right _ _
  generalize Format.binary64.targetExponent (totalExponent r e) = q at *
  have hpow : (0 : ℚ) < 2 ^ q := by positivity
  -- the first rounding decides the value
  obtain ⟨hr, hr'⟩ := le_roundToNearestEven acc' r'
  have herror : |(acc'.roundToNearestEven r' : ℚ) * 2 ^ q - t * 2 ^ e| ≤ roundingError (t * 2 ^ e) := by
    refine hd.roundsTo.abs_sub_le.trans (half_le_roundingError (hfull.imp_left fun hlong => ?_))
    have hlong' : (2 : ℚ) ^ 52 ≤ t * 2 ^ e / 2 ^ q := le_trans (by exact_mod_cast hlong) hd.le
    exact (le_div_iff₀ hpow).mp hlong'
  -- the second one only removes a carry
  obtain ⟨em, q', hsecond, hvalue, hupper, hleast', hkept⟩ :=
    exists_shiftToTargetExponent_exact (by omega : acc'.roundToNearestEven r' ≤ 2 ^ 53) hleast
  have hresult : UnpackedFloat.roundWithAccuracy Format.binary64 s r e acc =
      if hm : em.mantissa = 0 then .zero s
      else .finite s em.mantissa q' (Nat.pos_of_ne_zero hm) := by
    simp only [UnpackedFloat.roundWithAccuracy, hfirst, roundedMantissa_ofMantissaAndAccuracy, hsecond]
  have hsigned : |factor s * (em.mantissa * 2 ^ q') - factor s * (t * 2 ^ e)| ≤
      roundingError (factor s * (t * 2 ^ e)) := by
    rw [← mul_sub, abs_mul, abs_factor, one_mul, hvalue, roundingError_factor_mul]
    exact herror
  rw [hresult]
  split_ifs with hzero
  · refine ⟨isCanonical_zero s, 0, rfl, ?_⟩
    rwa [hzero, Nat.cast_zero, zero_mul, mul_zero] at hsigned
  · refine ⟨?_, _, rfl, hsigned⟩
    intro s' m' e' hm hfinite
    cases hfinite
    refine ⟨hupper, hleast', ?_⟩
    rcases hkept with ⟨hsame, rfl⟩ | hlong
    · exact hfull.imp_left fun hlong => hsame ▸ hlong.trans hr
    · exact Or.inl hlong

theorem Rounded.of_value (hcanonical : IsCanonical u) (hx : x ∈ valueOf u) : Rounded x u :=
  ⟨hcanonical, x, hx, by rw [sub_self, abs_zero]; exact roundingError_nonneg x⟩

theorem rounded_zero (s : Sign) : Rounded 0 (.zero s) := .of_value (isCanonical_zero s) rfl

theorem decreaseExponent_value {q : ℤ} (hq : q ≤ e) :
    ((UnpackedFloat.decreaseExponent m e q).1 : ℚ) * 2 ^ q = m * 2 ^ e := by
  obtain ⟨k, rfl⟩ := Int.le.dest hq
  have hamount : (q + k - q).toNat = k := by omega
  simp only [UnpackedFloat.decreaseExponent, hamount, Nat.shiftLeft_eq]
  rw [zpow_add₀ two_ne_zero, zpow_natCast]
  push_cast
  ring

theorem log2_mul_two_pow (hm : 0 < m) (k : ℕ) : (m * 2 ^ k).log2 = m.log2 + k := by
  rw [Nat.log2_eq_iff (by positivity)]
  have hself := Nat.log2_self_le hm.ne'
  have hself' : m < 2 ^ (m.log2 + 1) := Nat.lt_log2_self
  constructor
  · rw [pow_add]
    exact Nat.mul_le_mul_right _ hself
  · rw [Nat.add_right_comm, pow_add]
    exact Nat.mul_lt_mul_of_pos_right hself' (by positivity)

theorem rounded_round (hm : 0 < m) (e : ℤ) (s : Sign) :
    Rounded (factor s * (m * 2 ^ e)) (UnpackedFloat.round Format.binary64 s m e) := by
  obtain ⟨k, q, hk, hamount, hle⟩ : ∃ (k : ℕ) (q : ℤ), q + k = e ∧
      (e - Format.binary64.targetExponent (totalExponent m e)).toNat = k ∧
      q ≤ Format.binary64.targetExponent (totalExponent m e) :=
    ⟨(e - Format.binary64.targetExponent (totalExponent m e)).toNat, _, sub_add_cancel _ _, rfl,
      by omega⟩
  have htotal : totalExponent (m * 2 ^ k) q = totalExponent m e := by
    simp only [totalExponent, log2_mul_two_pow hm]
    omega
  have hexact : Describes ((m * 2 ^ k : ℕ) : ℚ) (m * 2 ^ k) .exact := rfl
  have hrounded := hexact.rounded (e := q) (by rwa [htotal]) s
  have hvalue : ((m * 2 ^ k : ℕ) : ℚ) * 2 ^ q = m * 2 ^ e := by
    rw [← hk, zpow_add₀ two_ne_zero, zpow_natCast]
    push_cast
    ring
  have hq : e - (k : ℤ) = q := by omega
  rw [hvalue] at hrounded
  simpa only [UnpackedFloat.round, UnpackedFloat.decreaseExponent, hamount, Nat.shiftLeft_eq, hq]
    using hrounded

theorem rounded_normalize (n e : ℤ) (s : Sign) :
    Rounded (n * 2 ^ e) (UnpackedFloat.normalize Format.binary64 n e s) := by
  unfold UnpackedFloat.normalize
  rcases lt_trichotomy n 0 with hlt | rfl | hgt
  · rw [compare_lt_iff_lt.mpr hlt]
    have hcast : (n : ℚ) = -((-n).toNat : ℚ) := by
      have habs : ((-n).toNat : ℤ) = -n := by omega
      have hcast := congrArg (Int.cast : ℤ → ℚ) habs
      push_cast at hcast
      rw [hcast, neg_neg]
    have hrounded := rounded_round (m := (-n).toNat) (by omega) e .negative
    rwa [factor, neg_one_mul, ← neg_mul, ← hcast] at hrounded
  · rw [Int.cast_zero, zero_mul]
    exact rounded_zero s
  · rw [compare_gt_iff_gt.mpr hgt]
    have hcast : (n : ℚ) = (n.toNat : ℚ) := by
      have habs : (n.toNat : ℤ) = n := by omega
      exact_mod_cast congrArg (Int.cast : ℤ → ℚ) habs.symm
    have hrounded := rounded_round (m := n.toNat) (by omega) e .positive
    rwa [factor, one_mul, ← hcast] at hrounded

end Binary64

end Equilibria
