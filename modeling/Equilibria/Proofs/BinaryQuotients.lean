import Mathlib
import Equilibria.Proofs.FloatWords

/-!
# Quotients of floats are rounded to nearest

Division of floats takes the quotient of the significands with 53 more bits, notes how much is left,
and rounds twice at most:

* `Binary64.Describes`, `Describes.roundsTo` — what is left is all that rounding needs to know;
* `Describes.half` — and it is known after one more bit is dropped;
* `Describes.roundWithAccuracy` — a significand of up to two bits too many is rounded to the double
  that is `Nearest`;
* `IsNormal.div`, `HasParts.div` — so is the quotient of two doubles of normal size;
* `exists_hasParts_toFloat` — natural numbers of at most 53 bits are doubles.

A significand that rounds up to a power of two loses its last bit and raises the exponent.  The
double is then nearest also in the shorter interval below it, which is what `Nearest.edge` says.
-/

namespace Equilibria

open Float.Model (UnpackedFloat Format)
open Float.Model.UnpackedFloat (Sign Accuracy ExtendedMantissa)

namespace Binary64

variable {m : ℕ} {e : ℤ}

/-! ### Rounding -/

/-- The number lies above `r` by less than one, as the accuracy tells. -/
def Describes (t : ℚ) (r : ℕ) : Accuracy → Prop
  | .exact => t = r
  | .inexact .lt => r < t ∧ t < r + 1 / 2
  | .inexact .eq => t = r + 1 / 2
  | .inexact .gt => r + 1 / 2 < t ∧ t < r + 1

/-- The integer is nearest to the number, and even if another one is equally near. -/
structure RoundsTo (t : ℚ) (r : ℕ) : Prop where
  below : r - 1 / 2 ≤ t
  above : t ≤ r + 1 / 2
  even : t = r - 1 / 2 ∨ t = r + 1 / 2 → r % 2 = 0

variable {t : ℚ} {r : ℕ} {acc : Accuracy}

theorem RoundsTo.of_lt (hbelow : r - 1 / 2 < t) (habove : t < r + 1 / 2) : RoundsTo t r :=
  ⟨hbelow.le, habove.le, by rintro (h | h) <;> linarith⟩

/-- **The accuracy is all that rounding needs to know.** -/
theorem Describes.roundsTo (h : Describes t r acc) : RoundsTo t (acc.roundToNearestEven r) := by
  rcases acc with _ | (_ | _ | _)
  · obtain rfl : t = r := h
    show RoundsTo _ r
    exact .of_lt (by linarith) (by linarith)
  · obtain ⟨hl, hr⟩ := h
    show RoundsTo _ r
    exact .of_lt (by linarith) hr
  · obtain rfl : t = r + 1 / 2 := h
    show RoundsTo _ (r + r % 2)
    rcases Nat.mod_two_eq_zero_or_one r with hr | hr
    · rw [hr, add_zero]
      exact ⟨by linarith, le_rfl, fun _ => hr⟩
    · rw [hr]
      refine ⟨?_, ?_, fun _ => by omega⟩ <;> push_cast <;> linarith
  · obtain ⟨hl, hr⟩ := h
    show RoundsTo _ (r + 1)
    refine .of_lt ?_ ?_ <;> push_cast <;> linarith

theorem le_roundToNearestEven (acc : Accuracy) (r : ℕ) :
    r ≤ acc.roundToNearestEven r ∧ acc.roundToNearestEven r ≤ r + 1 := by
  rcases acc with _ | (_ | _ | _) <;> simp only [Accuracy.roundToNearestEven] <;> omega

/-- The accuracy of a quotient. -/
theorem describes_quotient {n d : ℕ} (hd : 0 < d) :
    Describes (n / d) (n / d : ℕ) (UnpackedFloat.accuracyOfFraction (n % d) d) := by
  have hd' : (0 : ℚ) < d := Nat.cast_pos.mpr hd
  have hmod : n % d < d := Nat.mod_lt n hd
  have hquotient : (n : ℚ) / d = (n / d : ℕ) + (n % d : ℕ) / d := by
    rw [div_eq_iff hd'.ne', add_mul, div_mul_cancel₀ _ hd'.ne']
    exact_mod_cast (Nat.div_add_mod' n d).symm
  rw [hquotient, UnpackedFloat.accuracyOfFraction]
  generalize n / d = r at *
  split_ifs with hzero
  · show _ = _
    rw [hzero, Nat.cast_zero, zero_div, add_zero]
  · have hpos : (0 : ℚ) < (n % d : ℕ) / d := div_pos (by exact_mod_cast Nat.pos_of_ne_zero hzero) hd'
    rcases lt_trichotomy (2 * (n % d)) d with hlt | heq | hgt
    · rw [compare_lt_iff_lt.mpr hlt]
      have hhalf : ((n % d : ℕ) : ℚ) / d < 1 / 2 := by
        rw [div_lt_div_iff₀ hd' two_pos]
        exact_mod_cast (by omega : n % d * 2 < 1 * d)
      exact ⟨by linarith, by linarith⟩
    · rw [compare_eq_iff_eq.mpr heq]
      have hhalf : ((n % d : ℕ) : ℚ) / d = 1 / 2 := by
        rw [div_eq_div_iff hd'.ne' two_ne_zero]
        exact_mod_cast (by omega : n % d * 2 = 1 * d)
      show _ = _
      rw [hhalf]
    · rw [compare_gt_iff_gt.mpr hgt]
      have hhalf : 1 / 2 < ((n % d : ℕ) : ℚ) / d := by
        rw [div_lt_div_iff₀ two_pos hd']
        exact_mod_cast (by omega : 1 * d < n % d * 2)
      have hone : ((n % d : ℕ) : ℚ) / d < 1 := (div_lt_one hd').mpr (by exact_mod_cast hmod)
      exact ⟨by linarith, by linarith⟩

theorem Describes.between {o : Ordering} (h : Describes t r (.inexact o)) : r < t ∧ t < r + 1 := by
  cases o with
  | lt => exact ⟨h.1, by linarith [h.2]⟩
  | eq =>
    obtain rfl : t = r + 1 / 2 := h
    constructor <;> linarith
  | gt => exact ⟨by linarith [h.1], h.2⟩

/-- The accuracy after one more bit is dropped. -/
def halved : Bool → Accuracy → Accuracy
  | false, .exact => .exact
  | false, .inexact _ => .inexact .lt
  | true, .exact => .inexact .eq
  | true, .inexact _ => .inexact .gt

theorem shiftRightOne_ofMantissaAndAccuracy (r : ℕ) (acc : Accuracy) :
    (ExtendedMantissa.ofMantissaAndAccuracy r acc).shiftRightOne =
      .ofMantissaAndAccuracy (r / 2) (halved (r % 2 != 0) acc) := by
  rcases acc with _ | (_ | _ | _) <;>
    simp only [ExtendedMantissa.ofMantissaAndAccuracy, ExtendedMantissa.shiftRightOne] <;>
    cases r % 2 != 0 <;> rfl

theorem roundedMantissa_ofMantissaAndAccuracy (r : ℕ) (acc : Accuracy) :
    (ExtendedMantissa.ofMantissaAndAccuracy r acc).roundedMantissa = acc.roundToNearestEven r := by
  rcases acc with _ | (_ | _ | _) <;> rfl

theorem Describes.half (h : Describes t r acc) :
    Describes (t / 2) (r / 2 : ℕ) (halved (r % 2 != 0) acc) := by
  rcases Nat.even_or_odd' r with ⟨k, rfl | rfl⟩
  · rw [(by omega : 2 * k / 2 = k), (by omega : 2 * k % 2 = 0)]
    cases acc with
    | exact =>
      obtain rfl : t = (2 * k : ℕ) := h
      show _ = _
      push_cast
      ring
    | inexact o =>
      obtain ⟨hl, hr⟩ := h.between
      push_cast at hl hr
      exact ⟨by linarith, by linarith⟩
  · rw [(by omega : (2 * k + 1) / 2 = k), (by omega : (2 * k + 1) % 2 = 1)]
    cases acc with
    | exact =>
      obtain rfl : t = (2 * k + 1 : ℕ) := h
      show _ = _
      push_cast
      ring
    | inexact o =>
      obtain ⟨hl, hr⟩ := h.between
      push_cast at hl hr
      exact ⟨by linarith, by linarith⟩

/-! ### Rounding to the length of a significand -/

/-- The double nearest to a quotient in the range of normal ones. -/
structure Nearest (t : ℚ) (m : ℕ) (q : ℤ) : Prop extends IsNormal m q where
  rounds : RoundsTo (t / 2 ^ q) m
  edge : m = 2 ^ 52 → m - 1 / 4 ≤ t / 2 ^ q

theorem Nearest.pos {q : ℤ} (h : Nearest t m q) : 0 < t := by
  have hlower : (2 : ℚ) ^ 52 ≤ m := by exact_mod_cast h.lower
  have hbelow := h.rounds.below
  have hpow : (0 : ℚ) < 2 ^ q := by positivity
  have hquotient : 0 < t / 2 ^ q := by linarith
  exact (div_pos_iff_of_pos_right hpow).mp hquotient

theorem targetExponent_eq (x : ℤ) : Format.binary64.targetExponent x = max (x - 53) (-1074) := rfl

theorem shiftToTargetExponent_of_lt (hupper : r < 2 ^ 53) (he : -1074 ≤ e) :
    UnpackedFloat.shiftToTargetExponent Format.binary64 r e acc =
      (ExtendedMantissa.ofMantissaAndAccuracy r acc, e) := by
  have hlog : r.log2 ≤ 52 := by
    rcases Nat.eq_zero_or_pos r with rfl | hpos
    · exact Nat.zero_le 52
    · exact Nat.le_of_lt_succ ((Nat.log2_lt hpos.ne').mpr hupper)
  have hshift : (max ((r.log2 : ℤ) + 1 + e - 53) (-1074) - e).toNat = 0 := by omega
  simp only [UnpackedFloat.shiftToTargetExponent, UnpackedFloat.shiftToExponent,
    Float.Model.totalExponent, targetExponent_eq, hshift]
  rw [Nat.cast_zero, add_zero]
  rfl

theorem shiftToTargetExponent_of_ge (hlower : 2 ^ 53 ≤ r) (hupper : r < 2 ^ 54) (he : -1074 ≤ e) :
    UnpackedFloat.shiftToTargetExponent Format.binary64 r e acc =
      ((ExtendedMantissa.ofMantissaAndAccuracy r acc).shiftRightOne, e + 1) := by
  have hlog : r.log2 = 53 := (Nat.log2_eq_iff (by omega)).mpr ⟨hlower, hupper⟩
  have hshift : (max (((53 : ℕ) : ℤ) + 1 + e - 53) (-1074) - e).toNat = 1 := by omega
  simp only [UnpackedFloat.shiftToTargetExponent, UnpackedFloat.shiftToExponent,
    Float.Model.totalExponent, targetExponent_eq, hlog, hshift]
  rfl

theorem Describes.le (h : Describes t r acc) : (r : ℚ) ≤ t := by
  cases acc with
  | exact => exact h.ge
  | inexact o => exact h.between.1.le

theorem Describes.lt (h : Describes t r acc) : t < r + 1 := by
  cases acc with
  | exact =>
    obtain rfl : t = r := h
    linarith
  | inexact o => exact h.between.2

theorem mul_zpow_div_zpow_succ (t : ℚ) (e : ℤ) : t * 2 ^ e / 2 ^ (e + 1) = t / 2 := by
  rw [zpow_add_one₀ two_ne_zero]
  field_simp

/-- A significand that rounds up to a power of two has one bit less in the end. -/
theorem Describes.nearest (h : Describes t r acc) (hlower : 2 ^ 52 ≤ r) (hupper : r < 2 ^ 53)
    (hleast : -1074 ≤ e) (hgreatest : e ≤ 970) :
    ∃ em q, UnpackedFloat.shiftToTargetExponent Format.binary64 (acc.roundToNearestEven r) e .exact =
      (em, q) ∧ Nearest (t * 2 ^ e) em.mantissa q := by
  have hrounds := h.roundsTo
  have hle := h.le
  have hlt' : t < 2 ^ 53 := h.lt.trans_le (by exact_mod_cast hupper)
  obtain ⟨hr, hr'⟩ := le_roundToNearestEven acc r
  generalize hR : acc.roundToNearestEven r = R at *
  have hpow : (2 : ℚ) ^ e ≠ 0 := by positivity
  rcases Nat.lt_or_ge R (2 ^ 53) with hlt | hge
  · -- no carry, so the second shift changes nothing
    refine ⟨_, _, shiftToTargetExponent_of_lt hlt hleast, ⟨?_, ?_, ?_⟩⟩
    · exact ⟨hlower.trans hr, hlt, hleast, by omega⟩
    · rw [mul_div_cancel_right₀ _ hpow]
      exact hrounds
    · intro hedge
      rw [mul_div_cancel_right₀ _ hpow]
      have hedge' : R = 2 ^ 52 := hedge
      have : R = r := by omega
      show (R : ℚ) - 1 / 4 ≤ t
      rw [this]
      linarith
  · -- the carry can only reach `2 ^ 53`, whose last bit is zero
    obtain rfl : R = 2 ^ 53 := by omega
    refine ⟨_, _, shiftToTargetExponent_of_ge le_rfl (by norm_num) hleast, ?_⟩
    have hbelow := hrounds.below
    have hmantissa : (ExtendedMantissa.ofMantissaAndAccuracy (2 ^ 53)
        .exact).shiftRightOne.mantissa = 2 ^ 52 := rfl
    rw [hmantissa]
    refine ⟨⟨le_rfl, by norm_num, by omega, by omega⟩, ?_, ?_⟩
    · rw [mul_zpow_div_zpow_succ]
      push_cast at hbelow
      refine .of_lt ?_ ?_ <;> push_cast <;> linarith
    · intro _
      rw [mul_zpow_div_zpow_succ]
      push_cast at hbelow ⊢
      linarith

/-- **Rounding a significand of one or two bits too many, or of the right length.** -/
theorem Describes.roundWithAccuracy (h : Describes t r acc) (hlower : 2 ^ 52 ≤ r)
    (hupper : r < 2 ^ 54) (hleast : -1074 ≤ e) (hgreatest : e ≤ 969) (s : Sign) :
    ∃ m q hm, UnpackedFloat.roundWithAccuracy Format.binary64 s r e acc = .finite s m q hm ∧
      Nearest (t * 2 ^ e) m q := by
  obtain ⟨em, e', hfirst, r', acc', hem, hd, hr', hr'', he'⟩ : ∃ em e',
      UnpackedFloat.shiftToTargetExponent Format.binary64 r e acc = (em, e') ∧ ∃ r' acc',
        em.roundedMantissa = acc'.roundToNearestEven r' ∧
        Describes (t * 2 ^ e / 2 ^ e') r' acc' ∧ 2 ^ 52 ≤ r' ∧ r' < 2 ^ 53 ∧
        (e' = e ∨ e' = e + 1) := by
    rcases Nat.lt_or_ge r (2 ^ 53) with hlt | hge
    · refine ⟨_, _, shiftToTargetExponent_of_lt hlt hleast, r, acc, ?_, ?_, hlower, hlt,
        Or.inl rfl⟩
      · exact roundedMantissa_ofMantissaAndAccuracy r acc
      · rwa [mul_div_cancel_right₀ _ (by positivity)]
    · refine ⟨_, _, shiftToTargetExponent_of_ge hge hupper hleast, r / 2,
        halved (r % 2 != 0) acc, ?_, ?_, by omega, by omega, Or.inr rfl⟩
      · rw [shiftRightOne_ofMantissaAndAccuracy, roundedMantissa_ofMantissaAndAccuracy]
      · rw [mul_zpow_div_zpow_succ]
        exact h.half
  obtain ⟨em₂, q, hsecond, hnearest⟩ := hd.nearest hr' hr'' (e := e') (by omega) (by omega)
  rw [div_mul_cancel₀ _ (by positivity)] at hnearest
  have hm : em₂.mantissa ≠ 0 := by
    have := hnearest.lower
    omega
  refine ⟨em₂.mantissa, q, Nat.pos_of_ne_zero hm, ?_, hnearest⟩
  simp only [UnpackedFloat.roundWithAccuracy, hfirst, hem, hsecond]
  rw [dif_neg hm]

theorem roundWithAccuracy_exact (hupper : r < 2 ^ 53) (hleast : -1074 ≤ e) (s : Sign)
    (hr : 0 < r) :
    UnpackedFloat.roundWithAccuracy Format.binary64 s r e .exact = .finite s r e hr := by
  have hsame : (ExtendedMantissa.ofMantissaAndAccuracy r .exact).roundedMantissa = r := rfl
  simp only [UnpackedFloat.roundWithAccuracy, shiftToTargetExponent_of_lt hupper hleast,
    hsame]
  exact dif_neg hr.ne'

/-! ### Division -/

variable {m₁ m₂ : ℕ} {e₁ e₂ : ℤ}

/-- The quotient of two significands, taken with 53 more bits, has the right length or one bit
more. -/
theorem IsNormal.quotient_bounds (h₁ : IsNormal m₁ e₁) (h₂ : IsNormal m₂ e₂) :
    2 ^ 52 ≤ m₁ * 2 ^ 53 / m₂ ∧ m₁ * 2 ^ 53 / m₂ < 2 ^ 54 := by
  have hlower := h₁.lower
  have hupper := h₁.upper
  have hlower' := h₂.lower
  have hupper' := h₂.upper
  constructor
  · rw [Nat.le_div_iff_mul_le (by omega)]
    omega
  · rw [Nat.div_lt_iff_lt_mul (by omega)]
    omega

/-- **Division gives the nearest double**, as long as exponents stay in the range. -/
theorem IsNormal.div (h₁ : IsNormal m₁ e₁) (h₂ : IsNormal m₂ e₂) (s₁ s₂ : Sign) (hm₁ : 0 < m₁)
    (hm₂ : 0 < m₂) (hleast : -1021 ≤ e₁ - e₂) (hgreatest : e₁ - e₂ ≤ 1022) :
    ∃ m q hm, UnpackedFloat.div Format.binary64 (.finite s₁ m₁ e₁ hm₁) (.finite s₂ m₂ e₂ hm₂) =
      .finite (s₁ / s₂) m q hm ∧ Nearest (m₁ * 2 ^ e₁ / (m₂ * 2 ^ e₂)) m q := by
  obtain ⟨hlower, hupper⟩ := h₁.quotient_bounds h₂
  have hcore : UnpackedFloat.divCore Format.binary64 m₁ e₁ m₂ e₂ = (m₁ * 2 ^ 53 / m₂, e₁ - e₂ - 53,
      UnpackedFloat.accuracyOfFraction (m₁ * 2 ^ 53 % m₂) m₂) := by
    have htarget : min (e₁ - e₂) (Format.binary64.targetExponent
        (Float.Model.totalExponent m₁ e₁ - Float.Model.totalExponent m₂ e₂)) = e₁ - e₂ - 53 := by
      rw [targetExponent_eq, Float.Model.totalExponent, Float.Model.totalExponent, h₁.log2_eq,
        h₂.log2_eq]
      omega
    have hshift : (e₁ - e₂ - (e₁ - e₂ - 53)).toNat = 53 := by omega
    simp only [UnpackedFloat.divCore, htarget, hshift, Nat.shiftLeft_eq]
  have hdescribes := describes_quotient (n := m₁ * 2 ^ 53) hm₂
  obtain ⟨m, q, hm, hround, hnearest⟩ := hdescribes.roundWithAccuracy hlower hupper
    (e := e₁ - e₂ - 53) (by omega) (by omega) (s₁ / s₂)
  refine ⟨m, q, hm, ?_, ?_⟩
  · simp only [UnpackedFloat.div, hcore, hround]
  · have hvalue : ((m₁ * 2 ^ 53 : ℕ) : ℚ) / m₂ * 2 ^ (e₁ - e₂ - 53) =
        m₁ * 2 ^ e₁ / (m₂ * 2 ^ e₂) := by
      rw [zpow_sub₀ two_ne_zero, zpow_sub₀ two_ne_zero]
      push_cast
      field_simp
    rwa [hvalue] at hnearest

variable {x y : Float} {s s₁ s₂ : Sign}

/-- **The quotient of two floats is the double nearest to it.** -/
theorem HasParts.div (h₁ : HasParts x s₁ m₁ e₁) (h₂ : HasParts y s₂ m₂ e₂)
    (hleast : -1021 ≤ e₁ - e₂) (hgreatest : e₁ - e₂ ≤ 1022) :
    ∃ m q, HasParts (x / y) (s₁ / s₂) m q ∧ Nearest (m₁ * 2 ^ e₁ / (m₂ * 2 ^ e₂)) m q := by
  obtain ⟨hm₁, hx⟩ := h₁.unpack_eq
  obtain ⟨hm₂, hy⟩ := h₂.unpack_eq
  obtain ⟨m, q, hm, hquotient, hnearest⟩ :=
    h₁.toIsNormal.div h₂.toIsNormal s₁ s₂ hm₁ hm₂ hleast hgreatest
  have hdiv : x / y = .ofModel (.pack (.finite (s₁ / s₂) m q hm)) := by
    rw [← hquotient, ← hx, ← hy]
    rfl
  rw [hdiv]
  exact ⟨m, q, .of_pack hnearest.toIsNormal _ _, hnearest⟩

/-- A natural number of at most 53 bits is lengthened to a significand. -/
theorem exists_isNormal_mul {n : ℕ} (hpos : 0 < n) (hlt : n < 2 ^ 53) :
    ∃ k : ℕ, n.log2 + k = 52 ∧ IsNormal (n * 2 ^ k) (-k) := by
  have hlog : n.log2 ≤ 52 := by
    have := Nat.log2_lt (n := n) (k := 53) (by omega)
    omega
  obtain ⟨k, hk⟩ : ∃ k, n.log2 + k = 52 := ⟨52 - n.log2, by omega⟩
  obtain ⟨hself, hself'⟩ : 2 ^ n.log2 ≤ n ∧ n < 2 ^ (n.log2 + 1) :=
    (Nat.log2_eq_iff (by omega)).mp rfl
  refine ⟨k, hk, ?_, ?_, by omega, by omega⟩
  · rw [← hk, pow_add]
    exact Nat.mul_le_mul_right _ hself
  · have hsplit : 2 ^ 53 = 2 ^ (n.log2 + 1) * 2 ^ k := by
      rw [← pow_add]
      congr 1
      omega
    rw [hsplit]
    exact Nat.mul_lt_mul_of_pos_right hself' (by positivity)

/-- Natural numbers of at most 53 bits are doubles. -/
theorem exists_hasParts_toFloat {n : ℕ} (hpos : 0 < n) (hlt : n < 2 ^ 53) :
    ∃ m e, HasParts (UInt64.ofNat n).toFloat .positive m e ∧ (m : ℚ) * 2 ^ e = n ∧
      -52 ≤ e ∧ e ≤ 0 := by
  obtain ⟨k, hk, hnormal⟩ := exists_isNormal_mul hpos hlt
  have hm : 0 < n * 2 ^ k := by positivity
  have hround : UnpackedFloat.round Format.binary64 .positive n 0 =
      .finite .positive (n * 2 ^ k) (-k) hm := by
    have htarget : Format.binary64.targetExponent (Float.Model.totalExponent n 0) = -k := by
      rw [targetExponent_eq, Float.Model.totalExponent]
      omega
    have hshift : (- -(k : ℤ)).toNat = k := by omega
    simp only [UnpackedFloat.round, htarget, UnpackedFloat.decreaseExponent, Nat.shiftLeft_eq,
      zero_sub, hshift]
    exact roundWithAccuracy_exact hnormal.upper hnormal.least _ _
  have hfloat : (UInt64.ofNat n).toFloat =
      .ofModel (.pack (.finite .positive (n * 2 ^ k) (-k) hm)) := by
    have hword : (UInt64.ofNat n).toNat = n := UInt64.toNat_ofNat_of_lt (hlt.trans (by decide))
    have hcompare : compare (n : ℤ) 0 = .gt := compare_gt_iff_gt.mpr (by omega)
    have hnormalize : UnpackedFloat.ofUInt64 Format.binary64 (UInt64.ofNat n) =
        UnpackedFloat.round Format.binary64 .positive n 0 := by
      simp only [UnpackedFloat.ofUInt64, UnpackedFloat.ofNat, UnpackedFloat.ofInt,
        UnpackedFloat.normalize, hword, hcompare, Int.toNat_natCast]
    rw [← hround, ← hnormalize]
    rfl
  refine ⟨n * 2 ^ k, -k, hfloat ▸ HasParts.of_pack hnormal _ _, ?_, by omega, by omega⟩
  push_cast
  rw [mul_assoc, ← zpow_natCast, ← zpow_add₀ two_ne_zero, add_neg_cancel, zpow_zero, mul_one]

/-- A zero divided by what is no zero is a zero. -/
theorem unpack_zero_div (hx : x.toModel.unpack = .zero s)
    (hy : (∃ m e hm, y.toModel.unpack = .finite .positive m e hm) ∨
      y.toModel.unpack = .infinity .positive) : (x / y).toModel.unpack = .zero s := by
  have hsign : s / Sign.positive = s := by cases s <;> rfl
  have hdiv : UnpackedFloat.div Format.binary64 x.toModel.unpack y.toModel.unpack = .zero s := by
    rw [hx]
    rcases hy with ⟨m, e, hm, hy⟩ | hy
    · rw [hy, UnpackedFloat.div, hsign]
    · rw [hy, UnpackedFloat.div, hsign]
  show UnpackedFloat.unpack _ (UnpackedFloat.pack _ (UnpackedFloat.div _ _ _)) = _
  rw [hdiv, unpack_pack_zero]

end Binary64

end Equilibria
