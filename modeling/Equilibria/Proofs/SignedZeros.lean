import Mathlib
import Equilibria.Proofs.DoubleValues

/-!
# The sign of a zero

A zero has a sign, which the order does not see but the last bit of a result may.  It is lost where a
zero is added to a number or taken off it, and a negative zero is all that could keep it:

* `Binary64.add_ne_negativeZero` — a sum is a negative zero only if both terms are;
* `Binary64.sub_zero_congr` — either zero is taken off alike, unless it is taken off a negative zero;
* `Double.NotNegativeZero`, `NotNegativeZero.add`, `NotNegativeZero.sub_congr` — the same for doubles;
* `Double.toRational?_zero_mul` — zero times a number of finite size is a zero.
-/

namespace Equilibria

open Float.Model (UnpackedFloat Format)
open Float.Model.UnpackedFloat (Sign)

/-! ### Floats -/

namespace Binary64

variable {u v : UnpackedFloat} {a b c : Float}

/-- Rounding makes no zero of another number that is a multiple of the least double. -/
theorem normalize_ne_negativeZero (n : ℤ) {e : ℤ} (he : -1074 ≤ e) :
    UnpackedFloat.normalize Format.binary64 n e .positive ≠ .zero .negative := by
  intro hzero
  obtain ⟨-, w, hw, hclose⟩ := rounded_normalize n e .positive
  rw [hzero] at hw
  cases hw
  by_cases hn : n = 0
  · rw [hn] at hzero
    cases hzero
  · have hpow : (0 : ℚ) < 2 ^ e := by positivity
    have hone : (1 : ℚ) ≤ |(n : ℚ)| := by exact_mod_cast Int.one_le_abs hn
    have hleast : 2 * halfLeast ≤ 2 ^ e := by
      rw [halfLeast, ← zpow_one_add₀ two_ne_zero]
      exact zpow_le_zpow_right₀ one_le_two he
    have habs : |(n : ℚ) * 2 ^ e| = |(n : ℚ)| * 2 ^ e := by rw [abs_mul, abs_of_pos hpow]
    have hlarge : (2 : ℚ) ^ e ≤ |(n : ℚ)| * 2 ^ e := le_mul_of_one_le_left hpow.le hone
    rw [zero_sub, abs_neg, roundingError, habs] at hclose
    linarith

/-- **A sum is a negative zero only if both terms are.** -/
theorem add_ne_negativeZero (hu : IsCanonical u) (hv : IsCanonical v) (hne : u ≠ .zero .negative) :
    UnpackedFloat.add Format.binary64 u v ≠ .zero .negative := by
  cases u with
  | notANumber => exact nofun
  | infinity s =>
    cases v with
    | notANumber => exact nofun
    | infinity s' => cases s <;> cases s' <;> exact nofun
    | zero s' => exact nofun
    | finite s' m' e' hm' => exact nofun
  | zero s =>
    cases s with
    | negative => exact absurd rfl hne
    | positive =>
      cases v with
      | notANumber => exact nofun
      | infinity s' => exact nofun
      | zero s' => cases s' <;> exact nofun
      | finite s' m' e' hm' => exact nofun
  | finite s m e hm =>
    cases v with
    | notANumber => exact nofun
    | infinity s' => exact nofun
    | zero s' => exact nofun
    | finite s' m' e' hm' =>
      have hleast := (hu s m e hm rfl).least
      have hleast' := (hv s' m' e' hm' rfl).least
      exact normalize_ne_negativeZero _ (le_min hleast hleast')

theorem isCanonical_add (hu : IsCanonical u) (hv : IsCanonical v) :
    IsCanonical (UnpackedFloat.add Format.binary64 u v) := by
  cases hx : valueOf u with
  | some x =>
    cases hy : valueOf v with
    | some y => exact (Rounded.add hu hv hx hy).canonical
    | none =>
      intro s m e hm h
      have hnone := valueOf_add_eq_none (u := u) (Or.inr hy)
      rw [h] at hnone
      cases hnone
  | none =>
    intro s m e hm h
    have hnone := valueOf_add_eq_none (v := v) (Or.inl hx)
    rw [h] at hnone
    cases hnone

theorem unpack_pack_ne_negativeZero (hu : IsCanonical u) (hne : u ≠ .zero .negative) :
    UnpackedFloat.unpack Format.binary64 (UnpackedFloat.pack Format.binary64 u) ≠ .zero .negative := by
  cases u with
  | notANumber => exact nofun
  | infinity s =>
    rw [unpack_pack_infinity]
    exact nofun
  | zero s =>
    rw [unpack_pack_zero]
    exact hne
  | finite s m e hm =>
    rcases le_or_gt e 971 with hgreatest | hlarge
    · rw [(hu s m e hm rfl).unpack_pack hgreatest]
      exact nofun
    · rw [unpack_pack_large hlarge]
      exact nofun

/-- Only a zero stands for zero. -/
theorem exists_eq_zero (h : valueOf u = some 0) : ∃ s, u = .zero s := by
  cases u with
  | notANumber => cases h
  | infinity s => cases h
  | zero s => exact ⟨s, rfl⟩
  | finite s m e hm =>
    have hvalue := Option.some.inj h
    have hm' : (m : ℚ) ≠ 0 := by exact_mod_cast hm.ne'
    have hfactor : factor s ≠ 0 := by cases s <;> decide
    exact absurd hvalue (mul_ne_zero hfactor (mul_ne_zero hm' (zpow_ne_zero _ two_ne_zero)))

/-- **Which zero is taken off makes no difference**, unless it is taken off a negative zero. -/
theorem sub_zero_congr (ha : a.toModel.unpack ≠ .zero .negative) (hb : toRational? b = some 0)
    (hc : toRational? c = some 0) : a - b = a - c := by
  rw [toRational?_eq] at hb hc
  obtain ⟨s, hb⟩ := exists_eq_zero hb
  obtain ⟨s', hc⟩ := exists_eq_zero hc
  have hsub : UnpackedFloat.sub Format.binary64 a.toModel.unpack (.zero s) =
      UnpackedFloat.sub Format.binary64 a.toModel.unpack (.zero s') := by
    cases hunpack : a.toModel.unpack with
    | notANumber => rfl
    | infinity t => rfl
    | zero t =>
      cases t with
      | negative => exact absurd hunpack ha
      | positive => cases s <;> cases s' <;> rfl
    | finite t m e hm => rfl
  show Float.ofModel (.pack (UnpackedFloat.sub Format.binary64 a.toModel.unpack b.toModel.unpack)) =
    Float.ofModel (.pack (UnpackedFloat.sub Format.binary64 a.toModel.unpack c.toModel.unpack))
  rw [hb, hc, hsub]

end Binary64

/-! ### Doubles -/

namespace Double

variable {a b c : Double}

/-- The double is no negative zero. -/
def NotNegativeZero (a : Double) : Prop := ∀ z, a = .number z → z.toModel.unpack ≠ .zero .negative

theorem notNegativeZero_zero : NotNegativeZero 0 := by
  intro z hz
  have hz : .number 0.0 = number z := hz
  cases hz
  exact (nofun : UnpackedFloat.zero .positive ≠ .zero .negative)

/-- **What is added to a number that is no negative zero makes none of it.** -/
theorem NotNegativeZero.add (ha : NotNegativeZero a) (b : Double) : NotNegativeZero (a + b) := by
  intro z hz
  cases a with
  | undefined s => cases hz
  | number x =>
    cases b with
    | undefined s => cases hz
    | number y =>
      have hz : ofResult (x + y) = .number z := hz
      unfold ofResult at hz
      split_ifs at hz
      cases hz
      exact Binary64.unpack_pack_ne_negativeZero
        (Binary64.isCanonical_add (Binary64.canonical_toModel x) (Binary64.canonical_toModel y))
        (Binary64.add_ne_negativeZero (Binary64.canonical_toModel x) (Binary64.canonical_toModel y)
          (ha x rfl))

/-- **Which zero is taken off makes no difference**, unless it is taken off a negative zero. -/
theorem NotNegativeZero.sub_congr (ha : NotNegativeZero a) (hb : b.toRational? = some 0)
    (hc : c.toRational? = some 0) : a - b = a - c := by
  cases b with
  | undefined s => cases hb
  | number y =>
    cases c with
    | undefined s => cases hc
    | number y' =>
      cases a with
      | undefined s => rfl
      | number x =>
        show ofResult (x - y) = ofResult (x - y')
        rw [Binary64.sub_zero_congr (ha x rfl) hb hc]

/-- Zero times a number of finite size is a zero. -/
theorem toRational?_zero_mul (ha : a.toRational? = some 0) (hb : b.isFinite = true) :
    (a * b).toRational? = some 0 := by
  obtain ⟨y, rfl, hy⟩ := exists_number hb
  cases a with
  | undefined s => cases ha
  | number x =>
    have hx : Binary64.toRational? x = some 0 := ha
    rw [Binary64.toRational?_eq] at hx hy
    obtain ⟨s, hx⟩ := Binary64.exists_eq_zero hx
    have hmul : ∃ s', UnpackedFloat.mul Format.binary64 x.toModel.unpack y.toModel.unpack = .zero s' := by
      rw [hx]
      cases hunpack : y.toModel.unpack with
      | notANumber =>
        rw [hunpack] at hy
        cases hy
      | infinity s' =>
        rw [hunpack] at hy
        cases hy
      | zero s' => exact ⟨s * s', rfl⟩
      | finite s' m e hm => exact ⟨s * s', rfl⟩
    obtain ⟨s', hmul⟩ := hmul
    have hproduct : (x * y).toModel.unpack = UnpackedFloat.unpack Format.binary64 (UnpackedFloat.pack
        Format.binary64 (UnpackedFloat.mul Format.binary64 x.toModel.unpack y.toModel.unpack)) := rfl
    show (ofResult (x * y)).toRational? = some 0
    rw [toRational?_ofResult, Binary64.toRational?_eq, hproduct, hmul, Binary64.unpack_pack_zero]
    rfl

end Double

end Equilibria
