import Mathlib
import Equilibria.Proofs.NearDistributions

/-!
# Doubles of moderate size

Doubles far below the largest one stay of finite size under a few operations:

* `Binary64.nearestWord_le`, `Binary64.exists_of_le_moderateWord` — the words of moderate quotients and
  what moderate words stand for;
* `Double.Within` — a double of finite size within a bound;
* `Double.within_ofRational` — the double nearest to a moderate rational;
* `Double.Within.mul`, `Double.Within.add` — products and sums.
-/

namespace Equilibria

/-! ### Rationals of moderate size -/

theorem roundHalfEven_le {n d k : ℕ} (hd : 0 < d) (h : n ≤ k * d) : roundHalfEven n d ≤ k := by
  have hdiv : n / d ≤ k := Nat.div_le_of_le_mul (by rwa [Nat.mul_comm])
  rcases hdiv.lt_or_eq with hlt | heq
  · unfold roundHalfEven
    dsimp only
    split_ifs <;> omega
  · -- nothing is left to be rounded up
    have hrest : n % d = 0 := by
      have hsplit := Nat.div_add_mod n d
      rw [heq, Nat.mul_comm] at hsplit
      omega
    unfold roundHalfEven
    dsimp only
    rw [hrest, if_pos (by omega), heq]

namespace Binary64

open Float.Model (UnpackedFloat Format)

/-- The word of `2 ^ 101`. -/
def moderateWord : ℕ := 1124 * 2 ^ 52

/-- **A quotient of moderate size has a moderate word.** -/
theorem nearestWord_le {n d : ℕ} (hd : 0 < d) (h : (n : ℚ) / d ≤ 2 ^ 100) :
    nearestWord n d ≤ moderateWord := by
  unfold nearestWord
  split_ifs with hzero
  · exact Nat.zero_le _
  · have hn : 0 < n := Nat.pos_of_ne_zero hzero
    obtain ⟨hlower, hupper⟩ := floorLog2_spec hn hd
    have hlead : floorLog2 n d ≤ 100 := by
      rw [← zpow_le_zpow_iff_right₀ (a := (2 : ℚ)) one_lt_two]
      exact hlower.trans h
    dsimp only
    obtain ⟨q, hq⟩ : ∃ q, q = max (floorLog2 n d - 52) (-1074) := ⟨_, rfl⟩
    have hround : roundHalfEven (scaleQuotient 2 n d (-q)).1 (scaleQuotient 2 n d (-q)).2 ≤ 2 ^ 53 := by
      have hscaled := scaleQuotient_pos two_pos hd n (-q)
      refine roundHalfEven_le hscaled ?_
      have hvalue := scaleQuotient_eq two_pos n d (-q)
      have hle : ((scaleQuotient 2 n d (-q)).1 : ℚ) / (scaleQuotient 2 n d (-q)).2 ≤ 2 ^ 53 := by
        rw [hvalue]
        push_cast
        calc (n : ℚ) / d * 2 ^ (-q) ≤ 2 ^ (floorLog2 n d + 1) * 2 ^ (-q) := by gcongr
          _ = 2 ^ (floorLog2 n d + 1 - q) := by rw [← zpow_add₀ two_ne_zero, sub_eq_add_neg]
          _ ≤ 2 ^ (53 : ℤ) := zpow_le_zpow_right₀ one_le_two (by omega)
          _ = 2 ^ 53 := by norm_num
      rw [div_le_iff₀ (Nat.cast_pos.mpr hscaled)] at hle
      exact_mod_cast hle
    rw [← hq]
    refine (min_le_left _ _).trans ?_
    have hplace : (q + 1074).toNat ≤ 1122 := by omega
    have hscaled := Nat.mul_le_mul_right (Nat.pow 2 52) hplace
    rw [moderateWord]
    calc _ ≤ 1122 * Nat.pow 2 52 + 2 ^ 53 := Nat.add_le_add hscaled hround
      _ = 1124 * 2 ^ 52 := by norm_num

/-- A word unpacks to the same as the double that is made of it. -/
theorem unpack_ofSignWord (negative : Bool) (w : ℕ) {u : UnpackedFloat}
    (hu : UnpackedFloat.unpack Format.binary64
      (UInt64.ofNat (if negative then Nat.pow 2 63 + w else w)).toBitVec = u) {x : ℚ}
    (hx : valueOf u = some x) : toRational? (ofSignWord negative w) = some x := by
  have hunpack : (ofSignWord negative w).toModel.unpack = UnpackedFloat.unpack Format.binary64
      (UnpackedFloat.pack Format.binary64 (UnpackedFloat.unpack Format.binary64
        (UInt64.ofNat (if negative then Nat.pow 2 63 + w else w)).toBitVec)) := rfl
  rw [toRational?_eq, hunpack, hu]
  cases u with
  | infinity s => cases hx
  | notANumber => cases hx
  | zero s => rwa [unpack_pack_zero]
  | finite s m e hm =>
    obtain ⟨hcanonical, hgreatest⟩ := canonical_of_unpack hu
    rwa [hcanonical.unpack_pack hgreatest]

theorem abs_valueOf {u : UnpackedFloat} {f : Finite} (hf : datumOf u = .finite f) :
    ∃ x, valueOf u = some x ∧ |x| = f.significand * 2 ^ f.exponent := by
  cases u with
  | infinity s => cases hf
  | notANumber => cases hf
  | zero s =>
    cases hf
    exact ⟨0, rfl, by simp⟩
  | finite s m e hm =>
    cases hf
    refine ⟨_, rfl, ?_⟩
    rw [abs_mul, abs_factor, one_mul, abs_of_nonneg (by positivity)]

/-- A word with the bits of a moderate one behind its sign. -/
theorem exists_ofWord_eq {w n : ℕ} (hw : w ≤ moderateWord) (hn : n = w ∨ n = 2 ^ 63 + w) :
    ∃ (f : Finite) (k : ℕ), ofWord n = .finite f ∧ f.significand ≤ 2 ^ k ∧ f.exponent ≤ 101 - k := by
  rw [moderateWord] at hw
  have hfield : n / Nat.pow 2 52 % 2048 = w / 2 ^ 52 := by
    rw [Nat.pow_eq]
    omega
  have hfraction : n % Nat.pow 2 52 = w % 2 ^ 52 := by
    rw [Nat.pow_eq]
    omega
  unfold ofWord
  dsimp only
  rw [hfield, hfraction, if_neg (by omega)]
  split_ifs with hleast
  · exact ⟨_, 52, rfl, (Nat.mod_lt w (by norm_num)).le, by norm_num⟩
  · by_cases hgreatest : w / 2 ^ 52 = 1124
    · refine ⟨_, 52, rfl, ?_, ?_⟩
      · show 2 ^ 52 + w % 2 ^ 52 ≤ 2 ^ 52
        omega
      · show ((w / 2 ^ 52 : ℕ) : ℤ) - 1075 ≤ 101 - (52 : ℕ)
        omega
    · refine ⟨_, 53, rfl, ?_, ?_⟩
      · show 2 ^ 52 + w % 2 ^ 52 ≤ 2 ^ 53
        omega
      · show ((w / 2 ^ 52 : ℕ) : ℤ) - 1075 ≤ 101 - (53 : ℕ)
        omega

/-- **A moderate word stands for a moderate number.** -/
theorem exists_of_le_moderateWord (negative : Bool) {w : ℕ} (hw : w ≤ moderateWord) :
    ∃ x, toRational? (ofSignWord negative w) = some x ∧ |x| ≤ 2 ^ 101 := by
  obtain ⟨n, hn, hword⟩ : ∃ n, (if negative then Nat.pow 2 63 + w else w) = n ∧
      (n = w ∨ n = 2 ^ 63 + w) := ⟨_, rfl, by cases negative <;> simp⟩
  obtain ⟨f, k, hf, hsignificand, hexponent⟩ := exists_ofWord_eq hw hword
  have hlt : n < UInt64.size := by
    have hsize : UInt64.size = 2 ^ 64 := rfl
    rw [moderateWord] at hw
    omega
  have hbits : (UInt64.ofNat n).toBitVec.toNat = n := UInt64.toNat_ofNat_of_lt hlt
  have hdatum := ofWord_eq (UInt64.ofNat n).toBitVec
  rw [hbits, hf] at hdatum
  obtain ⟨x, hx, habs⟩ := abs_valueOf hdatum.symm
  refine ⟨x, unpack_ofSignWord negative w (by rw [hn]) hx, ?_⟩
  have hsignificand' : (f.significand : ℚ) ≤ 2 ^ (k : ℤ) := by exact_mod_cast hsignificand
  rw [habs]
  calc (f.significand : ℚ) * 2 ^ f.exponent ≤ 2 ^ (k : ℤ) * 2 ^ (101 - k : ℤ) := by
        gcongr
        exact one_le_two
    _ = 2 ^ (101 : ℤ) := by
        rw [← zpow_add₀ two_ne_zero]
        congr 1
        ring
    _ = 2 ^ 101 := by norm_num

end Binary64

/-! ### Doubles of moderate size -/

namespace Double

open Binary64 (halfLeast halfLeast_le)

variable {a b : Double} {c d : ℚ}

/-- The double is of finite size and no larger than a bound. -/
structure Within (c : ℚ) (a : Double) : Prop where
  finite : a.isFinite = true
  size : |a.value| ≤ c

theorem within_zero (hc : 0 ≤ c) : Within c 0 := ⟨finite_zero, by rwa [value_zero, abs_zero]⟩

theorem within_one : Within 1 1 := ⟨finite_one, by rw [value_one, abs_one]⟩

/-- **The double nearest to a moderate rational is moderate.** -/
theorem within_ofRational {r : ℚ} (hr : |r| ≤ 2 ^ 100) : Within (2 ^ 101) (ofRational r) := by
  have hquotient : (r.num.natAbs : ℚ) / r.den ≤ 2 ^ 100 := by
    have habs : |r| = (r.num.natAbs : ℚ) / r.den := by
      conv_lhs => rw [← Rat.num_div_den r]
      rw [abs_div, Nat.abs_cast, Nat.cast_natAbs, Int.cast_abs]
    rwa [← habs]
  obtain ⟨x, hx, hle⟩ := Binary64.exists_of_le_moderateWord (decide (r.num < 0))
    (Binary64.nearestWord_le r.den_pos hquotient)
  have hvalue : (ofRational r).toRational? = some x := hx
  refine ⟨by rw [isFinite_eq, hvalue]; rfl, ?_⟩
  rw [value, hvalue]
  exact hle

theorem Within.mono (h : Within c a) (hle : c ≤ d) : Within d a := ⟨h.finite, h.size.trans hle⟩

theorem Computes.within {x : ℚ} (h : Computes a x) (hx : |x| ≤ c) (hc : c ≤ 2 ^ 200) :
    Within (c + c / 2 ^ 53 + halfLeast) a := by
  obtain ⟨hfinite, hclose⟩ := h.spec hx hc
  have hsize := abs_add_le (a.value - x) x
  rw [sub_add_cancel] at hsize
  exact ⟨hfinite, by linarith⟩

theorem Within.mul (ha : Within c a) (hb : Within d b) (hbound : c * d ≤ 2 ^ 200) :
    Within (2 * (c * d) + 1) (a * b) := by
  have hc : 0 ≤ c := (abs_nonneg _).trans ha.size
  have hd : 0 ≤ d := (abs_nonneg _).trans hb.size
  have hproduct : |a.value * b.value| ≤ c * d := by
    rw [abs_mul]
    exact mul_le_mul ha.size hb.size (abs_nonneg _) hc
  have hnonneg := mul_nonneg hc hd
  have hleast := halfLeast_le
  refine ((computes_mul ha.finite hb.finite).within hproduct hbound).mono ?_
  norm_num at hleast ⊢
  linarith

theorem Within.add (ha : Within c a) (hb : Within d b) (hbound : c + d ≤ 2 ^ 150) :
    Within (c + d + 2 ^ 98) (a + b) := by
  have hsum : |a.value + b.value| ≤ c + d :=
    (abs_add_le _ _).trans (add_le_add ha.size hb.size)
  have hleast := halfLeast_le
  refine ((computes_add ha.finite hb.finite).within hsum (hbound.trans (by norm_num))).mono ?_
  norm_num at hbound hleast ⊢
  linarith

end Double

end Equilibria
