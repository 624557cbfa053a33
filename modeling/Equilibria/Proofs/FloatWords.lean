import Mathlib
import Equilibria.Number.Binary64

/-!
# Floats and their words

A float of the logic is unpacked into a sign, a significand and an exponent, and packed into a word
again.  The bits of the word say the same as the datum that the exact conversions read from it:

* `Binary64.ofWord_eq`, `Binary64.ofFloat_eq` — a datum is what a float unpacks to;
* `Binary64.IsNormal.unpack_pack` — a significand of full length is unpacked as it was packed;
* `Binary64.HasParts` — floats of normal size by their parts;
* `Binary64.HasParts.ofSignWord` — the parts that a word encodes;
* `Binary64.unpack_nearestWord` — the double nearest to a positive integer is positive or infinite.
-/

namespace Equilibria

open Float.Model (UnpackedFloat Format)
open Float.Model.UnpackedFloat (Sign)

namespace Binary64

/-! ### The datum of a float -/

theorem toNat_unpackExponent (b : BitVec 64) :
    (@UnpackedFloat.unpackExponent .binary64 b).toNat = b.toNat / 2 ^ 52 % 2048 := by
  simp [UnpackedFloat.unpackExponent, BitVec.extractLsb, Nat.shiftRight_eq_div_pow]

theorem toNat_unpackMantissa (b : BitVec 64) :
    (@UnpackedFloat.unpackMantissa .binary64 b).toNat = b.toNat % 2 ^ 52 := by
  simp [UnpackedFloat.unpackMantissa, BitVec.extractLsb]

theorem toNat_unpackSign (b : BitVec 64) :
    (@UnpackedFloat.unpackSign .binary64 b).toNat = b.toNat / 2 ^ 63 := by
  have := b.isLt
  simp [UnpackedFloat.unpackSign, BitVec.extractLsb, Nat.shiftRight_eq_div_pow]
  omega

/-- Whether a sign is a minus. -/
def isNegative : Sign → Bool
  | .negative => true
  | .positive => false

/-- What an unpacked float stands for. -/
def datumOf : UnpackedFloat → Datum
  | .infinity s => .infinite (isNegative s)
  | .notANumber => .undefined
  | .zero s => .finite ⟨isNegative s, 0, -1074⟩
  | .finite s m e _ => .finite ⟨isNegative s, m, e⟩

theorem isNegative_ofBitVec (b : BitVec 64) :
    isNegative (Sign.ofBitVec (@UnpackedFloat.unpackSign .binary64 b)) =
      decide (Nat.pow 2 63 ≤ b.toNat) := by
  have hzero : @UnpackedFloat.unpackSign .binary64 b = 0#1 ↔
      ¬(2 : ℕ) ^ 63 ≤ b.toNat := by
    rw [← BitVec.toNat_inj, toNat_unpackSign]
    show b.toNat / 2 ^ 63 = 0 ↔ _
    omega
  rw [Sign.ofBitVec]
  by_cases h : (2 : ℕ) ^ 63 ≤ b.toNat
  · rw [if_neg (not_not_intro h ∘ hzero.mp)]
    exact (decide_eq_true h).symm
  · rw [if_pos (hzero.mpr h)]
    exact (decide_eq_false h).symm

/-- The leading bit of a significand stands in front of its fraction. -/
theorem toNat_one_append (v : BitVec 52) : (1#1 ++ v).toNat = 2 ^ 52 + v.toNat := by
  rw [BitVec.toNat_append, ← Nat.shiftLeft_add_eq_or_of_lt v.isLt]
  rfl

/-- **The datum of a word is what the float unpacks to.** -/
theorem ofWord_eq (b : BitVec 64) :
    ofWord b.toNat = datumOf (UnpackedFloat.unpack Format.binary64 b) := by
  have hsign := isNegative_ofBitVec b
  have hones : @UnpackedFloat.unpackExponent .binary64 b = -1#11 ↔
      b.toNat / Nat.pow 2 52 % 2048 = 2047 := by
    rw [← BitVec.toNat_inj, toNat_unpackExponent]
    rfl
  have hzeros : @UnpackedFloat.unpackExponent .binary64 b = 0#11 ↔
      b.toNat / Nat.pow 2 52 % 2048 = 0 := by
    rw [← BitVec.toNat_inj, toNat_unpackExponent]
    rfl
  have hfraction : @UnpackedFloat.unpackMantissa .binary64 b = 0#52 ↔
      b.toNat % Nat.pow 2 52 = 0 := by
    rw [← BitVec.toNat_inj, toNat_unpackMantissa]
    rfl
  have hbias : (Format.binary64.exponentBias : ℤ) = 1023 := rfl
  simp only [ofWord, UnpackedFloat.unpack, hones, hzeros, hfraction, ← hsign]
  split_ifs with h₁ h₂ h₃ h₄
  · rfl
  · rfl
  · rw [h₄]; rfl
  · simp only [datumOf, toNat_unpackMantissa, toNat_unpackExponent, hbias]
    rw [Nat.pow_eq] at h₃
    rw [h₃]
    rfl
  · simp only [datumOf, toNat_one_append, toNat_unpackMantissa, toNat_unpackExponent, hbias]
    rfl

theorem ofFloat_eq (x : Float) : ofFloat x = datumOf x.toModel.unpack :=
  ofWord_eq x.toBits.toBitVec

/-! ### Packing -/

theorem toNat_packComponents (s : Sign) (e : BitVec 11) (m : BitVec 52) :
    (UnpackedFloat.packComponents Format.binary64 s e m).toNat =
      (s.toBitVec.toNat * 2 ^ 11 + e.toNat) * 2 ^ 52 + m.toNat := by
  rw [UnpackedFloat.packComponents, BitVec.toNat_append, BitVec.toNat_append,
    ← Nat.shiftLeft_add_eq_or_of_lt m.isLt, ← Nat.shiftLeft_add_eq_or_of_lt e.isLt,
    Nat.shiftLeft_eq, Nat.shiftLeft_eq]

theorem unpackSign_packComponents (s : Sign) (e : BitVec 11) (m : BitVec 52) :
    UnpackedFloat.unpackSign (UnpackedFloat.packComponents Format.binary64 s e m) = s.toBitVec := by
  have he := e.isLt
  have hm := m.isLt
  rw [← BitVec.toNat_inj, toNat_unpackSign, toNat_packComponents]
  omega

theorem ofBitVec_toBitVec (s : Sign) : Sign.ofBitVec s.toBitVec = s := by cases s <;> rfl

/-- A significand of full length, with an exponent in the range of doubles. -/
structure IsNormal (m : ℕ) (e : ℤ) : Prop where
  lower : 2 ^ 52 ≤ m
  upper : m < 2 ^ 53
  least : -1074 ≤ e
  greatest : e ≤ 971

variable {m : ℕ} {e : ℤ}

theorem log2_eq_of_length (hlower : 2 ^ 52 ≤ m) (hupper : m < 2 ^ 53) : m.log2 = 52 :=
  (Nat.log2_eq_iff (by omega)).mpr ⟨hlower, hupper⟩

theorem IsNormal.log2_eq (h : IsNormal m e) : m.log2 = 52 :=
  log2_eq_of_length h.lower h.upper

/-- **A normal float is unpacked as it was packed.** -/
theorem IsNormal.unpack_pack (h : IsNormal m e) (s : Sign) (hm : 0 < m) :
    UnpackedFloat.unpack Format.binary64 (UnpackedFloat.pack Format.binary64 (.finite s m e hm)) =
      .finite s m e hm := by
  obtain ⟨hlower, hupper, hleast, hgreatest⟩ := id h
  have hbias : (Format.binary64.exponentBias : ℤ) = 1023 := rfl
  obtain ⟨k, hk⟩ : ∃ k : ℕ, e = k - 1075 := ⟨(e + 1075).toNat, by omega⟩
  subst hk
  have hpack : UnpackedFloat.pack Format.binary64 (.finite s m (k - 1075) hm) =
      UnpackedFloat.packComponents Format.binary64 s (BitVec.ofNat _ k) (BitVec.ofNat _ m) := by
    have hbiased : ((k : ℤ) - 1075 + Format.binary64.exponentBias + (52 : ℕ)).toNat = k := by
      rw [hbias]
      omega
    have hrange : ¬2 ^ 11 ≤ k + 1 := by omega
    have hlength : 52 + 1 = Format.binary64.mantissaBits := rfl
    simp only [UnpackedFloat.pack, hbiased, h.log2_eq, if_neg hrange, if_pos hlength]
  have hones : (BitVec.ofNat 11 k) ≠ -1#11 := by
    rw [ne_eq, ← BitVec.toNat_inj, BitVec.toNat_ofNat]
    show ¬k % 2048 = 2047
    omega
  have hzeros : (BitVec.ofNat 11 k) ≠ 0#11 := by
    rw [ne_eq, ← BitVec.toNat_inj, BitVec.toNat_ofNat]
    show ¬k % 2048 = 0
    omega
  have hmantissa : (1#1 ++ BitVec.ofNat 52 m).toNat = m := by
    rw [toNat_one_append, BitVec.toNat_ofNat]
    omega
  have hexponent : ((BitVec.ofNat 11 k).toNat : ℤ) -
      (Format.binary64.exponentBias + (52 : ℕ)) = k - 1075 := by
    rw [BitVec.toNat_ofNat, hbias]
    omega
  rw [hpack]
  simp only [UnpackedFloat.unpack, UnpackedFloat.unpackMantissa_packComponents,
    UnpackedFloat.unpackExponent_packComponents, unpackSign_packComponents, ofBitVec_toBitVec,
    if_neg hones, if_neg hzeros, hmantissa, hexponent]

/-! ### Floats by their parts -/

/-- A float of normal size by its sign, significand and exponent. -/
structure HasParts (x : Float) (s : Sign) (m : ℕ) (e : ℤ) : Prop extends IsNormal m e where
  unpack_eq : ∃ hm, x.toModel.unpack = .finite s m e hm

namespace HasParts

variable {x : Float} {s : Sign}

theorem ofFloat_eq (h : HasParts x s m e) : ofFloat x = .finite ⟨isNegative s, m, e⟩ := by
  obtain ⟨hm, hunpack⟩ := h.unpack_eq
  rw [Binary64.ofFloat_eq, hunpack]
  rfl

theorem of_pack (h : IsNormal m e) (s : Sign) (hm : 0 < m) :
    HasParts (.ofModel (.pack (.finite s m e hm))) s m e where
  toIsNormal := h
  unpack_eq := ⟨hm, h.unpack_pack s hm⟩

theorem neg (h : HasParts x s m e) : HasParts (-x) (-s) m e := by
  obtain ⟨hm, hunpack⟩ := h.unpack_eq
  have hneg : -x = .ofModel (.pack (.finite (-s) m e hm)) :=
    congrArg (fun u : UnpackedFloat => Float.ofModel (.pack u.neg)) hunpack
  rw [hneg]
  exact of_pack h.toIsNormal _ _

end HasParts

/-! ### Zeros -/

theorem unpack_pack_zero (s : Sign) :
    UnpackedFloat.unpack Format.binary64 (UnpackedFloat.pack Format.binary64 (.zero s)) =
      .zero s := by
  cases s <;> rfl

theorem unpack_neg_zero {x : Float} {s : Sign} (hx : x.toModel.unpack = .zero s) :
    (-x).toModel.unpack = .zero (-s) := by
  show UnpackedFloat.unpack _ (UnpackedFloat.pack _ x.toModel.unpack.neg) = _
  rw [hx]
  exact unpack_pack_zero (-s)

/-! ### Words -/

theorem eq_finite_of_datumOf {u : UnpackedFloat} (h : datumOf u = .finite ⟨false, m, e⟩)
    (hm : 0 < m) : u = .finite .positive m e hm := by
  cases u with
  | infinity s => exact absurd h (by simp [datumOf])
  | notANumber => exact absurd h (by simp [datumOf])
  | zero s =>
    simp only [datumOf, Datum.finite.injEq, Finite.mk.injEq] at h
    omega
  | finite s m' e' hm' =>
    simp only [datumOf, Datum.finite.injEq, Finite.mk.injEq] at h
    obtain ⟨hs, rfl, rfl⟩ := h
    cases s with
    | negative => exact absurd hs (by decide)
    | positive => rfl

/-- A word of normal size has the parts that its bits tell. -/
theorem HasParts.ofSignWord {w : ℕ} (hlower : 2 ^ 52 ≤ w) (hupper : w < infinityWord) :
    HasParts (ofSignWord false w) .positive (2 ^ 52 + w % 2 ^ 52) ((w / 2 ^ 52 : ℕ) - 1075) := by
  have hbound : infinityWord = 2047 * 2 ^ 52 := rfl
  have hnormal : IsNormal (2 ^ 52 + w % 2 ^ 52) ((w / 2 ^ 52 : ℕ) - 1075) := by
    refine ⟨?_, ?_, ?_, ?_⟩ <;> omega
  have hm : 0 < 2 ^ 52 + w % 2 ^ 52 := by positivity
  have hword : (UInt64.ofNat w).toBitVec.toNat = w := UInt64.toNat_ofNat_of_lt (by
    have : UInt64.size = 2 ^ 64 := rfl
    omega)
  have hdatum : datumOf (UnpackedFloat.unpack Format.binary64 (UInt64.ofNat w).toBitVec) =
      .finite ⟨false, 2 ^ 52 + w % 2 ^ 52, (w / 2 ^ 52 : ℕ) - 1075⟩ := by
    have hsign : ¬Nat.pow 2 63 ≤ w := by
      show ¬2 ^ 63 ≤ w
      omega
    have hfield : w / Nat.pow 2 52 % 2048 = w / 2 ^ 52 := by
      show w / 2 ^ 52 % 2048 = _
      omega
    rw [← ofWord_eq, hword, ofWord, hfield]
    rw [if_neg (by omega), if_neg (by omega), decide_eq_false hsign]
    rfl
  have hunpack : UnpackedFloat.unpack Format.binary64 (UInt64.ofNat w).toBitVec =
      .finite .positive (2 ^ 52 + w % 2 ^ 52) ((w / 2 ^ 52 : ℕ) - 1075) hm :=
    eq_finite_of_datumOf hdatum hm
  have hfloat : Binary64.ofSignWord false w = .ofModel
      (.pack (.finite .positive (2 ^ 52 + w % 2 ^ 52) ((w / 2 ^ 52 : ℕ) - 1075) hm)) := by
    rw [← hunpack]
    rfl
  rw [hfloat]
  exact of_pack hnormal _ _

theorem le_nearestWord {n : ℕ} (hn : 0 < n) : 2 ^ 52 ≤ nearestWord n 1 := by
  have hlead : -1 ≤ floorLog2 n 1 := by
    have hone : Nat.log2 1 = 0 := rfl
    unfold floorLog2
    rw [hone]
    dsimp only
    split_ifs <;> omega
  have hinfinity : 2 ^ 52 ≤ infinityWord := by decide
  have hpow : Nat.pow 2 52 = 2 ^ 52 := rfl
  rw [nearestWord, if_neg hn.ne']
  dsimp only
  refine le_min ((Nat.le_mul_of_pos_left (2 ^ 52) ?_).trans (Nat.le_add_right _ _)) hinfinity
  omega

/-- The double nearest to a positive integer is a positive number or infinite. -/
theorem unpack_nearestWord {n : ℕ} (hn : 0 < n) :
    (∃ m e hm, (ofSignWord false (nearestWord n 1)).toModel.unpack = .finite .positive m e hm) ∨
      (ofSignWord false (nearestWord n 1)).toModel.unpack = .infinity .positive := by
  have hle : nearestWord n 1 ≤ infinityWord := by
    rw [nearestWord, if_neg hn.ne']
    exact min_le_right _ _
  rcases hle.lt_or_eq with hlt | heq
  · obtain ⟨hm, hunpack⟩ := (HasParts.ofSignWord (le_nearestWord hn) hlt).unpack_eq
    exact Or.inl ⟨_, _, hm, hunpack⟩
  · rw [heq]
    exact Or.inr rfl

end Binary64

end Equilibria
