import Mathlib
import Equilibria.Payoffs

/-!
# The order of a domain of computation

Doubles are ordered but for the undefined results, which compare with nothing.  What a loop does that
keeps the larger or the smaller of two values depends on no more than that:

* `Ranking` — values that compare as in a linear order, or with nothing;
* `Ranking.undercuts`, `Ranking.lt_asymm` — what remains of the laws of an order;
* `Double.lt_iff_rank`, `Double.ranking` — doubles compare by sign, exponent and mantissa;
* `Ranking.isSome_regret` — a regret compares, whatever the profile holds, since the largest gain is
  only ever replaced by a gain that exceeds it.
-/

namespace Equilibria

/-! ### Values that compare, or with nothing -/

/-- A domain of computation whose values have a place in a linear order, or compare with nothing. -/
structure Ranking (α : Type) [Scalar α] (K : Type) [LinearOrder K] where
  /-- The place of a value, nothing for a value that compares with nothing. -/
  rank : α → Option K
  /-- Values compare as their places do. -/
  lt_iff : ∀ a b : α, a < b ↔ ∃ x ∈ rank a, ∃ y ∈ rank b, x < y
  /-- Zero has a place. -/
  zero : (rank 0).isSome

namespace Ranking

variable {α : Type} [Scalar α] {K : Type} [LinearOrder K] (ρ : Ranking α K) {a b c : α}

include ρ

theorem lt_asymm (h : a < b) : ¬b < a := by
  rw [ρ.lt_iff] at h ⊢
  obtain ⟨x, hx, y, hy, hxy⟩ := h
  rintro ⟨y', hy', x', hx', hyx⟩
  cases Option.mem_unique hx hx'
  cases Option.mem_unique hy hy'
  exact absurd hyx hxy.asymm

theorem lt_irrefl (a : α) : ¬a < a := fun h => ρ.lt_asymm h h

/-- What undercuts a value undercuts all that do not undercut the value. -/
theorem undercuts (hb : (ρ.rank b).isSome) (h : c < a) (hab : ¬b < a) : c < b := by
  rw [ρ.lt_iff] at h hab ⊢
  obtain ⟨z, hz, x, hx, hzx⟩ := h
  obtain ⟨y, hy⟩ := Option.isSome_iff_exists.mp hb
  have hxy : x ≤ y := not_lt.mp fun hlt => hab ⟨y, hy, x, hx, hlt⟩
  exact ⟨z, hz, y, hy, hzx.trans_le hxy⟩

theorem isSome_of_lt (h : a < b) : (ρ.rank b).isSome := by
  obtain ⟨-, -, y, hy, -⟩ := (ρ.lt_iff a b).mp h
  exact Option.isSome_iff_exists.mpr ⟨y, hy⟩

/-! ### Regrets -/

theorem isSome_larger {best : α} (h : (ρ.rank best).isSome) (v : α) :
    (ρ.rank (MixedProfile.larger best v)).isSome := by
  unfold MixedProfile.larger
  split_ifs with hlt
  · exact ρ.isSome_of_lt hlt
  · exact h

/-- **The larger of many values**: where one starts or one of them, and no other exceeds it. -/
theorem foldl_larger_spec {start : α} (h : (ρ.rank start).isSome) (values : List α) :
    (values.foldl MixedProfile.larger start = start ∨ values.foldl MixedProfile.larger start ∈ values) ∧
      (ρ.rank (values.foldl MixedProfile.larger start)).isSome ∧
      ∀ v ∈ values, ¬values.foldl MixedProfile.larger start < v := by
  induction values using List.reverseRecOn with
  | nil => exact ⟨Or.inl rfl, h, fun v hv => absurd hv List.not_mem_nil⟩
  | append_singleton values v ih =>
    obtain ⟨hfound, hplace, hlargest⟩ := ih
    rw [List.foldl_concat]
    refine ⟨?_, ρ.isSome_larger hplace v, fun u hu => ?_⟩
    · unfold MixedProfile.larger
      split_ifs
      · exact Or.inr (by simp)
      · exact hfound.imp_right fun hmem => List.mem_append_left _ hmem
    · unfold MixedProfile.larger
      split_ifs with hlt
      · rcases List.mem_append.mp hu with hu | hu
        · exact fun hvu => hlargest u hu (ρ.undercuts (ρ.isSome_of_lt hvu) hlt (ρ.lt_asymm hvu))
        · rw [List.mem_singleton.mp hu]
          exact ρ.lt_irrefl v
      · rcases List.mem_append.mp hu with hu | hu
        · exact hlargest u hu
        · rwa [List.mem_singleton.mp hu]

/-- A fold that keeps the property of having a place. -/
theorem isSome_foldl {β : Type} {f : α → β → α} {start : α} (bs : List β)
    (hf : ∀ a b, (ρ.rank a).isSome → (ρ.rank (f a b)).isSome) (h : (ρ.rank start).isSome) :
    (ρ.rank (bs.foldl f start)).isSome := by
  induction bs generalizing start with
  | nil => exact h
  | cons b bs ih => exact ih (hf start b h)

/-- **A regret compares**, even if the profile holds values that do not. -/
theorem isSome_regret (t : Payoffs α) (x : MixedProfile α) : (ρ.rank (t.regret x)).isSome := by
  refine ρ.isSome_foldl _ (fun found player hfound => ?_) ρ.zero
  exact ρ.isSome_foldl _ (fun worst v hworst => ρ.isSome_larger hworst _) hfound

end Ranking

/-! ### Doubles -/

namespace Double

open Float.Model (UnpackedFloat)

/-- Places of floats: a class, from minus infinity to infinity, then exponent and mantissa, which
count the other way below zero. -/
abbrev Place := ℤ ×ₗ ℤ ×ₗ ℤ

/-- The place of a class, an exponent and a mantissa. -/
def place (kind exponent mantissa : ℤ) : Place := toLex (kind, toLex (exponent, mantissa))

/-- The place of a float, none for an undefined result. -/
def placeOf : UnpackedFloat → Option Place
  | .notANumber => none
  | .infinity .negative => some (place (-2) 0 0)
  | .finite .negative m e _ => some (place (-1) (-e) (-m))
  | .zero _ => some (place 0 0 0)
  | .finite .positive m e _ => some (place 1 e m)
  | .infinity .positive => some (place 2 0 0)

theorem place_lt_iff (k e m k' e' m' : ℤ) :
    place k e m < place k' e' m' ↔ k < k' ∨ k = k' ∧ (e < e' ∨ e = e' ∧ m < m') := by
  unfold place
  rw [Prod.Lex.toLex_lt_toLex, Prod.Lex.toLex_lt_toLex]

theorem compare_then_eq_lt_iff (e e' : ℤ) (m m' : ℕ) :
    (compare e e').then (compare m m') = .lt ↔ e < e' ∨ e = e' ∧ m < m' := by
  rw [Ordering.then_eq_lt, compare_lt_iff_lt, compare_eq_iff_eq, compare_lt_iff_lt]

theorem compare_then_eq_gt_iff (e e' : ℤ) (m m' : ℕ) :
    (compare e e').then (compare m m') = .gt ↔ e' < e ∨ e = e' ∧ m' < m := by
  rw [Ordering.then_eq_gt, compare_gt_iff_gt, compare_eq_iff_eq, compare_gt_iff_gt]

/-- **Floats compare as their places do**, and an undefined one compares with none. -/
theorem compare_eq_lt_iff (a b : UnpackedFloat) :
    a.compare b = some .lt ↔ ∃ x ∈ placeOf a, ∃ y ∈ placeOf b, x < y := by
  cases a with
  | notANumber => simp [UnpackedFloat.compare, placeOf]
  | infinity s =>
    have hsign : compare UnpackedFloat.Sign.negative UnpackedFloat.Sign.positive = .lt := rfl
    cases s <;> rcases b with (_ | _) | _ | _ | ⟨_ | _, m', e', -⟩ <;>
      simp [UnpackedFloat.compare, placeOf, place_lt_iff, hsign]
  | zero s =>
    rcases b with (_ | _) | _ | _ | ⟨_ | _, m', e', -⟩ <;>
      simp [UnpackedFloat.compare, placeOf, place_lt_iff]
  | finite s m e hm =>
    -- below zero the exponents and the mantissas are compared the other way
    cases s <;> rcases b with (_ | _) | _ | _ | ⟨_ | _, m', e', -⟩ <;>
      simp [UnpackedFloat.compare, placeOf, place_lt_iff, compare_then_eq_lt_iff,
        compare_then_eq_gt_iff]

/-- The place of a double. -/
def rank (a : Double) : Option Place := placeOf a.toFloat.toModel.unpack

theorem lt_iff_unpack (x y : Float) : x < y ↔ x.toModel.unpack.lt y.toModel.unpack = true := by
  show (decide (x.toModel < y.toModel) : Bool) = true ↔ _
  exact decide_eq_true_iff

theorem le_iff_unpack (x y : Float) : x ≤ y ↔ x.toModel.unpack.le y.toModel.unpack = true := by
  show (decide (x.toModel ≤ y.toModel) : Bool) = true ↔ _
  exact decide_eq_true_iff

theorem lt_iff_rank (a b : Double) : a < b ↔ ∃ x ∈ rank a, ∃ y ∈ rank b, x < y := by
  have hlt : a < b ↔ a.toFloat < b.toFloat := Iff.rfl
  rw [hlt, lt_iff_unpack, UnpackedFloat.lt, beq_iff_eq, compare_eq_lt_iff]
  rfl

/-- **Doubles but for the undefined results are ordered.** -/
def ranking : Ranking Double Place where
  rank := rank
  lt_iff := lt_iff_rank
  zero := by decide +kernel

end Double

end Equilibria
