import Mathlib
import Equilibria.Proofs.Capped

/-!
# Equilibria of two players and points of their polytopes

Two players choose mixtures `x` and `y`, and each has a matrix of payoffs with a row per strategy of
their own.  With positive matrices `D` and `C` the equilibria are, up to scale, the pairs of points
of `{ p ≥ 0 : C p ≤ 1 }` and `{ q ≥ 0 : D q ≤ 1 }` that carry all labels between them:

* `IsEquilibrium`, `isEquilibrium_raise` — equilibria, and that raising all payoffs of a player by
  the same amount does not change them;
* `Complementary` — all labels are carried;
* `isEquilibrium_of_complementary` — such a pair, each point scaled to sum one, is an equilibrium;
* `IsEquilibrium.complementary` — every equilibrium comes from such a pair, by the factors that the
  payoffs give;
* `isExtreme_iff` — the extreme equilibria come from the pairs of vertices.

The factor `y ⬝ᵥ C *ᵥ x` is linear in `x`, so that scaling takes segments of equilibria against `y`
to segments of the polytope and back.
-/

namespace Equilibria

namespace Bimatrix

open Matrix

variable {δ κ : Type*} [Fintype δ] [Fintype κ]

/-! ### Equilibria -/

/-- **A Nash equilibrium in mixtures**: no player has a mixture that gives more against the other's.
The first player's strategies are the rows of `A`, the second player's those of `B`. -/
structure IsEquilibrium (A : Matrix δ κ ℚ) (B : Matrix κ δ ℚ) (x : δ → ℚ) (y : κ → ℚ) : Prop where
  first_mem : x ∈ stdSimplex ℚ δ
  second_mem : y ∈ stdSimplex ℚ κ
  first_best : ∀ x' ∈ stdSimplex ℚ δ, x' ⬝ᵥ A *ᵥ y ≤ x ⬝ᵥ A *ᵥ y
  second_best : ∀ y' ∈ stdSimplex ℚ κ, y' ⬝ᵥ B *ᵥ x ≤ y ⬝ᵥ B *ᵥ x

/-- All entries raised by the same amount. -/
def raise (A : Matrix δ κ ℚ) (α : ℚ) : Matrix δ κ ℚ := Matrix.of fun i j => A i j + α

variable {A D : Matrix δ κ ℚ} {B C : Matrix κ δ ℚ} {x p : δ → ℚ} {y q : κ → ℚ}

theorem IsEquilibrium.swap (h : IsEquilibrium A B x y) : IsEquilibrium B A y x :=
  ⟨h.second_mem, h.first_mem, h.second_best, h.first_best⟩

theorem dotProduct_le {x w : δ → ℚ} {c : ℚ} (hx : x ∈ stdSimplex ℚ δ) (hw : ∀ i, w i ≤ c) :
    x ⬝ᵥ w ≤ c := by
  calc x ⬝ᵥ w ≤ ∑ i, x i * c := Finset.sum_le_sum fun i _ => mul_le_mul_of_nonneg_left (hw i) (hx.1 i)
    _ = c := by rw [← Finset.sum_mul, hx.2, one_mul]

/-- Against a mixture no pure strategy gives more than the best mixture. -/
theorem IsEquilibrium.mulVec_le [DecidableEq δ] (h : IsEquilibrium A B x y) (i : δ) :
    (A *ᵥ y) i ≤ x ⬝ᵥ A *ᵥ y := by
  have hpure := h.first_best (Pi.single i 1) (single_mem_stdSimplex ℚ i)
  rwa [single_one_dotProduct] at hpure

theorem dotProduct_raise (α : ℚ) {x : δ → ℚ} (hx : x ∈ stdSimplex ℚ δ) {y : κ → ℚ}
    (hy : y ∈ stdSimplex ℚ κ) : x ⬝ᵥ raise A α *ᵥ y = x ⬝ᵥ A *ᵥ y + α := by
  have hrow : raise A α *ᵥ y = A *ᵥ y + fun _ => α := by
    funext i
    show ∑ j, (A i j + α) * y j = ∑ j, A i j * y j + α
    simp only [add_mul, Finset.sum_add_distrib, ← Finset.mul_sum, hy.2, mul_one]
  have hconst : x ⬝ᵥ (fun _ => α) = α := by
    show ∑ i, x i * α = α
    rw [← Finset.sum_mul, hx.2, one_mul]
  rw [hrow, dotProduct_add, hconst]

/-- **Equilibria do not change when payoffs are raised.** -/
theorem isEquilibrium_raise (α β : ℚ) :
    IsEquilibrium (raise A α) (raise B β) x y ↔ IsEquilibrium A B x y := by
  constructor
  · intro h
    refine ⟨h.first_mem, h.second_mem, fun x' hx' => ?_, fun y' hy' => ?_⟩
    · have hle := h.first_best x' hx'
      rwa [dotProduct_raise α hx' h.second_mem, dotProduct_raise α h.first_mem h.second_mem,
        add_le_add_iff_right] at hle
    · have hle := h.second_best y' hy'
      rwa [dotProduct_raise β hy' h.first_mem, dotProduct_raise β h.second_mem h.first_mem,
        add_le_add_iff_right] at hle
  · intro h
    refine ⟨h.first_mem, h.second_mem, fun x' hx' => ?_, fun y' hy' => ?_⟩
    · rw [dotProduct_raise α hx' h.second_mem, dotProduct_raise α h.first_mem h.second_mem,
        add_le_add_iff_right]
      exact h.first_best x' hx'
    · rw [dotProduct_raise β hy' h.first_mem, dotProduct_raise β h.second_mem h.first_mem,
        add_le_add_iff_right]
      exact h.second_best y' hy'

/-! ### Points with all labels -/

/-- Every strategy is unused at its player's point or a best response to the other's. -/
def Complementary (C : Matrix κ δ ℚ) (D : Matrix δ κ ℚ) (p : δ → ℚ) (q : κ → ℚ) : Prop :=
  (∀ i, p i = 0 ∨ (D *ᵥ q) i = 1) ∧ ∀ j, q j = 0 ∨ (C *ᵥ p) j = 1

/-- A point scaled to sum one. -/
def scaled (p : δ → ℚ) : δ → ℚ := (∑ i, p i)⁻¹ • p

/-- A mixture scaled to the polytope. -/
def stretched (C : Matrix κ δ ℚ) (x : δ → ℚ) (y : κ → ℚ) : δ → ℚ := (y ⬝ᵥ C *ᵥ x)⁻¹ • x

omit [Fintype κ] in
theorem mulVec_scaled (C : Matrix κ δ ℚ) (p : δ → ℚ) :
    C *ᵥ scaled p = (∑ i, p i)⁻¹ • C *ᵥ p :=
  mulVec_smul C _ p

theorem mulVec_stretched (C : Matrix κ δ ℚ) (x : δ → ℚ) (y : κ → ℚ) (j : κ) :
    (C *ᵥ stretched C x y) j = (y ⬝ᵥ C *ᵥ x)⁻¹ * (C *ᵥ x) j := by
  rw [stretched, mulVec_smul]
  rfl

theorem Complementary.swap (h : Complementary C D p q) : Complementary D C q p := ⟨h.2, h.1⟩

theorem sum_pos_of_ne_zero (hnonneg : 0 ≤ p) (hne : p ≠ 0) : 0 < ∑ i, p i := by
  obtain ⟨i, hi⟩ := Function.ne_iff.mp hne
  exact Finset.sum_pos' (fun i _ => hnonneg i)
    ⟨i, Finset.mem_univ i, lt_of_le_of_ne (hnonneg i) (Ne.symm hi)⟩

theorem scaled_mem (hnonneg : 0 ≤ p) (hne : p ≠ 0) : scaled p ∈ stdSimplex ℚ δ := by
  have hpos := sum_pos_of_ne_zero hnonneg hne
  constructor
  · intro i
    exact mul_nonneg (inv_pos.mpr hpos).le (hnonneg i)
  · show ∑ i, (∑ k, p k)⁻¹ * p i = 1
    rw [← Finset.mul_sum, inv_mul_cancel₀ hpos.ne']

theorem scaled_smul {s : ℚ} (hs : s ≠ 0) (hx : x ∈ stdSimplex ℚ δ) : scaled (s • x) = x := by
  have hsum : ∑ i, (s • x) i = s := by
    show ∑ i, s * x i = s
    rw [← Finset.mul_sum, hx.2, mul_one]
  rw [scaled, hsum, inv_smul_smul₀ hs]

theorem ne_zero_of_mem_stdSimplex (hx : x ∈ stdSimplex ℚ δ) : x ≠ 0 := by
  rintro rfl
  have h := hx.2
  simp at h

theorem dotProduct_eq_one {w : δ → ℚ} (hx : x ∈ stdSimplex ℚ δ) (hw : ∀ i, x i = 0 ∨ w i = 1) :
    x ⬝ᵥ w = 1 := by
  have hterm : ∀ i, x i * w i = x i := by
    intro i
    rcases hw i with hi | hi
    · rw [hi, zero_mul]
    · rw [hi, mul_one]
  rw [← hx.2]
  exact Finset.sum_congr rfl fun i _ => hterm i

/-- What the first point gives against the second, both scaled. -/
theorem dotProduct_scaled (hp : p ∈ capped C) (hp0 : p ≠ 0) (h : Complementary C D p q) :
    scaled p ⬝ᵥ D *ᵥ scaled q = (∑ j, q j)⁻¹ := by
  have hone : scaled p ⬝ᵥ D *ᵥ q = 1 := by
    apply dotProduct_eq_one (scaled_mem hp.1 hp0)
    intro i
    rcases h.1 i with hi | hi
    · left
      show (∑ k, p k)⁻¹ * p i = 0
      rw [hi, mul_zero]
    · exact Or.inr hi
  rw [mulVec_scaled, dotProduct_smul, hone, smul_eq_mul, mul_one]

theorem best_of_complementary (hp : p ∈ capped C) (hq : q ∈ capped D) (hp0 : p ≠ 0) (hq0 : q ≠ 0)
    (h : Complementary C D p q) :
    ∀ x' ∈ stdSimplex ℚ δ, x' ⬝ᵥ D *ᵥ scaled q ≤ scaled p ⬝ᵥ D *ᵥ scaled q := by
  intro x' hx'
  rw [dotProduct_scaled hp hp0 h]
  rw [mulVec_scaled, dotProduct_smul, smul_eq_mul]
  have hle : x' ⬝ᵥ D *ᵥ q ≤ 1 := dotProduct_le hx' hq.2
  exact mul_le_of_le_one_right (inv_pos.mpr (sum_pos_of_ne_zero hq.1 hq0)).le hle

/-- **Two points with all labels are an equilibrium** once each is scaled to sum one. -/
theorem isEquilibrium_of_complementary (hp : p ∈ capped C) (hq : q ∈ capped D) (hp0 : p ≠ 0)
    (hq0 : q ≠ 0) (h : Complementary C D p q) : IsEquilibrium D C (scaled p) (scaled q) where
  first_mem := scaled_mem hp.1 hp0
  second_mem := scaled_mem hq.1 hq0
  first_best := best_of_complementary hp hq hp0 hq0 h
  second_best := best_of_complementary hq hp hq0 hp0 h.swap

/-- A point is found again from the two mixtures. -/
theorem stretched_scaled (hp : p ∈ capped C) (hq : q ∈ capped D) (hp0 : p ≠ 0) (hq0 : q ≠ 0)
    (h : Complementary C D p q) : stretched C (scaled p) (scaled q) = p := by
  unfold stretched
  rw [dotProduct_scaled hq hq0 h.swap, inv_inv, scaled,
    smul_inv_smul₀ (sum_pos_of_ne_zero hp.1 hp0).ne']

section Positive

variable (hC : ∀ j i, 0 < C j i)

include hC in
theorem dotProduct_pos (hx : x ∈ stdSimplex ℚ δ) (hy : y ∈ stdSimplex ℚ κ) : 0 < y ⬝ᵥ C *ᵥ x := by
  have hrow : ∀ j, 0 < (C *ᵥ x) j := by
    intro j
    obtain ⟨i, hi⟩ := Function.ne_iff.mp (ne_zero_of_mem_stdSimplex hx)
    apply Finset.sum_pos'
    · exact fun i _ => mul_nonneg (hC j i).le (hx.1 i)
    · exact ⟨i, Finset.mem_univ i, mul_pos (hC j i) (lt_of_le_of_ne (hx.1 i) (Ne.symm hi))⟩
  obtain ⟨j, hj⟩ := Function.ne_iff.mp (ne_zero_of_mem_stdSimplex hy)
  apply Finset.sum_pos'
  · exact fun j _ => mul_nonneg (hy.1 j) (hrow j).le
  · exact ⟨j, Finset.mem_univ j, mul_pos (lt_of_le_of_ne (hy.1 j) (Ne.symm hj)) (hrow j)⟩

include hC in
theorem scaled_stretched (hx : x ∈ stdSimplex ℚ δ) (hy : y ∈ stdSimplex ℚ κ) :
    scaled (stretched C x y) = x :=
  scaled_smul (inv_ne_zero (dotProduct_pos hC hx hy).ne') hx

include hC in
theorem stretched_ne_zero (hx : x ∈ stdSimplex ℚ δ) (hy : y ∈ stdSimplex ℚ κ) :
    stretched C x y ≠ 0 :=
  smul_ne_zero (inv_ne_zero (dotProduct_pos hC hx hy).ne') (ne_zero_of_mem_stdSimplex hx)

include hC in
theorem IsEquilibrium.stretched_mem (h : IsEquilibrium D C x y) : stretched C x y ∈ capped C := by
  classical
  have hpos := dotProduct_pos hC h.first_mem h.second_mem
  constructor
  · intro i
    exact mul_nonneg (inv_pos.mpr hpos).le (h.first_mem.1 i)
  · intro j
    show (C *ᵥ stretched C x y) j ≤ 1
    rw [mulVec_stretched, inv_mul_le_one₀ hpos]
    exact h.swap.mulVec_le j

include hC in
/-- A strategy in use is a best response, that is its row is tight. -/
theorem IsEquilibrium.tight_of_used (h : IsEquilibrium D C x y) (j : κ) :
    y j = 0 ∨ (C *ᵥ stretched C x y) j = 1 := by
  classical
  have hpos := dotProduct_pos hC h.first_mem h.second_mem
  have hterm : ∀ j ∈ Finset.univ, y j * (C *ᵥ x) j ≤ y j * (y ⬝ᵥ C *ᵥ x) :=
    fun j _ => mul_le_mul_of_nonneg_left (h.swap.mulVec_le j) (h.second_mem.1 j)
  have hsum : ∑ j, y j * (C *ᵥ x) j = ∑ j, y j * (y ⬝ᵥ C *ᵥ x) := by
    rw [← Finset.sum_mul, h.second_mem.2, one_mul]
    rfl
  have heq := (Finset.sum_eq_sum_iff_of_le hterm).mp hsum j (Finset.mem_univ j)
  rcases eq_or_ne (y j) 0 with hj | hj
  · exact Or.inl hj
  · right
    rw [mulVec_stretched, mul_left_cancel₀ hj heq, inv_mul_cancel₀ hpos.ne']

include hC in
/-- **Every equilibrium comes from two points with all labels.** -/
theorem IsEquilibrium.complementary (hD : ∀ i j, 0 < D i j) (h : IsEquilibrium D C x y) :
    Complementary C D (stretched C x y) (stretched D y x) := by
  constructor
  · intro i
    rcases h.swap.tight_of_used hD i with hi | hi
    · left
      show (y ⬝ᵥ C *ᵥ x)⁻¹ * x i = 0
      rw [hi, mul_zero]
    · exact Or.inr hi
  · intro j
    rcases h.tight_of_used hC j with hj | hj
    · left
      show (x ⬝ᵥ D *ᵥ y)⁻¹ * y j = 0
      rw [hj, mul_zero]
    · exact Or.inr hj

/-! ### Extreme equilibria -/

/-- The first player's mixtures that are in equilibrium with a mixture of the second. -/
def fibre (D : Matrix δ κ ℚ) (C : Matrix κ δ ℚ) (y : κ → ℚ) : Set (δ → ℚ) :=
  {x | IsEquilibrium D C x y}

omit [Fintype κ] in
/-- Scaling takes segments to segments. -/
theorem scaled_mem_openSegment {p₁ p₂ : δ → ℚ} (h₁ : 0 < ∑ i, p₁ i) (h₂ : 0 < ∑ i, p₂ i)
    (hseg : p ∈ openSegment ℚ p₁ p₂) : scaled p ∈ openSegment ℚ (scaled p₁) (scaled p₂) := by
  obtain ⟨s, t, hs, ht, -, rfl⟩ := hseg
  have hsum : ∑ i, (s • p₁ + t • p₂) i = s * ∑ i, p₁ i + t * ∑ i, p₂ i := by
    show ∑ i, (s * p₁ i + t * p₂ i) = _
    rw [Finset.sum_add_distrib, ← Finset.mul_sum, ← Finset.mul_sum]
  have hpos : 0 < s * ∑ i, p₁ i + t * ∑ i, p₂ i := by positivity
  refine ⟨s * (∑ i, p₁ i) / (s * ∑ i, p₁ i + t * ∑ i, p₂ i),
    t * (∑ i, p₂ i) / (s * ∑ i, p₁ i + t * ∑ i, p₂ i), by positivity, by positivity, ?_, ?_⟩
  · field_simp
  · unfold scaled
    rw [hsum]
    match_scalars <;> field_simp

include hC in
/-- Inside a segment of equilibria every label of the middle is one of the ends. -/
theorem IsEquilibrium.eq_of_stretched_extreme (h : IsEquilibrium D C x y)
    (hext : stretched C x y ∈ (capped C).extremePoints ℚ) {x₁ x₂ : δ → ℚ}
    (h₁ : IsEquilibrium D C x₁ y) (h₂ : IsEquilibrium D C x₂ y)
    (hseg : x ∈ openSegment ℚ x₁ x₂) : x₁ = x := by
  classical
  obtain ⟨s, t, hs, ht, hst, heq⟩ := hseg
  have hpos := dotProduct_pos hC h.first_mem h.second_mem
  have hpos₁ := dotProduct_pos hC h₁.first_mem h.second_mem
  have hmulVec : C *ᵥ x = s • C *ᵥ x₁ + t • C *ᵥ x₂ := by
    rw [← heq, mulVec_add, mulVec_smul, mulVec_smul]
  have hvalue : y ⬝ᵥ C *ᵥ x = s * (y ⬝ᵥ C *ᵥ x₁) + t * (y ⬝ᵥ C *ᵥ x₂) := by
    rw [hmulVec, dotProduct_add, dotProduct_smul, dotProduct_smul, smul_eq_mul, smul_eq_mul]
  have hzero : ∀ i, stretched C x y i = 0 → stretched C x₁ y i = 0 := by
    intro i hi
    have hx : x i = 0 := (mul_eq_zero.mp hi).resolve_left (inv_ne_zero hpos.ne')
    have hsum : s * x₁ i + t * x₂ i = 0 := by
      rw [← hx, ← heq]
      rfl
    have hx₁ : s * x₁ i = 0 := le_antisymm
      (by linarith [mul_nonneg ht.le (h₂.first_mem.1 i)]) (mul_nonneg hs.le (h₁.first_mem.1 i))
    show (y ⬝ᵥ C *ᵥ x₁)⁻¹ * x₁ i = 0
    rw [(mul_eq_zero.mp hx₁).resolve_left hs.ne', mul_zero]
  have hone : ∀ j, (C *ᵥ stretched C x y) j = 1 → (C *ᵥ stretched C x₁ y) j = 1 := by
    intro j hj
    rw [mulVec_stretched, inv_mul_eq_one₀ hpos.ne'] at hj
    have hrow : (C *ᵥ x) j = s * (C *ᵥ x₁) j + t * (C *ᵥ x₂) j := by
      rw [hmulVec]
      rfl
    have hle₁ := mul_le_mul_of_nonneg_left (h₁.swap.mulVec_le j) hs.le
    have hle₂ := mul_le_mul_of_nonneg_left (h₂.swap.mulVec_le j) ht.le
    have hsame : s * (C *ᵥ x₁) j = s * (y ⬝ᵥ C *ᵥ x₁) := by linarith
    rw [mulVec_stretched, mul_left_cancel₀ hs.ne' hsame, inv_mul_cancel₀ hpos₁.ne']
  have hstretched := Capped.eq_of_labels hext hzero hone
  rw [← scaled_stretched hC h₁.first_mem h.second_mem, hstretched,
    scaled_stretched hC h.first_mem h.second_mem]

include hC in
/-- **Extreme mixtures come from vertices.** -/
theorem IsEquilibrium.mem_extremePoints_fibre_iff (hD : ∀ i j, 0 < D i j)
    (h : IsEquilibrium D C x y) :
    x ∈ (fibre D C y).extremePoints ℚ ↔ stretched C x y ∈ (capped C).extremePoints ℚ := by
  constructor
  · intro hext
    refine mem_extremePoints_iff_left.mpr ⟨h.stretched_mem hC, fun p₁ h₁ p₂ h₂ hseg => ?_⟩
    have hlabels := h.complementary hC hD
    have hq := h.swap.stretched_mem hD
    have hq0 := stretched_ne_zero hD h.second_mem h.first_mem
    -- Both ends have the labels of the middle, hence are in equilibrium with `y` as well.
    have hend : ∀ p', Polyhedron.tight (Capped.side C) Capped.bound (stretched C x y) ⊆
        Polyhedron.tight (Capped.side C) Capped.bound p' →
        Complementary C D p' (stretched D y x) ∧ p' ≠ 0 := by
      intro p' hsub
      obtain ⟨hzero, hone⟩ := Capped.tight_subset_iff.mp hsub
      refine ⟨⟨fun i => (hlabels.1 i).imp_left (hzero i),
        fun j => (hlabels.2 j).imp_right (hone j)⟩, ?_⟩
      rintro rfl
      obtain ⟨j, hj⟩ := Function.ne_iff.mp hq0
      have hrow := hone j ((hlabels.2 j).resolve_left hj)
      rw [mulVec_zero] at hrow
      exact zero_ne_one hrow
    have htight := Polyhedron.tight_of_openSegment (a := Capped.side C) (b := Capped.bound)
      (by rwa [← Capped.capped_eq_region]) (by rwa [← Capped.capped_eq_region]) hseg
    obtain ⟨hcomp₁, hne₁⟩ := hend p₁ fun l hl => (htight hl).1
    obtain ⟨hcomp₂, hne₂⟩ := hend p₂ fun l hl => (htight hl).2
    have hy : scaled (stretched D y x) = y := scaled_stretched hD h.second_mem h.first_mem
    have heq₁ := isEquilibrium_of_complementary h₁ hq hne₁ hq0 hcomp₁
    have heq₂ := isEquilibrium_of_complementary h₂ hq hne₂ hq0 hcomp₂
    rw [hy] at heq₁ heq₂
    have hx : scaled p₁ = x := by
      refine (mem_extremePoints_iff_left.mp hext).2 _ heq₁ _ heq₂ ?_
      rw [← scaled_stretched hC h.first_mem h.second_mem]
      exact scaled_mem_openSegment (sum_pos_of_ne_zero h₁.1 hne₁) (sum_pos_of_ne_zero h₂.1 hne₂) hseg
    have hback := stretched_scaled h₁ hq hne₁ hq0 hcomp₁
    rw [hx, hy] at hback
    exact hback.symm
  · intro hext
    exact mem_extremePoints_iff_left.mpr
      ⟨h, fun x₁ h₁ x₂ h₂ hseg => h.eq_of_stretched_extreme hC hext h₁ h₂ hseg⟩

/-- An equilibrium of which each mixture is extreme among those in equilibrium with the other. -/
structure IsExtreme (D : Matrix δ κ ℚ) (C : Matrix κ δ ℚ) (x : δ → ℚ) (y : κ → ℚ) : Prop where
  equilibrium : IsEquilibrium D C x y
  first_extreme : x ∈ (fibre D C y).extremePoints ℚ
  second_extreme : y ∈ (fibre C D x).extremePoints ℚ

include hC in
/-- **The extreme equilibria are the pairs of vertices with all labels**, each vertex but the origin
scaled to sum one. -/
theorem isExtreme_iff (hD : ∀ i j, 0 < D i j) :
    IsExtreme D C x y ↔ ∃ p ∈ (capped C).extremePoints ℚ, ∃ q ∈ (capped D).extremePoints ℚ,
      p ≠ 0 ∧ q ≠ 0 ∧ Complementary C D p q ∧ x = scaled p ∧ y = scaled q := by
  constructor
  · rintro ⟨h, hx, hy⟩
    refine ⟨stretched C x y, (h.mem_extremePoints_fibre_iff hC hD).mp hx, stretched D y x,
      (h.swap.mem_extremePoints_fibre_iff hD hC).mp hy, stretched_ne_zero hC h.first_mem h.second_mem,
      stretched_ne_zero hD h.second_mem h.first_mem, h.complementary hC hD, ?_, ?_⟩
    · exact (scaled_stretched hC h.first_mem h.second_mem).symm
    · exact (scaled_stretched hD h.second_mem h.first_mem).symm
  · rintro ⟨p, hp, q, hq, hp0, hq0, hlabels, rfl, rfl⟩
    have h := isEquilibrium_of_complementary hp.1 hq.1 hp0 hq0 hlabels
    refine ⟨h, (h.mem_extremePoints_fibre_iff hC hD).mpr ?_,
      (h.swap.mem_extremePoints_fibre_iff hD hC).mpr ?_⟩
    · rwa [stretched_scaled hp.1 hq.1 hp0 hq0 hlabels]
    · rwa [stretched_scaled hq.1 hp.1 hq0 hp0 hlabels.swap]

end Positive

theorem IsExtreme.swap (h : IsExtreme D C x y) : IsExtreme C D y x :=
  ⟨h.equilibrium.swap, h.second_extreme, h.first_extreme⟩

/-- Which equilibria are extreme depends on the equilibria only. -/
theorem isExtreme_congr {A' : Matrix δ κ ℚ} {B' : Matrix κ δ ℚ}
    (h : ∀ x y, IsEquilibrium A' B' x y ↔ IsEquilibrium A B x y) :
    IsExtreme A' B' x y ↔ IsExtreme A B x y := by
  have hfirst : fibre A' B' y = fibre A B y := Set.ext fun x' => h x' y
  have hsecond : fibre B' A' x = fibre B A x :=
    Set.ext fun y' => ⟨fun h' => ((h x y').mp h'.swap).swap, fun h' => ((h x y').mpr h'.swap).swap⟩
  constructor
  · rintro ⟨heq, hx, hy⟩
    exact ⟨(h x y).mp heq, hfirst ▸ hx, hsecond ▸ hy⟩
  · rintro ⟨heq, hx, hy⟩
    exact ⟨(h x y).mpr heq, hfirst.symm ▸ hx, hsecond.symm ▸ hy⟩

/-- Raising payoffs does not change which equilibria are extreme. -/
theorem isExtreme_raise (α β : ℚ) : IsExtreme (raise A α) (raise B β) x y ↔ IsExtreme A B x y :=
  isExtreme_congr fun _ _ => isEquilibrium_raise α β

end Bimatrix

end Equilibria
