import Mathlib
import Equilibria.Proofs.Polyhedron

/-!
# Polytopes with bounded rows

A best-response polytope is `{ z ≥ 0 : C z ≤ 1 }`.  Its inequalities are the coordinates and the
rows of `C`, and these are the labels of a player's own strategies and of the opponent's:

* `Capped.mem_extremePoints_iff` — a point is extreme when its labels leave no direction free;
* `Capped.eq_of_labels` — a vertex is determined by its labels;
* `Capped.exists_side_pos` — with positive coefficients the polytope is bounded;
* `Capped.mem_convexHull_face` — a point is a mixture of the vertices that carry its labels.
-/

namespace Equilibria

open Matrix

variable {δ κ : Type*} [Fintype δ]

/-- The polytope `{ z ≥ 0 : C z ≤ 1 }`. -/
def capped (C : Matrix κ δ ℚ) : Set (δ → ℚ) := {z | 0 ≤ z ∧ C *ᵥ z ≤ 1}

namespace Capped

/-- The left sides of the inequalities: the signs of the coordinates, and the rows. -/
def side (C : Matrix κ δ ℚ) : δ ⊕ κ → (δ → ℚ) →ₗ[ℚ] ℚ
  | .inl i => -LinearMap.proj i
  | .inr j => LinearMap.proj j ∘ₗ C.mulVecLin

/-- The right sides of the inequalities. -/
def bound : δ ⊕ κ → ℚ
  | .inl _ => 0
  | .inr _ => 1

variable {C : Matrix κ δ ℚ} {z v w : δ → ℚ}

@[simp] theorem side_inl (i : δ) (z : δ → ℚ) : side C (.inl i) z = -z i := rfl

@[simp] theorem side_inr (j : κ) (z : δ → ℚ) : side C (.inr j) z = (C *ᵥ z) j := rfl

theorem capped_eq_region (C : Matrix κ δ ℚ) : capped C = Polyhedron.region (side C) bound := by
  ext z
  constructor
  · rintro ⟨hnonneg, hle⟩ (i | j)
    · exact neg_nonpos.mpr (hnonneg i)
    · exact hle j
  · intro h
    exact ⟨fun i => neg_nonpos.mp (h (.inl i)), fun j => h (.inr j)⟩

/-- The label of a coordinate is tight where the coordinate is zero. -/
theorem inl_mem_tight (i : δ) : .inl i ∈ Polyhedron.tight (side C) bound z ↔ z i = 0 :=
  neg_eq_zero

/-- The label of a row is tight where the row attains its bound. -/
theorem inr_mem_tight (j : κ) : .inr j ∈ Polyhedron.tight (side C) bound z ↔ (C *ᵥ z) j = 1 :=
  Iff.rfl

/-- Where the second point has all labels of the first. -/
theorem tight_subset_iff :
    Polyhedron.tight (side C) bound v ⊆ Polyhedron.tight (side C) bound w ↔
      (∀ i, v i = 0 → w i = 0) ∧ ∀ j, (C *ᵥ v) j = 1 → (C *ᵥ w) j = 1 := by
  constructor
  · intro h
    exact ⟨fun i hi => (inl_mem_tight i).mp (h ((inl_mem_tight i).mpr hi)),
      fun j hj => (inr_mem_tight j).mp (h ((inr_mem_tight j).mpr hj))⟩
  · rintro ⟨hzero, hone⟩ (i | j) hl
    · exact (inl_mem_tight i).mpr (hzero i ((inl_mem_tight i).mp hl))
    · exact (inr_mem_tight j).mpr (hone j ((inr_mem_tight j).mp hl))

/-- With positive coefficients the polytope is bounded. -/
theorem exists_side_pos [Nonempty κ] (hpos : ∀ j i, 0 < C j i) (u : δ → ℚ) (hu : u ≠ 0) :
    ∃ l, 0 < side C l u := by
  by_contra hcon
  push Not at hcon
  have hnonneg : ∀ i, 0 ≤ u i := fun i => neg_nonpos.mp (hcon (.inl i))
  obtain ⟨j⟩ := ‹Nonempty κ›
  obtain ⟨i, hi⟩ := Function.ne_iff.mp hu
  have hle : C j i * u i ≤ (C *ᵥ u) j :=
    Finset.single_le_sum (f := fun i => C j i * u i)
      (fun i _ => mul_nonneg (hpos j i).le (hnonneg i)) (Finset.mem_univ i)
  have hlt : 0 < C j i * u i := mul_pos (hpos j i) (lt_of_le_of_ne (hnonneg i) (Ne.symm hi))
  exact absurd (hcon (.inr j)) (not_le.mpr (hlt.trans_le hle))

variable [Finite δ] [Finite κ]

theorem mem_extremePoints_iff :
    z ∈ (capped C).extremePoints ℚ ↔ z ∈ capped C ∧
      ∀ u : δ → ℚ, (∀ i, z i = 0 → u i = 0) → (∀ j, (C *ᵥ z) j = 1 → (C *ᵥ u) j = 0) → u = 0 := by
  rw [capped_eq_region, Polyhedron.mem_extremePoints_iff]
  refine and_congr_right fun _ => forall_congr' fun u => ?_
  constructor
  · intro h hzero hone
    apply h
    rintro (i | j) hl
    · rw [side_inl, hzero i ((inl_mem_tight i).mp hl), neg_zero]
    · exact hone j ((inr_mem_tight j).mp hl)
  · intro h htight
    refine h (fun i hi => ?_) fun j hj => ?_
    · exact neg_eq_zero.mp (htight (.inl i) ((inl_mem_tight i).mpr hi))
    · exact htight (.inr j) ((inr_mem_tight j).mpr hj)

/-- The origin is a vertex. -/
theorem zero_mem_extremePoints (C : Matrix κ δ ℚ) : 0 ∈ (capped C).extremePoints ℚ := by
  refine mem_extremePoints_iff.mpr ⟨⟨le_rfl, ?_⟩, fun u hu _ => funext fun i => hu i rfl⟩
  rw [mulVec_zero]
  exact zero_le_one

/-- A vertex is the only point with all labels of the vertex. -/
theorem eq_of_labels (hv : v ∈ (capped C).extremePoints ℚ) (hzero : ∀ i, v i = 0 → w i = 0)
    (hone : ∀ j, (C *ᵥ v) j = 1 → (C *ᵥ w) j = 1) : w = v := by
  rw [capped_eq_region] at hv
  exact Polyhedron.eq_of_tight_subset hv (tight_subset_iff.mpr ⟨hzero, hone⟩)

/-- The vertices that carry all labels of a point. -/
def face (C : Matrix κ δ ℚ) (z : δ → ℚ) : Set (δ → ℚ) :=
  {u | u ∈ (capped C).extremePoints ℚ ∧ (∀ i, z i = 0 → u i = 0) ∧
    ∀ j, (C *ᵥ z) j = 1 → (C *ᵥ u) j = 1}

/-- **A point is a mixture of the vertices that carry its labels.** -/
theorem mem_convexHull_face [Nonempty κ] (hpos : ∀ j i, 0 < C j i) (hz : z ∈ capped C) :
    z ∈ convexHull ℚ (face C z) := by
  rw [capped_eq_region] at hz
  refine convexHull_mono ?_ (Polyhedron.mem_convexHull_vertices (exists_side_pos hpos) z hz)
  rintro u ⟨hu, htight⟩
  rw [← capped_eq_region] at hu
  exact ⟨hu, tight_subset_iff.mp htight⟩

end Capped

end Equilibria
