import Mathlib

/-!
# Polyhedra over the rationals

A polyhedron is the set of points that satisfy finitely many linear inequalities.  Everything the
two best-response polytopes need of convex geometry is proved here, for any rational vector space
and without a topology on it:

* `mem_extremePoints_iff` — a point is extreme exactly when its tight inequalities leave no
  direction free;
* `eq_of_tight_subset` — a vertex is determined by its tight inequalities;
* `tight_of_openSegment` — what is tight inside a segment is tight at its ends;
* `mem_convexHull_vertices` — a point of a bounded polyhedron is a mixture of those vertices that
  satisfy the point's tight inequalities with equality.

The last is the decomposition of a polytope into its vertices, face by face.  Bounded means here
that every direction but zero makes some inequality grow.
-/

namespace Equilibria

namespace Polyhedron

variable {ι E : Type*} [AddCommGroup E] [Module ℚ E]

/-- The points that satisfy `a l z ≤ b l` for every `l`. -/
def region (a : ι → E →ₗ[ℚ] ℚ) (b : ι → ℚ) : Set E := {z | ∀ l, a l z ≤ b l}

/-- The inequalities that a point satisfies with equality. -/
def tight (a : ι → E →ₗ[ℚ] ℚ) (b : ι → ℚ) (z : E) : Set ι := {l | a l z = b l}

/-- The vertices that satisfy with equality whatever a point does. -/
def faceVertices (a : ι → E →ₗ[ℚ] ℚ) (b : ι → ℚ) (z : E) : Set E :=
  {v | v ∈ (region a b).extremePoints ℚ ∧ tight a b z ⊆ tight a b v}

variable {a : ι → E →ₗ[ℚ] ℚ} {b : ι → ℚ} {z u v w : E}

/-- An inequality that is tight inside a segment is tight at both ends. -/
theorem tight_of_openSegment (hv : v ∈ region a b) (hw : w ∈ region a b)
    (hz : z ∈ openSegment ℚ v w) : tight a b z ⊆ tight a b v ∩ tight a b w := by
  obtain ⟨s, t, hs, ht, hst, rfl⟩ := hz
  intro l hl
  have hsum : s * a l v + t * a l w = s * b l + t * b l := by
    rw [← add_mul, hst, one_mul]
    simpa only [tight, Set.mem_ofPred_eq, map_add, map_smul, smul_eq_mul] using hl
  have h₁ : s * a l v ≤ s * b l := mul_le_mul_of_nonneg_left (hv l) hs.le
  have h₂ : t * a l w ≤ t * b l := mul_le_mul_of_nonneg_left (hw l) ht.le
  constructor
  · exact mul_left_cancel₀ hs.ne' (by linarith)
  · exact mul_left_cancel₀ ht.ne' (by linarith)

/-- A point can be moved a little in a direction in which its tight inequalities do not grow. -/
theorem exists_step [Finite ι] (hz : z ∈ region a b) (hu : ∀ l ∈ tight a b z, a l u ≤ 0) :
    ∃ ε : ℚ, 0 < ε ∧ z + ε • u ∈ region a b := by
  have h : ∀ᶠ ε in nhdsWithin (0 : ℚ) (Set.Ioi 0), ∀ l, a l (z + ε • u) ≤ b l := by
    rw [Filter.eventually_all]
    intro l
    rcases (hz l).lt_or_eq with hlt | heq
    · have hcont : Continuous fun ε : ℚ => a l z + ε * a l u := by fun_prop
      have hnear : ∀ᶠ ε in nhds (0 : ℚ), a l z + ε * a l u < b l :=
        hcont.continuousAt.eventually_lt_const (by simpa using hlt)
      filter_upwards [nhdsWithin_le_nhds hnear] with ε hε
      simpa only [map_add, map_smul, smul_eq_mul] using hε.le
    · filter_upwards [self_mem_nhdsWithin] with ε hε
      have := mul_nonpos_of_nonneg_of_nonpos (le_of_lt hε) (hu l heq)
      rw [map_add, map_smul, smul_eq_mul, heq]
      linarith
  obtain ⟨ε, hε, hpos⟩ := (h.and self_mem_nhdsWithin).exists
  exact ⟨ε, hpos, hε⟩

/-- A point lies between the ends of a way through it. -/
theorem mem_openSegment_add_smul (z u : E) {s t : ℚ} (hs : 0 < s) (ht : 0 < t) :
    z ∈ openSegment ℚ (z + s • u) (z + t • -u) := by
  refine ⟨t / (s + t), s / (s + t), by positivity, by positivity, ?_, ?_⟩
  · field_simp
    ring
  · match_scalars <;> field_simp <;> ring

/-- **Vertices by their tight inequalities.**  A point is extreme when no direction leaves all its
tight inequalities as they are. -/
theorem mem_extremePoints_iff [Finite ι] :
    z ∈ (region a b).extremePoints ℚ ↔
      z ∈ region a b ∧ ∀ u, (∀ l ∈ tight a b z, a l u = 0) → u = 0 := by
  rw [mem_extremePoints]
  refine and_congr_right fun hz => ⟨fun h u hu => ?_, fun h v hv w hw hseg => ?_⟩
  · obtain ⟨ε, hε, hplus⟩ := exists_step hz fun l hl => (hu l hl).le
    obtain ⟨δ, hδ, hminus⟩ :=
      exists_step (u := -u) hz fun l hl => by rw [map_neg, hu l hl, neg_zero]
    have hend := (h _ hplus _ hminus (mem_openSegment_add_smul z u hε hδ)).1
    rw [add_eq_left, smul_eq_zero] at hend
    exact hend.resolve_left hε.ne'
  · have htight := tight_of_openSegment hv hw hseg
    constructor
    · refine sub_eq_zero.mp (h (v - z) fun l hl => ?_)
      rw [map_sub, (htight hl).1, ← hl, sub_self]
    · refine sub_eq_zero.mp (h (w - z) fun l hl => ?_)
      rw [map_sub, (htight hl).2, ← hl, sub_self]

/-- A point runs into a new inequality in every direction in which some inequality grows. -/
theorem exists_end [Finite ι] (hz : z ∈ region a b) (hu : ∃ l, 0 < a l u) :
    ∃ t : ℚ, 0 ≤ t ∧ z + t • u ∈ region a b ∧ ∃ l, 0 < a l u ∧ l ∈ tight a b (z + t • u) := by
  obtain ⟨l, hl, hmin⟩ := Set.exists_min_image {l | 0 < a l u} (fun l => (b l - a l z) / a l u)
    (Set.toFinite _) hu
  have hpos : 0 < a l u := hl
  refine ⟨(b l - a l z) / a l u, div_nonneg (sub_nonneg.mpr (hz l)) hpos.le, ?_, l, hpos, ?_⟩
  · intro k
    rw [map_add, map_smul, smul_eq_mul]
    rcases lt_or_ge 0 (a k u) with hk | hk
    · have h := mul_le_mul_of_nonneg_right (hmin k hk) hk.le
      rw [div_mul_cancel₀ _ hk.ne'] at h
      linarith
    · have h := mul_nonpos_of_nonneg_of_nonpos
        (div_nonneg (sub_nonneg.mpr (hz l)) hpos.le) hk
      linarith [hz k]
  · show a l (z + ((b l - a l z) / a l u) • u) = b l
    rw [map_add, map_smul, smul_eq_mul, div_mul_cancel₀ _ hpos.ne']
    ring

/-- Moving in a direction that leaves the tight inequalities as they are keeps them tight. -/
theorem tight_subset_add_smul (hu : ∀ l ∈ tight a b z, a l u = 0) (t : ℚ) :
    tight a b z ⊆ tight a b (z + t • u) := by
  intro l hl
  show a l (z + t • u) = b l
  rw [map_add, map_smul, hu l hl, smul_zero, add_zero]
  exact hl

/-- A vertex is the only point that satisfies with equality whatever the vertex does. -/
theorem eq_of_tight_subset [Finite ι] (hv : v ∈ (region a b).extremePoints ℚ)
    (hsub : tight a b v ⊆ tight a b w) : w = v := by
  refine sub_eq_zero.mp ((mem_extremePoints_iff.mp hv).2 (w - v) fun l hl => ?_)
  rw [map_sub, hsub hl, ← hl, sub_self]

/-- **Every point of a bounded polyhedron is a mixture of vertices** that satisfy its tight
inequalities with equality.  A point that is no vertex lies between two points with more tight
inequalities, so the induction is on the number of inequalities that are not tight. -/
theorem mem_convexHull_vertices [Finite ι] (hbounded : ∀ u : E, u ≠ 0 → ∃ l, 0 < a l u) :
    ∀ z ∈ region a b, z ∈ convexHull ℚ (faceVertices a b z) := by
  intro z
  induction hn : (tight a b z)ᶜ.ncard using Nat.strong_induction_on generalizing z with
  | _ n ih =>
    intro hz
    by_cases hext : z ∈ (region a b).extremePoints ℚ
    · exact subset_convexHull ℚ _ ⟨hext, subset_rfl⟩
    · obtain ⟨u, hu, hne⟩ : ∃ u, (∀ l ∈ tight a b z, a l u = 0) ∧ u ≠ 0 := by
        by_contra hcon
        push Not at hcon
        exact hext (mem_extremePoints_iff.mpr ⟨hz, hcon⟩)
      have hend : ∀ u, (∀ l ∈ tight a b z, a l u = 0) → u ≠ 0 → ∃ t : ℚ, 0 ≤ t ∧
          z + t • u ∈ convexHull ℚ (faceVertices a b z) := by
        intro u hu hne
        obtain ⟨t, ht, hmem, l, hpos, hl⟩ := exists_end hz (hbounded u hne)
        have hsub := tight_subset_add_smul hu t
        have hfewer : (tight a b (z + t • u))ᶜ.ncard < n := by
          rw [← hn]
          refine Set.ncard_lt_ncard ⟨Set.compl_subset_compl.mpr hsub, fun hall => ?_⟩ (Set.toFinite _)
          have hltight : l ∈ tight a b z := not_not.mp fun hl' => hall hl' hl
          exact hpos.ne' (hu l hltight)
        have hfaces : faceVertices a b (z + t • u) ⊆ faceVertices a b z :=
          fun v hv => ⟨hv.1, hsub.trans hv.2⟩
        exact ⟨t, ht, convexHull_mono hfaces (ih _ hfewer _ rfl hmem)⟩
      obtain ⟨s, hs, hplus⟩ := hend u hu hne
      obtain ⟨t, ht, hminus⟩ := hend (-u) (fun l hl => by rw [map_neg, hu l hl, neg_zero])
        (neg_ne_zero.mpr hne)
      rcases hs.eq_or_lt with rfl | hs
      · simpa using hplus
      rcases ht.eq_or_lt with rfl | ht
      · simpa using hminus
      · exact (convex_convexHull ℚ _).openSegment_subset hplus hminus
          (mem_openSegment_add_smul z u hs ht)

end Polyhedron
end Equilibria
