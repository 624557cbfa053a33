import Mathlib
import Equilibria.Proofs.Bicliques
import Equilibria.Proofs.ExtremeEquilibria

/-!
# The equilibrium set as a union of mixtures

The maximal sets of vertices of which every pair is an equilibrium span the equilibrium set of a
two-player game:

* `Bimatrix.isEquilibrium_of_mem_convexHull` — mixtures of mutual equilibria are equilibria;
* `Bimatrix.IsEquilibrium.exists_faces` — every equilibrium is such a mixture, of the vertices that
  carry the labels of its two points;
* `Solution.isNash_iff_mem_subset` — a normalized profile is an equilibrium exactly when one of the
  subsets reported holds both its mixtures.
-/

namespace Equilibria

open Matrix

namespace Bimatrix

variable {δ κ : Type*} [Fintype δ] [Fintype κ] {A D : Matrix δ κ ℚ} {B C : Matrix κ δ ℚ}
  {x p : δ → ℚ} {y q : κ → ℚ}

/-- The mixtures in equilibrium with one mixture of the other player can be mixed. -/
theorem convex_fibre : Convex ℚ (fibre A B y) := by
  intro x₁ h₁ x₂ h₂ s t hs ht hst
  have hvalue : (s • x₁ + t • x₂) ⬝ᵥ A *ᵥ y = s * (x₁ ⬝ᵥ A *ᵥ y) + t * (x₂ ⬝ᵥ A *ᵥ y) := by
    rw [add_dotProduct, smul_dotProduct, smul_dotProduct, smul_eq_mul, smul_eq_mul]
  have hother : ∀ y' : κ → ℚ, y' ⬝ᵥ B *ᵥ (s • x₁ + t • x₂) =
      s * (y' ⬝ᵥ B *ᵥ x₁) + t * (y' ⬝ᵥ B *ᵥ x₂) := by
    intro y'
    rw [mulVec_add, mulVec_smul, mulVec_smul, dotProduct_add, dotProduct_smul, dotProduct_smul,
      smul_eq_mul, smul_eq_mul]
  refine ⟨convex_stdSimplex ℚ δ h₁.first_mem h₂.first_mem hs ht hst, h₁.second_mem, ?_, ?_⟩
  · intro x' hx'
    rw [hvalue]
    calc x' ⬝ᵥ A *ᵥ y = s * (x' ⬝ᵥ A *ᵥ y) + t * (x' ⬝ᵥ A *ᵥ y) := by
          rw [← add_mul, hst, one_mul]
      _ ≤ s * (x₁ ⬝ᵥ A *ᵥ y) + t * (x₂ ⬝ᵥ A *ᵥ y) :=
          add_le_add (mul_le_mul_of_nonneg_left (h₁.first_best x' hx') hs)
            (mul_le_mul_of_nonneg_left (h₂.first_best x' hx') ht)
  · intro y' hy'
    rw [hother, hother]
    exact add_le_add (mul_le_mul_of_nonneg_left (h₁.second_best y' hy') hs)
      (mul_le_mul_of_nonneg_left (h₂.second_best y' hy') ht)

/-- **Mixtures of mutual equilibria are equilibria**: first one side is mixed, then the other. -/
theorem isEquilibrium_of_mem_convexHull {X : Set (δ → ℚ)} {Y : Set (κ → ℚ)}
    (hall : ∀ x ∈ X, ∀ y ∈ Y, IsEquilibrium A B x y) (hx : x ∈ convexHull ℚ X)
    (hy : y ∈ convexHull ℚ Y) : IsEquilibrium A B x y := by
  have hfirst : ∀ y' ∈ Y, IsEquilibrium A B x y' :=
    fun y' hy' => convexHull_min (fun x' hx' => hall x' hx' y' hy') convex_fibre hx
  have hsecond : y ∈ fibre B A x :=
    convexHull_min (fun y' hy' => (hfirst y' hy').swap) convex_fibre hy
  exact IsEquilibrium.swap hsecond

/-- Scaling takes mixtures to mixtures. -/
theorem scaled_mem_convexHull {X : Set (δ → ℚ)} (hpos : ∀ u ∈ X, 0 < ∑ i, u i)
    (hp : p ∈ convexHull ℚ X) : scaled p ∈ convexHull ℚ (scaled '' X) := by
  have hcone : Convex ℚ {u : δ → ℚ | 0 < ∑ i, u i ∧ scaled u ∈ convexHull ℚ (scaled '' X)} := by
    rw [convex_iff_openSegment_subset]
    rintro u₁ ⟨hpos₁, hu₁⟩ u₂ ⟨hpos₂, hu₂⟩ u hu
    refine ⟨?_, (convex_convexHull ℚ _).openSegment_subset hu₁ hu₂
      (scaled_mem_openSegment hpos₁ hpos₂ hu)⟩
    obtain ⟨s, t, hs, ht, -, rfl⟩ := hu
    show 0 < ∑ i, (s * u₁ i + t * u₂ i)
    rw [Finset.sum_add_distrib, ← Finset.mul_sum, ← Finset.mul_sum]
    positivity
  have hsub : X ⊆ {u : δ → ℚ | 0 < ∑ i, u i ∧ scaled u ∈ convexHull ℚ (scaled '' X)} :=
    fun u hu => ⟨hpos u hu, subset_convexHull ℚ _ ⟨u, hu, rfl⟩⟩
  exact (convexHull_min hsub hcone hp).2

/-- The vertices on the face of an equilibrium's point are not the origin. -/
theorem IsEquilibrium.ne_zero_of_mem_face (hD : ∀ i j, 0 < D i j) (h : IsEquilibrium D C x y)
    (hlabels : Complementary C D (stretched C x y) (stretched D y x)) {u : δ → ℚ}
    (hu : u ∈ Capped.face C (stretched C x y)) : u ≠ 0 := by
  rintro rfl
  obtain ⟨j, hj⟩ := Function.ne_iff.mp (stretched_ne_zero hD h.second_mem h.first_mem)
  have hrow := hu.2.2 j ((hlabels.2 j).resolve_left hj)
  rw [mulVec_zero] at hrow
  exact zero_ne_one hrow

/-- **An equilibrium is a mixture of mutual equilibria of vertices**: those that carry the labels of
its two points. -/
theorem IsEquilibrium.exists_faces (hC : ∀ j i, 0 < C j i) (hD : ∀ i j, 0 < D i j)
    (h : IsEquilibrium D C x y) :
    ∃ (X : Set (δ → ℚ)) (Y : Set (κ → ℚ)), X.Nonempty ∧ Y.Nonempty ∧
      (∀ p ∈ X, ∀ q ∈ Y, p ∈ (capped C).extremePoints ℚ ∧ q ∈ (capped D).extremePoints ℚ ∧
        p ≠ 0 ∧ q ≠ 0 ∧ Complementary C D p q) ∧
      x ∈ convexHull ℚ (scaled '' X) ∧ y ∈ convexHull ℚ (scaled '' Y) := by
  have hδ : Nonempty δ := by
    obtain ⟨i, -⟩ := Function.ne_iff.mp (ne_zero_of_mem_stdSimplex h.first_mem)
    exact ⟨i⟩
  have hκ : Nonempty κ := by
    obtain ⟨j, -⟩ := Function.ne_iff.mp (ne_zero_of_mem_stdSimplex h.second_mem)
    exact ⟨j⟩
  have hlabels := h.complementary hC hD
  have hp := Capped.mem_convexHull_face hC (h.stretched_mem hC)
  have hq := Capped.mem_convexHull_face hD (h.swap.stretched_mem hD)
  have hX : ∀ u ∈ Capped.face C (stretched C x y), u ≠ 0 :=
    fun u hu => h.ne_zero_of_mem_face hD hlabels hu
  have hY : ∀ w ∈ Capped.face D (stretched D y x), w ≠ 0 :=
    fun w hw => h.swap.ne_zero_of_mem_face hC hlabels.swap hw
  refine ⟨_, _, convexHull_nonempty_iff.mp ⟨_, hp⟩, convexHull_nonempty_iff.mp ⟨_, hq⟩, ?_, ?_, ?_⟩
  · intro u hu w hw
    refine ⟨hu.1, hw.1, hX u hu, hY w hw, fun i => ?_, fun j => ?_⟩
    · exact (hlabels.1 i).imp (hu.2.1 i) (hw.2.2 i)
    · exact (hlabels.2 j).imp (hw.2.1 j) (hu.2.2 j)
  · have hmem := scaled_mem_convexHull (fun u hu => sum_pos_of_ne_zero hu.1.1.1 (hX u hu)) hp
    rwa [scaled_stretched hC h.first_mem h.second_mem] at hmem
  · have hmem := scaled_mem_convexHull (fun w hw => sum_pos_of_ne_zero hw.1.1.1 (hY w hw)) hq
    rwa [scaled_stretched hD h.second_mem h.first_mem] at hmem

end Bimatrix

namespace MixedProfile

/-- The first `n` numbers of a player as a vector. -/
def mixture (z : MixedProfile ℚ) (p n : ℕ) : Fin n → ℚ := fun i => z.get p i

theorem mixture_pairProfile {m n : ℕ} (x : Fin m → ℚ) (y : Fin n → ℚ) :
    (pairProfile x y).mixture 0 m = x ∧ (pairProfile x y).mixture 1 n = y := by
  constructor
  · funext i
    simp [mixture, pairProfile, get, player, List.getD_eq_getElem?_getD]
  · funext j
    simp [mixture, pairProfile, get, player, List.getD_eq_getElem?_getD]

end MixedProfile

namespace Solution

/-- The mixtures to which the vertices of the given numbers are scaled. -/
def vertexMixtures (n : ℕ) (vs : List (Vertex ℚ)) (numbers : List ℕ) : Set (Fin n → ℚ) :=
  {x | ∃ k ∈ numbers, ∃ v, vs[k]? = some v ∧ MixedProfile.normalize v.point = List.ofFn x}

/-- The numbers that points have in a list. -/
def numbersOf {n : ℕ} (points : List (List ℚ)) (X : Set (Fin n → ℚ)) : Set ℕ :=
  {k | ∃ u ∈ X, points[k]? = some (List.ofFn u)}

theorem nonempty_numbersOf {n : ℕ} {points : List (List ℚ)} {X : Set (Fin n → ℚ)}
    (hX : X.Nonempty) (hmem : ∀ u ∈ X, List.ofFn u ∈ points) : (numbersOf points X).Nonempty := by
  obtain ⟨u, hu⟩ := hX
  obtain ⟨k, hk⟩ := List.getElem?_of_mem (hmem u hu)
  exact ⟨k, u, hu, hk⟩

/-- Points of a polytope, scaled, are among the mixtures of vertices that their numbers give. -/
theorem scaled_subset_vertexMixtures {n : ℕ} (r : Polytope ℚ) {points : List (List ℚ)}
    {X : Set (Fin n → ℚ)} {numbers : List ℕ} (hmem : ∀ u ∈ X, List.ofFn u ∈ points)
    (hnonneg : ∀ u ∈ X, 0 ≤ u) (hne : ∀ u ∈ X, u ≠ 0)
    (hnumbers : ∀ k ∈ numbersOf points X, k ∈ numbers) :
    Bimatrix.scaled '' X ⊆ vertexMixtures n (points.map r.vertex) numbers := by
  rintro _ ⟨u, hu, rfl⟩
  obtain ⟨k, hk⟩ := List.getElem?_of_mem (hmem u hu)
  refine ⟨k, hnumbers k ⟨u, hu, hk⟩, r.vertex (List.ofFn u), ?_,
    normalize_ofFn (hnonneg u hu) (hne u hu)⟩
  rw [List.getElem?_map, hk]
  rfl

variable {g : Game}

section Listed

variable (h₀ : 0 < g.numStrategies 0) (h₁ : 0 < g.numStrategies 1) {ps qs : VertexSet ℚ}
  (hps : ∀ v, v ∈ ps.points ↔ ∃ p ∈ (capped g.raisedColumns).extremePoints ℚ, v = List.ofFn p)
  (hqs : ∀ v, v ∈ qs.points ↔ ∃ q ∈ (capped g.raisedRows).extremePoints ℚ, v = List.ofFn q)

include h₀ h₁ hps hqs

theorem mem_vertexPairs_iff {i j : ℕ} :
    (i, j) ∈ (ofVertices (Polytope.first g) (Polytope.second g) ps qs).vertexPairs ↔
      ∃ p ∈ (capped g.raisedColumns).extremePoints ℚ,
        ∃ q ∈ (capped g.raisedRows).extremePoints ℚ, p ≠ 0 ∧ q ≠ 0 ∧
          Bimatrix.Complementary g.raisedColumns g.raisedRows p q ∧
          ps.points[i]? = some (List.ofFn p) ∧ qs.points[j]? = some (List.ofFn q) := by
  unfold vertexPairs
  rw [List.mem_map]
  constructor
  · rintro ⟨e, he, hij⟩
    obtain ⟨p, hp, q, hq, hp0, hq0, hlabels, hi, hj, -⟩ := (mem_equilibria_iff h₀ h₁ hps hqs).mp he
    rw [hij] at hi hj
    exact ⟨p, hp, q, hq, hp0, hq0, hlabels, hi, hj⟩
  · rintro ⟨p, hp, q, hq, hp0, hq0, hlabels, hi, hj⟩
    refine ⟨⟨pairProfile (Bimatrix.scaled p) (Bimatrix.scaled q), (i, j)⟩, ?_, rfl⟩
    exact (mem_equilibria_iff h₀ h₁ hps hqs).mpr ⟨p, hp, q, hq, hp0, hq0, hlabels, hi, hj, rfl⟩

/-- **Every mixture inside a subset is an equilibrium.** -/
theorem isEquilibrium_of_subset {S : NashSubset}
    (hS : S ∈ (ofVertices (Polytope.first g) (Polytope.second g) ps qs).maximalNashSubsets)
    {x : Fin (g.numStrategies 0) → ℚ} {y : Fin (g.numStrategies 1) → ℚ}
    (hx : x ∈ convexHull ℚ (vertexMixtures (g.numStrategies 0)
      (ofVertices (Polytope.first g) (Polytope.second g) ps qs).first S.first))
    (hy : y ∈ convexHull ℚ (vertexMixtures (g.numStrategies 1)
      (ofVertices (Polytope.first g) (Polytope.second g) ps qs).second S.second)) :
    Bimatrix.IsEquilibrium g.rowPayoffs g.columnPayoffs x y := by
  refine Bimatrix.isEquilibrium_of_mem_convexHull ?_ hx hy
  rintro x' ⟨i, hi, v, hv, hxv⟩ y' ⟨j, hj, w, hw, hyw⟩
  obtain ⟨p, hp, q, hq, hp0, hq0, hlabels, hpi, hqj⟩ :=
    (mem_vertexPairs_iff h₀ h₁ hps hqs).mp (Components.mem_pairs_of_subset hS hi hj)
  have hpoint : ∀ {r : Polytope ℚ} {vs : VertexSet ℚ} {k : ℕ} {u : Vertex ℚ} {z : List ℚ},
      (vs.points.map r.vertex)[k]? = some u → vs.points[k]? = some z → u.point = z := by
    intro r vs k u z hu hz
    rw [List.getElem?_map, hz] at hu
    rw [← Option.some.inj hu]
    rfl
  rw [hpoint hv hpi, normalize_ofFn hp.1.1 hp0] at hxv
  rw [hpoint hw hqj, normalize_ofFn hq.1.1 hq0] at hyw
  rw [← List.ofFn_injective hxv, ← List.ofFn_injective hyw,
    ← Bimatrix.isEquilibrium_raise (g.shift 0) (g.shift 1)]
  exact Bimatrix.isEquilibrium_of_complementary hp.1 hq.1 hp0 hq0 hlabels

/-- **Every equilibrium is a mixture inside a subset.** -/
theorem exists_subset_of_isEquilibrium {x : Fin (g.numStrategies 0) → ℚ}
    {y : Fin (g.numStrategies 1) → ℚ}
    (heq : Bimatrix.IsEquilibrium g.rowPayoffs g.columnPayoffs x y) :
    ∃ S ∈ (ofVertices (Polytope.first g) (Polytope.second g) ps qs).maximalNashSubsets,
      x ∈ convexHull ℚ (vertexMixtures (g.numStrategies 0)
        (ofVertices (Polytope.first g) (Polytope.second g) ps qs).first S.first) ∧
      y ∈ convexHull ℚ (vertexMixtures (g.numStrategies 1)
        (ofVertices (Polytope.first g) (Polytope.second g) ps qs).second S.second) := by
  have hraised : Bimatrix.IsEquilibrium g.raisedRows g.raisedColumns x y :=
    (Bimatrix.isEquilibrium_raise _ _).mpr heq
  obtain ⟨X, Y, ⟨p, hp⟩, ⟨q, hq⟩, hall, hx, hy⟩ :=
    hraised.exists_faces (Polytope.represents_first h₁).pos (Polytope.represents_second h₀).pos
  have hfirst : ∀ u ∈ X, List.ofFn u ∈ ps.points :=
    fun u hu => (hps _).mpr ⟨u, (hall u hu q hq).1, rfl⟩
  have hsecond : ∀ w ∈ Y, List.ofFn w ∈ qs.points :=
    fun w hw => (hqs _).mpr ⟨w, (hall p hp w hw).2.1, rfl⟩
  have hpaired : ∀ i ∈ numbersOf ps.points X, ∀ j ∈ numbersOf qs.points Y,
      (i, j) ∈ (ofVertices (Polytope.first g) (Polytope.second g) ps qs).vertexPairs := by
    rintro i ⟨u, hu, hi⟩ j ⟨w, hw, hj⟩
    obtain ⟨huext, hwext, hu0, hw0, hlabels⟩ := hall u hu w hw
    exact (mem_vertexPairs_iff h₀ h₁ hps hqs).mpr ⟨u, huext, w, hwext, hu0, hw0, hlabels, hi, hj⟩
  obtain ⟨S, hS, hSfirst, hSsecond⟩ := Components.exists_subset
    (nonempty_numbersOf ⟨p, hp⟩ hfirst) (nonempty_numbersOf ⟨q, hq⟩ hsecond) hpaired
  refine ⟨S, hS, convexHull_mono ?_ hx, convexHull_mono ?_ hy⟩
  · exact scaled_subset_vertexMixtures (Polytope.first g) hfirst
      (fun u hu => (hall u hu q hq).1.1.1) (fun u hu => (hall u hu q hq).2.2.1) hSfirst
  · exact scaled_subset_vertexMixtures (Polytope.second g) hsecond
      (fun w hw => (hall p hp w hw).2.1.1.1) (fun w hw => (hall p hp w hw).2.2.2.1) hSsecond

end Listed

/-- **The subsets reported span the equilibrium set**: a normalized profile is an equilibrium exactly
when the mixtures of some subset's vertices hold the mixtures of both players. -/
theorem isNash_iff_mem_subset (g : Game) (h : g.Valid) (htwo : g.numPlayers = 2) :
    ∃ s : Solution ℚ, find Polytope.vertices g = .ok s ∧
      ∀ z : MixedProfile ℚ, z.shape = g.counts → z.isNormalized = true →
        (z.isNash g = true ↔ ∃ S ∈ s.maximalNashSubsets,
          z.mixture 0 (g.numStrategies 0) ∈
              convexHull ℚ (vertexMixtures (g.numStrategies 0) s.first S.first) ∧
            z.mixture 1 (g.numStrategies 1) ∈
              convexHull ℚ (vertexMixtures (g.numStrategies 1) s.second S.second)) := by
  have h₀ : 0 < g.numStrategies 0 := Game.numStrategies_pos h.accepted (by omega)
  have h₁ : 0 < g.numStrategies 1 := Game.numStrategies_pos h.accepted (by omega)
  obtain ⟨ps, qs, hfind, -, -, hps, hqs⟩ := exists_find htwo h.accepted
  refine ⟨_, hfind, fun z hz hnormal => ?_⟩
  obtain ⟨x, hx, y, hy, rfl⟩ := exists_eq_pairProfile htwo hz hnormal
  obtain ⟨hfirst, hsecond⟩ := MixedProfile.mixture_pairProfile x y
  rw [isNash_pairProfile_iff h htwo hx hy, hfirst, hsecond]
  constructor
  · exact exists_subset_of_isEquilibrium h₀ h₁ hps hqs
  · rintro ⟨S, hS, hxS, hyS⟩
    exact isEquilibrium_of_subset h₀ h₁ hps hqs hS hxS hyS

theorem isNash_iff_mem_subset_dilemma :
    Game.dilemma.Valid ∧ Game.dilemma.numPlayers = 2 ∧
      ∃ s : Solution ℚ, find Polytope.vertices Game.dilemma = .ok s ∧
        ∀ z : MixedProfile ℚ, z.shape = Game.dilemma.counts → z.isNormalized = true →
          (z.isNash Game.dilemma = true ↔ ∃ S ∈ s.maximalNashSubsets,
            z.mixture 0 (Game.dilemma.numStrategies 0) ∈
                convexHull ℚ (vertexMixtures (Game.dilemma.numStrategies 0) s.first S.first) ∧
              z.mixture 1 (Game.dilemma.numStrategies 1) ∈
                convexHull ℚ (vertexMixtures (Game.dilemma.numStrategies 1) s.second S.second)) :=
  ⟨Game.valid_dilemma, rfl, isNash_iff_mem_subset Game.dilemma Game.valid_dilemma rfl⟩

end Solution

end Equilibria
