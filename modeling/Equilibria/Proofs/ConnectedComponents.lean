import Mathlib
import Equilibria.Proofs.LinkedPairs
import Equilibria.Proofs.NashSubsets

/-!
# The cliques are the components of the equilibrium set

`Solution.cliques` only compares numbers of vertices.  For the vertices of a game's two polytopes the
groups are the connected components of the set of equilibria:

* `Bimatrix.exists_common_pair` — where two products of hulls meet, a vertex of the one and a vertex
  of the other are an equilibrium themselves;
* `Solution.isNash_between` — equilibria that share a vertex can be mixed;
* `Solution.linked_of_spans` — subsets whose hulls meet are linked by shared vertices;
* `Solution.find_connected_components` — the whole statement.

That the hulls of different components are apart needs no topology: a point common to both uses no
strategy that one of the two sets does not use, and so hands over the labels.
-/

namespace Equilibria

open Matrix

namespace Bimatrix

variable {δ κ : Type*} [Fintype δ] [Fintype κ] {C : Matrix κ δ ℚ} {D : Matrix δ κ ℚ}
  {x p : δ → ℚ} {y : κ → ℚ} {X X' : Set (δ → ℚ)} {Y Y' : Set (κ → ℚ)}

/-! ### Supports inside hulls -/

omit [Fintype δ] in
/-- Some point of a set uses only what a mixture of the set uses. -/
theorem exists_support_subset (hnonneg : ∀ u ∈ X, 0 ≤ u) (hx : x ∈ convexHull ℚ X) :
    ∃ u ∈ X, ∀ i, x i = 0 → u i = 0 := by
  have hconvex : Convex ℚ {x : δ → ℚ | 0 ≤ x ∧ ∃ u ∈ X, ∀ i, x i = 0 → u i = 0} := by
    rw [convex_iff_openSegment_subset]
    rintro x₁ ⟨h₁, u, hu, hsub⟩ x₂ ⟨h₂, -⟩ _ ⟨s, t, hs, ht, -, rfl⟩
    refine ⟨add_nonneg (smul_nonneg hs.le h₁) (smul_nonneg ht.le h₂), u, hu, fun i hi => ?_⟩
    have hfirst : 0 ≤ s * x₁ i := mul_nonneg hs.le (h₁ i)
    have hsecond : 0 ≤ t * x₂ i := mul_nonneg ht.le (h₂ i)
    have hsum : s * x₁ i + t * x₂ i = 0 := hi
    have hzero : s * x₁ i = 0 := by linarith
    exact hsub i ((mul_eq_zero.mp hzero).resolve_left hs.ne')
  have hpoints : X ⊆ {x : δ → ℚ | 0 ≤ x ∧ ∃ u ∈ X, ∀ i, x i = 0 → u i = 0} :=
    fun u hu => ⟨hnonneg u hu, u, hu, fun _ => id⟩
  exact (convexHull_min hpoints hconvex hx).2

omit [Fintype δ] in
/-- What a mixture of a set uses, some point of the set uses. -/
theorem exists_ne_zero_of_mem_convexHull (hx : x ∈ convexHull ℚ X) {i : δ} (hi : x i ≠ 0) :
    ∃ u ∈ X, u i ≠ 0 := by
  by_contra hcon
  push Not at hcon
  have hconvex : Convex ℚ {x : δ → ℚ | x i = 0} := by
    intro x₁ h₁ x₂ h₂ s t _ _ _
    show s * x₁ i + t * x₂ i = 0
    rw [h₁, h₂, mul_zero, mul_zero, add_zero]
  exact hi (convexHull_min hcon hconvex hx)

theorem scaled_nonneg (hnonneg : 0 ≤ p) (hne : p ≠ 0) : 0 ≤ scaled p := (scaled_mem hnonneg hne).1

theorem scaled_eq_zero_iff (hnonneg : 0 ≤ p) (hne : p ≠ 0) (i : δ) : scaled p i = 0 ↔ p i = 0 := by
  show (∑ k, p k)⁻¹ * p i = 0 ↔ p i = 0
  rw [mul_eq_zero, or_iff_right (inv_ne_zero (sum_pos_of_ne_zero hnonneg hne).ne')]

/-- Some point of the one set uses only what some points of the other use, if mixtures of both, each
scaled, agree. -/
theorem exists_used (hX : ∀ u ∈ X, 0 ≤ u ∧ u ≠ 0) (hX' : ∀ u ∈ X', 0 ≤ u ∧ u ≠ 0)
    (hx : x ∈ convexHull ℚ (scaled '' X)) (hx' : x ∈ convexHull ℚ (scaled '' X')) :
    ∃ u ∈ X, ∀ i, u i = 0 ∨ ∃ u' ∈ X', u' i ≠ 0 := by
  have hnonneg : ∀ v ∈ scaled '' X, 0 ≤ v := by
    rintro _ ⟨u, hu, rfl⟩
    exact scaled_nonneg (hX u hu).1 (hX u hu).2
  obtain ⟨_, ⟨u, hu, rfl⟩, hsub⟩ := exists_support_subset hnonneg hx
  refine ⟨u, hu, fun i => ?_⟩
  by_cases hi : x i = 0
  · left
    exact (scaled_eq_zero_iff (hX u hu).1 (hX u hu).2 i).mp (hsub i hi)
  · right
    obtain ⟨_, ⟨u', hu', rfl⟩, hne⟩ := exists_ne_zero_of_mem_convexHull hx' hi
    exact ⟨u', hu', mt (scaled_eq_zero_iff (hX' u' hu').1 (hX' u' hu').2 i).mpr hne⟩

/-- **Where two products of hulls meet**, a point of the first player's from the one and a point of
the second player's from the other carry all labels. -/
theorem exists_common_pair (hX : ∀ u ∈ X, 0 ≤ u ∧ u ≠ 0) (hY : ∀ w ∈ Y, 0 ≤ w ∧ w ≠ 0)
    (hX' : ∀ u ∈ X', 0 ≤ u ∧ u ≠ 0) (hY' : ∀ w ∈ Y', 0 ≤ w ∧ w ≠ 0)
    (hall : ∀ u ∈ X, ∀ w ∈ Y, Complementary C D u w)
    (hall' : ∀ u ∈ X', ∀ w ∈ Y', Complementary C D u w)
    (hx : x ∈ convexHull ℚ (scaled '' X)) (hy : y ∈ convexHull ℚ (scaled '' Y))
    (hx' : x ∈ convexHull ℚ (scaled '' X')) (hy' : y ∈ convexHull ℚ (scaled '' Y')) :
    ∃ u ∈ X, ∃ w ∈ Y', Complementary C D u w := by
  obtain ⟨u, hu, hused⟩ := exists_used hX hX' hx hx'
  obtain ⟨w, hw, hused'⟩ := exists_used hY' hY hy' hy
  refine ⟨u, hu, w, hw, fun i => ?_, fun j => ?_⟩
  · rcases hused i with hi | ⟨u', hu', hi⟩
    · exact Or.inl hi
    · exact Or.inr (((hall' u' hu' w hw).1 i).resolve_left hi)
  · rcases hused' j with hj | ⟨w', hw', hj⟩
    · exact Or.inl hj
    · exact Or.inr (((hall u hu w' hw').2 j).resolve_left hj)

end Bimatrix

/-! ### Between two profiles -/

/-- The profile a share `t` of the way from one profile to another. -/
def MixedProfile.between (t : ℚ) (z w : MixedProfile ℚ) : MixedProfile ℚ :=
  ⟨List.zipWith (List.zipWith fun a b => (1 - t) * a + t * b) z.probs w.probs⟩

theorem between_pairProfile {m n : ℕ} (t : ℚ) (x x' : Fin m → ℚ) (y y' : Fin n → ℚ) :
    MixedProfile.between t (pairProfile x y) (pairProfile x' y') =
      pairProfile ((1 - t) • x + t • x') ((1 - t) • y + t • y') := by
  have hrow : ∀ {k : ℕ} (z z' : Fin k → ℚ),
      List.zipWith (fun a b => (1 - t) * a + t * b) (List.ofFn z) (List.ofFn z') =
        List.ofFn ((1 - t) • z + t • z') := by
    intro k z z'
    apply List.ext_getElem
    · simp
    · intro i hi hi'
      simp
  show MixedProfile.mk [_, _] = MixedProfile.mk [_, _]
  rw [hrow, hrow]

namespace Solution

variable {g : Game}

/-- Whether the hulls of a subset's vertices hold the mixtures of a profile. -/
def Spans (s : Solution ℚ) (g : Game) (S : NashSubset) (z : MixedProfile ℚ) : Prop :=
  z.mixture 0 (g.numStrategies 0) ∈ convexHull ℚ (vertexMixtures (g.numStrategies 0) s.first S.first) ∧
    z.mixture 1 (g.numStrategies 1) ∈
      convexHull ℚ (vertexMixtures (g.numStrategies 1) s.second S.second)

/-- The points that have the given numbers in a list. -/
def pointsAt {n : ℕ} (points : List (List ℚ)) (numbers : List ℕ) : Set (Fin n → ℚ) :=
  {u | ∃ k ∈ numbers, points[k]? = some (List.ofFn u)}

/-- The mixtures of vertices are their points, scaled. -/
theorem vertexMixtures_subset {n : ℕ} (r : Polytope ℚ) {points : List (List ℚ)} {numbers : List ℕ}
    (hpoints : ∀ v ∈ points, ∃ u : Fin n → ℚ, v = List.ofFn u)
    (hpositive : ∀ u ∈ pointsAt (n := n) points numbers, 0 ≤ u ∧ u ≠ 0) :
    vertexMixtures n (points.map r.vertex) numbers ⊆ Bimatrix.scaled '' pointsAt points numbers := by
  rintro x ⟨k, hk, v, hv, hx⟩
  rw [List.getElem?_map, Option.map_eq_some_iff] at hv
  obtain ⟨v, hv, rfl⟩ := hv
  obtain ⟨u, rfl⟩ := hpoints v (List.mem_of_getElem? hv)
  have hu : u ∈ pointsAt (n := n) points numbers := ⟨k, hk, hv⟩
  obtain ⟨hnonneg, hne⟩ := hpositive u hu
  have hnormal : MixedProfile.normalize (r.vertex (List.ofFn u)).point =
      List.ofFn (Bimatrix.scaled u) := normalize_ofFn hnonneg hne
  rw [hnormal] at hx
  exact ⟨u, hu, List.ofFn_injective hx⟩

section Listed

variable (h₀ : 0 < g.numStrategies 0) (h₁ : 0 < g.numStrategies 1) {ps qs : VertexSet ℚ}
  (hps : ∀ v, v ∈ ps.points ↔ ∃ p ∈ (capped g.raisedColumns).extremePoints ℚ, v = List.ofFn p)
  (hqs : ∀ v, v ∈ qs.points ↔ ∃ q ∈ (capped g.raisedRows).extremePoints ℚ, v = List.ofFn q)

include h₀ h₁ hps hqs

/-- What two paired vertices are. -/
theorem spec_of_mem_vertexPairs {i j : ℕ}
    (hij : (i, j) ∈ (ofVertices (Polytope.first g) (Polytope.second g) ps qs).vertexPairs)
    {p : Fin (g.numStrategies 0) → ℚ} {q : Fin (g.numStrategies 1) → ℚ}
    (hp : ps.points[i]? = some (List.ofFn p)) (hq : qs.points[j]? = some (List.ofFn q)) :
    (0 ≤ p ∧ p ≠ 0) ∧ (0 ≤ q ∧ q ≠ 0) ∧
      Bimatrix.Complementary g.raisedColumns g.raisedRows p q := by
  obtain ⟨p', hp', q', hq', hp0, hq0, hlabels, hi, hj⟩ := (mem_vertexPairs_iff h₀ h₁ hps hqs).mp hij
  obtain rfl : p = p' := List.ofFn_injective (Option.some.inj (hp.symm.trans hi))
  obtain rfl : q = q' := List.ofFn_injective (Option.some.inj (hq.symm.trans hj))
  exact ⟨⟨hp'.1.1, hp0⟩, ⟨hq'.1.1, hq0⟩, hlabels⟩

/-- The points of a subset, which hold its hulls. -/
theorem spec_of_subset {S : NashSubset}
    (hS : S ∈ (ofVertices (Polytope.first g) (Polytope.second g) ps qs).maximalNashSubsets) :
    (∀ u ∈ pointsAt (n := g.numStrategies 0) ps.points S.first, 0 ≤ u ∧ u ≠ 0) ∧
      (∀ w ∈ pointsAt (n := g.numStrategies 1) qs.points S.second, 0 ≤ w ∧ w ≠ 0) ∧
      ∀ u ∈ pointsAt (n := g.numStrategies 0) ps.points S.first,
        ∀ w ∈ pointsAt (n := g.numStrategies 1) qs.points S.second,
          Bimatrix.Complementary g.raisedColumns g.raisedRows u w := by
  obtain ⟨hfirst, hsecond⟩ := Components.ne_nil_of_subset hS
  obtain ⟨i, hi⟩ := List.exists_mem_of_ne_nil _ hfirst
  obtain ⟨j, hj⟩ := List.exists_mem_of_ne_nil _ hsecond
  obtain ⟨p, -, q, -, -, -, -, hpi, hqj⟩ :=
    (mem_vertexPairs_iff h₀ h₁ hps hqs).mp (Components.mem_pairs_of_subset hS hi hj)
  refine ⟨?_, ?_, ?_⟩
  · rintro u ⟨k, hk, hu⟩
    exact (spec_of_mem_vertexPairs h₀ h₁ hps hqs (Components.mem_pairs_of_subset hS hk hj) hu hqj).1
  · rintro w ⟨k, hk, hw⟩
    exact (spec_of_mem_vertexPairs h₀ h₁ hps hqs
      (Components.mem_pairs_of_subset hS hi hk) hpi hw).2.1
  · rintro u ⟨k, hk, hu⟩ w ⟨l, hl, hw⟩
    exact (spec_of_mem_vertexPairs h₀ h₁ hps hqs
      (Components.mem_pairs_of_subset hS hk hl) hu hw).2.2

/-- **Equilibria that share a vertex can be mixed.** -/
theorem isNash_between (h : g.Valid) (htwo : g.numPlayers = 2) {e e' : ExtremeEquilibrium ℚ}
    (he : e ∈ (ofVertices (Polytope.first g) (Polytope.second g) ps qs).equilibria)
    (he' : e' ∈ (ofVertices (Polytope.first g) (Polytope.second g) ps qs).equilibria)
    (hshared : e.vertices.1 = e'.vertices.1 ∨ e.vertices.2 = e'.vertices.2) {t : ℚ} (ht : 0 ≤ t)
    (ht' : t ≤ 1) : (e.profile.between t e'.profile).isNormalized = true ∧
      (e.profile.between t e'.profile).isNash g = true := by
  obtain ⟨p, hp, q, hq, hp0, hq0, hlabels, hi, hj, hprofile⟩ :=
    (mem_equilibria_iff h₀ h₁ hps hqs).mp he
  obtain ⟨p', hp', q', hq', hp0', hq0', hlabels', hi', hj', hprofile'⟩ :=
    (mem_equilibria_iff h₀ h₁ hps hqs).mp he'
  have heq := Bimatrix.isEquilibrium_of_complementary hp.1 hq.1 hp0 hq0 hlabels
  have heq' := Bimatrix.isEquilibrium_of_complementary hp'.1 hq'.1 hp0' hq0' hlabels'
  have hsame : ∀ {n : ℕ} (x : Fin n → ℚ), (1 - t) • x + t • x = x := by
    intro n x
    rw [← add_smul, sub_add_cancel, one_smul]
  have hmixed : Bimatrix.IsEquilibrium g.raisedRows g.raisedColumns
      ((1 - t) • Bimatrix.scaled p + t • Bimatrix.scaled p')
      ((1 - t) • Bimatrix.scaled q + t • Bimatrix.scaled q') := by
    rcases hshared with hsameVertex | hsameVertex
    · rw [hsameVertex] at hi
      obtain rfl : p = p' := List.ofFn_injective (Option.some.inj (hi.symm.trans hi'))
      rw [hsame]
      exact Bimatrix.IsEquilibrium.swap (Bimatrix.convex_fibre heq.swap heq'.swap
        (sub_nonneg.mpr ht') ht (sub_add_cancel 1 t))
    · rw [hsameVertex] at hj
      obtain rfl : q = q' := List.ofFn_injective (Option.some.inj (hj.symm.trans hj'))
      rw [hsame]
      exact Bimatrix.convex_fibre heq heq' (sub_nonneg.mpr ht') ht (sub_add_cancel 1 t)
  have hgame := (Bimatrix.isEquilibrium_raise _ _).mp hmixed
  rw [hprofile, hprofile', between_pairProfile, isNormalized_pairProfile_iff,
    isNash_pairProfile_iff h htwo hgame.first_mem hgame.second_mem]
  exact ⟨⟨hgame.first_mem, hgame.second_mem⟩, hgame⟩

/-- **Subsets whose hulls meet are linked** by a chain of shared vertices. -/
theorem linked_of_spans {S S' : NashSubset} {z : MixedProfile ℚ}
    (hS : S ∈ (ofVertices (Polytope.first g) (Polytope.second g) ps qs).maximalNashSubsets)
    (hS' : S' ∈ (ofVertices (Polytope.first g) (Polytope.second g) ps qs).maximalNashSubsets)
    (hz : (ofVertices (Polytope.first g) (Polytope.second g) ps qs).Spans g S z)
    (hz' : (ofVertices (Polytope.first g) (Polytope.second g) ps qs).Spans g S' z) :
    ∃ i ∈ S.equilibria, ∃ j ∈ S'.equilibria,
      Components.Linked (ofVertices (Polytope.first g) (Polytope.second g) ps qs).vertexPairs i j := by
  set s := ofVertices (Polytope.first g) (Polytope.second g) ps qs
  obtain ⟨hX, hY, hall⟩ := spec_of_subset h₀ h₁ hps hqs hS
  obtain ⟨hX', hY', hall'⟩ := spec_of_subset h₀ h₁ hps hqs hS'
  have hfirst : ∀ v ∈ ps.points, ∃ u : Fin (g.numStrategies 0) → ℚ, v = List.ofFn u :=
    fun v hv => ((hps v).mp hv).imp fun _ h => h.2
  have hsecond : ∀ v ∈ qs.points, ∃ w : Fin (g.numStrategies 1) → ℚ, v = List.ofFn w :=
    fun v hv => ((hqs v).mp hv).imp fun _ h => h.2
  obtain ⟨u, ⟨k, hk, hu⟩, w, ⟨l, hl, hw⟩, hlabels⟩ := Bimatrix.exists_common_pair hX hY hX' hY' hall
    hall' (convexHull_mono (vertexMixtures_subset (Polytope.first g) hfirst hX) hz.1)
    (convexHull_mono (vertexMixtures_subset (Polytope.second g) hsecond hY) hz.2)
    (convexHull_mono (vertexMixtures_subset (Polytope.first g) hfirst hX') hz'.1)
    (convexHull_mono (vertexMixtures_subset (Polytope.second g) hsecond hY') hz'.2)
  -- the pair of `k` and `l` is listed; it shares a vertex with a member of either subset
  have hcommon : (k, l) ∈ s.vertexPairs := by
    obtain ⟨p, hp, hpu⟩ := (hps _).mp (List.mem_of_getElem? hu)
    obtain ⟨q, hq, hqw⟩ := (hqs _).mp (List.mem_of_getElem? hw)
    obtain rfl : u = p := List.ofFn_injective hpu
    obtain rfl : w = q := List.ofFn_injective hqw
    exact (mem_vertexPairs_iff h₀ h₁ hps hqs).mpr ⟨u, hp, w, hq, (hX u ⟨k, hk, hu⟩).2,
      (hY' w ⟨l, hl, hw⟩).2, hlabels, hu, hw⟩
  obtain ⟨-, hne⟩ := Components.ne_nil_of_subset hS
  obtain ⟨hne', -⟩ := Components.ne_nil_of_subset hS'
  obtain ⟨l', hl'⟩ := List.exists_mem_of_ne_nil _ hne
  obtain ⟨k', hk'⟩ := List.exists_mem_of_ne_nil _ hne'
  obtain ⟨i, hi⟩ := List.getElem?_of_mem (Components.mem_pairs_of_subset hS hk hl')
  obtain ⟨j, hj⟩ := List.getElem?_of_mem (Components.mem_pairs_of_subset hS' hk' hl)
  obtain ⟨c, hc⟩ := List.getElem?_of_mem hcommon
  refine ⟨i, (Components.mem_equilibria_of_subset hS).mpr ⟨_, hi, hk, hl'⟩, j,
    (Components.mem_equilibria_of_subset hS').mpr ⟨_, hj, hk', hl⟩, ?_⟩
  have hleft : Components.Adjacent s.vertexPairs i c := ⟨_, _, hi, hc, Or.inl rfl⟩
  have hright : Components.Adjacent s.vertexPairs c j := ⟨_, _, hc, hj, Or.inr rfl⟩
  exact hleft.linked.trans hright.linked

end Listed

/-- What it means that the cliques of a solution are the connected components of the equilibrium set
of a game. -/
structure ConnectedComponents (g : Game) (s : Solution ℚ) : Prop where
  /-- Between two equilibria that share a vertex there are only equilibria. -/
  segment : ∀ e ∈ s.equilibria, ∀ e' ∈ s.equilibria,
    e.vertices.1 = e'.vertices.1 ∨ e.vertices.2 = e'.vertices.2 → ∀ t : ℚ, 0 ≤ t → t ≤ 1 →
      (e.profile.between t e'.profile).isNormalized = true ∧
        (e.profile.between t e'.profile).isNash g = true
  /-- A clique holds exactly what such steps lead to from one of its members. -/
  linked : ∀ K ∈ s.cliques, ∀ i ∈ K, ∀ j, j ∈ K ↔ Components.Linked s.vertexPairs i j
  /-- A maximal subset lies in a single clique. -/
  single : ∀ S ∈ s.maximalNashSubsets, S.equilibria ≠ [] ∧ ∃! K, K ∈ s.cliques ∧ S.equilibria ⊆ K
  /-- Subsets of different cliques are apart. -/
  apart : ∀ K ∈ s.cliques, ∀ K' ∈ s.cliques, K ≠ K' →
    ∀ S ∈ s.maximalNashSubsets, ∀ S' ∈ s.maximalNashSubsets, S.equilibria ⊆ K → S'.equilibria ⊆ K' →
      ∀ z, ¬(s.Spans g S z ∧ s.Spans g S' z)
  /-- Every equilibrium belongs to exactly one clique. -/
  covered : ∀ z : MixedProfile ℚ, z.shape = g.counts → z.isNormalized = true → z.isNash g = true →
    ∃! K, K ∈ s.cliques ∧ ∃ S ∈ s.maximalNashSubsets, S.equilibria ⊆ K ∧ s.Spans g S z

/-- **The cliques are the connected components of the equilibrium set.** -/
theorem find_connected_components (g : Game) (h : g.Valid) (htwo : g.numPlayers = 2) :
    ∃ s : Solution ℚ, find Polytope.vertices g = .ok s ∧ s.ConnectedComponents g := by
  have h₀ : 0 < g.numStrategies 0 := Game.numStrategies_pos h.accepted (by omega)
  have h₁ : 0 < g.numStrategies 1 := Game.numStrategies_pos h.accepted (by omega)
  obtain ⟨ps, qs, hfind, -, -, hps, hqs⟩ := exists_find htwo h.accepted
  set s := ofVertices (Polytope.first g) (Polytope.second g) ps qs
  have hmeet : ∀ K ∈ s.cliques, ∀ K' ∈ s.cliques, ∀ S ∈ s.maximalNashSubsets,
      ∀ S' ∈ s.maximalNashSubsets, S.equilibria ⊆ K → S'.equilibria ⊆ K' →
        ∀ z, s.Spans g S z → s.Spans g S' z → K = K' := by
    intro K hK K' hK' S hS S' hS' hsub hsub' z hz hz'
    obtain ⟨i, hi, j, hj, hlinked⟩ := linked_of_spans h₀ h₁ hps hqs hS hS' hz hz'
    have hjK : j ∈ K := (Components.mem_iff_linked hK (hsub hi)).mpr hlinked
    exact Components.eq_of_mem_of_mem hK hK' hjK (hsub' hj)
  have hsingle : ∀ S ∈ s.maximalNashSubsets,
      S.equilibria ≠ [] ∧ ∃! K, K ∈ s.cliques ∧ S.equilibria ⊆ K := by
    intro S hS
    have hne := Components.equilibria_ne_nil_of_subset hS
    obtain ⟨i, hi⟩ := List.exists_mem_of_ne_nil _ hne
    obtain ⟨K, hK, hsub, hunique⟩ := Components.exists_component_of_subset hS
    exact ⟨hne, K, ⟨hK, hsub⟩, fun K' hK' => hunique K' hK'.1 i hi (hK'.2 hi)⟩
  refine ⟨s, hfind, ⟨?_, ?_, hsingle, ?_, ?_⟩⟩
  · intro e he e' he' hshared t ht ht'
    exact isNash_between h₀ h₁ hps hqs h htwo he he' hshared ht ht'
  · exact fun K hK i hi j => Components.mem_iff_linked hK hi
  · rintro K hK K' hK' hne S hS S' hS' hsub hsub' z ⟨hz, hz'⟩
    exact hne (hmeet K hK K' hK' S hS S' hS' hsub hsub' z hz hz')
  · intro z hshape hnormal hnash
    obtain ⟨x, hx, y, hy, rfl⟩ := exists_eq_pairProfile htwo hshape hnormal
    rw [isNash_pairProfile_iff h htwo hx hy] at hnash
    obtain ⟨S, hS, hfirst, hsecond⟩ := exists_subset_of_isEquilibrium h₀ h₁ hps hqs hnash
    have hspans : s.Spans g S (pairProfile x y) := by
      rwa [Spans, (MixedProfile.mixture_pairProfile x y).1, (MixedProfile.mixture_pairProfile x y).2,
        and_iff_left hsecond]
    obtain ⟨-, K, ⟨hK, hsub⟩, -⟩ := hsingle S hS
    refine ⟨K, ⟨hK, S, hS, hsub, hspans⟩, ?_⟩
    rintro K' ⟨hK', S', hS', hsub', hspans'⟩
    exact hmeet K' hK' K hK S' hS' S hS hsub' hsub _ hspans' hspans

theorem find_connected_components_dilemma :
    Game.dilemma.Valid ∧ Game.dilemma.numPlayers = 2 ∧
      ∃ s : Solution ℚ, find Polytope.vertices Game.dilemma = .ok s ∧
        s.ConnectedComponents Game.dilemma :=
  ⟨Game.valid_dilemma, rfl, find_connected_components Game.dilemma Game.valid_dilemma rfl⟩

end Solution

end Equilibria
