import Mathlib
import Equilibria.Proofs.Labels

/-!
# The extreme equilibria of two-player games

`Solution.find` with the native enumerator lists the extreme equilibria of a game, each once:

* `Solution.mem_pairUp`, `Solution.nodup_pairUp` — every two matching vertices are paired once;
* `Solution.exists_find` — the enumeration succeeds, with the vertices of both polytopes;
* `Solution.mem_profiles_iff` — its profiles are the extreme equilibria of the game as given;
* `Solution.find_extreme_equilibria` — the whole statement.

That no profile is listed twice is no matter of course: different vertices could be scaled to the
same mixture.  The payoffs of the pair give the factor back (`Bimatrix.stretched_scaled`).
-/

namespace Equilibria

open Matrix

namespace Solution

/-! ### Pairs of vertices -/

section Pairs

variable {α : Type} [Scalar α] {numLabels : ℕ} {xs ys : List (Vertex α)}

theorem mem_pairUp {e : ExtremeEquilibrium α} :
    e ∈ pairUp numLabels xs ys ↔ ∃ x y, xs[e.vertices.1]? = some x ∧ ys[e.vertices.2]? = some y ∧
      matching numLabels x y = true ∧ e.profile = MixedProfile.ofWeights [x.point, y.point] := by
  simp only [pairUp, equilibriaAt, List.mem_flatMap, List.mem_map, List.mem_filter]
  constructor
  · rintro ⟨⟨x, i⟩, hx, ⟨y, j⟩, ⟨hy, hmatch⟩, rfl⟩
    exact ⟨x, y, List.mem_zipIdx_iff_getElem?.mp hx, List.mem_zipIdx_iff_getElem?.mp hy, hmatch, rfl⟩
  · rintro ⟨x, y, hx, hy, hmatch, hprofile⟩
    refine ⟨(x, e.vertices.1), List.mem_zipIdx_iff_getElem?.mpr hx, (y, e.vertices.2),
      ⟨List.mem_zipIdx_iff_getElem?.mpr hy, hmatch⟩, ?_⟩
    rw [← hprofile]

theorem nodup_pairUp (numLabels : ℕ) (xs ys : List (Vertex α)) :
    ((pairUp numLabels xs ys).map ExtremeEquilibrium.vertices).Nodup := by
  have hrow : ∀ x : Vertex α × ℕ, (equilibriaAt numLabels ys x).map ExtremeEquilibrium.vertices =
      ((ys.zipIdx.filter fun y => matching numLabels x.1 y.1).map Prod.snd).map fun j => (x.2, j) := by
    intro x
    simp only [equilibriaAt, List.map_map, Function.comp_def]
  unfold pairUp
  rw [List.map_flatMap, List.nodup_flatMap]
  constructor
  · intro x _
    rw [hrow]
    refine List.Nodup.map (fun j j' h => (Prod.mk.inj h).2) ?_
    exact (List.nodup_zipIdx_map_snd ys).sublist (List.filter_sublist.map _)
  · refine (List.pairwise_map.mp (List.nodup_zipIdx_map_snd xs)).imp fun {x x'} hne => ?_
    rw [Function.onFun, hrow, hrow]
    intro v hv hv'
    obtain ⟨j, -, rfl⟩ := List.mem_map.mp hv
    obtain ⟨j', -, heq⟩ := List.mem_map.mp hv'
    exact hne (Prod.mk.inj heq).1.symm

/-- What is paired are the points that are listed for two polytopes. -/
theorem mem_ofVertices {p q : Polytope α} {ps qs : VertexSet α} {e : ExtremeEquilibrium α} :
    e ∈ (ofVertices p q ps qs).equilibria ↔ ∃ v w, ps.points[e.vertices.1]? = some v ∧
      qs.points[e.vertices.2]? = some w ∧
      matching p.numLabels (p.vertex v) (q.vertex w) = true ∧
      e.profile = MixedProfile.ofWeights [v, w] := by
  show e ∈ pairUp _ _ _ ↔ _
  rw [mem_pairUp]
  constructor
  · rintro ⟨x, y, hx, hy, hmatch, hprofile⟩
    rw [List.getElem?_map, Option.map_eq_some_iff] at hx hy
    obtain ⟨v, hv, rfl⟩ := hx
    obtain ⟨w, hw, rfl⟩ := hy
    exact ⟨v, w, hv, hw, hmatch, hprofile⟩
  · rintro ⟨v, w, hv, hw, hmatch, hprofile⟩
    refine ⟨p.vertex v, q.vertex w, ?_, ?_, hmatch, hprofile⟩
    · rw [List.getElem?_map, hv]
      rfl
    · rw [List.getElem?_map, hw]
      rfl

end Pairs

/-! ### The vertices of a game -/

variable {g : Game}

/-- **The enumeration succeeds**, with the extreme points of both polytopes. -/
theorem exists_find (htwo : g.numPlayers = 2) (hvalid : g.validate = .ok ()) :
    ∃ ps qs : VertexSet ℚ, find Polytope.vertices g =
        .ok (ofVertices (Polytope.first g) (Polytope.second g) ps qs) ∧
      ps.points.Nodup ∧ qs.points.Nodup ∧
      (∀ v, v ∈ ps.points ↔ ∃ p ∈ (capped g.raisedColumns).extremePoints ℚ, v = List.ofFn p) ∧
      ∀ v, v ∈ qs.points ↔ ∃ q ∈ (capped g.raisedRows).extremePoints ℚ, v = List.ofFn q := by
  have h₀ : 0 < g.numStrategies 0 := Game.numStrategies_pos hvalid (by omega)
  have h₁ : 0 < g.numStrategies 1 := Game.numStrategies_pos hvalid (by omega)
  obtain ⟨ps, hps, hnodup₁, hmem₁⟩ := (Polytope.represents_first h₁).mem_vertices
  obtain ⟨qs, hqs, hnodup₂, hmem₂⟩ := (Polytope.represents_second h₀).mem_vertices
  refine ⟨ps, qs, ?_, hnodup₁, hnodup₂, hmem₁, hmem₂⟩
  simp only [find, hvalid, Polytope.pair_eq htwo, hps, hqs]

/-! ### From vertices to profiles -/

theorem normalize_ofFn {n : ℕ} {p : Fin n → ℚ} (hnonneg : 0 ≤ p) (hne : p ≠ 0) :
    MixedProfile.normalize (List.ofFn p) = List.ofFn (Bimatrix.scaled p) := by
  have hsum : Scalar.sum (List.ofFn p) = ∑ i, p i := by rw [Scalar.sum_eq, List.sum_ofFn]
  have hpos := Bimatrix.sum_pos_of_ne_zero hnonneg hne
  have hnegligible : ¬Scalar.isNegligible (∑ i, p i) = true := by
    rw [Scalar.isNegligible_iff]
    exact hpos.ne'
  unfold MixedProfile.normalize
  rw [hsum]
  show (if Scalar.isNegligible (∑ i, p i) = true then _ else _) = _
  rw [if_neg hnegligible, List.map_ofFn]
  congr 1
  funext i
  show p i / ∑ k, p k = (∑ k, p k)⁻¹ * p i
  rw [div_eq_mul_inv, mul_comm]

theorem ofWeights_ofFn {m n : ℕ} {p : Fin m → ℚ} {q : Fin n → ℚ} (hp : 0 ≤ p) (hp0 : p ≠ 0)
    (hq : 0 ≤ q) (hq0 : q ≠ 0) : MixedProfile.ofWeights [List.ofFn p, List.ofFn q] =
      pairProfile (Bimatrix.scaled p) (Bimatrix.scaled q) := by
  unfold MixedProfile.ofWeights pairProfile
  rw [List.map_cons, List.map_singleton, normalize_ofFn hp hp0, normalize_ofFn hq hq0]

section Listed

variable (h₀ : 0 < g.numStrategies 0) (h₁ : 0 < g.numStrategies 1) {ps qs : VertexSet ℚ}
  (hps : ∀ v, v ∈ ps.points ↔ ∃ p ∈ (capped g.raisedColumns).extremePoints ℚ, v = List.ofFn p)
  (hqs : ∀ v, v ∈ qs.points ↔ ∃ q ∈ (capped g.raisedRows).extremePoints ℚ, v = List.ofFn q)

include h₀ h₁

/-- Extreme equilibria in terms of the raised payoffs. -/
theorem isExtreme_iff_vertices {x : Fin (g.numStrategies 0) → ℚ} {y : Fin (g.numStrategies 1) → ℚ} :
    Bimatrix.IsExtreme g.rowPayoffs g.columnPayoffs x y ↔
      ∃ p ∈ (capped g.raisedColumns).extremePoints ℚ,
        ∃ q ∈ (capped g.raisedRows).extremePoints ℚ, p ≠ 0 ∧ q ≠ 0 ∧
          Bimatrix.Complementary g.raisedColumns g.raisedRows p q ∧
          x = Bimatrix.scaled p ∧ y = Bimatrix.scaled q := by
  rw [← Bimatrix.isExtreme_raise (g.shift 0) (g.shift 1)]
  exact Bimatrix.isExtreme_iff (Polytope.represents_first h₁).pos (Polytope.represents_second h₀).pos

include hps hqs

/-- What an entry of the list stands for. -/
theorem mem_equilibria_iff {e : ExtremeEquilibrium ℚ} :
    e ∈ (ofVertices (Polytope.first g) (Polytope.second g) ps qs).equilibria ↔
      ∃ p ∈ (capped g.raisedColumns).extremePoints ℚ,
        ∃ q ∈ (capped g.raisedRows).extremePoints ℚ, p ≠ 0 ∧ q ≠ 0 ∧
          Bimatrix.Complementary g.raisedColumns g.raisedRows p q ∧
          ps.points[e.vertices.1]? = some (List.ofFn p) ∧
          qs.points[e.vertices.2]? = some (List.ofFn q) ∧
          e.profile = pairProfile (Bimatrix.scaled p) (Bimatrix.scaled q) := by
  rw [mem_ofVertices]
  constructor
  · rintro ⟨v, w, hv, hw, hmatch, hprofile⟩
    obtain ⟨p, hp, rfl⟩ := (hps v).mp (List.mem_of_getElem? hv)
    obtain ⟨q, hq, rfl⟩ := (hqs w).mp (List.mem_of_getElem? hw)
    obtain ⟨hp0, hq0, hcomplementary⟩ := (Polytope.matching_iff h₀ h₁ p q).mp hmatch
    refine ⟨p, hp, q, hq, hp0, hq0, hcomplementary, hv, hw, ?_⟩
    rw [hprofile]
    exact ofWeights_ofFn hp.1.1 hp0 hq.1.1 hq0
  · rintro ⟨p, hp, q, hq, hp0, hq0, hcomplementary, hv, hw, hprofile⟩
    refine ⟨_, _, hv, hw, (Polytope.matching_iff h₀ h₁ p q).mpr ⟨hp0, hq0, hcomplementary⟩, ?_⟩
    rw [hprofile]
    exact (ofWeights_ofFn hp.1.1 hp0 hq.1.1 hq0).symm

/-- **The profiles listed are the extreme equilibria.** -/
theorem mem_profiles_iff {z : MixedProfile ℚ} :
    z ∈ (ofVertices (Polytope.first g) (Polytope.second g) ps qs).profiles ↔
      ∃ x y, z = pairProfile x y ∧ Bimatrix.IsExtreme g.rowPayoffs g.columnPayoffs x y := by
  unfold profiles
  rw [List.mem_map]
  constructor
  · rintro ⟨e, he, rfl⟩
    obtain ⟨p, hp, q, hq, hp0, hq0, hcomplementary, -, -, hprofile⟩ :=
      (mem_equilibria_iff h₀ h₁ hps hqs).mp he
    exact ⟨_, _, hprofile, (isExtreme_iff_vertices h₀ h₁).mpr
      ⟨p, hp, q, hq, hp0, hq0, hcomplementary, rfl, rfl⟩⟩
  · rintro ⟨x, y, rfl, hxy⟩
    obtain ⟨p, hp, q, hq, hp0, hq0, hcomplementary, rfl, rfl⟩ := (isExtreme_iff_vertices h₀ h₁).mp hxy
    obtain ⟨i, hi⟩ := List.getElem?_of_mem ((hps _).mpr ⟨p, hp, rfl⟩)
    obtain ⟨j, hj⟩ := List.getElem?_of_mem ((hqs _).mpr ⟨q, hq, rfl⟩)
    refine ⟨⟨pairProfile (Bimatrix.scaled p) (Bimatrix.scaled q), (i, j)⟩, ?_, rfl⟩
    exact (mem_equilibria_iff h₀ h₁ hps hqs).mpr ⟨p, hp, q, hq, hp0, hq0, hcomplementary, hi, hj, rfl⟩

/-- No profile is listed twice. -/
theorem nodup_profiles (hnodup₁ : ps.points.Nodup) (hnodup₂ : qs.points.Nodup) :
    (ofVertices (Polytope.first g) (Polytope.second g) ps qs).profiles.Nodup := by
  have hpairs : ((ofVertices (Polytope.first g) (Polytope.second g) ps qs).equilibria.map
      ExtremeEquilibrium.vertices).Nodup := nodup_pairUp _ _ _
  unfold profiles
  rw [List.nodup_map_iff_inj_on (List.Nodup.of_map _ hpairs)]
  intro e he e' he' hsame
  obtain ⟨p, hp, q, hq, hp0, hq0, hcomplementary, hi, hj, hprofile⟩ :=
    (mem_equilibria_iff h₀ h₁ hps hqs).mp he
  obtain ⟨p', hp', q', hq', hp0', hq0', hcomplementary', hi', hj', hprofile'⟩ :=
    (mem_equilibria_iff h₀ h₁ hps hqs).mp he'
  rw [hprofile, hprofile', pairProfile_inj] at hsame
  have hpp : p = p' := by
    rw [← Bimatrix.stretched_scaled hp.1 hq.1 hp0 hq0 hcomplementary, hsame.1, hsame.2,
      Bimatrix.stretched_scaled hp'.1 hq'.1 hp0' hq0' hcomplementary']
  have hqq : q = q' := by
    rw [← Bimatrix.stretched_scaled hq.1 hp.1 hq0 hp0 hcomplementary.swap, hsame.1, hsame.2,
      Bimatrix.stretched_scaled hq'.1 hp'.1 hq0' hp0' hcomplementary'.swap]
  subst hpp hqq
  have hfirst : e.vertices.1 = e'.vertices.1 :=
    (List.getElem?_inj (List.getElem?_eq_some_iff.mp hi).1 hnodup₁).mp (hi.trans hi'.symm)
  have hsecond : e.vertices.2 = e'.vertices.2 :=
    (List.getElem?_inj (List.getElem?_eq_some_iff.mp hj).1 hnodup₂).mp (hj.trans hj'.symm)
  cases e
  cases e'
  simp only [ExtremeEquilibrium.mk.injEq]
  exact ⟨hprofile.trans hprofile'.symm, Prod.ext hfirst hsecond⟩

end Listed

/-- **The enumeration lists exactly the extreme equilibria**, each once, and every profile listed is
normalized, passes the test for an equilibrium and has no regret. -/
theorem find_extreme_equilibria (g : Game) (h : g.Valid) (htwo : g.numPlayers = 2) :
    ∃ s : Solution ℚ, find Polytope.vertices g = .ok s ∧ s.profiles.Nodup ∧
      (∀ z, z ∈ s.profiles ↔
        ∃ x y, z = pairProfile x y ∧ Bimatrix.IsExtreme g.rowPayoffs g.columnPayoffs x y) ∧
      ∀ z ∈ s.profiles, z.isNormalized = true ∧ z.isNash g = true ∧ z.regret g = 0 := by
  have h₀ : 0 < g.numStrategies 0 := Game.numStrategies_pos h.accepted (by omega)
  have h₁ : 0 < g.numStrategies 1 := Game.numStrategies_pos h.accepted (by omega)
  obtain ⟨ps, qs, hfind, hnodup₁, hnodup₂, hps, hqs⟩ := exists_find htwo h.accepted
  refine ⟨_, hfind, nodup_profiles h₀ h₁ hps hqs hnodup₁ hnodup₂,
    fun z => mem_profiles_iff h₀ h₁ hps hqs, fun z hz => ?_⟩
  obtain ⟨x, y, rfl, hxy⟩ := (mem_profiles_iff h₀ h₁ hps hqs).mp hz
  have hx := hxy.equilibrium.first_mem
  have hy := hxy.equilibrium.second_mem
  have hnormal : (pairProfile x y).isNormalized = true := isNormalized_pairProfile_iff.mpr ⟨hx, hy⟩
  have hnash : (pairProfile x y).isNash g = true :=
    (isNash_pairProfile_iff h htwo hx hy).mpr hxy.equilibrium
  exact ⟨hnormal, hnash,
    (MixedProfile.isNash_iff_regret h (shape_pairProfile htwo x y) hnormal).mp hnash⟩

theorem find_extreme_equilibria_dilemma :
    Game.dilemma.Valid ∧ Game.dilemma.numPlayers = 2 ∧
      ∃ s : Solution ℚ, find Polytope.vertices Game.dilemma = .ok s ∧ s.profiles.Nodup ∧
        (∀ z, z ∈ s.profiles ↔ ∃ x y, z = pairProfile x y ∧
          Bimatrix.IsExtreme Game.dilemma.rowPayoffs Game.dilemma.columnPayoffs x y) ∧
        ∀ z ∈ s.profiles,
          z.isNormalized = true ∧ z.isNash Game.dilemma = true ∧ z.regret Game.dilemma = 0 :=
  ⟨Game.valid_dilemma, rfl, find_extreme_equilibria Game.dilemma Game.valid_dilemma rfl⟩

end Solution

end Equilibria
