import Mathlib
import Equilibria.Proofs.ConnectedComponents
import Equilibria.Proofs.ExtremeExpansion

/-!
# Shared vertices are shared mixtures

The cliques of a solution are made from the numbers of vertices, which depend on the polytopes and on
the order in which they are searched.  What a clique is as a set of profiles depends on neither:

* `Bimatrix.Reaches.eq_of_scaled_eq` — a point with a tight row is known by its mixture;
* `Solution.Enumerates`, `Solution.exists_enumerates` — the outcome of a game, and that there is one;
* `Enumerates.player_eq_iff` — equilibria share a vertex exactly when they share a mixture;
* `Enumerates.classes_cliqueProfiles` — the cliques are the classes of extreme equilibria that are
  joined by such steps;
* `Reduction.Sound.find_classes` — and the same holds, in the strategies of the whole game, for what
  is enumerated after a sound reduction.
-/

namespace Equilibria

open Matrix

namespace Bimatrix

variable {δ κ : Type*} [Fintype δ] {C : Matrix κ δ ℚ} {D : Matrix δ κ ℚ} {p p' : δ → ℚ} {q : κ → ℚ}

/-- A point of the region that is not the origin and has a tight row. -/
structure Reaches (C : Matrix κ δ ℚ) (p : δ → ℚ) : Prop where
  mem : p ∈ capped C
  ne_zero : p ≠ 0
  tight : ∃ j, (C *ᵥ p) j = 1

theorem Reaches.inv_sum_pos (h : Reaches C p) : 0 < (∑ i, p i)⁻¹ :=
  inv_pos.mpr (sum_pos_of_ne_zero h.mem.1 h.ne_zero)

theorem Reaches.inv_sum_le (h : Reaches C p) (h' : Reaches C p') (hsame : scaled p = scaled p') :
    (∑ i, p i)⁻¹ ≤ (∑ i, p' i)⁻¹ := by
  obtain ⟨j, hj⟩ := h.tight
  calc (∑ i, p i)⁻¹ = (C *ᵥ scaled p) j := by
        rw [mulVec_scaled, Pi.smul_apply, hj, smul_eq_mul, mul_one]
    _ = (∑ i, p' i)⁻¹ * (C *ᵥ p') j := by
        rw [hsame, mulVec_scaled, Pi.smul_apply, smul_eq_mul]
    _ ≤ (∑ i, p' i)⁻¹ := mul_le_of_le_one_right h'.inv_sum_pos.le (h'.mem.2 j)

/-- **A point with a tight row is known by its mixture.** -/
theorem Reaches.eq_of_scaled_eq (h : Reaches C p) (h' : Reaches C p')
    (hsame : scaled p = scaled p') : p = p' := by
  have hfactor : (∑ i, p i)⁻¹ = (∑ i, p' i)⁻¹ :=
    le_antisymm (h.inv_sum_le h' hsame) (h'.inv_sum_le h hsame.symm)
  rw [scaled, scaled, hfactor] at hsame
  exact smul_right_injective _ h'.inv_sum_pos.ne' hsame

/-- Of two points with all labels, the one reaches a row that the other uses. -/
theorem Complementary.reaches [Fintype κ] (h : Complementary C D p q) (hp : p ∈ capped C)
    (hp0 : p ≠ 0) (hq0 : q ≠ 0) : Reaches C p := by
  obtain ⟨j, hj⟩ := Function.ne_iff.mp hq0
  exact ⟨hp, hp0, j, (h.2 j).resolve_left hj⟩

end Bimatrix

namespace Solution

/-! ### The numbers of profiles -/

/-- The profile of a number. -/
def profileAt (s : Solution ℚ) (i : ℕ) : MixedProfile ℚ := s.profiles.getD i ⟨[]⟩

theorem profileAt_eq {s : Solution ℚ} {i : ℕ} (hi : i < s.equilibria.length) :
    s.profileAt i = s.equilibria[i].profile := by
  have hlt : i < s.profiles.length := by rwa [profiles, List.length_map]
  rw [profileAt, List.getD_eq_getElem _ _ hlt]
  exact List.getElem_map _

theorem getElem?_vertexPairs {s : Solution ℚ} {i : ℕ} (hi : i < s.equilibria.length) :
    s.vertexPairs[i]? = some s.equilibria[i].vertices := by
  rw [vertexPairs, List.getElem?_map, List.getElem?_eq_getElem hi]
  rfl

theorem map_profileAt (s : Solution ℚ) :
    (List.range s.equilibria.length).map s.profileAt = s.profiles := by
  have hlength : s.profiles.length = s.equilibria.length := List.length_map _
  rw [← hlength]
  exact map_getD_range s.profiles ⟨[]⟩

/-- Listed points have the same mixture exactly when they have the same number. -/
theorem scaled_eq_iff {k n : ℕ} {C : Matrix (Fin k) (Fin n) ℚ} {points : List (List ℚ)}
    (hnodup : points.Nodup) {i i' : ℕ} {p p' : Fin n → ℚ} (hi : points[i]? = some (List.ofFn p))
    (hi' : points[i']? = some (List.ofFn p')) (hp : Bimatrix.Reaches C p)
    (hp' : Bimatrix.Reaches C p') : Bimatrix.scaled p = Bimatrix.scaled p' ↔ i = i' := by
  rw [← List.getElem?_inj (List.getElem?_eq_some_iff.mp hi).1 hnodup, hi, hi', Option.some_inj,
    List.ofFn_injective.eq_iff]
  exact ⟨hp.eq_of_scaled_eq hp', congrArg _⟩

/-! ### The outcome of a game -/

/-- **An outcome of a game**: it pairs the vertices of two lists that hold the extreme points of the
game's polytopes, each once. -/
structure Enumerates (s : Solution ℚ) (g : Game) (ps qs : VertexSet ℚ) : Prop where
  first_pos : 0 < g.numStrategies 0
  second_pos : 0 < g.numStrategies 1
  eq_ofVertices : s = ofVertices (Polytope.first g) (Polytope.second g) ps qs
  mem_first : ∀ v, v ∈ ps.points ↔ ∃ p ∈ (capped g.raisedColumns).extremePoints ℚ, v = List.ofFn p
  mem_second : ∀ v, v ∈ qs.points ↔ ∃ q ∈ (capped g.raisedRows).extremePoints ℚ, v = List.ofFn q
  nodup_first : ps.points.Nodup
  nodup_second : qs.points.Nodup

theorem exists_enumerates {g : Game} (h : g.Valid) (htwo : g.numPlayers = 2) :
    ∃ s ps qs, find Polytope.vertices g = .ok s ∧ s.Enumerates g ps qs := by
  have h₀ : 0 < g.numStrategies 0 := Game.numStrategies_pos h.accepted (by omega)
  have h₁ : 0 < g.numStrategies 1 := Game.numStrategies_pos h.accepted (by omega)
  obtain ⟨ps, qs, hfind, hnodup₁, hnodup₂, hps, hqs⟩ := exists_find htwo h.accepted
  exact ⟨_, ps, qs, hfind, h₀, h₁, rfl, hps, hqs, hnodup₁, hnodup₂⟩

namespace Enumerates

variable {s : Solution ℚ} {g : Game} {ps qs : VertexSet ℚ} (h : s.Enumerates g ps qs)

include h

theorem mem_equilibria_iff {e : ExtremeEquilibrium ℚ} : e ∈ s.equilibria ↔
    ∃ p ∈ (capped g.raisedColumns).extremePoints ℚ, ∃ q ∈ (capped g.raisedRows).extremePoints ℚ,
      p ≠ 0 ∧ q ≠ 0 ∧ Bimatrix.Complementary g.raisedColumns g.raisedRows p q ∧
        ps.points[e.vertices.1]? = some (List.ofFn p) ∧
        qs.points[e.vertices.2]? = some (List.ofFn q) ∧
        e.profile = pairProfile (Bimatrix.scaled p) (Bimatrix.scaled q) := by
  rw [h.eq_ofVertices]
  exact Solution.mem_equilibria_iff h.first_pos h.second_pos h.mem_first h.mem_second

theorem mem_profiles_iff {z : MixedProfile ℚ} : z ∈ s.profiles ↔ g.Extreme z := by
  rw [h.eq_ofVertices]
  exact Solution.mem_profiles_iff h.first_pos h.second_pos h.mem_first h.mem_second

theorem nodup_profiles : s.profiles.Nodup := by
  rw [h.eq_ofVertices]
  exact Solution.nodup_profiles h.first_pos h.second_pos h.mem_first h.mem_second h.nodup_first
    h.nodup_second

theorem mem_vertexPairs_iff {i j : ℕ} : (i, j) ∈ s.vertexPairs ↔
    ∃ p ∈ (capped g.raisedColumns).extremePoints ℚ, ∃ q ∈ (capped g.raisedRows).extremePoints ℚ,
      p ≠ 0 ∧ q ≠ 0 ∧ Bimatrix.Complementary g.raisedColumns g.raisedRows p q ∧
        ps.points[i]? = some (List.ofFn p) ∧ qs.points[j]? = some (List.ofFn q) := by
  rw [h.eq_ofVertices]
  exact Solution.mem_vertexPairs_iff h.first_pos h.second_pos h.mem_first h.mem_second

theorem nodup_vertexPairs : s.vertexPairs.Nodup := by
  rw [h.eq_ofVertices]
  exact nodup_pairUp _ _ _

theorem extreme {e : ExtremeEquilibrium ℚ} (he : e ∈ s.equilibria) : g.Extreme e.profile :=
  h.mem_profiles_iff.mp (List.mem_map_of_mem he)

/-! ### The cliques of a game -/

/-- **Equilibria share a player's vertex exactly when they share that player's mixture.** -/
theorem player_eq_iff {e e' : ExtremeEquilibrium ℚ} (he : e ∈ s.equilibria)
    (he' : e' ∈ s.equilibria) :
    (e.profile.player 0 = e'.profile.player 0 ↔ e.vertices.1 = e'.vertices.1) ∧
      (e.profile.player 1 = e'.profile.player 1 ↔ e.vertices.2 = e'.vertices.2) := by
  obtain ⟨p, hp, q, hq, hp0, hq0, hlabels, hi, hj, hprofile⟩ := h.mem_equilibria_iff.mp he
  obtain ⟨p', hp', q', hq', hp0', hq0', hlabels', hi', hj', hprofile'⟩ :=
    h.mem_equilibria_iff.mp he'
  rw [hprofile, hprofile', (player_pairProfile _ _).1, (player_pairProfile _ _).1,
    (player_pairProfile _ _).2, (player_pairProfile _ _).2, List.ofFn_injective.eq_iff,
    List.ofFn_injective.eq_iff]
  constructor
  · exact scaled_eq_iff h.nodup_first hi hi' (hlabels.reaches hp.1 hp0 hq0)
      (hlabels'.reaches hp'.1 hp0' hq0')
  · exact scaled_eq_iff h.nodup_second hj hj' (hlabels.swap.reaches hq.1 hq0 hp0)
      (hlabels'.swap.reaches hq'.1 hq0' hp0')

/-- Equilibria share a vertex exactly when they share a mixture. -/
theorem touching_iff {e e' : ExtremeEquilibrium ℚ} (he : e ∈ s.equilibria)
    (he' : e' ∈ s.equilibria) : g.Touching e.profile e'.profile ↔
      e.vertices.1 = e'.vertices.1 ∨ e.vertices.2 = e'.vertices.2 := by
  obtain ⟨hfirst, hsecond⟩ := h.player_eq_iff he he'
  unfold Game.Touching
  rw [and_iff_right (h.extreme he), and_iff_right (h.extreme he'), hfirst, hsecond]

theorem profileAt_injOn : ∀ i ∈ List.range s.equilibria.length,
    ∀ j ∈ List.range s.equilibria.length, s.profileAt i = s.profileAt j → i = j := by
  have hnodup := h.nodup_profiles
  rwa [← map_profileAt, List.nodup_map_iff_inj_on List.nodup_range] at hnodup

/-- Chains of shared vertices are chains of shared mixtures. -/
theorem joined_iff {i j : ℕ} (hi : i < s.equilibria.length) (hj : j < s.equilibria.length) :
    g.Joined (s.profileAt i) (s.profileAt j) ↔ Components.Linked s.vertexPairs i j := by
  refine reflTransGen_map_iff (P := fun i => i < s.equilibria.length) ?_ ?_ ?_ ?_ hi hj
  · exact fun i j hi hj =>
      h.profileAt_injOn i (List.mem_range.mpr hi) j (List.mem_range.mpr hj)
  · intro i j hi hj
    rw [profileAt_eq hi, profileAt_eq hj,
      h.touching_iff (List.getElem_mem hi) (List.getElem_mem hj)]
    constructor
    · exact fun hshared => ⟨_, _, getElem?_vertexPairs hi, getElem?_vertexPairs hj, hshared⟩
    · rintro ⟨a, b, ha, hb, hshared⟩
      obtain rfl : _ = a := Option.some.inj ((getElem?_vertexPairs hi).symm.trans ha)
      obtain rfl : _ = b := Option.some.inj ((getElem?_vertexPairs hj).symm.trans hb)
      exact hshared
  · intro i j hij
    have hlength : s.vertexPairs.length = s.equilibria.length := List.length_map _
    exact ⟨hlength ▸ hij.symm.lt_length, hlength ▸ hij.lt_length⟩
  · -- every step starts at an extreme equilibrium, and all of these are listed
    intro z w hzw
    have hz : z ∈ s.profiles := h.mem_profiles_iff.mpr hzw.1
    rw [← map_profileAt, List.mem_map] at hz
    obtain ⟨i, hi, rfl⟩ := hz
    exact ⟨i, List.mem_range.mp hi, rfl⟩

/-- **The cliques are the classes of joined extreme equilibria.** -/
theorem classes_cliqueProfiles : Classes g.Joined s.profiles s.cliqueProfiles := by
  have hclasses := Components.classes_build s.vertexPairs
  have hlength : s.vertexPairs.length = s.equilibria.length := List.length_map _
  rw [hlength] at hclasses
  rw [← map_profileAt]
  exact hclasses.map h.profileAt_injOn fun i hi j hj =>
    h.joined_iff (List.mem_range.mp hi) (List.mem_range.mp hj)

end Enumerates

end Solution

/-- **What is enumerated after a sound reduction**: the extreme equilibria of the whole game, each
once, with the classes of joined ones as its cliques. -/
theorem Reduction.Sound.find_classes {g : Game} {r : Reduction} (h : Sound g r) (hg : g.Valid)
    (htwo : g.numPlayers = 2) :
    ∃ s : Solution ℚ, Solution.find Polytope.vertices r.game = .ok s ∧
      (s.profiles.map r.expand).Nodup ∧ (∀ z, z ∈ s.profiles.map r.expand ↔ g.Extreme z) ∧
      Classes g.Joined (s.profiles.map r.expand) (s.cliqueProfiles.map (List.map r.expand)) := by
  obtain ⟨s, ps, qs, hfind, hs⟩ := Solution.exists_enumerates h.valid (h.players_left htwo)
  have hcarries := h.carries hg htwo
  have hinj : ∀ z ∈ s.profiles, ∀ w ∈ s.profiles, r.expand z = r.expand w → z = w :=
    fun z hz w hw => hcarries.inj (hs.mem_profiles_iff.mp hz) (hs.mem_profiles_iff.mp hw)
  refine ⟨s, hfind, ?_, fun z => ?_, hs.classes_cliqueProfiles.map hinj ?_⟩
  · exact (List.nodup_map_iff_inj_on hs.nodup_profiles).mpr hinj
  · rw [List.mem_map, hcarries.extreme_iff]
    exact exists_congr fun w => and_congr_left fun _ => hs.mem_profiles_iff
  · exact fun z hz w hw =>
      hcarries.joined_iff (hs.mem_profiles_iff.mp hz) (hs.mem_profiles_iff.mp hw)

end Equilibria
