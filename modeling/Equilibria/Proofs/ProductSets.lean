import Mathlib
import Equilibria.Proofs.MaximalSubsets
import Equilibria.Proofs.SharedMixtures

/-!
# Maximal subsets as sets of profiles

The maximal Nash subsets of a solution are made from the numbers of vertices.  As sets of profiles
they are the maximal products of extreme equilibria, and depend on the game only:

* `Game.IsProduct` — a set of extreme equilibria in which the mixtures of any two members can be
  combined;
* `Solution.subsetSets`, `Solution.cliqueSets` — the subsets and the cliques as sets of profiles;
* `Enumerates.exists_subset_of_product` — a product lies inside a subset;
* `Enumerates.maximal_subset` — a subset is a maximal product;
* `Enumerates.mem_subsetSets_iff`, `Enumerates.nodup_subsetSets` — the subsets are exactly the maximal
  products, each once.
-/

namespace Equilibria

/-- A set of extreme equilibria that holds every combination of its members' mixtures. -/
structure Game.IsProduct (g : Game) (M : Set (MixedProfile ℚ)) : Prop where
  nonempty : M.Nonempty
  extreme : ∀ z ∈ M, g.Extreme z
  combined : ∀ f : Fin 2 → MixedProfile ℚ, (∀ p, f p ∈ M) →
    ∃ z ∈ M, ∀ p : Fin 2, z.player p = (f p).player p

namespace Solution

/-- The cliques as profiles in no order. -/
def cliqueSets (s : Solution ℚ) : List (Multiset (MixedProfile ℚ)) :=
  s.cliqueProfiles.map Multiset.ofList

/-- The profiles of a subset. -/
def subsetProfiles (s : Solution ℚ) (S : NashSubset) : List (MixedProfile ℚ) :=
  S.equilibria.map s.profileAt

/-- The maximal Nash subsets as profiles in no order. -/
def subsetSets (s : Solution ℚ) : List (Multiset (MixedProfile ℚ)) :=
  s.maximalNashSubsets.map fun S => Multiset.ofList (s.subsetProfiles S)

/-! ### Profiles by number -/

theorem exists_equilibrium {s : Solution ℚ} {i : ℕ} {a : ℕ × ℕ} (ha : s.vertexPairs[i]? = some a) :
    ∃ e ∈ s.equilibria, e.vertices = a ∧ s.profileAt i = e.profile := by
  rw [vertexPairs, List.getElem?_map, Option.map_eq_some_iff] at ha
  obtain ⟨e, he, hvertices⟩ := ha
  obtain ⟨hi, rfl⟩ := List.getElem?_eq_some_iff.mp he
  exact ⟨_, List.getElem_mem hi, hvertices, profileAt_eq hi⟩

namespace Enumerates

variable {s : Solution ℚ} {g : Game} {ps qs : VertexSet ℚ} (h : s.Enumerates g ps qs)

include h

/-- The extreme equilibria are the profiles of the listed pairs. -/
theorem extreme_iff_profileAt {z : MixedProfile ℚ} :
    g.Extreme z ↔ ∃ i a, s.vertexPairs[i]? = some a ∧ s.profileAt i = z := by
  constructor
  · intro hz
    obtain ⟨e, he, rfl⟩ := List.mem_map.mp (h.mem_profiles_iff.mpr hz)
    obtain ⟨i, hi, rfl⟩ := List.getElem_of_mem he
    exact ⟨i, _, getElem?_vertexPairs hi, profileAt_eq hi⟩
  · rintro ⟨i, a, ha, rfl⟩
    obtain ⟨e, he, -, hprofile⟩ := exists_equilibrium ha
    rw [hprofile]
    exact h.extreme he

theorem player_profileAt_iff {i j : ℕ} {a b : ℕ × ℕ} (ha : s.vertexPairs[i]? = some a)
    (hb : s.vertexPairs[j]? = some b) :
    ((s.profileAt i).player 0 = (s.profileAt j).player 0 ↔ a.1 = b.1) ∧
      ((s.profileAt i).player 1 = (s.profileAt j).player 1 ↔ a.2 = b.2) := by
  obtain ⟨e, he, rfl, hprofile⟩ := exists_equilibrium ha
  obtain ⟨e', he', rfl, hprofile'⟩ := exists_equilibrium hb
  rw [hprofile, hprofile']
  exact h.player_eq_iff he he'

/-- Different numbers have different profiles. -/
theorem profileAt_inj {i j : ℕ} {a b : ℕ × ℕ} (ha : s.vertexPairs[i]? = some a)
    (hb : s.vertexPairs[j]? = some b) (hsame : s.profileAt i = s.profileAt j) : i = j := by
  obtain ⟨hfirst, hsecond⟩ := h.player_profileAt_iff ha hb
  obtain rfl : a = b := Prod.ext (hfirst.mp (by rw [hsame])) (hsecond.mp (by rw [hsame]))
  exact eq_of_getElem?_eq h.nodup_vertexPairs ha hb

/-! ### Subsets and products -/

variable {S : NashSubset} {M : Set (MixedProfile ℚ)}

theorem profileAt_mem_subset_iff (hS : S ∈ s.maximalNashSubsets) {i : ℕ} {a : ℕ × ℕ}
    (ha : s.vertexPairs[i]? = some a) :
    s.profileAt i ∈ s.subsetProfiles S ↔ a.1 ∈ S.first ∧ a.2 ∈ S.second := by
  unfold subsetProfiles
  rw [List.mem_map]
  constructor
  · rintro ⟨j, hj, hsame⟩
    obtain ⟨b, hb, hfirst, hsecond⟩ := (Components.mem_equilibria_of_subset hS).mp hj
    obtain rfl := h.profileAt_inj hb ha hsame
    obtain rfl := Option.some.inj (hb.symm.trans ha)
    exact ⟨hfirst, hsecond⟩
  · rintro ⟨hfirst, hsecond⟩
    exact ⟨i, (Components.mem_equilibria_of_subset hS).mpr ⟨a, ha, hfirst, hsecond⟩, rfl⟩

/-- **Two members of a product have a third one that combines them.** -/
theorem exists_combined (hM : g.IsProduct M) {i j : ℕ} {a b : ℕ × ℕ}
    (ha : s.vertexPairs[i]? = some a) (hb : s.vertexPairs[j]? = some b)
    (hi : s.profileAt i ∈ M) (hj : s.profileAt j ∈ M) : (a.1, b.2) ∈ s.vertexPairs := by
  obtain ⟨z, hz, hplayers⟩ := hM.combined ![s.profileAt i, s.profileAt j]
    (Fin.forall_fin_two.mpr ⟨hi, hj⟩)
  obtain ⟨k, c, hc, rfl⟩ := h.extreme_iff_profileAt.mp (hM.extreme z hz)
  have hfirst : c.1 = a.1 := (h.player_profileAt_iff hc ha).1.mp (hplayers 0)
  have hsecond : c.2 = b.2 := (h.player_profileAt_iff hc hb).2.mp (hplayers 1)
  rw [← hfirst, ← hsecond]
  exact List.mem_of_getElem? hc

theorem isProduct_subset (hS : S ∈ s.maximalNashSubsets) :
    g.IsProduct {z | z ∈ s.subsetProfiles S} := by
  have hmember : ∀ z ∈ s.subsetProfiles S, ∃ i a, s.vertexPairs[i]? = some a ∧ s.profileAt i = z ∧
      a.1 ∈ S.first ∧ a.2 ∈ S.second := by
    intro z hz
    obtain ⟨i, hi, rfl⟩ := List.mem_map.mp hz
    obtain ⟨a, ha, hfirst, hsecond⟩ := (Components.mem_equilibria_of_subset hS).mp hi
    exact ⟨i, a, ha, rfl, hfirst, hsecond⟩
  refine ⟨?_, fun z hz => ?_, fun f hf => ?_⟩
  · obtain ⟨i, hi⟩ := List.exists_mem_of_ne_nil _ (Components.equilibria_ne_nil_of_subset hS)
    exact ⟨_, List.mem_map_of_mem hi⟩
  · obtain ⟨i, a, ha, hprofile, -⟩ := hmember z hz
    exact h.extreme_iff_profileAt.mpr ⟨i, a, ha, hprofile⟩
  · obtain ⟨i, a, ha, hprofile, hfirst, -⟩ := hmember _ (hf 0)
    obtain ⟨j, b, hb, hprofile', -, hsecond⟩ := hmember _ (hf 1)
    obtain ⟨k, hk⟩ := List.getElem?_of_mem (Components.mem_pairs_of_subset hS hfirst hsecond)
    refine ⟨s.profileAt k, (h.profileAt_mem_subset_iff hS hk).mpr ⟨hfirst, hsecond⟩,
      Fin.forall_fin_two.mpr ⟨?_, ?_⟩⟩
    · rw [← hprofile]
      exact (h.player_profileAt_iff hk ha).1.mpr rfl
    · rw [← hprofile']
      exact (h.player_profileAt_iff hk hb).2.mpr rfl

/-- **A product lies inside a subset.** -/
theorem exists_subset_of_product (hM : g.IsProduct M) :
    ∃ S ∈ s.maximalNashSubsets, ∀ z ∈ M, z ∈ s.subsetProfiles S := by
  obtain ⟨z₀, hz₀⟩ := hM.nonempty
  obtain ⟨i₀, a₀, ha₀, rfl⟩ := h.extreme_iff_profileAt.mp (hM.extreme z₀ hz₀)
  obtain ⟨S, hS, hfirst, hsecond⟩ := Components.exists_subset
    (V := {v | ∃ i a, s.vertexPairs[i]? = some a ∧ s.profileAt i ∈ M ∧ a.1 = v})
    (W := {w | ∃ i a, s.vertexPairs[i]? = some a ∧ s.profileAt i ∈ M ∧ a.2 = w})
    ⟨_, i₀, a₀, ha₀, hz₀, rfl⟩ ⟨_, i₀, a₀, ha₀, hz₀, rfl⟩ (by
      rintro v ⟨i, a, ha, hi, rfl⟩ w ⟨j, b, hb, hj, rfl⟩
      exact h.exists_combined hM ha hb hi hj)
  refine ⟨S, hS, fun z hz => ?_⟩
  obtain ⟨i, a, ha, rfl⟩ := h.extreme_iff_profileAt.mp (hM.extreme z hz)
  exact (h.profileAt_mem_subset_iff hS ha).mpr
    ⟨hfirst _ ⟨i, a, ha, hz, rfl⟩, hsecond _ ⟨i, a, ha, hz, rfl⟩⟩

/-- **A subset is a maximal product.** -/
theorem maximal_subset (hS : S ∈ s.maximalNashSubsets) :
    Maximal g.IsProduct {z | z ∈ s.subsetProfiles S} := by
  refine ⟨h.isProduct_subset hS, fun N hN hsub z hz => ?_⟩
  obtain ⟨i, a, ha, rfl⟩ := h.extreme_iff_profileAt.mp (hN.extreme z hz)
  -- the vertices of the subset belong to members of it, and these can be combined with `z`
  have hmember : ∀ v ∈ S.first, ∀ w ∈ S.second,
      ∃ j, s.vertexPairs[j]? = some (v, w) ∧ s.profileAt j ∈ N := by
    intro v hv w hw
    obtain ⟨j, hj⟩ := List.getElem?_of_mem (Components.mem_pairs_of_subset hS hv hw)
    exact ⟨j, hj, hsub ((h.profileAt_mem_subset_iff hS hj).mpr ⟨hv, hw⟩)⟩
  obtain ⟨v₀, hv₀⟩ := List.exists_mem_of_ne_nil _ (Components.ne_nil_of_subset hS).1
  obtain ⟨w₀, hw₀⟩ := List.exists_mem_of_ne_nil _ (Components.ne_nil_of_subset hS).2
  refine (h.profileAt_mem_subset_iff hS ha).mpr
    ⟨(Components.mem_first_iff hS).mpr fun w hw => ?_,
      (Components.mem_second_iff hS).mpr fun v hv => ?_⟩
  · obtain ⟨j, hj, hmem⟩ := hmember v₀ hv₀ w hw
    exact h.exists_combined hN ha hj hz hmem
  · obtain ⟨j, hj, hmem⟩ := hmember v hv w₀ hw₀
    exact h.exists_combined hN hj ha hmem hz

theorem nodup_subsetProfiles (hS : S ∈ s.maximalNashSubsets) : (s.subsetProfiles S).Nodup := by
  refine (List.nodup_map_iff_inj_on (Components.nodup_equilibria hS)).mpr fun i hi j hj hsame => ?_
  obtain ⟨a, ha, -⟩ := (Components.mem_equilibria_of_subset hS).mp hi
  obtain ⟨b, hb, -⟩ := (Components.mem_equilibria_of_subset hS).mp hj
  exact h.profileAt_inj ha hb hsame

/-- **The subsets are exactly the maximal products.** -/
theorem mem_subsetSets_iff {m : Multiset (MixedProfile ℚ)} :
    m ∈ s.subsetSets ↔ m.Nodup ∧ Maximal g.IsProduct {z | z ∈ m} := by
  unfold subsetSets
  rw [List.mem_map]
  constructor
  · rintro ⟨S, hS, rfl⟩
    exact ⟨Multiset.coe_nodup.mpr (h.nodup_subsetProfiles hS), h.maximal_subset hS⟩
  · rintro ⟨hm, hmax⟩
    obtain ⟨S, hS, hsub⟩ := h.exists_subset_of_product hmax.prop
    refine ⟨S, hS, (Multiset.Nodup.ext
      (Multiset.coe_nodup.mpr (h.nodup_subsetProfiles hS)) hm).mpr fun z => ?_⟩
    exact ⟨fun hz => hmax.le_of_ge (h.isProduct_subset hS) hsub hz, fun hz => hsub z hz⟩

theorem second_subset {S' : NashSubset} (hS : S ∈ s.maximalNashSubsets)
    (hS' : S' ∈ s.maximalNashSubsets) (hsub : s.subsetProfiles S ⊆ s.subsetProfiles S') :
    ∀ w ∈ S.second, w ∈ S'.second := by
  intro w hw
  obtain ⟨v, hv⟩ := List.exists_mem_of_ne_nil _ (Components.ne_nil_of_subset hS).1
  obtain ⟨j, hj⟩ := List.getElem?_of_mem (Components.mem_pairs_of_subset hS hv hw)
  have hmem := hsub ((h.profileAt_mem_subset_iff hS hj).mpr ⟨hv, hw⟩)
  exact ((h.profileAt_mem_subset_iff hS' hj).mp hmem).2

/-- No subset is listed twice. -/
theorem nodup_subsetSets : s.subsetSets.Nodup := by
  refine (List.nodup_map_iff_inj_on (Components.nodup_maximalNashSubsets _)).mpr
    fun S hS S' hS' hsame => ?_
  have hperm : (s.subsetProfiles S).Perm (s.subsetProfiles S') := Multiset.coe_eq_coe.mp hsame
  exact Components.eq_of_second hS hS' fun w =>
    ⟨h.second_subset hS hS' hperm.subset w, h.second_subset hS' hS hperm.symm.subset w⟩

end Enumerates

end Solution

end Equilibria
