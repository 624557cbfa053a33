import Mathlib
import Equilibria.Proofs.ProductSets

/-!
# Outcomes of games with corresponding equilibria

What is enumerated for a game depends on its extreme equilibria and on which of them share a
mixture, and on nothing else of the game.  Two games that correspond in this have outcomes that
correspond in everything but the order:

* `Game.Carries.maximal_image`, `Game.Carries.maximal_preimage` — a correspondence takes maximal
  products to maximal products, in both directions;
* `Solution.CarriedTo` — the profiles, the cliques and the subsets of one outcome have those of
  another as images;
* `Game.Carries.find` — corresponding games have corresponding outcomes.
-/

namespace Equilibria

namespace Game

namespace Carries

variable {g g' : Game} {σ : Equiv.Perm (Fin 2)} {φ : MixedProfile ℚ → MixedProfile ℚ}
  {M N : Set (MixedProfile ℚ)} (h : Carries g' g σ φ)

include h

/-! ### Products -/

/-- The image of a product is a product. -/
theorem isProduct_image (hM : g'.IsProduct M) : g.IsProduct (φ '' M) := by
  refine ⟨hM.nonempty.image φ, ?_, fun f hf => ?_⟩
  · rintro _ ⟨z, hz, rfl⟩
    exact h.extreme (hM.extreme z hz)
  · choose v hv himage using hf
    obtain ⟨z, hz, hplayers⟩ := hM.combined (fun p => v (σ p)) fun p => hv (σ p)
    refine ⟨φ z, ⟨z, hz, rfl⟩, σ.surjective.forall.mpr fun p => ?_⟩
    rw [← himage]
    exact (h.player_iff _ _ (hM.extreme z hz) (hM.extreme _ (hv _)) p).mpr (hplayers p)

/-- The extreme equilibria whose images are in a product form a product. -/
theorem isProduct_preimage (hN : g.IsProduct N) : g'.IsProduct {z | g'.Extreme z ∧ φ z ∈ N} := by
  refine ⟨?_, fun z hz => hz.1, fun f hf => ?_⟩
  · obtain ⟨w, hw⟩ := hN.nonempty
    obtain ⟨z, hz, rfl⟩ := (h.extreme_iff w).mp (hN.extreme w hw)
    exact ⟨z, hz, hw⟩
  · obtain ⟨w, hw, hplayers⟩ := hN.combined (fun p => φ (f (σ.symm p))) fun p => (hf _).2
    obtain ⟨z, hz, rfl⟩ := (h.extreme_iff w).mp (hN.extreme w hw)
    refine ⟨z, ⟨hz, hw⟩, fun p => (h.player_iff z (f p) hz (hf p).1 p).mp ?_⟩
    rw [hplayers, σ.symm_apply_apply]

/-- Every product comes from one. -/
theorem image_preimage (hN : g.IsProduct N) : φ '' {z | g'.Extreme z ∧ φ z ∈ N} = N := by
  ext w
  constructor
  · rintro ⟨z, hz, rfl⟩
    exact hz.2
  · intro hw
    obtain ⟨z, hz, rfl⟩ := (h.extreme_iff w).mp (hN.extreme w hw)
    exact ⟨z, ⟨hz, hw⟩, rfl⟩

/-- **The image of a maximal product is maximal.** -/
theorem maximal_image (hM : Maximal g'.IsProduct M) : Maximal g.IsProduct (φ '' M) := by
  refine ⟨h.isProduct_image hM.prop, fun N hN hsub => ?_⟩
  have hback : {z | g'.Extreme z ∧ φ z ∈ N} ⊆ M :=
    hM.le_of_ge (h.isProduct_preimage hN) fun z hz => ⟨hM.prop.extreme z hz, hsub ⟨z, hz, rfl⟩⟩
  rw [← h.image_preimage hN]
  exact Set.image_mono hback

/-- **A maximal product comes from a maximal one.** -/
theorem maximal_preimage (hN : Maximal g.IsProduct N) :
    Maximal g'.IsProduct {z | g'.Extreme z ∧ φ z ∈ N} := by
  refine ⟨h.isProduct_preimage hN.prop, fun M hM hsub z hz => ⟨hM.extreme z hz, ?_⟩⟩
  have hforth : φ '' M ⊆ N := by
    refine hN.le_of_ge (h.isProduct_image hM) ?_
    rw [← h.image_preimage hN.prop]
    exact Set.image_mono hsub
  exact hforth ⟨z, hz, rfl⟩

/-! ### Profiles in no order -/

omit h in
theorem setOf_mem_map (m : Multiset (MixedProfile ℚ)) : {z | z ∈ m.map φ} = φ '' {z | z ∈ m} :=
  Set.ext fun _ => Multiset.mem_map

/-- Extreme equilibria without repetitions are known by their images. -/
theorem multiset_inj {m m' : Multiset (MixedProfile ℚ)} (hm : m.Nodup) (hm' : m'.Nodup)
    (hextreme : ∀ z ∈ m, g'.Extreme z) (hextreme' : ∀ z ∈ m', g'.Extreme z)
    (hsame : m.map φ = m'.map φ) : m = m' := by
  have hsub : ∀ {m m' : Multiset (MixedProfile ℚ)}, (∀ z ∈ m, g'.Extreme z) →
      (∀ z ∈ m', g'.Extreme z) → m.map φ = m'.map φ → ∀ z ∈ m, z ∈ m' := by
    intro m m' hextreme hextreme' hsame z hz
    have himage : φ z ∈ m'.map φ := hsame ▸ Multiset.mem_map_of_mem φ hz
    obtain ⟨w, hw, hzw⟩ := Multiset.mem_map.mp himage
    rwa [← h.inj (hextreme' w hw) (hextreme z hz) hzw]
  exact (Multiset.Nodup.ext hm hm').mpr fun z =>
    ⟨hsub hextreme hextreme' hsame z, hsub hextreme' hextreme hsame.symm z⟩

/-- **Profiles that form a maximal product are the images of such profiles.** -/
theorem exists_multiset_iff (m : Multiset (MixedProfile ℚ)) :
    (∃ m' : Multiset (MixedProfile ℚ), (m'.Nodup ∧ Maximal g'.IsProduct {z | z ∈ m'}) ∧
      m'.map φ = m) ↔ m.Nodup ∧ Maximal g.IsProduct {z | z ∈ m} := by
  constructor
  · rintro ⟨m', ⟨hm', hmax⟩, rfl⟩
    rw [setOf_mem_map]
    refine ⟨Multiset.Nodup.map_on (fun z hz w hw => ?_) hm', h.maximal_image hmax⟩
    exact h.inj (hmax.prop.extreme z hz) (hmax.prop.extreme w hw)
  · rintro ⟨hm, hmax⟩
    -- every member has a source, so that the sources are the members taken back
    choose! ψ hψ hback using fun w (hw : w ∈ m) => (h.extreme_iff w).mp (hmax.prop.extreme w hw)
    have hsame : (m.map ψ).map φ = m := by
      rw [Multiset.map_map]
      exact (Multiset.map_congr rfl hback).trans (Multiset.map_id m)
    refine ⟨m.map ψ, ⟨Multiset.Nodup.of_map φ (by rwa [hsame]), ?_⟩, hsame⟩
    have hmembers : {z | z ∈ m.map ψ} = {z | g'.Extreme z ∧ φ z ∈ {w | w ∈ m}} := by
      ext z
      constructor
      · intro hz
        obtain ⟨w, hw, rfl⟩ := Multiset.mem_map.mp hz
        exact ⟨hψ w hw, (hback w hw).symm ▸ hw⟩
      · rintro ⟨hz, hw⟩
        exact Multiset.mem_map.mpr ⟨φ z, hw, h.inj (hψ _ hw) hz (hback _ hw)⟩
    rw [hmembers]
    exact h.maximal_preimage hmax

end Carries

end Game

/-! ### Outcomes -/

/-- **An outcome that is carried to another one**: its profiles, its cliques and its maximal subsets
have those of the other one as images, in some order. -/
structure Solution.CarriedTo (φ : MixedProfile ℚ → MixedProfile ℚ) (t s : Solution ℚ) : Prop where
  profiles : (t.profiles.map φ).Perm s.profiles
  cliques : (t.cliqueSets.map (Multiset.map φ)).Perm s.cliqueSets
  subsets : (t.subsetSets.map (Multiset.map φ)).Perm s.subsetSets

/-- **Corresponding games have corresponding outcomes.** -/
theorem Game.Carries.find {g g' : Game} {σ : Equiv.Perm (Fin 2)}
    {φ : MixedProfile ℚ → MixedProfile ℚ} (h : Carries g' g σ φ)
    (hg' : g'.Valid) (htwo' : g'.numPlayers = 2) (hg : g.Valid) (htwo : g.numPlayers = 2)
    {s : Solution ℚ} (hs : Solution.find Polytope.vertices g = .ok s) :
    ∃ t, Solution.find Polytope.vertices g' = .ok t ∧ t.CarriedTo φ s := by
  obtain ⟨s', ps, qs, hfind, henum⟩ := Solution.exists_enumerates hg htwo
  obtain ⟨t, ps', qs', hfind', henum'⟩ := Solution.exists_enumerates hg' htwo'
  obtain rfl := Except.ok.inj (hs.symm.trans hfind)
  have hinj : ∀ z ∈ t.profiles, ∀ w ∈ t.profiles, φ z = φ w → z = w :=
    fun z hz w hw => h.inj (henum'.mem_profiles_iff.mp hz) (henum'.mem_profiles_iff.mp hw)
  have himage : ∀ z, z ∈ t.profiles.map φ ↔ z ∈ s.profiles := by
    intro z
    rw [List.mem_map, henum.mem_profiles_iff, h.extreme_iff]
    exact exists_congr fun w => and_congr_left fun _ => henum'.mem_profiles_iff
  refine ⟨t, hfind', ?_, ?_, ?_⟩
  · refine (List.perm_ext_iff_of_nodup ?_ henum.nodup_profiles).mpr himage
    exact (List.nodup_map_iff_inj_on henum'.nodup_profiles).mpr hinj
  · have hclasses := henum'.classes_cliqueProfiles.map hinj fun z hz w hw =>
      h.joined_iff (henum'.mem_profiles_iff.mp hz) (henum'.mem_profiles_iff.mp hw)
    have hperm := hclasses.perm henum.classes_cliqueProfiles himage
    rw [List.map_map] at hperm
    rw [Solution.cliqueSets, Solution.cliqueSets, List.map_map]
    exact hperm
  · refine (List.perm_ext_iff_of_nodup ?_ henum.nodup_subsetSets).mpr fun m => ?_
    · refine (List.nodup_map_iff_inj_on henum'.nodup_subsetSets).mpr fun m hm m' hm' => ?_
      obtain ⟨hnodup, hmax⟩ := henum'.mem_subsetSets_iff.mp hm
      obtain ⟨hnodup', hmax'⟩ := henum'.mem_subsetSets_iff.mp hm'
      exact h.multiset_inj hnodup hnodup' hmax.prop.extreme hmax'.prop.extreme
    · rw [henum.mem_subsetSets_iff, ← h.exists_multiset_iff, List.mem_map]
      exact exists_congr fun m' => and_congr_left fun _ => henum'.mem_subsetSets_iff

end Equilibria
