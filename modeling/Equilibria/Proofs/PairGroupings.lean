import Mathlib
import Equilibria.Proofs.MaximalSubsets

/-!
# Two groupings of pairs

Pairs of vertices are grouped in two ways that share no step: `Components.build` joins every pair
with the first ones at its vertices, and `Components.maximalNashSubsets` closes neighbourhoods under
intersection.  Whatever the pairs are, and however often one is repeated:

* `build_generated` — the components are the classes of the equivalence that sharing a vertex
  generates, each in order, by their least members;
* `Complete`, `NashSubset.sides` — sets of vertices that are all paired with each other, and the two
  sets of a subset;
* `maximalNashSubsets_exact` — the subsets are all maximal complete sets, each once, and the closure
  that makes them ends;
* `Overlap`, `groupings_agree` — two pairs are in one component exactly when a chain of subsets
  leads from the one to the other, in which two successive ones have a pair in common.
-/

namespace Equilibria

/-- The two sets of vertices of a subset. -/
def NashSubset.sides (S : NashSubset) : Set ℕ × Set ℕ := ({v | v ∈ S.first}, {w | w ∈ S.second})

namespace Components

variable {pairs : List (ℕ × ℕ)} {i j : ℕ} {S T : NashSubset} {Z : Set ℕ × Set ℕ}

/-! ### Components as classes -/

/-- **The components are the classes of the equivalence generated by sharing a vertex**: every number
is in one of them, two numbers are in the same one when a chain of shared vertices links them, and
both the components and their members are in order. -/
theorem build_generated (pairs : List (ℕ × ℕ)) :
    Classes (Relation.EqvGen (Adjacent pairs)) (List.range pairs.length) (build pairs) ∧
      (∀ i < pairs.length, ∀ j < pairs.length,
        (∃ K ∈ build pairs, i ∈ K ∧ j ∈ K) ↔ Linked pairs i j) ∧
      (∀ K ∈ build pairs, K.Pairwise (· < ·)) ∧
      (build pairs).Pairwise fun K K' => ∀ i ∈ K.head?, ∀ j ∈ K'.head?, i < j := by
  refine ⟨?_, fun i hi j _ => exists_component_iff hi, pairwise_build pairs⟩
  rw [Relation.EqvGen.eqvGen_eq_reflTransGen]
  exact classes_build pairs

/-! ### Subsets as maximal complete sets -/

/-- Two sets of vertices, neither empty, that are all paired with each other. -/
structure Complete (pairs : List (ℕ × ℕ)) (Z : Set ℕ × Set ℕ) : Prop where
  first_nonempty : Z.1.Nonempty
  second_nonempty : Z.2.Nonempty
  paired : ∀ v ∈ Z.1, ∀ w ∈ Z.2, (v, w) ∈ pairs

theorem complete_sides (hS : S ∈ maximalNashSubsets pairs) : Complete pairs S.sides where
  first_nonempty := List.exists_mem_of_ne_nil _ (ne_nil_of_subset hS).1
  second_nonempty := List.exists_mem_of_ne_nil _ (ne_nil_of_subset hS).2
  paired := fun _ hv _ hw => mem_pairs_of_subset hS hv hw

/-- The sides of a subset cannot be enlarged. -/
theorem maximal_sides (hS : S ∈ maximalNashSubsets pairs) : Maximal (Complete pairs) S.sides := by
  refine ⟨complete_sides hS, fun Z hZ hle => ⟨fun v hv => ?_, fun w hw => ?_⟩⟩
  · exact (mem_first_iff hS).mpr fun w hw => hZ.paired v hv w (hle.2 hw)
  · exact (mem_second_iff hS).mpr fun v hv => hZ.paired v (hle.1 hv) w hw

/-- **No maximal complete set is missed**, since it is inside the sides of a subset. -/
theorem exists_sides_eq (hZ : Maximal (Complete pairs) Z) :
    ∃ S ∈ maximalNashSubsets pairs, S.sides = Z := by
  obtain ⟨hfirst, hsecond, hpaired⟩ := hZ.prop
  obtain ⟨S, hS, hv, hw⟩ := exists_subset hfirst hsecond hpaired
  have hle : Z ≤ S.sides := ⟨hv, hw⟩
  exact ⟨S, hS, le_antisymm (hZ.le_of_ge (complete_sides hS) hle) hle⟩

theorem nodup_sides (pairs : List (ℕ × ℕ)) :
    ((maximalNashSubsets pairs).map NashSubset.sides).Nodup := by
  refine (List.nodup_map_iff_inj_on (nodup_maximalNashSubsets pairs)).mpr fun S hS S' hS' heq => ?_
  have hsecond : {w | w ∈ S.second} = {w | w ∈ S'.second} := congrArg Prod.snd heq
  exact eq_of_second hS hS' fun w => Set.ext_iff.mp hsecond w

/-- **The subsets are the maximal complete sets of vertices**, each once.  They come from a closure
that ends by itself, both sides of each are in order, and so are the numbers of its pairs. -/
theorem maximalNashSubsets_exact (pairs : List (ℕ × ℕ)) :
    (∃ closed, Closes 0 (neighbourSets pairs) closed ∧
        maximalNashSubsets pairs = closed.map (subsetOf pairs)) ∧
      ((maximalNashSubsets pairs).map NashSubset.sides).Nodup ∧
      (∀ Z, Z ∈ (maximalNashSubsets pairs).map NashSubset.sides ↔ Maximal (Complete pairs) Z) ∧
      ∀ S ∈ maximalNashSubsets pairs, S.first.Pairwise (· < ·) ∧ S.second.Pairwise (· < ·) ∧
        S.equilibria.Pairwise (· < ·) ∧ ∀ i, i ∈ S.equilibria ↔
          ∃ a, pairs[i]? = some a ∧ a.1 ∈ S.first ∧ a.2 ∈ S.second := by
  refine ⟨⟨_, closes_closedSets pairs, rfl⟩, nodup_sides pairs, fun Z => ?_, fun S hS => ?_⟩
  · rw [List.mem_map]
    constructor
    · rintro ⟨S, hS, rfl⟩
      exact maximal_sides hS
    · exact exists_sides_eq
  · exact ⟨pairwise_first hS, pairwise_second hS, pairwise_equilibria hS,
      fun i => mem_equilibria_of_subset hS⟩

/-! ### Components and subsets -/

/-- Pairs that share a vertex are in one subset. -/
theorem exists_subset_of_adjacent (h : Adjacent pairs i j) :
    ∃ S ∈ maximalNashSubsets pairs, i ∈ S.equilibria ∧ j ∈ S.equilibria := by
  obtain ⟨a, b, ha, hb, hshared⟩ := h
  have hmem : (a.1, a.2) ∈ pairs := List.mem_of_getElem? ha
  have hmem' : (b.1, b.2) ∈ pairs := List.mem_of_getElem? hb
  have hpaired : ∀ v ∈ ({a.1, b.1} : Set ℕ), ∀ w ∈ ({a.2, b.2} : Set ℕ), (v, w) ∈ pairs := by
    rcases hshared with heq | heq
    · rw [← heq] at hmem'
      simp [← heq, hmem, hmem']
    · rw [← heq] at hmem'
      simp [← heq, hmem, hmem']
  obtain ⟨S, hS, hfirst, hsecond⟩ :=
    exists_subset (Set.insert_nonempty _ _) (Set.insert_nonempty _ _) hpaired
  refine ⟨S, hS, (mem_equilibria_of_subset hS).mpr ⟨a, ha, ?_, ?_⟩,
    (mem_equilibria_of_subset hS).mpr ⟨b, hb, ?_, ?_⟩⟩
  · exact hfirst _ (Set.mem_insert _ _)
  · exact hsecond _ (Set.mem_insert _ _)
  · exact hfirst _ (Set.mem_insert_of_mem _ rfl)
  · exact hsecond _ (Set.mem_insert_of_mem _ rfl)

theorem exists_subset_of_lt (hi : i < pairs.length) :
    ∃ S ∈ maximalNashSubsets pairs, i ∈ S.equilibria := by
  have hself : Adjacent pairs i i :=
    ⟨pairs[i], pairs[i], List.getElem?_eq_getElem hi, List.getElem?_eq_getElem hi, Or.inl rfl⟩
  obtain ⟨S, hS, hmem, -⟩ := exists_subset_of_adjacent hself
  exact ⟨S, hS, hmem⟩

/-- Whether two subsets have a pair in common. -/
def Overlap (pairs : List (ℕ × ℕ)) (S T : NashSubset) : Prop :=
  S ∈ maximalNashSubsets pairs ∧ T ∈ maximalNashSubsets pairs ∧
    ∃ k ∈ S.equilibria, k ∈ T.equilibria

/-- A chain of shared vertices is covered by overlapping subsets. -/
theorem Linked.exists_overlapping (h : Linked pairs i j) (hi : i < pairs.length) :
    ∃ S ∈ maximalNashSubsets pairs, ∃ T ∈ maximalNashSubsets pairs, i ∈ S.equilibria ∧
      j ∈ T.equilibria ∧ Relation.ReflTransGen (Overlap pairs) S T := by
  induction h with
  | refl =>
    obtain ⟨S, hS, hmem⟩ := exists_subset_of_lt hi
    exact ⟨S, hS, S, hS, hmem, hmem, .refl⟩
  | tail _ hlast ih =>
    obtain ⟨S, hS, T, hT, hiS, hkT, hchain⟩ := ih
    obtain ⟨U, hU, hkU, hjU⟩ := exists_subset_of_adjacent hlast
    exact ⟨S, hS, U, hU, hiS, hjU, hchain.tail ⟨hT, hU, _, hkT, hkU⟩⟩

/-- Overlapping subsets only lead to pairs that are linked. -/
theorem linked_of_overlapping (hS : S ∈ maximalNashSubsets pairs)
    (h : Relation.ReflTransGen (Overlap pairs) S T) (hi : i ∈ S.equilibria)
    (hj : j ∈ T.equilibria) : Linked pairs i j := by
  induction h generalizing j with
  | refl => exact linked_of_subset hS hi hj
  | tail _ hlast ih =>
    obtain ⟨-, hT, k, hkS, hkT⟩ := hlast
    exact (ih hkS).trans (linked_of_subset hT hkT hj)

/-- **The two groupings agree**: the subsets cover all pairs, none reaches out of a component, and a
component is what chains of overlapping subsets link. -/
theorem groupings_agree (pairs : List (ℕ × ℕ)) :
    (∀ i < pairs.length, ∃ S ∈ maximalNashSubsets pairs, i ∈ S.equilibria) ∧
      (∀ S ∈ maximalNashSubsets pairs, ∃ K ∈ build pairs, S.equilibria ⊆ K) ∧
      ∀ i j, (∃ K ∈ build pairs, i ∈ K ∧ j ∈ K) ↔
        ∃ S ∈ maximalNashSubsets pairs, ∃ T ∈ maximalNashSubsets pairs, i ∈ S.equilibria ∧
          j ∈ T.equilibria ∧ Relation.ReflTransGen (Overlap pairs) S T := by
  refine ⟨fun i hi => exists_subset_of_lt hi, fun S hS => ?_, fun i j => ⟨?_, ?_⟩⟩
  · obtain ⟨K, hK, hsub, -⟩ := exists_component_of_subset hS
    exact ⟨K, hK, hsub⟩
  · rintro ⟨K, hK, hiK, hjK⟩
    exact ((mem_iff_linked hK hiK).mp hjK).exists_overlapping (lt_length_of_mem hK hiK)
  · rintro ⟨S, hS, T, hT, hiS, hjT, hchain⟩
    obtain ⟨a, ha, -⟩ := (mem_equilibria_of_subset hS).mp hiS
    have hi : i < pairs.length := (List.getElem?_eq_some_iff.mp ha).1
    exact (exists_component_iff hi).mpr (linked_of_overlapping hS hchain hiS hjT)

end Components

end Equilibria
