import Mathlib
import Equilibria.Proofs.MaximalSubsets
import Equilibria.Proofs.NondegenerateBases
import Equilibria.Proofs.SharedMixtures

/-!
# Nondegenerate games

A game is nondegenerate when no vertex carries more labels than it needs.  Such a game has an odd
number of equilibria, which stand alone:

* `Components.Matched` — pairs in which no vertex occurs twice; every group of them has one member;
* `Enumerates.card_split` — the complementary pairs of feasible bases are the equilibria and one more,
  that of the origins;
* `Enumerates.length_support_eq` — both players use equally many strategies;
* `Solution.find_nondegenerate` — the whole statement.

The number of complementary pairs is even in every game (`Polytope.even_card_split`).  What a
nondegenerate game adds is that a vertex has one basis only.
-/

namespace Equilibria

open Matrix
open Finset (range univ)

/-! ### Pairs without common vertices -/

namespace Components

/-- No vertex occurs in two of the pairs. -/
structure Matched (pairs : List (ℕ × ℕ)) : Prop where
  nodup : pairs.Nodup
  first : ∀ a ∈ pairs, ∀ b ∈ pairs, a.1 = b.1 → a = b
  second : ∀ a ∈ pairs, ∀ b ∈ pairs, a.2 = b.2 → a = b

variable {pairs : List (ℕ × ℕ)} {K : List ℕ} {S : NashSubset} {i j : ℕ}

theorem Matched.eq_of_linked (h : Matched pairs) (hij : Linked pairs i j) : i = j := by
  induction hij with
  | refl => rfl
  | tail _ hlast ih =>
    obtain ⟨a, b, ha, hb, hshared⟩ := hlast
    have hmem := List.mem_of_getElem? ha
    have hmem' := List.mem_of_getElem? hb
    obtain rfl : a = b := hshared.elim (h.first a hmem b hmem') (h.second a hmem b hmem')
    rw [ih]
    exact eq_of_getElem?_eq h.nodup ha hb

theorem eq_singleton_of_forall_eq (hne : K ≠ []) (hnodup : K.Nodup)
    (hsame : ∀ i ∈ K, ∀ j ∈ K, i = j) : ∃ i ∈ K, K = [i] := by
  obtain ⟨i, hi⟩ := List.exists_mem_of_ne_nil K hne
  refine ⟨i, hi, List.perm_singleton.mp ?_⟩
  refine (List.perm_ext_iff_of_nodup hnodup (List.nodup_singleton i)).mpr fun j => ?_
  rw [List.mem_singleton]
  exact ⟨fun hj => hsame j hj i hi, fun hj => hj ▸ hi⟩

/-- Every component has one member. -/
theorem Matched.component_eq (h : Matched pairs) (hK : K ∈ build pairs) :
    ∃ i < pairs.length, K = [i] := by
  have hclasses := classes_build pairs
  obtain ⟨i, hi, heq⟩ := eq_singleton_of_forall_eq (hclasses.nonempty K hK)
    ((List.nodup_flatten.mp hclasses.nodup).1 K hK)
    fun i hi j hj => h.eq_of_linked ((mem_iff_linked hK hi).mp hj)
  exact ⟨i, lt_length_of_mem hK hi, heq⟩

/-- Every maximal subset has one member. -/
theorem Matched.subset_eq (h : Matched pairs) (hS : S ∈ maximalNashSubsets pairs) :
    ∃ i < pairs.length, S.equilibria = [i] := by
  obtain ⟨i, hi, heq⟩ := eq_singleton_of_forall_eq (equilibria_ne_nil_of_subset hS)
    (nodup_equilibria hS) fun i hi j hj => h.eq_of_linked (linked_of_subset hS hi hj)
  obtain ⟨a, ha, -⟩ := (mem_equilibria_of_subset hS).mp hi
  exact ⟨i, (List.getElem?_eq_some_iff.mp ha).1, heq⟩

end Components

/-! ### Supports -/

/-- The number of strategies that a player uses. -/
theorem length_support_pairProfile {m n : ℕ} {x : Fin m → ℚ} {y : Fin n → ℚ} (hx : 0 ≤ x)
    (hy : 0 ≤ y) : ((pairProfile x y).support 0).length = (univ.filter fun i => x i ≠ 0).card ∧
      ((pairProfile x y).support 1).length = (univ.filter fun j => y j ≠ 0).card := by
  have hplayer : ∀ {k : ℕ} {z : Fin k → ℚ}, 0 ≤ z →
      (Polytope.placesWhere Scalar.isStrictlyPositive (List.ofFn z)).length =
        (univ.filter fun i => z i ≠ 0).card := by
    intro k z hz
    refine Polytope.length_placesWhere List.length_ofFn fun i => ?_
    rw [Polytope.mem_placesWhere]
    simp only [List.length_ofFn, List.getElem_ofFn, i.isLt, exists_true_left]
    rw [Scalar.isStrictlyPositive_iff]
    exact ⟨ne_of_gt, fun hne => lt_of_le_of_ne (hz i) hne.symm⟩
  exact ⟨hplayer hx, hplayer hy⟩

/-! ### The equilibria of a nondegenerate game -/

namespace Solution

/-- The point of a number in a list, as a vector. -/
def vectorAt (n : ℕ) (points : List (List ℚ)) (i : ℕ) : Fin n → ℚ :=
  fun c => (points.getD i []).getD c 0

theorem vectorAt_eq {n : ℕ} {points : List (List ℚ)} {i : ℕ} {p : Fin n → ℚ}
    (hi : points[i]? = some (List.ofFn p)) : vectorAt n points i = p := by
  funext c
  have hpoint : points.getD i [] = List.ofFn p := by
    rw [List.getD_eq_getElem?_getD, hi]
    rfl
  rw [vectorAt, hpoint, List.getD_eq_getElem _ _ (by simp), List.getElem_ofFn]

/-- The columns that the vertices of a pair use. -/
def usedColumns (g : Game) (ps qs : VertexSet ℚ) (a : ℕ × ℕ) : Finset ℕ × Finset ℕ :=
  (Polytope.used g.raisedColumns (vectorAt (g.numStrategies 0) ps.points a.1),
    Polytope.used g.raisedRows (vectorAt (g.numStrategies 1) qs.points a.2))

namespace Enumerates

variable {s : Solution ℚ} {g : Game} {ps qs : VertexSet ℚ} (h : s.Enumerates g ps qs)
  (hC : Capped.Nondegenerate g.raisedColumns) (hD : Capped.Nondegenerate g.raisedRows)

include h

theorem mem_map_usedColumns_iff {e : Finset ℕ × Finset ℕ} :
    e ∈ s.vertexPairs.map (usedColumns g ps qs) ↔
      ∃ p ∈ (capped g.raisedColumns).extremePoints ℚ,
        ∃ q ∈ (capped g.raisedRows).extremePoints ℚ, p ≠ 0 ∧ q ≠ 0 ∧
          Bimatrix.Complementary g.raisedColumns g.raisedRows p q ∧
          (Polytope.used g.raisedColumns p, Polytope.used g.raisedRows q) = e := by
  rw [List.mem_map]
  constructor
  · rintro ⟨⟨i, j⟩, hij, rfl⟩
    obtain ⟨p, hp, q, hq, hp0, hq0, hlabels, hi, hj⟩ := h.mem_vertexPairs_iff.mp hij
    refine ⟨p, hp, q, hq, hp0, hq0, hlabels, ?_⟩
    rw [usedColumns, vectorAt_eq hi, vectorAt_eq hj]
  · rintro ⟨p, hp, q, hq, hp0, hq0, hlabels, rfl⟩
    obtain ⟨i, hi⟩ := List.getElem?_of_mem ((h.mem_first _).mpr ⟨p, hp, rfl⟩)
    obtain ⟨j, hj⟩ := List.getElem?_of_mem ((h.mem_second _).mpr ⟨q, hq, rfl⟩)
    refine ⟨(i, j), h.mem_vertexPairs_iff.mpr
      ⟨p, hp, q, hq, hp0, hq0, hlabels, hi, hj⟩, ?_⟩
    rw [usedColumns, vectorAt_eq hi, vectorAt_eq hj]

theorem nodup_map_usedColumns : (s.vertexPairs.map (usedColumns g ps qs)).Nodup := by
  refine (List.nodup_map_iff_inj_on h.nodup_vertexPairs).mpr ?_
  rintro ⟨i, j⟩ hij ⟨i', j'⟩ hij' hsame
  obtain ⟨p, hp, q, hq, -, -, -, hi, hj⟩ := h.mem_vertexPairs_iff.mp hij
  obtain ⟨p', hp', q', hq', -, -, -, hi', hj'⟩ := h.mem_vertexPairs_iff.mp hij'
  rw [usedColumns, usedColumns, vectorAt_eq hi, vectorAt_eq hj, vectorAt_eq hi', vectorAt_eq hj',
    Prod.mk.injEq] at hsame
  obtain rfl := Polytope.eq_of_used_eq hp hsame.1
  obtain rfl := Polytope.eq_of_used_eq hq hsame.2
  exact Prod.ext (eq_of_getElem?_eq h.nodup_first hi hi') (eq_of_getElem?_eq h.nodup_second hj hj')

include hC hD

/-- **Complementary pairs of feasible bases are the equilibria and the pair of the origins.** -/
theorem card_split :
    {e ∈ (Tableau.lexicographic (Polytope.first g)).bases ×ˢ
        (Tableau.lexicographic (Polytope.second g)).bases |
          Polytope.Split (g.numStrategies 0) (g.numStrategies 1) e.1 e.2}.card =
      s.size + 1 := by
  have hP := Polytope.represents_first h.second_pos
  have hQ := Polytope.represents_second h.first_pos
  set origins := (Polytope.used g.raisedColumns 0, Polytope.used g.raisedRows 0)
  set pairs := {e ∈ (Tableau.lexicographic (Polytope.first g)).bases ×ˢ
    (Tableau.lexicographic (Polytope.second g)).bases |
      Polytope.Split (g.numStrategies 0) (g.numStrategies 1) e.1 e.2}
  have hmem : ∀ e, e ∈ pairs ↔ ∃ p ∈ (capped g.raisedColumns).extremePoints ℚ,
      ∃ q ∈ (capped g.raisedRows).extremePoints ℚ,
        Bimatrix.Complementary g.raisedColumns g.raisedRows p q ∧
          (Polytope.used g.raisedColumns p, Polytope.used g.raisedRows q) = e := by
    rintro ⟨T, S⟩
    rw [Finset.mem_filter, Finset.mem_product, hP.mem_bases_iff hC, hQ.mem_bases_iff hD]
    constructor
    · rintro ⟨⟨⟨p, hp, rfl⟩, q, hq, rfl⟩, hsplit⟩
      exact ⟨p, hp, q, hq, Polytope.split_used_iff.mp hsplit, rfl⟩
    · rintro ⟨p, hp, q, hq, hlabels, hsame⟩
      obtain ⟨rfl, rfl⟩ := Prod.mk.inj hsame
      exact ⟨⟨⟨p, hp, rfl⟩, q, hq, rfl⟩, Polytope.split_used_iff.mpr hlabels⟩
  have horigins : origins ∈ pairs :=
    (hmem _).mpr ⟨0, Capped.zero_mem_extremePoints _, 0, Capped.zero_mem_extremePoints _,
      Bimatrix.complementary_zero _ _, rfl⟩
  have hothers : pairs.erase origins = (s.vertexPairs.map (usedColumns g ps qs)).toFinset := by
    ext e
    rw [Finset.mem_erase, hmem, List.mem_toFinset, h.mem_map_usedColumns_iff]
    constructor
    · rintro ⟨hne, p, hp, q, hq, hlabels, rfl⟩
      refine ⟨p, hp, q, hq, ?_, ?_, hlabels, rfl⟩
      · rintro rfl
        exact hne (by rw [hlabels.eq_zero])
      · rintro rfl
        exact hne (by rw [hlabels.swap.eq_zero])
    · rintro ⟨p, hp, q, hq, hp0, -, hlabels, rfl⟩
      refine ⟨fun hsame => hp0 ?_, p, hp, q, hq, hlabels, rfl⟩
      exact (Polytope.eq_of_used_eq hp (Prod.mk.inj hsame).1).symm
  rw [← Finset.card_erase_add_one horigins, hothers,
    List.toFinset_card_of_nodup h.nodup_map_usedColumns, List.length_map, vertexPairs,
    List.length_map]
  rfl

/-- **No vertex makes two equilibria.** -/
theorem matched_vertexPairs : Components.Matched s.vertexPairs where
  nodup := h.nodup_vertexPairs
  first := by
    rintro ⟨i, j⟩ hij ⟨i', j'⟩ hij' hshared
    obtain ⟨p, hp, q, hq, -, -, hlabels, hi, hj⟩ := h.mem_vertexPairs_iff.mp hij
    obtain ⟨p', -, q', hq', -, -, hlabels', hi', hj'⟩ := h.mem_vertexPairs_iff.mp hij'
    obtain rfl : i = i' := hshared
    obtain rfl : p = p' := List.ofFn_injective (Option.some.inj (hi.symm.trans hi'))
    obtain rfl := hC.partner_unique hD hp hq hq' hlabels hlabels'
    exact Prod.ext rfl (eq_of_getElem?_eq h.nodup_second hj hj')
  second := by
    rintro ⟨i, j⟩ hij ⟨i', j'⟩ hij' hshared
    obtain ⟨p, hp, q, hq, -, -, hlabels, hi, hj⟩ := h.mem_vertexPairs_iff.mp hij
    obtain ⟨p', hp', q', -, -, -, hlabels', hi', hj'⟩ := h.mem_vertexPairs_iff.mp hij'
    obtain rfl : j = j' := hshared
    obtain rfl : q = q' := List.ofFn_injective (Option.some.inj (hj.symm.trans hj'))
    obtain rfl := hD.partner_unique hC hq hp hp' hlabels.swap hlabels'.swap
    exact Prod.ext (eq_of_getElem?_eq h.nodup_first hi hi') rfl

/-- **Both players use equally many strategies.** -/
theorem length_support_eq {z : MixedProfile ℚ} (hz : z ∈ s.profiles) :
    (z.support 0).length = (z.support 1).length := by
  obtain ⟨e, he, rfl⟩ := List.mem_map.mp hz
  obtain ⟨p, hp, q, hq, hp0, hq0, hlabels, -, -, hprofile⟩ := h.mem_equilibria_iff.mp he
  obtain ⟨hfirst, hsecond⟩ := length_support_pairProfile (Bimatrix.scaled_nonneg hp.1.1 hp0)
    (Bimatrix.scaled_nonneg hq.1.1 hq0)
  have hcard := hC.card_used_eq hD hp hq hlabels
  rw [hprofile, hfirst, hsecond]
  simpa only [Ne, Bimatrix.scaled_eq_zero_iff hp.1.1 hp0, Bimatrix.scaled_eq_zero_iff hq.1.1 hq0]
    using hcard

end Enumerates

end Solution

/-- Whether no vertex that the enumeration finds carries more labels than its player has
strategies, nor fewer. -/
def Game.Nondegenerate (g : Game) : Prop :=
  ∀ s : Solution ℚ, Solution.find Polytope.vertices g = .ok s →
    (∀ v ∈ s.first, v.labels.length = g.numStrategies 0) ∧
      ∀ w ∈ s.second, w.labels.length = g.numStrategies 1

instance (g : Game) : Decidable g.Nondegenerate :=
  match hfind : Solution.find (Polytope.vertices : VertexEnumerator ℚ) g with
  | .error _ => isTrue fun _ hs => nomatch hfind.symm.trans hs
  | .ok s => decidable_of_iff ((∀ v ∈ s.first, v.labels.length = g.numStrategies 0) ∧
      ∀ w ∈ s.second, w.labels.length = g.numStrategies 1)
    ⟨fun h _ ht => Except.ok.inj (hfind.symm.trans ht) ▸ h, fun h => h s hfind⟩

/-- **A nondegenerate game has an odd number of equilibria.**  In each of them both players use
equally many strategies, and it is a clique and a maximal subset of its own. -/
theorem Solution.find_nondegenerate (g : Game) (h : g.Valid) (htwo : g.numPlayers = 2)
    (hlabels : g.Nondegenerate) :
    ∃ s : Solution ℚ, find Polytope.vertices g = .ok s ∧ Odd s.size ∧
      (∀ z ∈ s.profiles, (z.support 0).length = (z.support 1).length) ∧
      (∀ K ∈ s.cliques, ∃ i < s.size, K = [i]) ∧
      ∀ S ∈ s.maximalNashSubsets, ∃ i < s.size, S.equilibria = [i] := by
  obtain ⟨s, ps, qs, hfind, hs⟩ := exists_enumerates h htwo
  have hP := Polytope.represents_first hs.second_pos
  have hQ := Polytope.represents_second hs.first_pos
  obtain ⟨hfirst, hsecond⟩ := hlabels s hfind
  have hC : Capped.Nondegenerate g.raisedColumns := hP.nondegenerate fun p hp => hfirst _ (by
    rw [hs.eq_ofVertices]
    exact List.mem_map_of_mem ((hs.mem_first _).mpr ⟨p, hp, rfl⟩))
  have hD : Capped.Nondegenerate g.raisedRows := hQ.nondegenerate fun q hq => hsecond _ (by
    rw [hs.eq_ofVertices]
    exact List.mem_map_of_mem ((hs.mem_second _).mpr ⟨q, hq, rfl⟩))
  have hmatched : Components.Matched s.vertexPairs := hs.matched_vertexPairs hC hD
  have hsize : s.vertexPairs.length = s.size := List.length_map _
  refine ⟨s, hfind, ?_, fun z => hs.length_support_eq hC hD, fun K hK => ?_, fun S hS => ?_⟩
  · have heven := Polytope.even_card_split hP hQ
    rwa [hs.card_split hC hD, Nat.even_add_one, Nat.not_even_iff_odd] at heven
  · rw [← hsize]
    exact hmatched.component_eq hK
  · rw [← hsize]
    exact hmatched.subset_eq hS

/-- Two players who want to meet, at one place or at the other. -/
def Game.rendezvous : Game :=
  ⟨"Rendezvous", [⟨"Row", ["bridge", "tower"]⟩, ⟨"Column", ["bridge", "tower"]⟩],
    [[1, 1], [0, 0], [0, 0], [1, 1]], [1, 2]⟩

theorem Game.valid_rendezvous : Game.rendezvous.Valid where
  built := rfl
  accepted := rfl

/-- They meet at either place, or each of them chooses at random. -/
theorem Solution.find_nondegenerate_rendezvous :
    Game.rendezvous.Valid ∧ Game.rendezvous.numPlayers = 2 ∧ Game.rendezvous.Nondegenerate ∧
      (∃ s : Solution ℚ, find Polytope.vertices Game.rendezvous = .ok s ∧ Odd s.size ∧
        (∀ z ∈ s.profiles, (z.support 0).length = (z.support 1).length) ∧
        (∀ K ∈ s.cliques, ∃ i < s.size, K = [i]) ∧
        ∀ S ∈ s.maximalNashSubsets, ∃ i < s.size, S.equilibria = [i]) ∧
      (find (Polytope.vertices : VertexEnumerator ℚ) Game.rendezvous).toOption.map size = some 3 :=
  have hlabels : Game.rendezvous.Nondegenerate := by decide +kernel
  ⟨Game.valid_rendezvous, rfl, hlabels,
    find_nondegenerate Game.rendezvous Game.valid_rendezvous rfl hlabels, by decide +kernel⟩

end Equilibria
