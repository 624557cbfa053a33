import Mathlib
import Equilibria.Proofs.ComplementaryBases
import Equilibria.Proofs.MaximalSubsets
import Equilibria.Proofs.SharedMixtures

/-!
# Zero-sum games

Where one player gets what the other loses, the equilibria form a single product:

* `Bimatrix.IsEquilibrium.value_eq`, `Bimatrix.IsEquilibrium.interchange` — all equilibria are worth
  the same, and any mixture of the first player makes one with any of the second's;
* `Bimatrix.IsExtreme.interchange` — so do the extreme ones, since all mixtures of one player are in
  equilibrium with the same mixtures of the other;
* `Components.Rectangular` — pairs that can be crossed are one component and one maximal subset;
* `Solution.find_zeroSum` — hence the enumeration ends with one clique and one subset.

Crossing two equilibria is about mixtures, while the groups are made of numbers of vertices.  What
leads from the one to the other is that a vertex of an equilibrium is known by its mixture.
-/

namespace Equilibria

open Matrix

namespace Bimatrix

variable {δ κ : Type*} [Fintype δ] [Fintype κ] {A : Matrix δ κ ℚ} {x x' : δ → ℚ} {y y' : κ → ℚ}

/-! ### Interchangeable mixtures -/

theorem dotProduct_neg_transpose (A : Matrix δ κ ℚ) (x : δ → ℚ) (y : κ → ℚ) :
    y ⬝ᵥ -Aᵀ *ᵥ x = -(x ⬝ᵥ A *ᵥ y) := by
  rw [neg_mulVec, dotProduct_neg, mulVec_transpose, dotProduct_comm, dotProduct_mulVec]

/-- Against a mixture of an equilibrium, the other one of it costs the least. -/
theorem IsEquilibrium.le_of_mem (h : IsEquilibrium A (-Aᵀ) x y) (hy' : y' ∈ stdSimplex ℚ κ) :
    x ⬝ᵥ A *ᵥ y ≤ x ⬝ᵥ A *ᵥ y' := by
  have hle := h.second_best y' hy'
  rwa [dotProduct_neg_transpose, dotProduct_neg_transpose, neg_le_neg_iff] at hle

theorem IsEquilibrium.value_le (h : IsEquilibrium A (-Aᵀ) x y) (h' : IsEquilibrium A (-Aᵀ) x' y') :
    x' ⬝ᵥ A *ᵥ y' ≤ x ⬝ᵥ A *ᵥ y :=
  (h'.le_of_mem h.second_mem).trans (h.first_best x' h'.first_mem)

/-- **All equilibria are worth the same.** -/
theorem IsEquilibrium.value_eq (h : IsEquilibrium A (-Aᵀ) x y) (h' : IsEquilibrium A (-Aᵀ) x' y') :
    x ⬝ᵥ A *ᵥ y = x' ⬝ᵥ A *ᵥ y' :=
  le_antisymm (h'.value_le h) (h.value_le h')

/-- **Mixtures of different equilibria are an equilibrium.** -/
theorem IsEquilibrium.interchange (h : IsEquilibrium A (-Aᵀ) x y)
    (h' : IsEquilibrium A (-Aᵀ) x' y') : IsEquilibrium A (-Aᵀ) x y' := by
  have hvalue := h.value_eq h'
  refine ⟨h.first_mem, h'.second_mem, fun u hu => ?_, fun w hw => ?_⟩
  · calc u ⬝ᵥ A *ᵥ y' ≤ x' ⬝ᵥ A *ᵥ y' := h'.first_best u hu
      _ = x ⬝ᵥ A *ᵥ y := hvalue.symm
      _ ≤ x ⬝ᵥ A *ᵥ y' := h.le_of_mem h'.second_mem
  · rw [dotProduct_neg_transpose, dotProduct_neg_transpose, neg_le_neg_iff]
    calc x ⬝ᵥ A *ᵥ y' ≤ x' ⬝ᵥ A *ᵥ y' := h'.first_best x h.first_mem
      _ = x ⬝ᵥ A *ᵥ y := hvalue.symm
      _ ≤ x ⬝ᵥ A *ᵥ w := h.le_of_mem hw

/-- **Extreme mixtures of different equilibria are an extreme equilibrium.** -/
theorem IsExtreme.interchange (h : IsExtreme A (-Aᵀ) x y) (h' : IsExtreme A (-Aᵀ) x' y') :
    IsExtreme A (-Aᵀ) x y' := by
  have hfirst : fibre A (-Aᵀ) y = fibre A (-Aᵀ) y' := Set.ext fun u =>
    ⟨fun hu => IsEquilibrium.interchange hu h'.equilibrium,
      fun hu => IsEquilibrium.interchange hu h.equilibrium⟩
  have hsecond : fibre (-Aᵀ) A x = fibre (-Aᵀ) A x' := Set.ext fun w =>
    ⟨fun hw => (h'.equilibrium.interchange (IsEquilibrium.swap hw)).swap,
      fun hw => (h.equilibrium.interchange (IsEquilibrium.swap hw)).swap⟩
  refine ⟨h.equilibrium.interchange h'.equilibrium, ?_, ?_⟩
  · rw [← hfirst]
    exact h.first_extreme
  · rw [hsecond]
    exact h'.second_extreme

end Bimatrix

/-! ### Pairs that can be crossed -/

namespace Components

/-- Whether the first member of any pair is paired with the second member of any other. -/
def Rectangular (pairs : List (ℕ × ℕ)) : Prop := ∀ a ∈ pairs, ∀ b ∈ pairs, (a.1, b.2) ∈ pairs

variable {pairs : List (ℕ × ℕ)} {S : NashSubset} {i j : ℕ}

theorem Rectangular.all_linked (h : Rectangular pairs) (hi : i < pairs.length)
    (hj : j < pairs.length) : Linked pairs i j := by
  have ha := List.getElem?_eq_getElem hi
  have hb := List.getElem?_eq_getElem hj
  obtain ⟨k, hk⟩ := List.getElem?_of_mem (h _ (List.getElem_mem hi) _ (List.getElem_mem hj))
  have hleft : Adjacent pairs i k := ⟨_, _, ha, hk, Or.inl rfl⟩
  have hright : Adjacent pairs k j := ⟨_, _, hk, hb, Or.inr rfl⟩
  exact hleft.linked.trans hright.linked

/-- **They are one component.** -/
theorem Rectangular.build_eq_singleton (h : Rectangular pairs) (hne : pairs ≠ []) :
    build pairs = [List.range pairs.length] := by
  have hpos : 0 < pairs.length := List.length_pos_iff.mpr hne
  have hroot : ∀ i ∈ List.range pairs.length, (linked pairs).root i = 0 := by
    intro i hi
    rw [root_linked_eq_iff.mpr (h.all_linked (List.mem_range.mp hi) hpos)]
    exact Nat.le_zero.mp ((linked pairs).root_le 0)
  have hroots : rootsBelow (linked pairs) pairs.length = [0] := by
    refine (List.perm_singleton.mp ?_)
    refine (List.perm_ext_iff_of_nodup (nodup_rootsBelow _ _) (List.nodup_singleton 0)).mpr fun r => ?_
    rw [mem_rootsBelow, List.mem_singleton]
    constructor
    · rintro ⟨hr, hfixed⟩
      rw [← hfixed, hroot r (List.mem_range.mpr hr)]
    · rintro rfl
      exact ⟨hpos, hroot 0 (List.mem_range.mpr hpos)⟩
  have hmembers : membersBelow (linked pairs) pairs.length 0 = List.range pairs.length :=
    List.filter_eq_self.mpr fun i hi => decide_eq_true (hroot i hi)
  rw [build_eq, hroots, List.map_singleton, hmembers]

theorem Rectangular.mem_second_iff (h : Rectangular pairs) (hS : S ∈ maximalNashSubsets pairs)
    {w : ℕ} : w ∈ S.second ↔ ∃ a ∈ pairs, a.2 = w := by
  refine ⟨fun hw => (exists_pair hS).2 w hw, ?_⟩
  rintro ⟨b, hb, rfl⟩
  refine (Components.mem_second_iff hS).mpr fun v hv => ?_
  obtain ⟨a, ha, rfl⟩ := (exists_pair hS).1 v hv
  exact h a ha b hb

theorem Rectangular.mem_first_iff (h : Rectangular pairs) (hS : S ∈ maximalNashSubsets pairs)
    {v : ℕ} : v ∈ S.first ↔ ∃ a ∈ pairs, a.1 = v := by
  refine ⟨fun hv => (exists_pair hS).1 v hv, ?_⟩
  rintro ⟨a, ha, rfl⟩
  refine (Components.mem_first_iff hS).mpr fun w hw => ?_
  obtain ⟨b, hb, rfl⟩ := (exists_pair hS).2 w hw
  exact h a ha b hb

theorem Rectangular.equilibria_eq (h : Rectangular pairs) (hS : S ∈ maximalNashSubsets pairs) :
    S.equilibria = List.range pairs.length := by
  have hinside : ∀ a ∈ pairs, a.1 ∈ S.first ∧ a.2 ∈ S.second := fun a ha =>
    ⟨(h.mem_first_iff hS).mpr ⟨a, ha, rfl⟩, (h.mem_second_iff hS).mpr ⟨a, ha, rfl⟩⟩
  obtain ⟨second, -, rfl⟩ := List.mem_map.mp hS
  have hall : ∀ entry ∈ pairs.zipIdx,
      ((subsetOf pairs second).first.contains entry.1.1 && second.contains entry.1.2) = true := by
    intro entry hentry
    obtain ⟨hfirst, hsecond⟩ := hinside entry.1 (List.fst_mem_of_mem_zipIdx hentry)
    rw [Bool.and_eq_true, List.contains_iff_mem, List.contains_iff_mem]
    exact ⟨hfirst, hsecond⟩
  show (pairs.zipIdx.filter fun entry => (subsetOf pairs second).first.contains entry.1.1 &&
    second.contains entry.1.2).map Prod.snd = _
  rw [List.filter_eq_self.mpr hall, List.zipIdx_map_snd, List.range_eq_range']

/-- **They are one maximal subset.** -/
theorem Rectangular.exists_maximalNashSubsets_eq (h : Rectangular pairs) (hne : pairs ≠ []) :
    ∃ S, maximalNashSubsets pairs = [S] ∧ S.equilibria = List.range pairs.length := by
  obtain ⟨a, ha⟩ := List.exists_mem_of_ne_nil _ hne
  obtain ⟨S, hS, -⟩ := exists_subset (V := {a.1}) (W := {a.2}) ⟨_, rfl⟩ ⟨_, rfl⟩ (by
    rintro v rfl w rfl
    exact ha)
  refine ⟨S, List.perm_singleton.mp ?_, h.equilibria_eq hS⟩
  refine (List.perm_ext_iff_of_nodup (nodup_maximalNashSubsets pairs)
    (List.nodup_singleton S)).mpr fun S' => ?_
  rw [List.mem_singleton]
  constructor
  · intro hS'
    exact eq_of_second hS' hS fun w => (h.mem_second_iff hS').trans (h.mem_second_iff hS).symm
  · rintro rfl
    exact hS

end Components

/-! ### Zero-sum games -/

/-- Whether the second player loses what the first one gets, in every pure profile. -/
def Game.ZeroSum (g : Game) : Prop := ∀ s ∈ profiles g.counts, g.payoff 1 s = -g.payoff 0 s

instance (g : Game) : Decidable g.ZeroSum :=
  inferInstanceAs (Decidable (∀ s ∈ profiles g.counts, g.payoff 1 s = -g.payoff 0 s))

variable {g : Game}

theorem Game.ZeroSum.columnPayoffs_eq (h : g.ZeroSum) (htwo : g.numPlayers = 2) :
    g.columnPayoffs = -g.rowPayoffsᵀ := by
  ext j i
  show g.payoff 1 [i, j] = -g.payoff 0 [i, j]
  apply h
  rw [counts_eq htwo]
  exact pair_mem_profiles.mpr ⟨i.isLt, j.isLt⟩

/-- What the program expects for the first player. -/
theorem expectedPayoff_pairProfile (h : g.Valid) (htwo : g.numPlayers = 2)
    (x : Fin (g.numStrategies 0) → ℚ) (y : Fin (g.numStrategies 1) → ℚ) :
    (Payoffs.ofGame g).expectedPayoff (pairProfile x y) 0 = x ⬝ᵥ g.rowPayoffs *ᵥ y := by
  rw [Payoffs.expectedPayoff,
    Payoffs.average_strategyValues h (shape_pairProfile htwo x y) (by omega), expected_first htwo]

namespace Solution

namespace Enumerates

variable {s : Solution ℚ} {ps qs : VertexSet ℚ} (h : s.Enumerates g ps qs)

include h

theorem vertexPairs_ne_nil : s.vertexPairs ≠ [] := by
  obtain ⟨p, hp, q, hq, hp0, hq0, hlabels⟩ := Polytope.exists_complementary
    (Polytope.represents_first h.second_pos) (Polytope.represents_second h.first_pos)
  obtain ⟨i, hi⟩ := List.getElem?_of_mem ((h.mem_first _).mpr ⟨p, hp, rfl⟩)
  obtain ⟨j, hj⟩ := List.getElem?_of_mem ((h.mem_second _).mpr ⟨q, hq, rfl⟩)
  exact List.ne_nil_of_mem
    (h.mem_vertexPairs_iff.mpr ⟨p, hp, q, hq, hp0, hq0, hlabels, hi, hj⟩)

/-- **In a zero-sum game the pairs of vertices can be crossed.** -/
theorem rectangular_vertexPairs (htwo : g.numPlayers = 2) (hzero : g.ZeroSum) :
    Components.Rectangular s.vertexPairs := by
  rintro ⟨i, j⟩ hij ⟨i', j'⟩ hij'
  obtain ⟨p, hp, q, hq, hp0, hq0, hlabels, hi, hj⟩ := h.mem_vertexPairs_iff.mp hij
  obtain ⟨p', hp', q', hq', hp0', hq0', hlabels', hi', hj'⟩ := h.mem_vertexPairs_iff.mp hij'
  have hextreme := (isExtreme_iff_vertices h.first_pos h.second_pos).mpr
    ⟨p, hp, q, hq, hp0, hq0, hlabels, rfl, rfl⟩
  have hextreme' := (isExtreme_iff_vertices h.first_pos h.second_pos).mpr
    ⟨p', hp', q', hq', hp0', hq0', hlabels', rfl, rfl⟩
  rw [hzero.columnPayoffs_eq htwo] at hextreme hextreme'
  have hcrossed := hextreme.interchange hextreme'
  rw [← hzero.columnPayoffs_eq htwo] at hcrossed
  -- the vertices of the crossed equilibrium have the mixtures of `p` and `q'`, so they are these
  obtain ⟨u, hu, w, hw, hu0, hw0, hcrossedLabels, hfirst, hsecond⟩ :=
    (isExtreme_iff_vertices h.first_pos h.second_pos).mp hcrossed
  obtain rfl : p = u := (hlabels.reaches hp.1 hp0 hq0).eq_of_scaled_eq
    (hcrossedLabels.reaches hu.1 hu0 hw0) hfirst
  obtain rfl : q' = w := (hlabels'.swap.reaches hq'.1 hq0' hp0').eq_of_scaled_eq
    (hcrossedLabels.swap.reaches hw.1 hw0 hu0) hsecond
  exact h.mem_vertexPairs_iff.mpr ⟨p, hu, q', hw, hu0, hw0, hcrossedLabels, hi, hj'⟩

end Enumerates

/-- **Zero-sum games have one clique and one maximal subset**, which hold all equilibria listed, and
all of these give the first player the same. -/
theorem find_zeroSum (g : Game) (h : g.Valid) (htwo : g.numPlayers = 2) (hzero : g.ZeroSum) :
    ∃ s : Solution ℚ, find Polytope.vertices g = .ok s ∧
      (∃ S, s.maximalNashSubsets = [S] ∧ S.equilibria = List.range s.size) ∧
      s.cliques = [List.range s.size] ∧
      ∃ v : ℚ, ∀ z ∈ s.profiles, (Payoffs.ofGame g).expectedPayoff z 0 = v := by
  obtain ⟨s, ps, qs, hfind, hs⟩ := exists_enumerates h htwo
  have hrectangular : Components.Rectangular s.vertexPairs := hs.rectangular_vertexPairs htwo hzero
  have hne : s.vertexPairs ≠ [] := hs.vertexPairs_ne_nil
  have hsize : s.vertexPairs.length = s.size := List.length_map _
  have hextreme : ∀ z ∈ s.profiles, ∃ x y, z = pairProfile x y ∧
      Bimatrix.IsEquilibrium g.rowPayoffs (-g.rowPayoffsᵀ) x y := by
    intro z hz
    obtain ⟨x, y, hzxy, hxy⟩ := hs.mem_profiles_iff.mp hz
    exact ⟨x, y, hzxy, hzero.columnPayoffs_eq htwo ▸ hxy.equilibrium⟩
  refine ⟨s, hfind, ?_, ?_, ?_⟩
  · rw [← hsize]
    exact hrectangular.exists_maximalNashSubsets_eq hne
  · rw [← hsize]
    exact hrectangular.build_eq_singleton hne
  · have hprofiles : s.profiles ≠ [] := fun hnil => hne (by
      rw [vertexPairs, List.map_eq_nil_iff.mp hnil, List.map_nil])
    obtain ⟨z₀, hz₀⟩ := List.exists_mem_of_ne_nil _ hprofiles
    obtain ⟨x₀, y₀, -, h₀⟩ := hextreme z₀ hz₀
    refine ⟨x₀ ⬝ᵥ g.rowPayoffs *ᵥ y₀, fun z hz => ?_⟩
    obtain ⟨x, y, rfl, hxy⟩ := hextreme z hz
    rw [expectedPayoff_pairProfile h htwo, hxy.value_eq h₀]

end Solution

/-- A game in which the first player is safe and the second one has a choice of answers. -/
def Game.siege : Game :=
  ⟨"Siege", [⟨"Row", ["stay", "leave"]⟩, ⟨"Column", ["wait", "storm"]⟩],
    [[1, -1], [0, 0], [1, -1], [2, -2]], [1, 2]⟩

theorem Game.valid_siege : Game.siege.Valid where
  built := rfl
  accepted := rfl

/-- The column player may wait, or mix; the two extreme answers are one clique. -/
theorem Solution.find_zeroSum_siege :
    Game.siege.Valid ∧ Game.siege.numPlayers = 2 ∧ Game.siege.ZeroSum ∧
      (∃ s : Solution ℚ, find Polytope.vertices Game.siege = .ok s ∧
        (∃ S, s.maximalNashSubsets = [S] ∧ S.equilibria = List.range s.size) ∧
        s.cliques = [List.range s.size] ∧
        ∃ v : ℚ, ∀ z ∈ s.profiles, (Payoffs.ofGame Game.siege).expectedPayoff z 0 = v) ∧
      (find (Polytope.vertices : VertexEnumerator ℚ) Game.siege).toOption.map cliques =
        some [[0, 1]] :=
  have hzero : Game.siege.ZeroSum := by decide +kernel
  ⟨Game.valid_siege, rfl, hzero, find_zeroSum Game.siege Game.valid_siege rfl hzero,
    by decide +kernel⟩

end Equilibria
