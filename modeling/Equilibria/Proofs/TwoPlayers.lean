import Mathlib
import Equilibria.Proofs.BestResponses
import Equilibria.Proofs.BimatrixEquilibria

/-!
# Games of two players as matrices

The payoffs of a game of two players as two matrices, each with a row per strategy of its player,
and pairs of mixtures as profiles:

* `Game.rowPayoffs`, `Game.columnPayoffs` — the matrices of the first and of the second player;
* `pairProfile` — two mixtures as a profile;
* `exists_eq_pairProfile` — every normalized profile of such a game is one;
* `isNash_pairProfile_iff` — the program's test is the textbook definition.
-/

namespace Equilibria

open Matrix
open Finset (range)

/-! ### Matrices and pairs of mixtures -/

/-- The first player's payoffs. -/
def Game.rowPayoffs (g : Game) : Matrix (Fin (g.numStrategies 0)) (Fin (g.numStrategies 1)) ℚ :=
  Matrix.of fun i j => g.payoff 0 [i, j]

/-- The second player's payoffs, a row per strategy of that player. -/
def Game.columnPayoffs (g : Game) : Matrix (Fin (g.numStrategies 1)) (Fin (g.numStrategies 0)) ℚ :=
  Matrix.of fun j i => g.payoff 1 [i, j]

/-- Two mixtures as a profile. -/
def pairProfile {m n : ℕ} (x : Fin m → ℚ) (y : Fin n → ℚ) : MixedProfile ℚ :=
  ⟨[List.ofFn x, List.ofFn y]⟩

theorem pairProfile_inj {m n : ℕ} {x x' : Fin m → ℚ} {y y' : Fin n → ℚ} :
    pairProfile x y = pairProfile x' y' ↔ x = x' ∧ y = y' := by
  constructor
  · intro h
    have hrows : List.ofFn x = List.ofFn x' ∧ List.ofFn y = List.ofFn y' := by
      simpa [pairProfile] using h
    exact ⟨List.ofFn_injective hrows.1, List.ofFn_injective hrows.2⟩
  · rintro ⟨rfl, rfl⟩
    rfl

theorem isDistribution_ofFn_iff {n : ℕ} {x : Fin n → ℚ} :
    IsDistribution (List.ofFn x) ↔ x ∈ stdSimplex ℚ (Fin n) := by
  unfold IsDistribution
  rw [List.forall_mem_ofFn_iff, List.sum_ofFn]
  exact Iff.rfl

theorem pair_mem_profiles {i j m n : ℕ} : [i, j] ∈ profiles [m, n] ↔ i < m ∧ j < n := by
  simp [mem_profiles]

variable {g : Game}

theorem counts_eq (htwo : g.numPlayers = 2) : g.counts = [g.numStrategies 0, g.numStrategies 1] := by
  have hlength : g.counts.length = 2 := by rw [Game.length_counts, htwo]
  unfold Game.numStrategies
  match hcounts : g.counts, hlength with
  | [m, n], _ => rfl

theorem shape_pairProfile (htwo : g.numPlayers = 2) (x : Fin (g.numStrategies 0) → ℚ)
    (y : Fin (g.numStrategies 1) → ℚ) : (pairProfile x y).shape = g.counts := by
  rw [counts_eq htwo]
  simp [pairProfile, MixedProfile.shape]

theorem isNormalized_pairProfile_iff {m n : ℕ} {x : Fin m → ℚ} {y : Fin n → ℚ} :
    (pairProfile x y).isNormalized = true ↔ x ∈ stdSimplex ℚ (Fin m) ∧ y ∈ stdSimplex ℚ (Fin n) := by
  rw [MixedProfile.isNormalized_iff, ← isDistribution_ofFn_iff, ← isDistribution_ofFn_iff]
  simp [pairProfile]

theorem exists_ofFn_eq (row : List ℚ) {n : ℕ} (h : row.length = n) :
    ∃ x : Fin n → ℚ, List.ofFn x = row := by
  subst h
  exact ⟨row.get, List.ofFn_get row⟩

/-- **A normalized profile of two players is a pair of mixtures.** -/
theorem exists_eq_pairProfile (htwo : g.numPlayers = 2) {z : MixedProfile ℚ}
    (hz : z.shape = g.counts) (hnormal : z.isNormalized = true) :
    ∃ x ∈ stdSimplex ℚ (Fin (g.numStrategies 0)), ∃ y ∈ stdSimplex ℚ (Fin (g.numStrategies 1)),
      z = pairProfile x y := by
  obtain ⟨probs⟩ := z
  rw [counts_eq htwo] at hz
  have hplayers : probs.length = 2 := by
    simpa [MixedProfile.shape] using congrArg List.length hz
  match probs, hplayers with
  | [first, second], _ =>
    have hlengths : first.length = g.numStrategies 0 ∧ second.length = g.numStrategies 1 := by
      simpa [MixedProfile.shape] using hz
    obtain ⟨x, rfl⟩ := exists_ofFn_eq first hlengths.1
    obtain ⟨y, rfl⟩ := exists_ofFn_eq second hlengths.2
    obtain ⟨hx, hy⟩ := isNormalized_pairProfile_iff.mp hnormal
    exact ⟨x, hx, y, hy, rfl⟩

/-! ### What strategies give -/

theorem expectation_ofFn {n : ℕ} (x : Fin n → ℚ) (rows : List (List ℚ)) (f : List ℕ → ℚ) :
    expectation (List.ofFn x :: rows) f = ∑ i, x i * expectation rows fun s => f (i :: s) := by
  rw [expectation, List.length_ofFn, Finset.sum_range]
  refine Finset.sum_congr rfl fun i _ => ?_
  rw [List.getD_eq_getElem _ _ (by simp), List.getElem_ofFn]

theorem expectation_nil (f : List ℕ → ℚ) : expectation [] f = f [] := rfl

theorem deviation_first (x : Fin (g.numStrategies 0) → ℚ) (y : Fin (g.numStrategies 1) → ℚ)
    (i : Fin (g.numStrategies 0)) : (pairProfile x y).deviation g 0 i = (g.rowPayoffs *ᵥ y) i := by
  show expectation [Tableau.unitRow (g.numStrategies 0) i, List.ofFn y] (g.payoff 0) = _
  rw [expectation_unitRow i.isLt, expectation_ofFn]
  refine Finset.sum_congr rfl fun j _ => ?_
  rw [expectation_nil, mul_comm]
  rfl

theorem deviation_second (x : Fin (g.numStrategies 0) → ℚ) (y : Fin (g.numStrategies 1) → ℚ)
    (j : Fin (g.numStrategies 1)) : (pairProfile x y).deviation g 1 j = (g.columnPayoffs *ᵥ x) j := by
  show expectation [List.ofFn x, Tableau.unitRow (g.numStrategies 1) j] (g.payoff 1) = _
  rw [expectation_ofFn]
  refine Finset.sum_congr rfl fun i _ => ?_
  rw [expectation_unitRow j.isLt, expectation_nil, mul_comm]
  rfl

theorem expected_first (htwo : g.numPlayers = 2) (x : Fin (g.numStrategies 0) → ℚ)
    (y : Fin (g.numStrategies 1) → ℚ) : (pairProfile x y).expected g 0 = x ⬝ᵥ g.rowPayoffs *ᵥ y := by
  rw [Payoffs.expected_eq_sum (shape_pairProfile htwo x y) (by omega), Finset.sum_range]
  refine Finset.sum_congr rfl fun i _ => ?_
  rw [deviation_first]
  simp [pairProfile, MixedProfile.get, MixedProfile.player, List.getD_eq_getElem?_getD]

theorem expected_second (htwo : g.numPlayers = 2) (x : Fin (g.numStrategies 0) → ℚ)
    (y : Fin (g.numStrategies 1) → ℚ) :
    (pairProfile x y).expected g 1 = y ⬝ᵥ g.columnPayoffs *ᵥ x := by
  rw [Payoffs.expected_eq_sum (shape_pairProfile htwo x y) (by omega), Finset.sum_range]
  refine Finset.sum_congr rfl fun j _ => ?_
  rw [deviation_second]
  simp [pairProfile, MixedProfile.get, MixedProfile.player, List.getD_eq_getElem?_getD]

/-- **The program's test for an equilibrium is the textbook definition.** -/
theorem isNash_pairProfile_iff (h : g.Valid) (htwo : g.numPlayers = 2)
    {x : Fin (g.numStrategies 0) → ℚ} {y : Fin (g.numStrategies 1) → ℚ}
    (hx : x ∈ stdSimplex ℚ (Fin (g.numStrategies 0)))
    (hy : y ∈ stdSimplex ℚ (Fin (g.numStrategies 1))) :
    (pairProfile x y).isNash g = true ↔ Bimatrix.IsEquilibrium g.rowPayoffs g.columnPayoffs x y := by
  rw [MixedProfile.isNash_iff h (shape_pairProfile htwo x y)
    (isNormalized_pairProfile_iff.mpr ⟨hx, hy⟩), htwo]
  constructor
  · intro hgain
    have hfirst : ∀ i, (g.rowPayoffs *ᵥ y) i ≤ x ⬝ᵥ g.rowPayoffs *ᵥ y := by
      intro i
      rw [← deviation_first x y, ← expected_first htwo]
      exact hgain 0 (by omega) i i.isLt
    have hsecond : ∀ j, (g.columnPayoffs *ᵥ x) j ≤ y ⬝ᵥ g.columnPayoffs *ᵥ x := by
      intro j
      rw [← deviation_second x y, ← expected_second htwo]
      exact hgain 1 (by omega) j j.isLt
    exact ⟨hx, hy, fun x' hx' => Bimatrix.dotProduct_le hx' hfirst,
      fun y' hy' => Bimatrix.dotProduct_le hy' hsecond⟩
  · intro heq p hp a ha
    have hp' : p = 0 ∨ p = 1 := by omega
    rcases hp' with rfl | rfl
    · rw [deviation_first x y ⟨a, ha⟩, expected_first htwo]
      exact heq.mulVec_le ⟨a, ha⟩
    · rw [deviation_second x y ⟨a, ha⟩, expected_second htwo]
      exact heq.swap.mulVec_le ⟨a, ha⟩

end Equilibria
