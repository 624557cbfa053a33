import Mathlib
import Equilibria.Proofs.PolymatrixSolutions

/-!
# Two players linearized

A game of two players is its own linearization, at every profile:

* `Polymatrix.block_two` — the term of the pair holds the payoffs for each pair of strategies;
* `Polymatrix.lcp_congr` — so the problem is the same at all profiles;
* `Polymatrix.expense_two` — a strategy costs what it is worth less than the ceiling;
* `Polymatrix.isNash_profileOf` — a solution holds an equilibrium of the game;
* `Polymatrix.exists_response_two` — the response is one and the same equilibrium at all profiles.
-/

namespace Equilibria

open Finset (range)

namespace Polymatrix

variable {t : Payoffs ℚ} {x : MixedProfile ℚ} {p q a : ℕ}

/-- With two players nothing of a player's own values is taken off. -/
theorem scale_two (htwo : t.numPlayers = 2) : scale t = 0 := by
  rw [scale, htwo]
  show (0 : ℚ) / _ = 0
  rw [zero_div]

theorem block_two (htwo : t.numPlayers = 2) : block t x p q = t.pairValues x p q := by
  have hlength := t.length_pairValues x p q
  rw [block, scale_two htwo]
  apply List.ext_getElem
  · simp [hlength, t.length_strategyValues]
  · intro i hi hi'
    simp

/-- With two players a strategy costs the ceiling less what it is worth against the other player. -/
theorem expense_two (htwo : t.numPlayers = 2) (hq : q < t.numPlayers) (hp : p < t.numPlayers)
    (hne : q ≠ p) {y : ℕ → ℕ → ℚ} (hy : ∀ q < t.numPlayers, ∑ b ∈ range (t.count q), y q b = 1) :
    expense t x y p a =
      top t x - ∑ b ∈ range (t.count q), y q b * Payoffs.pairValue t x p q a b := by
  have hother : (range t.numPlayers).erase p = {q} := by
    ext i
    rw [Finset.mem_erase, Finset.mem_range, Finset.mem_singleton]
    omega
  have hterm : ∀ b, term t x p q a b = Payoffs.pairValue t x p q a b := by
    intro b
    rw [term, block_two htwo, Payoffs.pairValue]
  rw [expense_eq_sub_terms hy hp, hother, Finset.sum_singleton, htwo,
    Finset.sum_congr rfl fun b _ => congrArg (y q b * ·) (hterm b)]
  norm_num

/-- The problem is made of the terms of the pairs of players. -/
theorem lcp_congr_of_block {α : Type} [Scalar α] {t : Payoffs α} {x x' : MixedProfile α}
    (hblock : ∀ p q, p < t.numPlayers → q < t.numPlayers → q ≠ p → block t x p q = block t x' p q) :
    lcp t x = lcp t x' := by
  have hblocks : (players t).map (blocksOf t x) = (players t).map (blocksOf t x') := by
    refine List.map_congr_left fun p hp => List.map_congr_left fun q hq => ?_
    by_cases hqp : q = p
    · rw [if_pos hqp, if_pos hqp]
    · rw [if_neg hqp, if_neg hqp, hblock p q (List.mem_range.mp hp) (List.mem_range.mp hq) hqp]
  rw [lcp, lcp, hblocks]

variable {g : Game}

/-- The values for pairs of strategies are the same at all profiles. -/
theorem pairValues_two {α : Type} [Scalar α] (h : g.Valid) (htwo : g.numPlayers = 2) (hp : p < 2)
    (hq : q < 2) (hne : q ≠ p) (x x' : MixedProfile α) :
    (Payoffs.ofGame g).pairValues x p q = (Payoffs.ofGame g).pairValues x' p q := by
  refine Payoffs.pairValues_congr fun c hc i hi => ?_
  have hlength : c.2.length = 2 := by
    rw [length_of_mem_profiles (h.mem_profiles_of_mem_rows hc), Game.length_counts, htwo]
  have hpair : i = p ∨ i = q := by omega
  exact hpair.imp_right Or.inl

/-- **The problem is the same at all profiles.** -/
theorem lcp_congr (h : g.Valid) (htwo : g.numPlayers = 2) (x x' : MixedProfile ℚ) :
    lcp (Payoffs.ofGame g) x = lcp (Payoffs.ofGame g) x' := by
  have hplayers : (Payoffs.ofGame g : Payoffs ℚ).numPlayers = 2 := (numPlayers_ofGame g).trans htwo
  refine lcp_congr_of_block fun p q hp hq hqp => ?_
  rw [hplayers] at hp hq
  rw [block_two hplayers, block_two hplayers, pairValues_two h htwo hp hq hqp x x']

/-- What a strategy costs at a solution is what it is worth less than the ceiling. -/
theorem expense_weights (h : g.Valid) (htwo : g.numPlayers = 2) {z : List ℚ}
    (hz : (lcp (Payoffs.ofGame g) x).IsSolution z) (hp : p < 2) (ha : a < g.numStrategies p) :
    expense (Payoffs.ofGame g) x (weights (Payoffs.ofGame g) z) p a =
      top (Payoffs.ofGame g) x - (profileOf (Payoffs.ofGame g) z).deviation g p a := by
  have hplayers : (Payoffs.ofGame g : Payoffs ℚ).numPlayers = 2 := (numPlayers_ofGame g).trans htwo
  obtain ⟨q, hq, hne⟩ := exists_other hplayers.ge p
  have hq2 : q < 2 := by rwa [hplayers] at hq
  have hvalue := Payoffs.strategyValue_eq_sum_pairs (x := profileOf (Payoffs.ofGame g) z) hne
    (Payoffs.rows_of_valid h (show q < g.numPlayers by rwa [htwo])) ha
  rw [Payoffs.getD_strategyValues h (shape_profileOf hz) ha] at hvalue
  rw [expense_two hplayers hq (by rwa [hplayers]) hne fun q hq => sum_weights hplayers.ge hz hq,
    hvalue]
  congr 1
  refine Finset.sum_congr rfl fun b hb => ?_
  rw [get_profileOf hz (Finset.mem_range.mp hb), Payoffs.pairValue, Payoffs.pairValue,
    pairValues_two h htwo hp hq2 hne x (profileOf (Payoffs.ofGame g) z)]

/-- **A solution holds an equilibrium of the game.** -/
theorem isNash_profileOf (h : g.Valid) (htwo : g.numPlayers = 2) {z : List ℚ}
    (hz : (lcp (Payoffs.ofGame g) x).IsSolution z) :
    (profileOf (Payoffs.ofGame g) z).isNash g = true := by
  rw [MixedProfile.isNash_iff_largest h (shape_profileOf hz)]
  intro p hp a ha hpos b hb
  have hp2 : p < 2 := by rwa [htwo] at hp
  rw [get_profileOf hz ha] at hpos
  exact worth_le_of_used hz (fun a ha => expense_weights h htwo hz hp2 ha) (by rwa [numPlayers_ofGame])
    ha hpos hb

/-- **The response is one and the same equilibrium at all profiles.** -/
theorem exists_response_two (h : g.Valid) (htwo : g.numPlayers = 2) {rules : PivotRules ℚ}
    (htolerance : rules.tolerance = 0) (hlimit : stepBound g.counts ≤ rules.limit) :
    ∃ z : MixedProfile ℚ, z.shape = g.counts ∧ z.isNormalized = true ∧ z.isNash g = true ∧
      ∀ x, response rules (Payoffs.ofGame g) x = z := by
  have hplayers : 2 ≤ (Payoffs.ofGame g : Payoffs ℚ).numPlayers :=
    ((numPlayers_ofGame g).trans htwo).ge
  have hresponse := fun x => exists_response (x := x) hplayers (count_pos h.accepted) htolerance hlimit
  obtain ⟨z, hsolve, hz, -⟩ := hresponse (MixedProfile.uniform g.counts)
  refine ⟨_, shape_profileOf hz, isNormalized_profileOf hplayers hz, isNash_profileOf h htwo hz,
    fun x => ?_⟩
  obtain ⟨z', hsolve', -, hz'⟩ := hresponse x
  rw [lcp_congr h htwo x (MixedProfile.uniform g.counts), hsolve] at hsolve'
  rw [hz', Except.ok.inj hsolve']

end Polymatrix

end Equilibria
