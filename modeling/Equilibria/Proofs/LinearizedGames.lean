import Mathlib
import Equilibria.Proofs.Deviations
import Equilibria.Proofs.PolymatrixSolutions

/-!
# Linearized games

At a profile a game is replaced by a polymatrix game, whose payoffs are sums of terms for pairs of
players.  The complementarity problem at the profile is that of this game:

* `PolymatrixGame`, `PolymatrixGame.IsEquilibrium` — such games and their equilibria;
* `Game.linearize` — the game linearized at a profile, its payoffs given by expectations;
* `Game.value_linearize_self` — at the profile itself it gives every strategy its true value;
* `Payoffs.pairValue_eq_deviation`, `Polymatrix.term_eq_payoff` — the terms that are computed are its
  payoffs;
* `Polymatrix.expense_eq_sub_value` — a strategy costs what it is worth less than the ceilings;
* `Polymatrix.isEquilibrium_profileOf` — a solution of the problem holds an equilibrium of it.
-/

namespace Equilibria

open Finset (range)

/-! ### Polymatrix games -/

/-- A game in which the payoff of a player is a sum of terms for pairs of players. -/
structure PolymatrixGame where
  /-- The number of strategies of every player. -/
  counts : List ℕ
  /-- The term of a player with another one, for a strategy of each. -/
  payoff : ℕ → ℕ → ℕ → ℕ → ℚ

namespace PolymatrixGame

/-- What a strategy of a player is worth against a profile. -/
def value (m : PolymatrixGame) (y : MixedProfile ℚ) (p a : ℕ) : ℚ :=
  ∑ q ∈ (range m.counts.length).erase p, ∑ b ∈ range (m.counts.getD q 0), y.get q b * m.payoff p q a b

/-- **An equilibrium**: no player gains by following other probabilities. -/
structure IsEquilibrium (m : PolymatrixGame) (y : MixedProfile ℚ) : Prop where
  shape : y.shape = m.counts
  normalized : y.isNormalized = true
  best : ∀ p < m.counts.length, ∀ row : List ℚ, row.length = m.counts.getD p 0 → IsDistribution row →
    ∑ a ∈ range (m.counts.getD p 0), row.getD a 0 * m.value y p a ≤
      ∑ a ∈ range (m.counts.getD p 0), y.get p a * m.value y p a

/-- Where only strategies of the largest values are used no player gains. -/
theorem isEquilibrium_of_largest {m : PolymatrixGame} {y : MixedProfile ℚ} (hshape : y.shape = m.counts)
    (hnormal : y.isNormalized = true)
    (hlargest : ∀ p < m.counts.length, ∀ a < m.counts.getD p 0, 0 < y.get p a →
      ∀ b < m.counts.getD p 0, m.value y p b ≤ m.value y p a) : m.IsEquilibrium y := by
  refine ⟨hshape, hnormal, fun p hp row hlength hrow => ?_⟩
  have hplayer : (y.player p).length = m.counts.getD p 0 := by
    rw [← hshape]
    exact (getD_map_length y.probs p).symm
  have hdist : IsDistribution (y.player p) := by
    have hp' : p < y.probs.length := by rwa [← hshape, MixedProfile.shape, List.length_map] at hp
    rw [MixedProfile.player, List.getD_eq_getElem _ _ hp']
    exact MixedProfile.isNormalized_iff.mp hnormal _ (List.getElem_mem hp')
  have haverage := (hdist.forall_largest_iff (m.value y p)).mp (hplayer ▸ hlargest p hp)
  rw [hplayer] at haverage
  have hdeviation := hrow.sum_mul_le fun b hb => haverage b (hlength ▸ hb)
  rw [hlength] at hdeviation
  exact hdeviation

end PolymatrixGame

/-! ### Linearization -/

namespace MixedProfile

variable {g : Game} {x : MixedProfile ℚ} {p q a : ℕ}

/-- The value of a strategy is the average of its values when another player is sure of a strategy. -/
theorem deviation_eq_sum_replace (hx : x.shape = g.counts) (hq : q < g.numPlayers) (hne : q ≠ p)
    (hp : p < g.numPlayers) : x.deviation g p a = ∑ b ∈ range (g.numStrategies q),
      x.get q b * (x.replace q (Tableau.unitRow (g.numStrategies q) b)).deviation g p a := by
  have hpx : p < x.probs.length := by rwa [length_probs hx]
  have hplayer : (x.probs.set p (Tableau.unitRow (g.numStrategies p) a)).getD q [] = x.player q := by
    rw [getD_set [] hpx, if_neg hne]
    rfl
  rw [deviation, expectation_eq_sum_unitRow (p := q) (by rwa [List.length_set, length_probs hx]),
    hplayer, Payoffs.length_player hx]
  refine Finset.sum_congr rfl fun b _ => ?_
  rw [List.set_comm _ _ hne.symm]
  rfl

end MixedProfile

namespace Game

/-- **The game linearized at a profile**: the terms `u_p(a, b, σ) - (N - 2) / (N - 1) · u_p(a, σ)`. -/
def linearize (g : Game) (x : MixedProfile ℚ) : PolymatrixGame where
  counts := g.counts
  payoff p q a b := (x.replace q (Tableau.unitRow (g.numStrategies q) b)).deviation g p a -
    ((g.numPlayers : ℚ) - 2) / (g.numPlayers - 1) * x.deviation g p a

variable {g : Game} {x : MixedProfile ℚ} {p a : ℕ}

/-- **At the profile itself the linearized game gives every strategy its true value.** -/
theorem value_linearize_self (htwo : 2 ≤ g.numPlayers) (hx : x.shape = g.counts)
    (hnormal : x.isNormalized = true) (hp : p < g.numPlayers) :
    (g.linearize x).value x p a = x.deviation g p a := by
  have hterm : ∀ q ∈ (range g.numPlayers).erase p,
      ∑ b ∈ range (g.numStrategies q), x.get q b * (g.linearize x).payoff p q a b =
        x.deviation g p a - ((g.numPlayers : ℚ) - 2) / (g.numPlayers - 1) * x.deviation g p a := by
    intro q hq
    obtain ⟨hne, hq⟩ := Finset.mem_erase.mp hq
    have hq := Finset.mem_range.mp hq
    simp only [linearize, mul_sub]
    rw [Finset.sum_sub_distrib, ← MixedProfile.deviation_eq_sum_replace hx hq hne hp,
      ← Finset.sum_mul, MixedProfile.sum_get hx hnormal hq, one_mul]
  have hpos : (0 : ℚ) < g.numPlayers - 1 := by
    have hcast : (2 : ℚ) ≤ g.numPlayers := by exact_mod_cast htwo
    linarith
  have hplayers : (g.linearize x).counts.length = g.numPlayers := length_counts g
  rw [PolymatrixGame.value, hplayers]
  refine (Finset.sum_congr rfl hterm).trans ?_
  rw [Finset.sum_const, nsmul_eq_mul, Polymatrix.card_others hp]
  field_simp
  ring

end Game

/-! ### The terms that are computed -/

namespace Payoffs

variable {g : Game} {x : MixedProfile ℚ} {p q a b : ℕ}

/-- **The value for a pair of strategies** is what the first is worth when the other player is sure of
the second. -/
theorem pairValue_eq_deviation (h : g.Valid) (hx : x.shape = g.counts) (hq : q < g.numPlayers)
    (hne : q ≠ p) (ha : a < g.numStrategies p) (hb : b < g.numStrategies q) :
    pairValue (ofGame g) x p q a b =
      (x.replace q (Tableau.unitRow (g.numStrategies q) b)).deviation g p a := by
  have hqx : q < x.probs.length := by rwa [MixedProfile.length_probs hx]
  have hshape := MixedProfile.shape_replace hx hq (length_unitRow (g.numStrategies q) b)
  have hget := MixedProfile.get_replace hqx (Tableau.unitRow (g.numStrategies q) b)
  have hsame : (ofGame g).pairValues (x.replace q (Tableau.unitRow (g.numStrategies q) b)) p q =
      (ofGame g).pairValues x p q := by
    refine pairValues_congr fun c _ i _ => ?_
    by_cases hi : i = q
    · exact Or.inr (Or.inl hi)
    · exact Or.inr (Or.inr fun d => by rw [hget, if_neg hi])
  have hmem : b ∈ range ((ofGame g : Payoffs ℚ).count q) := Finset.mem_range.mpr hb
  rw [← getD_strategyValues h hshape ha, strategyValue_eq_sum_pairs hne (rows_of_valid h hq) ha,
    Finset.sum_eq_single_of_mem b hmem]
  · rw [hget, if_pos rfl, getD_unitRow hb, if_pos rfl, one_mul, pairValue, pairValue, hsame]
  · intro b' _ hb'
    rw [hget, if_pos rfl, getD_unitRow hb, if_neg hb', zero_mul]

end Payoffs

namespace Polymatrix

section

variable {t : Payoffs ℚ} {x : MixedProfile ℚ} {p q a b : ℕ}

theorem term_eq (ha : a < t.count p) (hb : b < t.count q) :
    term t x p q a b =
      Payoffs.pairValue t x p q a b - scale t * (t.strategyValues x p).getD a 0 := by
  have hpairs : a < (t.pairValues x p q).length := by rwa [Payoffs.length_pairValues]
  have hown : a < (t.strategyValues x p).length := by rwa [Payoffs.length_strategyValues]
  have hrow : b < ((t.pairValues x p q)[a]).length := by
    have hlength := getD_map_length (t.pairValues x p q) a
    rw [Payoffs.map_length_pairValues, List.getD_replicate _ ha,
      List.getD_eq_getElem (t.pairValues x p q) [] hpairs] at hlength
    rwa [← hlength]
  rw [term, block, List.getD_eq_getElem _ [] (by simpa using ⟨hpairs, hown⟩), List.getElem_zipWith,
    List.getD_eq_getElem _ _ (by rwa [List.length_map]), List.getElem_map, Payoffs.pairValue,
    List.getD_eq_getElem (t.pairValues x p q) _ hpairs, List.getD_eq_getElem _ _ hrow,
    List.getD_eq_getElem _ _ hown]

theorem scale_eq (htwo : 2 ≤ t.numPlayers) :
    scale t = ((t.numPlayers : ℚ) - 2) / (t.numPlayers - 1) := by
  have hnat : ∀ n : ℕ, (ofNat n : ℚ) = n := by
    intro n
    show mkRat n 1 = n
    rw [Rat.mkRat_one]
    exact Int.cast_natCast n
  rw [scale, hnat, hnat, Nat.cast_sub htwo, Nat.cast_sub (by omega)]
  rfl

end

variable {g : Game} {x : MixedProfile ℚ} {p q a b : ℕ}

/-- **The terms that are computed are the payoffs of the linearized game.** -/
theorem term_eq_payoff (h : g.Valid) (htwo : 2 ≤ g.numPlayers) (hx : x.shape = g.counts)
    (hq : q < g.numPlayers) (hne : q ≠ p) (ha : a < g.numStrategies p) (hb : b < g.numStrategies q) :
    term (Payoffs.ofGame g) x p q a b = (g.linearize x).payoff p q a b := by
  rw [term_eq ha hb, scale_eq (by rwa [numPlayers_ofGame]), numPlayers_ofGame,
    Payoffs.pairValue_eq_deviation h hx hq hne ha hb, Payoffs.getD_strategyValues h hx ha]
  rfl

/-- **A strategy costs what it is worth less than the ceilings**, one for each other player. -/
theorem expense_eq_sub_value (h : g.Valid) (htwo : 2 ≤ g.numPlayers) (hx : x.shape = g.counts)
    {y : MixedProfile ℚ} (hy : ∀ q < g.numPlayers, ∑ b ∈ range (g.numStrategies q), y.get q b = 1)
    (hp : p < g.numPlayers) (ha : a < g.numStrategies p) :
    expense (Payoffs.ofGame g) x y.get p a =
      (g.numPlayers - 1) * top (Payoffs.ofGame g) x - (g.linearize x).value y p a := by
  have hplayers := numPlayers_ofGame g
  have hterms : ∑ q ∈ (range g.numPlayers).erase p, ∑ b ∈ range (g.numStrategies q),
      y.get q b * term (Payoffs.ofGame g) x p q a b = (g.linearize x).value y p a := by
    rw [PolymatrixGame.value, show (g.linearize x).counts.length = g.numPlayers from Game.length_counts g]
    refine Finset.sum_congr rfl fun q hq => Finset.sum_congr rfl fun b hb => ?_
    obtain ⟨hne, hq⟩ := Finset.mem_erase.mp hq
    rw [term_eq_payoff h htwo hx (Finset.mem_range.mp hq) hne ha (Finset.mem_range.mp hb)]
  rw [expense_eq_sub_terms (by rwa [hplayers]) (by rwa [hplayers]), hplayers, ← hterms]
  rfl

/-! ### Solutions -/

variable {z : List ℚ}

/-- What a strategy costs at a solution. -/
theorem expense_solution (h : g.Valid) (htwo : 2 ≤ g.numPlayers) (hx : x.shape = g.counts)
    (hz : (lcp (Payoffs.ofGame g) x).IsSolution z) (hp : p < g.numPlayers) (ha : a < g.numStrategies p) :
    expense (Payoffs.ofGame g) x (weights (Payoffs.ofGame g) z) p a =
      (g.numPlayers - 1) * top (Payoffs.ofGame g) x -
        (g.linearize x).value (profileOf (Payoffs.ofGame g) z) p a := by
  have hget : ∀ q, ∀ b < (Payoffs.ofGame g : Payoffs ℚ).count q,
      weights (Payoffs.ofGame g) z q b = (profileOf (Payoffs.ofGame g) z).get q b :=
    fun q b hb => (get_profileOf hz hb).symm
  rw [expense_congr hget]
  refine expense_eq_sub_value h htwo hx (fun q hq => ?_) hp ha
  rw [← sum_weights (by rwa [numPlayers_ofGame]) hz (by rwa [numPlayers_ofGame])]
  exact Finset.sum_congr rfl fun b hb => get_profileOf hz (Finset.mem_range.mp hb)

/-- **A solution of the problem holds an equilibrium of the linearized game**: the strategies that are
used are the cheapest, hence those of the largest values. -/
theorem isEquilibrium_profileOf (h : g.Valid) (htwo : 2 ≤ g.numPlayers) (hx : x.shape = g.counts)
    (hz : (lcp (Payoffs.ofGame g) x).IsSolution z) :
    (g.linearize x).IsEquilibrium (profileOf (Payoffs.ofGame g) z) := by
  have hnormal := isNormalized_profileOf (by rwa [numPlayers_ofGame]) hz
  refine PolymatrixGame.isEquilibrium_of_largest (shape_profileOf hz) hnormal ?_
  intro p hp a ha hpos b hb
  have hp : p < g.numPlayers := by rwa [← Game.length_counts]
  rw [get_profileOf hz ha] at hpos
  exact worth_le_of_used hz (fun a ha => expense_solution h htwo hx hz hp ha)
    (by rwa [numPlayers_ofGame]) ha hpos hb

end Polymatrix

end Equilibria
