import Mathlib
import Equilibria.Proofs.PairValues

/-!
# Expected payoffs as sums

The passes over the payoff table go through its rows with a counter.  What they add up are sums over
pure profiles, each with the product of the players' probabilities:

* `Game.pureProfiles`, `Game.mem_pureProfiles` — the pure profiles of a game, a strategy for every player;
* `Payoffs.sum_rows` — a sum over the rows of a valid game is one over its pure profiles;
* `Payoffs.weight_eq_prod_sdiff` — a weight is the product over all players that are not skipped;
* `Payoffs.strategyValue_eq_sum_profiles`, `Payoffs.expectedPayoff_eq_sum_profiles` — the value of a
  strategy and of a whole profile;
* `Payoffs.values_eq_sums` — both, and the average of the values for pairs, at any numbers of the right
  shape.

That probabilities sum to one is not used: the sums agree whatever the numbers are.
-/

namespace Equilibria

open Finset (range)

/-! ### Pure profiles -/

theorem profiles_nodup (counts : List ℕ) : (profiles counts).Nodup := by
  apply List.Nodup.of_map (flatIndex counts)
  rw [flatIndex_profiles]
  exact List.nodup_range

namespace Game

variable {g : Game}

/-- The pure profiles of a game. -/
def pureProfiles (g : Game) : Finset (List ℕ) := (profiles g.counts).toFinset

/-- **A pure profile has a strategy of every player.** -/
theorem mem_pureProfiles {s : List ℕ} : s ∈ g.pureProfiles ↔
    s.length = g.numPlayers ∧ ∀ q < g.numPlayers, s.getD q 0 < g.numStrategies q := by
  rw [← length_counts, pureProfiles, List.mem_toFinset, mem_profiles, List.forall₂_iff_get]
  refine and_congr_right fun hlength => ?_
  constructor
  · intro h q hq
    have hq' : q < s.length := by rwa [hlength]
    rw [numStrategies, List.getD_eq_getElem _ _ hq', List.getD_eq_getElem _ _ hq]
    exact h q hq' hq
  · intro h q hq' hq
    have hlt := h q hq
    rwa [numStrategies, List.getD_eq_getElem _ _ hq', List.getD_eq_getElem _ _ hq] at hlt

end Game

namespace Payoffs

variable {g : Game} {x : MixedProfile ℚ} {p q a : ℕ}

/-- **A sum over the rows is a sum over the pure profiles**, each with its row. -/
theorem sum_rows (h : g.Valid) (f : List ℚ → List ℕ → ℚ) :
    ((ofGame g : Payoffs ℚ).rows.map fun c => f c.1 c.2).sum =
      ∑ s ∈ g.pureProfiles, f (g.payoffs.getD (g.profileIndex s) []) s := by
  rw [h.rows_eq, List.map_map, Game.pureProfiles, List.sum_toFinset _ (profiles_nodup g.counts)]
  rfl

/-- A weight is the product of the probabilities of all players that are not skipped. -/
theorem weight_eq_prod_sdiff (x : MixedProfile ℚ) (skip s : List ℕ) :
    weight x skip s = ∏ i ∈ range s.length \ skip.toFinset, x.get i (s.getD i 0) := by
  rw [weight_eq_prod, Finset.sdiff_eq_filter, Finset.prod_filter]
  refine Finset.prod_congr rfl fun i _ => ?_
  by_cases hi : i ∈ skip
  · rw [if_pos (by simpa using hi), if_neg (by simpa using hi)]
  · rw [if_neg (by simpa using hi), if_pos (by simpa using hi)]

/-- **The value of a strategy** is the sum over all choices of the others. -/
theorem strategyValue_eq_sum_profiles (h : g.Valid) (ha : a < g.numStrategies p) :
    ((ofGame g).strategyValues x p).getD a 0 = ∑ s ∈ g.pureProfiles with s.getD p 0 = a,
      (∏ q ∈ (range g.numPlayers).erase p, x.get q (s.getD q 0)) * g.payoff p s := by
  rw [strategyValue_eq_sum _ _ ha,
    sum_rows h fun row s => if s.getD p 0 = a then weight x [p] s * row.getD p 0 else 0,
    ← Finset.sum_filter]
  refine Finset.sum_congr rfl fun s hs => ?_
  obtain ⟨hlength, -⟩ := Game.mem_pureProfiles.mp (Finset.mem_of_mem_filter s hs)
  rw [weight_eq_prod_sdiff, hlength, List.toFinset_cons, List.toFinset_nil, insert_empty_eq,
    Finset.sdiff_singleton_eq_erase]
  rfl

/-- **The value of a profile** is the sum over all pure profiles. -/
theorem expectedPayoff_eq_sum_profiles (h : g.Valid) (hx : x.shape = g.counts) (hp : p < g.numPlayers) :
    (ofGame g).expectedPayoff x p = ∑ s ∈ g.pureProfiles,
      (∏ q ∈ range g.numPlayers, x.get q (s.getD q 0)) * g.payoff p s := by
  rw [expectedPayoff, average_strategyValues h hx hp, MixedProfile.expected, expectation_eq_sum,
    show x.probs.map List.length = g.counts from hx, ← List.sum_toFinset _ (profiles_nodup g.counts)]
  refine Finset.sum_congr rfl fun s hs => ?_
  obtain ⟨hlength, -⟩ := Game.mem_pureProfiles.mp hs
  rw [mass, hlength]
  rfl

/-- **What the program adds up are the sums that define expected payoffs**, whatever numbers stand in
the profile: for each strategy of a player over all choices of the others, for the player over all pure
profiles; and the values for pairs of strategies, weighted by the other player's numbers, add up to the
value of the strategy. -/
theorem values_eq_sums (h : g.Valid) (hx : x.shape = g.counts) (hp : p < g.numPlayers) :
    ((ofGame g).strategyValues x p).length = g.numStrategies p ∧
    (∀ a < g.numStrategies p, ((ofGame g).strategyValues x p).getD a 0 =
      ∑ s ∈ g.pureProfiles with s.getD p 0 = a,
        (∏ q ∈ (range g.numPlayers).erase p, x.get q (s.getD q 0)) * g.payoff p s) ∧
    (ofGame g).expectedPayoff x p = ∑ s ∈ g.pureProfiles,
      (∏ q ∈ range g.numPlayers, x.get q (s.getD q 0)) * g.payoff p s ∧
    ∀ q < g.numPlayers, q ≠ p →
      ((ofGame g).pairValues x p q).map List.length =
        List.replicate (g.numStrategies p) (g.numStrategies q) ∧
      ∀ a < g.numStrategies p,
        ∑ b ∈ range (g.numStrategies q), x.get q b * (((ofGame g).pairValues x p q).getD a []).getD b 0 =
          ((ofGame g).strategyValues x p).getD a 0 := by
  refine ⟨length_strategyValues _ x p, fun a ha => strategyValue_eq_sum_profiles h ha,
    expectedPayoff_eq_sum_profiles h hx hp, fun q hq hne => ⟨map_length_pairValues _ x p q, ?_⟩⟩
  intro a ha
  exact (strategyValue_eq_sum_pairs hne (rows_of_valid h hq) ha).symm

end Payoffs

/-- Three players who want to meet, at one place or at the other. -/
def Game.gathering : Game :=
  ⟨"Gathering", [⟨"First", ["bridge", "tower"]⟩, ⟨"Second", ["bridge", "tower"]⟩,
      ⟨"Third", ["bridge", "tower"]⟩],
    [[1, 2, 3], [0, 0, 0], [0, 0, 0], [0, 0, 0], [0, 0, 0], [0, 0, 0], [0, 0, 0], [3, 2, 1]], [1, 2, 4]⟩

theorem Game.valid_gathering : Game.gathering.Valid where
  built := rfl
  accepted := rfl

/-- Numbers of the right shape that are no probabilities. -/
def MixedProfile.lopsided : MixedProfile ℚ := ⟨[[1, 2], [3, -1], [1 / 2, 1]]⟩

/-- The first player's strategies are worth `3 * 1 / 2 * 1` and `-1 * 1 * 3`. -/
theorem Payoffs.values_eq_sums_gathering :
    Game.gathering.Valid ∧ MixedProfile.lopsided.shape = Game.gathering.counts ∧
      0 < Game.gathering.numPlayers ∧
      (ofGame Game.gathering).strategyValues MixedProfile.lopsided 0 = [3 / 2, -3] ∧
      3 / 2 = ∑ s ∈ Game.gathering.pureProfiles with s.getD 0 0 = 0,
        (∏ q ∈ (range 3).erase 0, MixedProfile.lopsided.get q (s.getD q 0)) * Game.gathering.payoff 0 s ∧
      (ofGame Game.gathering).expectedPayoff MixedProfile.lopsided 0 =
        ∑ s ∈ Game.gathering.pureProfiles,
          (∏ q ∈ range 3, MixedProfile.lopsided.get q (s.getD q 0)) * Game.gathering.payoff 0 s ∧
      ∑ b ∈ range 2, MixedProfile.lopsided.get 2 b *
        (((ofGame Game.gathering).pairValues MixedProfile.lopsided 0 2).getD 1 []).getD b 0 = -3 := by
  have hshape : MixedProfile.lopsided.shape = Game.gathering.counts := by decide
  have hplayer : 0 < Game.gathering.numPlayers := by decide
  have hvalues : (ofGame Game.gathering).strategyValues MixedProfile.lopsided 0 = [3 / 2, -3] := by
    decide +kernel
  obtain ⟨-, hstrategy, hexpected, hpairs⟩ := values_eq_sums Game.valid_gathering hshape hplayer
  have hfirst := hstrategy 0 (by decide)
  have hsecond := (hpairs 2 (by decide) (by decide)).2 1 (by decide)
  rw [hvalues] at hfirst hsecond
  exact ⟨Game.valid_gathering, hshape, hplayer, hvalues, hfirst, hexpected, hsecond⟩

end Equilibria
