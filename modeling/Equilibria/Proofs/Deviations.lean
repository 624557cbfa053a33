import Mathlib
import Equilibria.Proofs.ExpectedPayoffs

/-!
# Gains from deviations

A player who deviates follows any probabilities instead of those of the profile:

* `MixedProfile.replace`, `MixedProfile.expected_replace` — the profile with another row for one player,
  and what that player expects of it, the average of the pure deviations;
* `MixedProfile.gains`, `MixedProfile.le_regret` — the gains from all deviations, pure or mixed, of which
  none exceeds the regret;
* `MixedProfile.exists_gain_eq_regret` — a pure deviation gains as much as the regret;
* `MixedProfile.regret_isGreatest` — the regret is the largest gain, and it is zero in equilibria only.
-/

namespace Equilibria

open Finset (range)

theorem isDistribution_unitRow {n a : ℕ} (ha : a < n) :
    IsDistribution (Tableau.unitRow n a : List ℚ) := by
  have hentry : ∀ d, (Tableau.unitRow n a : List ℚ).getD d 0 = if d = a then 1 else 0 :=
    getD_unitRow ha
  constructor
  · intro v hv
    obtain ⟨d, hd, rfl⟩ := List.getElem_of_mem hv
    rw [← List.getD_eq_getElem _ 0 hd, hentry]
    split_ifs
    · exact zero_le_one
    · exact le_rfl
  · rw [sum_eq_sum_range, length_unitRow, Finset.sum_congr rfl fun d _ => hentry d,
      Finset.sum_ite_eq', if_pos (Finset.mem_range.mpr ha)]

namespace MixedProfile

variable {g : Game} {x : MixedProfile ℚ} {p a : ℕ}

/-- The profile in which a player follows another row. -/
def replace (x : MixedProfile ℚ) (p : ℕ) (row : List ℚ) : MixedProfile ℚ := ⟨x.probs.set p row⟩

theorem shape_replace (hx : x.shape = g.counts) (hp : p < g.numPlayers) {row : List ℚ}
    (hrow : row.length = g.numStrategies p) : (x.replace p row).shape = g.counts := by
  have hp' : p < g.counts.length := by rwa [Game.length_counts]
  rw [shape, replace, List.map_set, show x.probs.map List.length = g.counts from hx, hrow,
    Game.numStrategies, List.getD_eq_getElem _ _ hp']
  exact List.set_getElem_self hp'

theorem get_replace (hp : p < x.probs.length) (row : List ℚ) (q a : ℕ) :
    (x.replace p row).get q a = if q = p then row.getD a 0 else x.get q a := by
  rw [get, player, replace, getD_set [] hp]
  split_ifs
  · rfl
  · rfl

/-- A pure deviation is one to a row that is sure of a strategy. -/
theorem expected_replace_unitRow (x : MixedProfile ℚ) (g : Game) (p a : ℕ) :
    (x.replace p (Tableau.unitRow (g.numStrategies p) a)).expected g p = x.deviation g p a := rfl

/-- **What a player expects of a deviation** is the average of the pure ones. -/
theorem expected_replace (hx : x.shape = g.counts) (hp : p < g.numPlayers) {row : List ℚ}
    (hrow : row.length = g.numStrategies p) : (x.replace p row).expected g p =
      ∑ a ∈ range row.length, row.getD a 0 * x.deviation g p a := by
  have hpx : p < x.probs.length := by rwa [length_probs hx]
  have hset : (x.probs.set p row).getD p [] = row := by rw [getD_set [] hpx, if_pos rfl]
  rw [expected, expectation_eq_sum_unitRow (p := p) (by rwa [replace, List.length_set]), replace, hset]
  refine Finset.sum_congr rfl fun a _ => ?_
  rw [List.set_set, hrow]
  rfl

/-- The gains in expected payoff from a deviation of one player, pure or mixed. -/
def gains (x : MixedProfile ℚ) (g : Game) : Set ℚ :=
  {gain | ∃ p < g.numPlayers, ∃ row : List ℚ, row.length = g.numStrategies p ∧ IsDistribution row ∧
    gain = (x.replace p row).expected g p - x.expected g p}

/-- **No deviation gains more than the regret.** -/
theorem le_regret (h : g.Valid) (hx : x.shape = g.counts) {gain : ℚ} (hgain : gain ∈ x.gains g) :
    gain ≤ x.regret g := by
  obtain ⟨p, hp, row, hrow, hdist, rfl⟩ := hgain
  have hpure := ((Payoffs.regret_le_iff h hx _).mp le_rfl).2 p hp
  rw [expected_replace hx hp hrow, sub_le_iff_le_add]
  refine hdist.sum_mul_le fun a ha => ?_
  rw [← sub_le_iff_le_add]
  exact hpure a (by rwa [← hrow])

/-- **A pure deviation gains as much as the regret.** -/
theorem exists_gain_eq_regret (h : g.Valid) (hx : x.shape = g.counts) (hnormal : x.isNormalized = true) :
    ∃ p < g.numPlayers, ∃ a < g.numStrategies p,
      x.deviation g p a - x.expected g p = x.regret g := by
  -- the largest gain of all pure deviations, of which there are finitely many
  obtain ⟨⟨p, a⟩, hmem, hmax⟩ := Finset.exists_max_image
    ((range g.numPlayers).sigma fun p => range (g.numStrategies p))
    (fun e => x.deviation g e.1 e.2 - x.expected g e.1)
    ⟨⟨0, 0⟩, by simpa using ⟨h.numPlayers_pos, Game.numStrategies_pos h.accepted h.numPlayers_pos⟩⟩
  simp only [Finset.mem_sigma, Finset.mem_range] at hmem hmax
  obtain ⟨hp, ha⟩ := hmem
  refine ⟨p, hp, a, ha, le_antisymm (((Payoffs.regret_le_iff h hx _).mp le_rfl).2 p hp a ha)
    ((Payoffs.regret_le_iff h hx _).mpr ⟨?_, fun q hq b hb => hmax ⟨q, b⟩ ⟨hq, hb⟩⟩)⟩
  -- it is not negative, since the payoff of its player is the average of the deviations
  have hdist := isDistribution_player hx hnormal hp
  have haverage : x.expected g p ≤ x.deviation g p a - x.expected g p + x.expected g p := by
    conv_lhs => rw [Payoffs.expected_eq_sum hx hp, ← Payoffs.length_player hx]
    refine hdist.sum_mul_le fun b hb => ?_
    rw [← sub_le_iff_le_add]
    exact hmax ⟨p, b⟩ ⟨hp, by rwa [← Payoffs.length_player hx]⟩
  linarith

/-- **The regret is the largest gain from any deviation** of a single player, pure or mixed, a pure one
reaching it; it is never negative, and it is zero exactly in equilibria. -/
theorem regret_isGreatest (h : g.Valid) (hx : x.shape = g.counts) (hnormal : x.isNormalized = true) :
    IsGreatest (x.gains g) (x.regret g) ∧
      (∃ p < g.numPlayers, ∃ a < g.numStrategies p,
        x.deviation g p a - x.expected g p = x.regret g) ∧
      0 ≤ x.regret g ∧ (x.isNash g = true ↔ x.regret g = 0) := by
  obtain ⟨p, hp, a, ha, hgain⟩ := exists_gain_eq_regret h hx hnormal
  have hmem : x.regret g ∈ x.gains g := by
    refine ⟨p, hp, _, length_unitRow _ a, isDistribution_unitRow ha, ?_⟩
    rw [expected_replace_unitRow, hgain]
  exact ⟨⟨hmem, fun gain hgain => le_regret h hx hgain⟩, ⟨p, hp, a, ha, hgain⟩,
    Payoffs.regret_nonneg h hx, isNash_iff_regret h hx hnormal⟩

/-- Against others who choose at random the first player does best at the tower, the third one at the
bridge. -/
theorem regret_isGreatest_gathering :
    Game.gathering.Valid ∧
      (uniform Game.gathering.counts : MixedProfile ℚ).shape = Game.gathering.counts ∧
      (uniform Game.gathering.counts : MixedProfile ℚ).isNormalized = true ∧
      IsGreatest ((uniform Game.gathering.counts).gains Game.gathering) (1 / 4) ∧
      ¬(uniform Game.gathering.counts : MixedProfile ℚ).isNash Game.gathering = true := by
  have hshape : (uniform Game.gathering.counts : MixedProfile ℚ).shape = Game.gathering.counts := by
    decide +kernel
  have hnormal : (uniform Game.gathering.counts : MixedProfile ℚ).isNormalized = true := by
    decide +kernel
  have hregret : (uniform Game.gathering.counts : MixedProfile ℚ).regret Game.gathering = 1 / 4 := by
    decide +kernel
  obtain ⟨hgreatest, -, -, hnash⟩ := regret_isGreatest Game.valid_gathering hshape hnormal
  rw [hregret] at hgreatest hnash
  exact ⟨Game.valid_gathering, hshape, hnormal, hgreatest, fun h => absurd (hnash.mp h) (by norm_num)⟩

end MixedProfile

end Equilibria
