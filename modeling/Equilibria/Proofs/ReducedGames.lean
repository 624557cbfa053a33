import Mathlib
import Equilibria.Proofs.Expansion

/-!
# Reductions against the whole game

A reduction is sound when what is left of the game pays what the whole game pays, when every
strategy that is gone does worse than one that is left, and when no equilibrium of the whole game
uses a strategy that is gone.  For a sound reduction:

* `Sound.regret_expand` — a profile of what is left has the regret of its expansion;
* `Sound.isNash_expand` — and is an equilibrium exactly when its expansion is;
* `Sound.expand_contract` — an equilibrium of the whole game is the expansion of its contraction,
  which is an equilibrium of what is left.

What is gone is compared against the profiles of what is left only: nothing else is ever played.
-/

namespace Equilibria

open Finset (range)

namespace Reduction

/-! ### The invariant -/

/-- **What holds of a reduction** of a game, whichever strategies were removed and in which order. -/
structure Sound (g : Game) (r : Reduction) : Prop where
  /-- What is left is a game. -/
  valid : r.game.Valid
  /-- The numbers of strategies are those of the whole game. -/
  counts : r.wholeCounts = g.counts
  /-- Every player is left with some strategies of the whole game. -/
  selection : Selection g.counts r.kept
  /-- The strategies of what is left are those that are kept. -/
  shape : r.game.counts = r.kept.map List.length
  /-- What is left pays what the whole game pays. -/
  payoff : ∀ s ∈ profiles r.game.counts, ∀ p,
    r.game.payoff p s = g.payoff p (Game.inWhole r.kept s)
  /-- A strategy that is gone does worse than one that is left, against whatever is left. -/
  beaten : ∀ p < g.numPlayers, ∀ c < g.numStrategies p, c ∉ r.kept.getD p [] →
    ∃ d ∈ r.kept.getD p [], ∀ s ∈ profiles r.game.counts,
      g.payoff p ((Game.inWhole r.kept s).set p c) < g.payoff p ((Game.inWhole r.kept s).set p d)
  /-- No equilibrium of the whole game uses a strategy that is gone. -/
  unused : ∀ x : MixedProfile ℚ, x.shape = g.counts → x.isNormalized = true → x.isNash g = true →
    ∀ p < g.numPlayers, ∀ c < g.numStrategies p, c ∉ r.kept.getD p [] → x.get p c = 0

/-- What a profile of the whole game gives the strategies that are left. -/
def contract (r : Reduction) (x : MixedProfile ℚ) : MixedProfile ℚ :=
  ⟨(List.range r.kept.length).map fun p => (r.kept.getD p []).map fun a => x.get p a⟩

variable {g : Game} {r : Reduction}

namespace Sound

theorem length_kept (h : Sound g r) : r.kept.length = g.numPlayers := by
  rw [h.selection.length, Game.length_counts]

theorem numPlayers_eq (h : Sound g r) : r.game.numPlayers = g.numPlayers := by
  rw [← Game.length_counts, h.shape, List.length_map, h.length_kept]

theorem numStrategies_eq (h : Sound g r) (p : ℕ) :
    r.game.numStrategies p = (r.kept.getD p []).length := by
  rw [Game.numStrategies, h.shape, getD_map_length]

theorem nodup_kept (h : Sound g r) {p : ℕ} (hp : p < g.numPlayers) : (r.kept.getD p []).Nodup :=
  h.selection.nodup p (by rwa [Game.length_counts])

theorem lt_of_mem_kept (h : Sound g r) {p a : ℕ} (hp : p < g.numPlayers)
    (ha : a ∈ r.kept.getD p []) : a < g.numStrategies p :=
  h.selection.lt p (by rwa [Game.length_counts]) a ha

/-- A strategy of what is left has a number in the whole game. -/
theorem getD_mem_kept (h : Sound g r) {p i : ℕ} (hi : i < r.game.numStrategies p) :
    (r.kept.getD p []).getD i 0 ∈ r.kept.getD p [] := by
  rw [h.numStrategies_eq] at hi
  rw [List.getD_eq_getElem _ _ hi]
  exact List.getElem_mem _

theorem length_of_mem (h : Sound g r) {s : List ℕ} (hs : s ∈ profiles r.game.counts) :
    s.length = r.kept.length := by
  rw [h.shape] at hs
  exact length_of_mem_profiles_map hs

/-- What is left pays for a strategy what the whole game pays for its number there. -/
theorem payoff_set (h : Sound g r) {p i : ℕ} (hp : p < g.numPlayers)
    (hi : i < r.game.numStrategies p) {s : List ℕ} (hs : s ∈ profiles r.game.counts) :
    r.game.payoff p (s.set p i) =
      g.payoff p ((Game.inWhole r.kept s).set p ((r.kept.getD p []).getD i 0)) := by
  rw [h.payoff _ (set_mem_profiles hs hi), inWhole_set (h.length_of_mem hs) (by rwa [h.length_kept])]

/-! ### Regret and equilibria -/

theorem probs_expand (h : Sound g r) {x : MixedProfile ℚ} (hx : x.shape = r.game.counts) :
    (r.expand x).probs = expandRows r.kept g.counts x.probs := by
  have hlength : x.probs.length = r.kept.length := by
    rw [MixedProfile.length_probs hx, h.numPlayers_eq, h.length_kept]
  have hcounts : r.kept.length = g.counts.length := h.selection.length
  unfold expand expandRows
  rw [h.counts]
  apply List.ext_getElem
  · simp [hlength, hcounts]
  · intro k hk hk'
    have hkx : k < x.probs.length := by
      rw [List.length_zipWith] at hk'
      omega
    simp [MixedProfile.player, List.getD_eq_getElem?_getD, hkx]

theorem getD_probs_expand (h : Sound g r) (x : MixedProfile ℚ) {p : ℕ} (hp : p < g.numPlayers) :
    (r.expand x).probs.getD p [] =
      expandRow (r.kept.getD p []) (g.numStrategies p) (x.player p) := by
  have hpk : p < r.kept.length := by rwa [h.length_kept]
  have hpc : p < g.counts.length := by rwa [Game.length_counts]
  unfold expand
  rw [h.counts]
  simp [Game.numStrategies, List.getD_eq_getElem?_getD, hpk, hpc]

theorem length_player (h : Sound g r) {x : MixedProfile ℚ} (hx : x.shape = r.game.counts) (p : ℕ) :
    (x.player p).length = (r.kept.getD p []).length := by
  rw [Payoffs.length_player hx, h.numStrategies_eq]

theorem shape_expand (h : Sound g r) (x : MixedProfile ℚ) : (r.expand x).shape = g.counts := by
  have hplayers : (r.expand x).shape.length = g.counts.length := by
    simp [MixedProfile.shape, expand, h.counts, h.selection.length]
  refine ext_getD hplayers fun k hk => ?_
  have hk' : k < g.numPlayers := by rwa [hplayers, Game.length_counts] at hk
  unfold MixedProfile.shape
  rw [getD_map_length, h.getD_probs_expand x hk', length_expandRow, Game.numStrategies]

theorem isNormalized_expand (h : Sound g r) {x : MixedProfile ℚ} (hx : x.shape = r.game.counts)
    (hnormal : x.isNormalized = true) : (r.expand x).isNormalized = true := by
  rw [MixedProfile.isNormalized_iff]
  intro row hrow
  obtain ⟨p, hp, rfl⟩ := List.getElem_of_mem hrow
  have hp' : p < g.numPlayers := by rwa [MixedProfile.length_probs (h.shape_expand x)] at hp
  rw [← List.getD_eq_getElem _ [] hp, h.getD_probs_expand x hp']
  exact isDistribution_expandRow (h.nodup_kept hp') (fun a => h.lt_of_mem_kept hp')
    (h.length_player hx p)
    (MixedProfile.isDistribution_player hx hnormal (by rwa [h.numPlayers_eq]))

theorem expected_expand (h : Sound g r) {x : MixedProfile ℚ} (hx : x.shape = r.game.counts) (p : ℕ) :
    (r.expand x).expected g p = x.expected r.game p := by
  unfold MixedProfile.expected
  rw [h.probs_expand hx, expectation_expandRows h.selection (by rw [← h.shape]; exact hx)]
  refine expectation_congr fun s hs => (h.payoff s ?_ p).symm
  rw [← hx]
  exact hs

theorem deviation_eq {g : Game} {x : MixedProfile ℚ} (hx : x.shape = g.counts)
    (hnormal : x.isNormalized = true) {p a : ℕ} (hp : p < g.numPlayers) (ha : a < g.numStrategies p) :
    x.deviation g p a = expectation x.probs fun s => g.payoff p (s.set p a) :=
  expectation_set_unitRow (by rwa [MixedProfile.length_probs hx]) ha
    (MixedProfile.isDistribution_player hx hnormal hp).2 _

/-- What a strategy of the whole game gives against an expanded profile. -/
theorem deviation_expand (h : Sound g r) {x : MixedProfile ℚ} (hx : x.shape = r.game.counts)
    (hnormal : x.isNormalized = true) {p a : ℕ} (hp : p < g.numPlayers) (ha : a < g.numStrategies p) :
    (r.expand x).deviation g p a =
      expectation x.probs fun s => g.payoff p ((Game.inWhole r.kept s).set p a) := by
  rw [deviation_eq (h.shape_expand x) (h.isNormalized_expand hx hnormal) hp ha, h.probs_expand hx,
    expectation_expandRows h.selection (by rw [← h.shape]; exact hx)]

/-- A strategy that is left gives what it gives in the whole game. -/
theorem deviation_kept (h : Sound g r) {x : MixedProfile ℚ} (hx : x.shape = r.game.counts)
    (hnormal : x.isNormalized = true) {p i : ℕ} (hp : p < g.numPlayers)
    (hi : i < r.game.numStrategies p) :
    (r.expand x).deviation g p ((r.kept.getD p []).getD i 0) = x.deviation r.game p i := by
  rw [h.deviation_expand hx hnormal hp (h.lt_of_mem_kept hp (h.getD_mem_kept hi)),
    deviation_eq hx hnormal (by rwa [h.numPlayers_eq]) hi]
  refine expectation_congr fun s hs => (h.payoff_set hp hi ?_).symm
  rw [← hx]
  exact hs

/-- **A profile of what is left has the regret of its expansion**: strategies that are gone gain
less than those for which they went. -/
theorem regret_expand (h : Sound g r) (hg : g.Valid) {x : MixedProfile ℚ}
    (hx : x.shape = r.game.counts) (hnormal : x.isNormalized = true) :
    (r.expand x).regret g = x.regret r.game := by
  have hbound : ∀ c, (r.expand x).regret g ≤ c ↔ x.regret r.game ≤ c := by
    intro c
    rw [Payoffs.regret_le_iff hg (h.shape_expand x), Payoffs.regret_le_iff h.valid hx,
      h.numPlayers_eq]
    refine and_congr_right fun _ => forall₂_congr fun p hp => ?_
    rw [h.expected_expand hx]
    constructor
    · intro hwhole i hi
      rw [← h.deviation_kept hx hnormal hp hi]
      exact hwhole _ (h.lt_of_mem_kept hp (h.getD_mem_kept hi))
    · intro hleft a ha
      have hkept : ∀ d ∈ r.kept.getD p [],
          (r.expand x).deviation g p d - x.expected r.game p ≤ c := by
        intro d hd
        obtain ⟨i, hi, rfl⟩ := List.getElem_of_mem hd
        have hi' : i < r.game.numStrategies p := by rwa [h.numStrategies_eq]
        rw [← List.getD_eq_getElem _ 0 hi, h.deviation_kept hx hnormal hp hi']
        exact hleft i hi'
      by_cases hmem : a ∈ r.kept.getD p []
      · exact hkept a hmem
      · obtain ⟨d, hd, hlt⟩ := h.beaten p hp a ha hmem
        have hless : (r.expand x).deviation g p a < (r.expand x).deviation g p d := by
          rw [h.deviation_expand hx hnormal hp ha,
            h.deviation_expand hx hnormal hp (h.lt_of_mem_kept hp hd)]
          refine expectation_lt (MixedProfile.isNormalized_iff.mp hnormal) fun s hs _ => hlt s ?_
          rw [← hx]
          exact hs
        linarith [hkept d hd]
  exact le_antisymm ((hbound _).mpr le_rfl) ((hbound _).mp le_rfl)

theorem isNash_expand (h : Sound g r) (hg : g.Valid) {x : MixedProfile ℚ}
    (hx : x.shape = r.game.counts) (hnormal : x.isNormalized = true) :
    (r.expand x).isNash g = x.isNash r.game := by
  rw [Bool.eq_iff_iff, MixedProfile.isNash_iff_regret hg (h.shape_expand x)
    (h.isNormalized_expand hx hnormal), MixedProfile.isNash_iff_regret h.valid hx hnormal,
    h.regret_expand hg hx hnormal]

/-! ### Equilibria of the whole game -/

theorem player_contract (r : Reduction) (x : MixedProfile ℚ) {p : ℕ} (hp : p < r.kept.length) :
    (r.contract x).player p = (r.kept.getD p []).map fun a => x.get p a := by
  simp [contract, MixedProfile.player, List.getD_eq_getElem?_getD, hp]

theorem shape_contract (h : Sound g r) (x : MixedProfile ℚ) :
    (r.contract x).shape = r.game.counts := by
  have hlength : (r.contract x).shape.length = r.game.counts.length := by
    simp [contract, MixedProfile.shape, h.shape]
  refine ext_getD hlength fun p hp => ?_
  have hp' : p < r.kept.length := by rwa [hlength, h.shape, List.length_map] at hp
  unfold MixedProfile.shape
  rw [h.shape, getD_map_length, getD_map_length]
  show ((r.contract x).player p).length = _
  rw [player_contract r x hp', List.length_map]

section Equilibrium

variable {x : MixedProfile ℚ} (h : Sound g r) (hx : x.shape = g.counts)
  (hnormal : x.isNormalized = true) (hnash : x.isNash g = true)

include h hx hnormal hnash in
theorem expandRow_contract {p : ℕ} (hp : p < g.numPlayers) :
    expandRow (r.kept.getD p []) (g.numStrategies p) ((r.contract x).player p) = x.player p := by
  rw [player_contract r x (by rwa [h.length_kept])]
  exact expandRow_of_support (h.nodup_kept hp) (fun a => h.lt_of_mem_kept hp)
    (Payoffs.length_player hx p) (h.unused x hx hnormal hnash p hp)

include h hx hnormal hnash in
/-- **An equilibrium of the whole game is the expansion of its contraction.** -/
theorem expand_contract : r.expand (r.contract x) = x := by
  have hlength : (r.expand (r.contract x)).probs.length = x.probs.length := by
    rw [MixedProfile.length_probs (h.shape_expand _), MixedProfile.length_probs hx]
  have hprobs : (r.expand (r.contract x)).probs = x.probs := by
    apply List.ext_getElem hlength
    intro p hp hp'
    have hplayers : p < g.numPlayers := by rwa [MixedProfile.length_probs hx] at hp'
    rw [← List.getD_eq_getElem _ [] hp, ← List.getD_eq_getElem _ [] hp',
      h.getD_probs_expand _ hplayers, expandRow_contract h hx hnormal hnash hplayers]
    rfl
  cases x
  exact congrArg MixedProfile.mk hprobs

include h hx hnormal hnash in
theorem isNormalized_contract : (r.contract x).isNormalized = true := by
  rw [MixedProfile.isNormalized_iff]
  intro row hmem
  obtain ⟨p, hp, rfl⟩ := List.getElem_of_mem hmem
  have hp' : p < g.numPlayers := by
    rwa [MixedProfile.length_probs (h.shape_contract x), h.numPlayers_eq] at hp
  have hdist := MixedProfile.isDistribution_player hx hnormal hp'
  have hplayer : (r.contract x).probs[p] = (r.contract x).player p :=
    (List.getD_eq_getElem _ _ hp).symm
  rw [hplayer]
  constructor
  · intro v hv
    rw [player_contract r x (by rwa [h.length_kept])] at hv
    obtain ⟨a, -, rfl⟩ := List.mem_map.mp hv
    exact hdist.getD_nonneg a
  · -- Nothing is lost in the sum, since no strategy that is gone is used.
    have hsum := sum_expandRow (n := g.numStrategies p) (h.nodup_kept hp')
      (fun a => h.lt_of_mem_kept hp') ((r.contract x).player p) fun _ => 1
    simp only [mul_one] at hsum
    rw [sum_eq_sum_range, h.length_player (h.shape_contract x), ← hsum,
      expandRow_contract h hx hnormal hnash hp', ← Payoffs.length_player hx p, ← sum_eq_sum_range,
      hdist.2]

include h hx hnormal hnash in
theorem isNash_contract (hg : g.Valid) : (r.contract x).isNash r.game = true := by
  rw [← h.isNash_expand hg (h.shape_contract x) (isNormalized_contract h hx hnormal hnash),
    expand_contract h hx hnormal hnash]
  exact hnash

end Equilibrium

end Sound

end Reduction

end Equilibria
