import Mathlib
import Equilibria.Proofs.EliminationOrder

/-!
# The game that elimination leaves

Elimination restricts what is left again and again, one player after the other.  What comes out is
said in terms of the whole game alone:

* `Reduction.Rounds` — rounds of turns, with no bound on their number, until one removes nothing;
* `Reduction.Sound.rounds` — there is such a sequence of rounds, and elimination is its end;
* `Reduction.Sound.restrict_cut` — what is left stays one restriction of the whole game;
* `Reduction.exhaust_of_idle` — where no turn removes anything, neither does elimination;
* `Reduction.Sound.removed_eq_zero_iff` — no strategy is counted as gone exactly when every player has
  kept all;
* `Game.eliminateDominated_spec` — the whole statement.
-/

namespace Equilibria

/-- Lists that are no longer than their counts fall short of them in all exactly when one does. -/
theorem length_flatten_spec {kept : List (List ℕ)} {counts : List ℕ}
    (h : List.Forall₂ (fun own n => List.length own ≤ n) kept counts) :
    kept.flatten.length ≤ counts.sum ∧
      (counts.sum - kept.flatten.length = 0 ↔
        ((kept.zip counts).all fun kn => kn.1.length == kn.2) = true) := by
  induction h with
  | nil => exact ⟨le_rfl, by simp⟩
  | @cons own n kept counts hown _ ih =>
    obtain ⟨hle, hiff⟩ := ih
    rw [List.flatten_cons, List.length_append, List.sum_cons, List.zip_cons_cons, List.all_cons,
      Bool.and_eq_true, ← hiff, beq_iff_eq]
    refine ⟨Nat.add_le_add hown hle, ?_⟩
    show n + counts.sum - (own.length + kept.flatten.length) = 0 ↔ own.length = n ∧ _
    omega

namespace Reduction

variable {g : Game} {r : Reduction} {p : ℕ}

/-! ### Rounds without a bound -/

/-- **Rounds of elimination**: as long as some turn of a round removes something, there is another
round. -/
inductive Rounds : Reduction → Reduction → Prop
  | settled {r : Reduction} (hidle : ∀ p < r.game.numPlayers, r.Idle p) : Rounds r r
  | again {r r' : Reduction} (hactive : ¬∀ p < r.game.numPlayers, r.Idle p)
      (hrest : Rounds r.round r') : Rounds r r'

/-- **Where no turn removes anything, neither does elimination.** -/
theorem exhaust_of_idle (hidle : ∀ p < r.game.numPlayers, r.Idle p) : r.exhaust = r := by
  have hround := round_of_idle hidle
  rw [exhaust]
  rw [hround, if_neg (lt_irrefl _)]

namespace Sound

/-- **Elimination is the end of its rounds**, of which there are finitely many. -/
theorem rounds (hg : g.Valid) (h : Sound g r) : Rounds r r.exhaust := by
  induction r using Reduction.exhaust.induct with
  | case1 r next hless ih =>
    rw [Reduction.exhaust]
    rw [if_pos hless]
    exact .again ((h.round_lt_iff hg).mp hless) (ih (h.round hg))
  | case2 r next hstop =>
    have hidle := not_not.mp (mt (h.round_lt_iff hg).mpr hstop)
    rw [Reduction.exhaust]
    rw [if_neg hstop, round_of_idle hidle]
    exact .settled hidle

/-! ### One restriction of the whole game -/

/-- **What is left is one restriction of the whole game**, if it was before the turn. -/
theorem restrict_cut (h : Sound g r) (hp : p < g.numPlayers)
    (hr : r.game = g.restrict r.kept) : (r.cut p).game = g.restrict (r.cut p).kept := by
  unfold Reduction.cut
  dsimp only
  split_ifs
  · exact hr
  · show r.game.restrict (r.staying p) = g.restrict (r.keptAfter p)
    rw [h.keptAfter_eq hp, ← g.restrict_restrict (h.within_staying hp), ← hr]

/-! ### What is gone -/

theorem length_le (h : Sound g r) :
    List.Forall₂ (fun own n => List.length own ≤ n) r.kept r.wholeCounts := by
  rw [h.counts]
  refine List.forall₂_iff_get.mpr ⟨h.selection.length, fun q hq hq' => ?_⟩
  have hle := h.selection.length_getD_le hq'
  rwa [List.getD_eq_getElem _ _ hq, List.getD_eq_getElem _ _ hq'] at hle

/-- **Nothing is counted as gone exactly when every player has kept all strategies.** -/
theorem removed_eq_zero_iff (h : Sound g r) : r.removed = 0 ↔ r.isTrivial = true := by
  rw [removed, remaining, ← List.sum_eq_foldl, isTrivial]
  exact (length_flatten_spec h.length_le).2

/-- **No strategy of what elimination leaves does better than another one.** -/
theorem not_better_exhaust (hg : g.Valid) (h : Sound g r) {a b : ℕ} (hp : p < g.numPlayers)
    (ha : a < r.exhaust.game.numStrategies p) (hb : b < r.exhaust.game.numStrategies p) :
    ¬r.exhaust.game.Better p b a := by
  have hend := h.exhaust hg
  have hpc : p < r.exhaust.game.counts.length := by rwa [Game.length_counts, hend.numPlayers_eq]
  have hmem : a ∈ r.exhaust.game.undominated p := by
    rw [(h.idle_exhaust hg hp).undominated_eq]
    exact List.mem_range.mpr ha
  exact ((Game.mem_undominated_iff hend.valid hpc).mp hmem).2 b hb

end Sound

theorem isTrivial_identity (g : Game) : (identity g).isTrivial = true := by
  have hzip : (g.counts.map List.range).zip g.counts = g.counts.map fun n => (List.range n, n) := by
    rw [List.zip_map_left, List.zip_eq_zipWith, List.zipWith_self, List.map_map]
    rfl
  rw [isTrivial, identity, hzip]
  simp

end Reduction

/-- **What elimination of dominated strategies leaves.**  The rounds come to an end.  Every player keeps
some strategies of the whole game, in their order; what is left is the restriction of the whole game
to them, in which no strategy of a player does worse than another one against everything the others can
do.  The count of strategies that are gone is zero exactly when the reduction is trivial, and
eliminating once more is trivial and leaves the same game. -/
theorem Game.eliminateDominated_spec (g : Game) (hg : g.Valid) :
    ∃ r, g.eliminateDominated = .ok r ∧ Reduction.Rounds (Reduction.identity g) r ∧
      r.kept.length = g.numPlayers ∧
      (∀ p < g.numPlayers, r.kept.getD p [] ≠ [] ∧ (r.kept.getD p []).Pairwise (· < ·) ∧
        ∀ a ∈ r.kept.getD p [], a < g.numStrategies p) ∧
      r.game = g.restrict r.kept ∧
      (∀ p < g.numPlayers, ∀ a < r.game.numStrategies p, ∀ b < r.game.numStrategies p,
        ¬r.game.Better p b a) ∧
      (r.removed = 0 ↔ r.isTrivial = true) ∧
      ∃ r', r.game.eliminateDominated = .ok r' ∧ r'.isTrivial = true ∧ r'.game = r.game := by
  have hstart : Reduction.Sound g (Reduction.identity g) := Reduction.sound_identity hg
  set r := (Reduction.identity g).exhaust with hr
  have hend : Reduction.Sound g r := hstart.exhaust hg
  have hascending : ∀ q, (r.kept.getD q []).Pairwise (· < ·) :=
    Reduction.Sound.exhaust_induction (P := fun r => ∀ q, (r.kept.getD q []).Pairwise (· < ·)) hg
      (fun r p h hp => h.ascending_cut hp) hstart (Reduction.ascending_identity g)
  have hgame : r.game = g.restrict r.kept :=
    Reduction.Sound.exhaust_induction (P := fun r => r.game = g.restrict r.kept) hg
      (fun r p h hp => h.restrict_cut hp) hstart hg.restrict_all.symm
  have hidle : ∀ p < r.game.numPlayers, r.Idle p := by
    intro p hp
    exact hstart.idle_exhaust hg (by rwa [← hend.numPlayers_eq])
  have hagain : (Reduction.identity r.game).exhaust = Reduction.identity r.game :=
    Reduction.exhaust_of_idle hidle
  refine ⟨r, by simp only [eliminateDominated, hg.accepted, hr], hstart.rounds hg, hend.length_kept,
    fun p hp => ⟨?_, hascending p, fun a => hend.lt_of_mem_kept hp⟩, hgame,
    fun p hp a ha b hb => hstart.not_better_exhaust hg hp ha hb, hend.removed_eq_zero_iff,
    Reduction.identity r.game, ?_, Reduction.isTrivial_identity r.game, rfl⟩
  · exact hend.selection.nonempty p (by rwa [Game.length_counts])
  · simp only [eliminateDominated, hend.valid.accepted, hagain]

theorem Game.eliminateDominated_spec_dilemma :
    Game.dilemma.Valid ∧ ∃ r, Game.dilemma.eliminateDominated = .ok r ∧
      Reduction.Rounds (Reduction.identity Game.dilemma) r ∧
      r.kept.length = Game.dilemma.numPlayers ∧
      (∀ p < Game.dilemma.numPlayers, r.kept.getD p [] ≠ [] ∧
        (r.kept.getD p []).Pairwise (· < ·) ∧
        ∀ a ∈ r.kept.getD p [], a < Game.dilemma.numStrategies p) ∧
      r.game = Game.dilemma.restrict r.kept ∧
      (∀ p < Game.dilemma.numPlayers, ∀ a < r.game.numStrategies p, ∀ b < r.game.numStrategies p,
        ¬r.game.Better p b a) ∧
      (r.removed = 0 ↔ r.isTrivial = true) ∧
      ∃ r', r.game.eliminateDominated = .ok r' ∧ r'.isTrivial = true ∧ r'.game = r.game :=
  ⟨Game.valid_dilemma, Game.eliminateDominated_spec Game.dilemma Game.valid_dilemma⟩

end Equilibria
