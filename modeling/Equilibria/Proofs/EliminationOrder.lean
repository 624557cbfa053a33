import Mathlib
import Equilibria.Proofs.Removals

/-!
# The order of elimination

Elimination goes through the players in a fixed order and takes away all dominated strategies of a
player at once.  Single removals in any order end with the same strategies:

* `Reduction.Sound.exhaust_induction` — what every player's turn keeps is kept by the whole run;
* `Reduction.Sound.idle_exhaust`, `Reduction.Sound.settled` — the run ends with a round that removes
  nothing, and then no strategy does worse than another one;
* `Reduction.Sound.subset_cut` — a turn removes nothing that a finished run of removals leaves;
* `Game.eliminateDominated_order` — the finished runs are those that end with the strategies that
  elimination keeps.
-/

namespace Equilibria

/-! ### Turns of elimination -/

namespace Reduction

variable {g : Game} {r : Reduction} {p : ℕ}

/-- Whether a player's turn removes nothing. -/
def Idle (r : Reduction) (p : ℕ) : Prop :=
  (r.game.undominated p).length = r.game.numStrategies p

/-- A turn that removes nothing finds every strategy undominated. -/
theorem Idle.undominated_eq (h : r.Idle p) :
    r.game.undominated p = List.range (r.game.numStrategies p) := by
  refine List.filter_sublist.eq_of_length ?_
  rw [List.length_range]
  exact h

theorem cut_of_idle (h : r.Idle p) : r.cut p = r := if_pos h

theorem round_of_idle (hidle : ∀ p < r.game.numPlayers, r.Idle p) : r.round = r := by
  have hfold : ∀ ps : List ℕ, (∀ p ∈ ps, r.Idle p) → ps.foldl cut r = r := by
    intro ps hps
    induction ps with
    | nil => rfl
    | cons p ps ih =>
      obtain ⟨hp, hps⟩ := List.forall_mem_cons.mp hps
      rw [List.foldl_cons, cut_of_idle hp]
      exact ih hps
  exact hfold _ fun p hp => hidle p (List.mem_range.mp hp)

namespace Sound

theorem foldl_cut_induction {P : Reduction → Prop} (hg : g.Valid)
    (hcut : ∀ r p, Sound g r → p < g.numPlayers → P r → P (r.cut p)) {ps : List ℕ}
    (hps : ∀ p ∈ ps, p < g.numPlayers) (h : Sound g r) (hr : P r) : P (ps.foldl Reduction.cut r) := by
  induction ps generalizing r with
  | nil => exact hr
  | cons p ps ih =>
    obtain ⟨hp, hps⟩ := List.forall_mem_cons.mp hps
    exact ih hps (h.cut hg hp) (hcut r p h hp hr)

/-- **Induction on turns**: what every player's turn keeps is kept by the whole elimination. -/
theorem exhaust_induction {P : Reduction → Prop} (hg : g.Valid)
    (hcut : ∀ r p, Sound g r → p < g.numPlayers → P r → P (r.cut p)) (h : Sound g r) (hr : P r) :
    P r.exhaust := by
  have hround : ∀ r, Sound g r → P r → P r.round := by
    intro r h hr
    refine foldl_cut_induction hg hcut (fun p hp => ?_) h hr
    rw [← h.numPlayers_eq]
    exact List.mem_range.mp hp
  induction r using Reduction.exhaust.induct with
  | case1 r next hless ih =>
    rw [Reduction.exhaust]
    rw [if_pos hless]
    exact ih (h.round hg) (hround r h hr)
  | case2 r next hstop =>
    rw [Reduction.exhaust]
    rw [if_neg hstop]
    exact hround r h hr

/-- A turn that removes something leaves less. -/
theorem cut_eq_or_lt (h : Sound g r) (hp : p < g.numPlayers) :
    (r.Idle p ∧ r.cut p = r) ∨ (r.cut p).remaining < r.remaining := by
  have hpk : p < r.kept.length := by rwa [h.length_kept]
  by_cases hidle : r.Idle p
  · exact Or.inl ⟨hidle, cut_of_idle hidle⟩
  · have hcut : (r.cut p).kept = r.keptAfter p := by
      have hchanged : r.cut p = _ := if_neg hidle
      rw [hchanged]
      rfl
    refine Or.inr ?_
    rw [remaining, hcut]
    refine length_flatten_modify_lt hpk ?_
    rw [List.length_map, ← h.numStrategies_eq]
    exact lt_of_le_of_ne (Game.length_undominated_le _ _) hidle

/-- Turns that leave as much as there was have removed nothing. -/
theorem foldl_cut_eq_or_lt (hg : g.Valid) (h : Sound g r) {ps : List ℕ}
    (hps : ∀ p ∈ ps, p < g.numPlayers) :
    ((∀ p ∈ ps, r.Idle p) ∧ ps.foldl Reduction.cut r = r) ∨
      (ps.foldl Reduction.cut r).remaining < r.remaining := by
  induction ps generalizing r with
  | nil => exact Or.inl ⟨fun p hp => absurd hp List.not_mem_nil, rfl⟩
  | cons p ps ih =>
    obtain ⟨hp, hps⟩ := List.forall_mem_cons.mp hps
    rw [List.foldl_cons]
    have hrest := ih (h.cut hg hp) hps
    rcases h.cut_eq_or_lt hp with ⟨hidle, hcut⟩ | hless
    · rw [hcut] at hrest ⊢
      exact hrest.imp_left fun hrest => ⟨List.forall_mem_cons.mpr ⟨hidle, hrest.1⟩, hrest.2⟩
    · refine Or.inr ?_
      rcases hrest with ⟨-, hsame⟩ | hless'
      · rwa [hsame]
      · exact hless'.trans hless

/-- A round leaves less exactly when some turn can remove something. -/
theorem round_lt_iff (hg : g.Valid) (h : Sound g r) :
    r.round.remaining < r.remaining ↔ ¬∀ p < r.game.numPlayers, r.Idle p := by
  have hplayers : ∀ p ∈ List.range r.game.numPlayers, p < g.numPlayers := by
    intro p hp
    rw [← h.numPlayers_eq]
    exact List.mem_range.mp hp
  constructor
  · intro hless hidle
    rw [round_of_idle hidle] at hless
    exact lt_irrefl _ hless
  · intro hactive
    refine (h.foldl_cut_eq_or_lt hg hplayers).resolve_left fun hsame => hactive ?_
    exact fun p hp => hsame.1 p (List.mem_range.mpr hp)

/-- **Elimination ends with an idle round.** -/
theorem idle_exhaust (hg : g.Valid) (h : Sound g r) (hp : p < g.numPlayers) : r.exhaust.Idle p := by
  induction r using Reduction.exhaust.induct with
  | case1 r next hless ih =>
    rw [Reduction.exhaust]
    rw [if_pos hless]
    exact ih (h.round hg)
  | case2 r next hstop =>
    have hidle := not_not.mp (mt (h.round_lt_iff hg).mpr hstop)
    rw [Reduction.exhaust]
    rw [if_neg hstop, round_of_idle hidle]
    exact hidle p (by rwa [h.numPlayers_eq])

/-- Where no turn removes anything, no strategy does worse than another one. -/
theorem settled (h : Sound g r) (hidle : ∀ p < g.numPlayers, r.Idle p) : g.Settled r.kept := by
  intro q hq c hc d hd hbetter
  have hqc : q < r.game.counts.length := by rwa [Game.length_counts, h.numPlayers_eq]
  obtain ⟨i, hi, rfl⟩ := List.getElem_of_mem hc
  obtain ⟨j, hj, rfl⟩ := List.getElem_of_mem hd
  rw [← List.getD_eq_getElem _ 0 hi, ← List.getD_eq_getElem _ 0 hj,
    ← Game.better_iff h.shape (fun s hs => h.payoff s hs q) (by rwa [h.length_kept]) hj hi] at hbetter
  rw [← h.numStrategies_eq] at hi hj
  have hmem : i ∈ r.game.undominated q := by
    rw [(hidle q hq).undominated_eq]
    exact List.mem_range.mpr hi
  exact ((Game.mem_undominated_iff h.valid hqc).mp hmem).2 j hj hbetter

/-- A turn keeps the strategies in their order. -/
theorem ascending_cut (h : Sound g r) (hp : p < g.numPlayers)
    (hascending : ∀ q, (r.kept.getD q []).Pairwise (· < ·)) (q : ℕ) :
    ((r.cut p).kept.getD q []).Pairwise (· < ·) := by
  unfold Reduction.cut
  dsimp only
  split_ifs
  · exact hascending q
  · show ((r.keptAfter p).getD q []).Pairwise (· < ·)
    rw [getD_keptAfter r (by rwa [h.length_kept])]
    split_ifs with hqp
    · subst hqp
      have hqc : q < r.game.counts.length := by rwa [Game.length_counts, h.numPlayers_eq]
      have hplace : ∀ a ∈ r.game.undominated q, a < (r.kept.getD q []).length := by
        intro a ha
        rw [← h.numStrategies_eq]
        exact ((Game.mem_undominated_iff h.valid hqc).mp ha).1
      refine List.pairwise_map.mpr (List.Pairwise.imp_of_mem ?_
        (List.pairwise_lt_range.sublist List.filter_sublist))
      intro a b ha hb hlt
      rw [List.getD_eq_getElem _ _ (hplace a ha), List.getD_eq_getElem _ _ (hplace b hb)]
      exact List.pairwise_iff_getElem.mp (hascending q) a b _ _ hlt
    · exact hascending q

/-- **A turn removes nothing that a finished run of removals leaves.** -/
theorem subset_cut (h : Sound g r) (hp : p < g.numPlayers) {kept : List (List ℕ)}
    (hkept : g.Remnant kept) (hsettled : g.Settled kept)
    (hsub : ∀ q, kept.getD q [] ⊆ r.kept.getD q []) (q : ℕ) :
    kept.getD q [] ⊆ (r.cut p).kept.getD q [] := by
  unfold Reduction.cut
  dsimp only
  split_ifs
  · exact hsub q
  · show kept.getD q [] ⊆ (r.keptAfter p).getD q []
    rw [getD_keptAfter r (by rwa [h.length_kept])]
    split_ifs with hqp
    · subst hqp
      intro c hc
      by_contra hremoved
      obtain ⟨d, hd, hlt⟩ := h.exists_better_survivor hp (hsub q hc) hremoved
      have hbetter : g.BetterAmong r.kept q d c := by
        rw [Game.betterAmong_iff, ← h.shape]
        exact hlt
      have hd' : d < g.numStrategies q := by
        refine (h.selection_keptAfter hp).lt q (by rwa [Game.length_counts]) d ?_
        rwa [getD_keptAfter r (by rwa [h.length_kept]), if_pos rfl]
      exact hkept.not_mem_of_beaten hsettled (by rw [hkept.length, h.length_kept]) hsub hp hd' hbetter
        hc
    · exact hsub q

end Sound

end Reduction

/-- **Elimination does not depend on its order.**  Strategies may be removed one at a time, each being
strictly dominated by another one in the game that is left; the runs that cannot go on are those that
end with the strategies kept by elimination. -/
theorem Game.eliminateDominated_order (g : Game) (hg : g.Valid) :
    ∃ r, g.eliminateDominated = .ok r ∧ ∀ kept, g.Exhausted kept ↔ kept = r.kept := by
  set r := (Reduction.identity g).exhaust
  have hstart : Reduction.Sound g (Reduction.identity g) := Reduction.sound_identity hg
  have hend : Reduction.Sound g r := hstart.exhaust hg
  have hascending : ∀ q, (r.kept.getD q []).Pairwise (· < ·) :=
    Reduction.Sound.exhaust_induction (P := fun r => ∀ q, (r.kept.getD q []).Pairwise (· < ·)) hg
      (fun r p h hp => h.ascending_cut hp) hstart (Reduction.ascending_identity g)
  have hremnant := hend.remnant hascending
  have hsettled := hend.settled fun p hp => hstart.idle_exhaust hg hp
  have hunique : ∀ kept, g.Exhausted kept → kept = r.kept := by
    intro kept hkept
    have h := remnant_of_run hg hkept.run
    have hfinal := h.settled hg hkept.final
    refine h.eq_of_subset hremnant ?_ ?_
    · exact Reduction.Sound.exhaust_induction
        (P := fun r => ∀ q, kept.getD q [] ⊆ r.kept.getD q []) hg
        (fun r p hr hp => hr.subset_cut hp h hfinal) hstart h.subset_identity
    · exact hremnant.subset_of_run hg hsettled hkept.run
  refine ⟨r, by simp only [eliminateDominated, hg.accepted, r], fun kept => ⟨hunique kept, ?_⟩⟩
  rintro rfl
  obtain ⟨kept, hkept⟩ := exists_exhausted hg
  rwa [← hunique kept hkept]

/-- In the dilemma first the one player's first strategy goes, then the other's. -/
theorem Game.exhausted_dilemma : Game.dilemma.Exhausted [[1], [1]] where
  run := by
    have hrow : Game.dilemma.Removes [[0, 1], [0, 1]] [[1], [0, 1]] :=
      ⟨0, by decide, 0, by decide, 1, by decide, by decide, by unfold Game.Better; decide, rfl⟩
    have hcolumn : Game.dilemma.Removes [[1], [0, 1]] [[1], [1]] :=
      ⟨1, by decide, 0, by decide, 1, by decide, by decide, by unfold Game.Better; decide, rfl⟩
    exact (Relation.ReflTransGen.single hrow).tail hcolumn
  final := by
    rintro kept' ⟨p, hp, worse, hworse, better, hbetter, hne, -, -⟩
    have hlength : (List.getD [[1], [1]] p ([] : List ℕ)).length = 1 := by
      have hp' : p < 2 := hp
      interval_cases p <;> rfl
    omega

theorem Game.eliminateDominated_order_dilemma :
    Game.dilemma.Valid ∧ Game.dilemma.Exhausted [[1], [1]] ∧
      ∃ r, Game.dilemma.eliminateDominated = .ok r ∧
        (∀ kept, Game.dilemma.Exhausted kept ↔ kept = r.kept) ∧ r.kept = [[1], [1]] := by
  obtain ⟨r, hok, hiff⟩ := Game.eliminateDominated_order Game.dilemma Game.valid_dilemma
  exact ⟨Game.valid_dilemma, Game.exhausted_dilemma, r, hok, hiff,
    ((hiff _).mp Game.exhausted_dilemma).symm⟩

end Equilibria
