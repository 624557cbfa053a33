import Mathlib
import Equilibria.Proofs.ReducedGames
import Equilibria.Proofs.RestrictionLaws
import Equilibria.Proofs.StrictDominance

/-!
# Elimination of dominated strategies

The rounds of elimination make sound reductions, so that what they leave of a valid game has the
same regrets and the same equilibria:

* `Sound.keptAfter_eq` — a turn composes its choice with the earlier ones;
* `Sound.counted_turn` — no size leaves the word in a turn, so that elimination is never aborted;
* `Sound.exists_better_kept` — a strategy that is gone after a player's turn does worse than one
  that stays;
* `Sound.cut`, `Sound.round`, `Sound.exhaust` — one player's turn, one round and the whole run keep
  a reduction sound;
* `sound_of_perm`, `sound_identity` — so is a reduction that removes nothing, whatever the order;
* `Game.eliminateDominated_sound` — the whole statement.

A strategy may be removed for one that goes later.  Therefore at every turn the strategy that did
better is followed to one that stays.
-/

namespace Equilibria

namespace Reduction

variable {g : Game} {r : Reduction}

/-! ### One player's turn -/

/-- The strategies of what is left that stay after a player's turn. -/
def staying (r : Reduction) (p : ℕ) : List (List ℕ) := r.game.keepOnly p (r.game.undominated p)

/-- The strategies of the whole game that stay after a player's turn. -/
def keptAfter (r : Reduction) (p : ℕ) : List (List ℕ) :=
  r.kept.modify p fun kept => (r.game.undominated p).map fun a => kept.getD a 0

variable {p : ℕ}

theorem length_staying (r : Reduction) (p : ℕ) : (r.staying p).length = r.game.numPlayers := by
  simp [staying, Game.keepOnly]

theorem getD_staying (r : Reduction) (p : ℕ) {q : ℕ} (hq : q < r.game.numPlayers) :
    (r.staying p).getD q [] =
      if q = p then r.game.undominated p else List.range (r.game.numStrategies q) := by
  simp [staying, Game.keepOnly, List.getD_eq_getElem?_getD, hq]

theorem length_keptAfter (r : Reduction) (p : ℕ) : (r.keptAfter p).length = r.kept.length :=
  List.length_modify _ _ _

theorem getD_keptAfter (r : Reduction) (hp : p < r.kept.length) (q : ℕ) :
    (r.keptAfter p).getD q [] =
      if q = p then (r.game.undominated p).map fun a => (r.kept.getD p []).getD a 0
      else r.kept.getD q [] := by
  unfold keptAfter
  split_ifs with hqp
  · subst hqp
    simp [List.getD_eq_getElem?_getD, hp]
  · simp [List.getD_eq_getElem?_getD, Ne.symm hqp]

namespace Sound

theorem selection_staying (h : Sound g r) (hp : p < g.numPlayers) :
    Selection r.game.counts (r.staying p) := by
  have hpc : p < r.game.counts.length := by rwa [Game.length_counts, h.numPlayers_eq]
  refine ⟨by rw [length_staying, Game.length_counts], fun q hq => ?_, fun q hq => ?_, fun q hq => ?_⟩
  · rw [getD_staying _ _ (by rwa [← Game.length_counts])]
    split_ifs
    · exact Game.undominated_ne_nil h.valid hpc
    · rw [← List.length_pos_iff, List.length_range]
      exact h.valid.counts_pos hq
  · rw [getD_staying _ _ (by rwa [← Game.length_counts])]
    split_ifs
    · exact Game.nodup_undominated r.game p
    · exact List.nodup_range
  · rw [getD_staying _ _ (by rwa [← Game.length_counts])]
    split_ifs with hqp
    · intro a ha
      rw [hqp]
      exact ((Game.mem_undominated_iff h.valid hpc).mp ha).1
    · exact fun a ha => List.mem_range.mp ha

theorem within_staying (h : Sound g r) (hp : p < g.numPlayers) :
    Game.Within r.kept (r.staying p) := by
  have hstaying := h.selection_staying hp
  have hlength : r.kept.length = (r.staying p).length := by
    rw [length_staying, h.numPlayers_eq, h.length_kept]
  refine List.forall₂_iff_get.mpr ⟨hlength, fun q hq hq' a ha => ?_⟩
  have hqc : q < r.game.counts.length := by rwa [hstaying.length] at hq'
  rw [List.get_eq_getElem, ← List.getD_eq_getElem _ [] hq'] at ha
  have hlt := hstaying.lt q hqc a ha
  rwa [h.shape, getD_map_length, List.getD_eq_getElem _ _ hq] at hlt

/-- **A turn composes its choice with the earlier ones.** -/
theorem keptAfter_eq (h : Sound g r) (hp : p < g.numPlayers) :
    r.keptAfter p = Game.composed r.kept (r.staying p) := by
  have hpk : p < r.kept.length := by rwa [h.length_kept]
  have hlength : (r.staying p).length = r.kept.length := by
    rw [length_staying, h.numPlayers_eq, h.length_kept]
  refine List.ext_getElem (by simp [Game.composed, length_keptAfter, hlength]) fun q hq hq' => ?_
  rw [length_keptAfter] at hq
  have hqs : q < (r.staying p).length := by rwa [hlength]
  have hqg : q < r.game.numPlayers := by rwa [← length_staying]
  rw [← List.getD_eq_getElem _ [] (by rwa [length_keptAfter]), getD_keptAfter r hpk]
  simp only [Game.composed, List.getElem_zipWith]
  rw [← List.getD_eq_getElem _ [] hq, ← List.getD_eq_getElem _ [] hqs, getD_staying _ _ hqg]
  split_ifs with hqp
  · rw [hqp]
  · rw [h.numStrategies_eq, map_getD_range]

/-- The lists that are left after the turn are again a choice of strategies. -/
theorem selection_keptAfter (h : Sound g r) (hp : p < g.numPlayers) :
    Selection g.counts (r.keptAfter p) := by
  have hpk : p < r.kept.length := by rwa [h.length_kept]
  have hpc : p < r.game.counts.length := by rwa [Game.length_counts, h.numPlayers_eq]
  have hplace : ∀ a ∈ r.game.undominated p, a < (r.kept.getD p []).length := by
    intro a ha
    rw [← h.numStrategies_eq]
    exact ((Game.mem_undominated_iff h.valid hpc).mp ha).1
  refine ⟨by rw [length_keptAfter, h.selection.length], fun q hq => ?_, fun q hq => ?_,
    fun q hq => ?_⟩
  · rw [getD_keptAfter r hpk]
    split_ifs
    · exact fun hnil => Game.undominated_ne_nil h.valid hpc (List.map_eq_nil_iff.mp hnil)
    · exact h.selection.nonempty q hq
  · rw [getD_keptAfter r hpk]
    split_ifs with hqp
    · subst hqp
      refine List.Nodup.map_on (fun a ha b hb hab => ?_) (Game.nodup_undominated r.game q)
      rw [List.getD_eq_getElem _ _ (hplace a ha), List.getD_eq_getElem _ _ (hplace b hb)] at hab
      exact (List.Nodup.getElem_inj_iff (h.selection.nodup q hq)).mp hab
    · exact h.selection.nodup q hq
  · rw [getD_keptAfter r hpk]
    split_ifs with hqp
    · subst hqp
      intro c hc
      obtain ⟨a, ha, rfl⟩ := List.mem_map.mp hc
      rw [List.getD_eq_getElem _ _ (hplace a ha)]
      exact h.selection.lt q hq _ (List.getElem_mem _)
    · exact h.selection.lt q hq

theorem counts_restrict_staying (h : Sound g r) (hp : p < g.numPlayers) :
    (r.game.restrict (r.staying p)).counts = (r.keptAfter p).map List.length := by
  rw [Game.counts_restrict (h.selection_staying hp).listing, h.keptAfter_eq hp,
    Game.map_length_composed (h.within_staying hp)]

/-- **A turn is never aborted.**  The profiles against which dominance is tested can be counted in a word,
and so can those of what is left. -/
theorem counted_turn (h : Sound g r) (hp : p < g.numPlayers) :
    (∃ size, tableSize? (r.game.counts.set p 1) = some size) ∧
      r.game.restrict? (r.staying p) = .ok (r.game.restrict (r.staying p)) := by
  have hpc : p < r.game.counts.length := by rwa [Game.length_counts, h.numPlayers_eq]
  have hset : ∀ n ∈ r.game.counts.set p 1, 0 < n := by
    intro n hn
    rcases List.mem_or_eq_of_mem_set hn with hmem | rfl
    · obtain ⟨q, hq, rfl⟩ := List.getElem_of_mem hmem
      rw [← List.getD_eq_getElem _ 0 hq]
      exact h.valid.counts_pos hq
    · exact Nat.zero_lt_one
  have htested := (Game.prod_set_one_le h.valid hpc).trans_lt h.valid.prod_lt
  exact ⟨⟨_, tableSize?_eq_some_iff.mpr ⟨fitsWord_of_prod_lt hset htested, rfl⟩⟩,
    Game.restrict?_eq_ok_iff.mpr ⟨(h.selection_staying hp).fitsWord h.valid.prod_lt, rfl⟩⟩

/-- Profiles after the turn are profiles before it, with the same profile of the whole game. -/
theorem inWhole_keptAfter (h : Sound g r) (hp : p < g.numPlayers) {s : List ℕ}
    (hs : s ∈ profiles ((r.staying p).map List.length)) :
    Game.inWhole (r.keptAfter p) s = Game.inWhole r.kept (Game.inWhole (r.staying p) s) := by
  rw [h.keptAfter_eq hp]
  exact (Game.inWhole_composed (h.within_staying hp) hs).2

/-- A strategy that the turn removes does worse than one that stays, against all that was left. -/
theorem exists_better_survivor (h : Sound g r) (hp : p < g.numPlayers) {c : ℕ}
    (hc : c ∈ r.kept.getD p [])
    (hremoved : c ∉ (r.game.undominated p).map fun a => (r.kept.getD p []).getD a 0) :
    ∃ d ∈ (r.game.undominated p).map fun a => (r.kept.getD p []).getD a 0,
      ∀ s ∈ profiles r.game.counts, g.payoff p ((Game.inWhole r.kept s).set p c) <
        g.payoff p ((Game.inWhole r.kept s).set p d) := by
  have hpc : p < r.game.counts.length := by rwa [Game.length_counts, h.numPlayers_eq]
  obtain ⟨i, hi, rfl⟩ := List.getElem_of_mem hc
  have hi' : i < r.game.numStrategies p := by rwa [h.numStrategies_eq]
  rw [← List.getD_eq_getElem _ 0 hi] at hremoved ⊢
  have hgone : i ∉ r.game.undominated p :=
    fun hmem => hremoved (List.mem_map.mpr ⟨i, hmem, rfl⟩)
  obtain ⟨j, hj, hbetter⟩ := Game.exists_better_undominated h.valid hpc hi' hgone
  have hj' : j < r.game.numStrategies p := ((Game.mem_undominated_iff h.valid hpc).mp hj).1
  refine ⟨_, List.mem_map.mpr ⟨j, hj, rfl⟩, fun s hs => ?_⟩
  rw [← h.payoff_set hp hi' hs, ← h.payoff_set hp hj' hs]
  exact hbetter s hs

/-- **A strategy that is gone after the turn does worse than one that stays**, whether it goes now or
went before for one that goes now. -/
theorem exists_better_kept (h : Sound g r) (hp : p < g.numPlayers) {q c : ℕ} (hq : q < g.numPlayers)
    (hc : c < g.numStrategies q)
    (hgone : c ∉ (r.keptAfter p).getD q []) :
    ∃ d ∈ (r.keptAfter p).getD q [], ∀ s ∈ profiles r.game.counts,
      g.payoff q ((Game.inWhole r.kept s).set q c) <
        g.payoff q ((Game.inWhole r.kept s).set q d) := by
  rw [getD_keptAfter r (by rwa [h.length_kept])] at hgone ⊢
  by_cases hqp : q = p
  · subst hqp
    rw [if_pos rfl] at hgone ⊢
    by_cases hmem : c ∈ r.kept.getD q []
    · exact h.exists_better_survivor hq hmem hgone
    · obtain ⟨d, hd, hlt⟩ := h.beaten q hq c hc hmem
      by_cases hstays : d ∈ (r.game.undominated q).map fun a => (r.kept.getD q []).getD a 0
      · exact ⟨d, hstays, hlt⟩
      · obtain ⟨e, he, hlt'⟩ := h.exists_better_survivor hq hd hstays
        exact ⟨e, he, fun s hs => (hlt s hs).trans (hlt' s hs)⟩
  · rw [if_neg hqp] at hgone ⊢
    exact h.beaten q hq c hc hgone

/-- An equilibrium uses kept strategies only, hence none that does worse against those. -/
theorem get_eq_zero (h : Sound g r) (hg : g.Valid) {x : MixedProfile ℚ} (hx : x.shape = g.counts)
    (hnormal : x.isNormalized = true) (hnash : x.isNash g = true) {q c d : ℕ} (hq : q < g.numPlayers)
    (hc : c < g.numStrategies q) (hd : d < g.numStrategies q)
    (hlt : ∀ s ∈ profiles r.game.counts, g.payoff q ((Game.inWhole r.kept s).set q c) <
      g.payoff q ((Game.inWhole r.kept s).set q d)) : x.get q c = 0 := by
  have hworse : x.deviation g q c < x.deviation g q d := by
    rw [deviation_eq hx hnormal hq hc, deviation_eq hx hnormal hq hd]
    refine expectation_lt (MixedProfile.isNormalized_iff.mp hnormal) fun t ht hmass => ?_
    have htcounts : t ∈ profiles g.counts := by
      rw [← hx]
      exact ht
    obtain ⟨htlength, htlt⟩ := mem_profiles_iff_getD.mp htcounts
    have hused : ∀ k < r.kept.length, t.getD k 0 ∈ r.kept.getD k [] := by
      intro k hk
      rw [h.length_kept, ← Game.length_counts] at hk
      by_contra hgone
      refine Finset.prod_ne_zero_iff.mp hmass k (Finset.mem_range.mpr (by rwa [htlength])) ?_
      exact h.unused x hx hnormal hnash k (by rwa [← Game.length_counts]) _ (htlt k hk) hgone
    obtain ⟨s, hs, rfl⟩ := exists_inWhole (by rw [htlength, h.selection.length]) hused
    exact hlt s (by rwa [h.shape])
  have hbest := (List.all_eq_true.mp hnash) q (List.mem_range.mpr
    (by rwa [Payoffs.numPlayers, ← Game.length_counts] at *))
  rw [Payoffs.isBestResponse_iff hg hx] at hbest
  by_contra hne
  have hnonneg := (MixedProfile.isDistribution_player hx hnormal hq).getD_nonneg c
  exact absurd (hbest c hc (lt_of_le_of_ne hnonneg (Ne.symm hne)) d hd) (not_le.mpr hworse)

/-- **A player's turn keeps the invariant.** -/
theorem cut (h : Sound g r) (hg : g.Valid) (hp : p < g.numPlayers) : Sound g (r.cut p) := by
  have hcounts := h.counts_restrict_staying hp
  have hstaying := h.selection_staying hp
  have hbefore : ∀ s ∈ profiles (r.game.restrict (r.staying p)).counts,
      Game.inWhole (r.staying p) s ∈ profiles r.game.counts ∧
        Game.inWhole (r.keptAfter p) s = Game.inWhole r.kept (Game.inWhole (r.staying p) s) := by
    intro s hs
    rw [Game.counts_restrict hstaying.listing] at hs
    exact ⟨hstaying.inWhole_mem hs, h.inWhole_keptAfter hp hs⟩
  have hafter : Sound g { r with game := r.game.restrict (r.staying p), kept := r.keptAfter p } := by
    refine ⟨h.valid.restrict hstaying, h.counts, h.selection_keptAfter hp, hcounts, ?_, ?_, ?_⟩
    · intro s hs k
      obtain ⟨hmem, heq⟩ := hbefore s hs
      rw [heq, ← h.payoff _ hmem]
      rw [Game.counts_restrict hstaying.listing] at hs
      exact r.game.payoff_restrict hs k
    · intro q hq c hc hgone
      obtain ⟨d, hd, hlt⟩ := h.exists_better_kept hp hq hc hgone
      refine ⟨d, hd, fun s hs => ?_⟩
      obtain ⟨hmem, heq⟩ := hbefore s hs
      rw [heq]
      exact hlt _ hmem
    · intro x hx hnormal hnash q hq c hc hgone
      obtain ⟨d, hd, hlt⟩ := h.exists_better_kept hp hq hc hgone
      have hd' : d < g.numStrategies q :=
        (h.selection_keptAfter hp).lt q (by rwa [Game.length_counts]) d hd
      exact h.get_eq_zero hg hx hnormal hnash hq hc hd' hlt
  unfold Reduction.cut
  dsimp only
  split_ifs
  · exact h
  · exact hafter

/-! ### The whole run -/

/-- **A round keeps the invariant.** -/
theorem round (h : Sound g r) (hg : g.Valid) : Sound g r.round := by
  have hfold : ∀ (ps : List ℕ) (r : Reduction), Sound g r → (∀ p ∈ ps, p < g.numPlayers) →
      Sound g (ps.foldl Reduction.cut r) := by
    intro ps
    induction ps with
    | nil => exact fun r h _ => h
    | cons p ps ih =>
      intro r h hps
      exact ih (r.cut p) (h.cut hg (hps p List.mem_cons_self))
        fun q hq => hps q (List.mem_cons_of_mem _ hq)
  refine hfold _ r h fun p hp => ?_
  rw [← h.numPlayers_eq]
  exact List.mem_range.mp hp

/-- **All rounds keep the invariant.** -/
theorem exhaust (h : Sound g r) (hg : g.Valid) : Sound g r.exhaust := by
  induction r using Reduction.exhaust.induct with
  | case1 r next hless ih =>
    rw [Reduction.exhaust]
    rw [if_pos hless]
    exact ih (h.round hg)
  | case2 r next hstop =>
    rw [Reduction.exhaust]
    rw [if_neg hstop]
    exact h.round hg

end Sound

/-- What every turn keeps, whatever it keeps it of, is kept by the whole run. -/
theorem exhaust_of_cut {P : Reduction → Prop} (hcut : ∀ r p, P r → P (r.cut p)) (h : P r) :
    P r.exhaust := by
  have hround : ∀ (ps : List ℕ) (r : Reduction), P r → P (ps.foldl Reduction.cut r) := by
    intro ps
    induction ps with
    | nil => exact fun r h => h
    | cons p ps ih => exact fun r h => ih (r.cut p) (hcut r p h)
  induction r using Reduction.exhaust.induct with
  | case1 r next hless ih =>
    rw [Reduction.exhaust]
    rw [if_pos hless]
    exact ih (hround _ r h)
  | case2 r next hstop =>
    rw [Reduction.exhaust]
    rw [if_neg hstop]
    exact hround _ r h

theorem perm_getD {kept : List (List ℕ)} {counts : List ℕ}
    (hkept : List.Forall₂ (fun order n => order.Perm (List.range n)) kept counts) {q : ℕ}
    (hq : q < counts.length) : (kept.getD q []).Perm (List.range (counts.getD q 0)) := by
  have hq' : q < kept.length := by rwa [hkept.length_eq]
  rw [List.getD_eq_getElem _ _ hq, List.getD_eq_getElem _ _ hq']
  exact hkept.get hq' hq

/-- All strategies of every player, in any order, can be kept. -/
theorem selection_of_perm (hg : g.Valid) {kept : List (List ℕ)}
    (hkept : List.Forall₂ (fun order n => order.Perm (List.range n)) kept g.counts) :
    Selection g.counts kept := by
  refine ⟨hkept.length_eq, fun q hq => ?_, fun q hq => ?_, fun q hq a ha => ?_⟩
  · rw [← List.length_pos_iff, (perm_getD hkept hq).length_eq, List.length_range]
    exact hg.counts_pos hq
  · exact (perm_getD hkept hq).nodup_iff.mpr List.nodup_range
  · exact List.mem_range.mp ((perm_getD hkept hq).mem_iff.mp ha)

/-- **A reduction that only puts strategies in another order is sound.** -/
theorem sound_of_perm (hg : g.Valid) (hvalid : r.game.Valid) (hcounts : r.wholeCounts = g.counts)
    (hkept : List.Forall₂ (fun order n => order.Perm (List.range n)) r.kept g.counts)
    (hshape : r.game.counts = r.kept.map List.length)
    (hpays : ∀ s ∈ profiles r.game.counts, ∀ p,
      r.game.payoff p s = g.payoff p (Game.inWhole r.kept s)) : Sound g r := by
  have hall : ∀ p < g.numPlayers, ∀ c < g.numStrategies p, c ∈ r.kept.getD p [] := by
    intro p hp c hc
    have hp' : p < g.counts.length := by rwa [Game.length_counts]
    exact (perm_getD hkept hp').mem_iff.mpr (List.mem_range.mpr hc)
  refine ⟨hvalid, hcounts, selection_of_perm hg hkept, hshape, hpays, ?_, ?_⟩
  · exact fun p hp c hc hgone => absurd (hall p hp c hc) hgone
  · exact fun x _ _ _ p hp c hc hgone => absurd (hall p hp c hc) hgone

/-- Before the first round nothing is gone. -/
theorem sound_identity (hg : g.Valid) : Sound g (identity g) := by
  refine sound_of_perm hg hg rfl ?_ ?_ fun s hs p => ?_
  · exact List.forall₂_map_left_iff.mpr (List.forall₂_same.mpr fun n _ => List.Perm.refl _)
  · show g.counts = (g.counts.map List.range).map List.length
    simp [Function.comp_def]
  · exact congrArg (g.payoff p) (inWhole_range hs).symm

end Reduction

/-- **Elimination of dominated strategies changes neither regrets nor equilibria.**  A profile of
what is left has the regret of its expansion and is an equilibrium exactly when its expansion is;
every equilibrium of the whole game gives the strategies that are gone probability zero and is the
expansion of an equilibrium of what is left. -/
theorem Game.eliminateDominated_sound (g : Game) (hg : g.Valid) :
    ∃ r, g.eliminateDominated = .ok r ∧
      (∀ s : MixedProfile ℚ, s.shape = r.game.counts → s.isNormalized = true →
        (r.expand s).shape = g.counts ∧ (r.expand s).isNormalized = true ∧
          (r.expand s).regret g = s.regret r.game ∧ (r.expand s).isNash g = s.isNash r.game) ∧
      ∀ x : MixedProfile ℚ, x.shape = g.counts → x.isNormalized = true → x.isNash g = true →
        (∀ p < g.numPlayers, ∀ a < g.numStrategies p, a ∉ r.kept.getD p [] → x.get p a = 0) ∧
          ∃ s : MixedProfile ℚ, s.shape = r.game.counts ∧ s.isNormalized = true ∧
            s.isNash r.game = true ∧ r.expand s = x := by
  have h : Reduction.Sound g (Reduction.identity g).exhaust :=
    (Reduction.sound_identity hg).exhaust hg
  refine ⟨(Reduction.identity g).exhaust, ?_, fun s hs hnormal => ?_, fun x hx hnormal hnash => ?_⟩
  · simp only [eliminateDominated, hg.accepted]
  · exact ⟨h.shape_expand s, h.isNormalized_expand hs hnormal, h.regret_expand hg hs hnormal,
      h.isNash_expand hg hs hnormal⟩
  · exact ⟨h.unused x hx hnormal hnash, _, h.shape_contract x,
      h.isNormalized_contract hx hnormal hnash, h.isNash_contract hx hnormal hnash hg,
      h.expand_contract hx hnormal hnash⟩

theorem Game.eliminateDominated_sound_dilemma :
    Game.dilemma.Valid ∧ ∃ r, Game.dilemma.eliminateDominated = .ok r ∧
      (∀ s : MixedProfile ℚ, s.shape = r.game.counts → s.isNormalized = true →
        (r.expand s).shape = Game.dilemma.counts ∧ (r.expand s).isNormalized = true ∧
          (r.expand s).regret Game.dilemma = s.regret r.game ∧
          (r.expand s).isNash Game.dilemma = s.isNash r.game) ∧
      ∀ x : MixedProfile ℚ, x.shape = Game.dilemma.counts → x.isNormalized = true →
        x.isNash Game.dilemma = true →
        (∀ p < Game.dilemma.numPlayers, ∀ a < Game.dilemma.numStrategies p,
          a ∉ r.kept.getD p [] → x.get p a = 0) ∧
          ∃ s : MixedProfile ℚ, s.shape = r.game.counts ∧ s.isNormalized = true ∧
            s.isNash r.game = true ∧ r.expand s = x :=
  ⟨Game.valid_dilemma, Game.eliminateDominated_sound Game.dilemma Game.valid_dilemma⟩

end Equilibria
