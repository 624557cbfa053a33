import Mathlib
import Equilibria.Proofs.Elimination

/-!
# Single removals

Strategies of a game may be removed one at a time, for any player, as long as another strategy that
is left does better in the game that is left:

* `Game.Removes`, `Game.Exhausted` — one such removal, and a run of them that cannot go on;
* `Game.better_iff` — dominance in the game that is left, said in the whole game;
* `Game.Remnant`, `Game.Remnant.removes` — the invariant of removals, and one of them: what is gone
  does worse than something that is left;
* `Game.exists_exhausted` — some run is finished;
* `Game.Remnant.not_mem_of_beaten`, `Game.Remnant.subset_of_run` — what a finished run leaves is
  removed in no other run.

A strategy may be removed for one that goes itself later, so that two runs cannot be compared step by
step.  The finished run is compared as a whole: a strategy that it leaves and the other run removes
would do worse than some strategy, and then also worse than one that the finished run leaves.
-/

namespace Equilibria

namespace Game

variable {g left : Game} {kept kept' M : List (List ℕ)} {p a b c d : ℕ}

/-! ### Comparison against what is left -/

/-- Whether a profile of the whole game uses only strategies that are left. -/
def Uses (kept : List (List ℕ)) (t : List ℕ) : Prop :=
  t.length = kept.length ∧ ∀ k < kept.length, t.getD k 0 ∈ kept.getD k []

/-- One strategy of a player gives more than another against every profile of what is left. -/
def BetterAmong (g : Game) (kept : List (List ℕ)) (p better worse : ℕ) : Prop :=
  ∀ t, Uses kept t → g.payoff p (t.set p worse) < g.payoff p (t.set p better)

theorem betterAmong_iff : g.BetterAmong kept p a b ↔ ∀ s ∈ profiles (kept.map List.length),
    g.payoff p ((inWhole kept s).set p b) < g.payoff p ((inWhole kept s).set p a) := by
  constructor
  · intro h s hs
    exact h _ ⟨length_inWhole (length_of_mem_profiles_map hs), fun k hk => getD_inWhole_mem hs hk⟩
  · rintro h t ⟨hlength, ht⟩
    obtain ⟨s, hs, rfl⟩ := exists_inWhole hlength ht
    exact h s hs

theorem BetterAmong.trans (hab : g.BetterAmong kept p a b) (hbc : g.BetterAmong kept p b c) :
    g.BetterAmong kept p a c :=
  fun t ht => (hbc t ht).trans (hab t ht)

/-- The less is left, the less is compared. -/
theorem BetterAmong.mono (h : g.BetterAmong M p a b) (hlength : kept.length = M.length)
    (hsub : ∀ q, kept.getD q [] ⊆ M.getD q []) : g.BetterAmong kept p a b :=
  fun t ht => h t ⟨ht.1.trans hlength, fun k hk => hsub k (ht.2 k (hlength ▸ hk))⟩

/-- **Dominance in the game that is left** is comparison in the whole game against what is left. -/
theorem better_iff (hshape : left.counts = kept.map List.length)
    (hpays : ∀ s ∈ profiles left.counts, left.payoff p s = g.payoff p (inWhole kept s))
    (hp : p < kept.length) (ha : a < (kept.getD p []).length) (hb : b < (kept.getD p []).length) :
    left.Better p a b ↔
      g.BetterAmong kept p ((kept.getD p []).getD a 0) ((kept.getD p []).getD b 0) := by
  have hset : ∀ s ∈ profiles left.counts, ∀ i < (kept.getD p []).length,
      left.payoff p (s.set p i) =
        g.payoff p ((inWhole kept s).set p ((kept.getD p []).getD i 0)) := by
    intro s hs i hi
    rw [← getD_map_length, ← hshape] at hi
    have hlength : s.length = kept.length := by
      rw [length_of_mem_profiles hs, hshape, List.length_map]
    rw [hpays _ (set_mem_profiles hs hi), inWhole_set hlength hp]
  rw [betterAmong_iff, ← hshape]
  refine forall₂_congr fun s hs => ?_
  rw [hset s hs a ha, hset s hs b hb]

/-! ### Removals -/

/-- **One removal**: a strategy of some player goes that another strategy of the player dominates in
the game restricted to what is left.  Both are given by their places among those that are left. -/
def Removes (g : Game) (kept kept' : List (List ℕ)) : Prop :=
  ∃ p < g.numPlayers, ∃ worse < (kept.getD p []).length, ∃ better < (kept.getD p []).length,
    better ≠ worse ∧ (g.restrict kept).Better p better worse ∧
      kept' = kept.modify p fun own => own.eraseIdx worse

/-- **A finished run of removals**: it begins with all strategies and cannot go on. -/
structure Exhausted (g : Game) (kept : List (List ℕ)) : Prop where
  run : Relation.ReflTransGen g.Removes (g.counts.map List.range) kept
  final : ∀ kept', ¬g.Removes kept kept'

/-- **What removals leave**: strategies of every player in their order, each that is gone being worse
than one that is left. -/
structure Remnant (g : Game) (kept : List (List ℕ)) : Prop where
  selection : Selection g.counts kept
  ascending : ∀ q, (kept.getD q []).Pairwise (· < ·)
  beaten : ∀ q < g.numPlayers, ∀ c < g.numStrategies q, c ∉ kept.getD q [] →
    ∃ d ∈ kept.getD q [], g.BetterAmong kept q d c

/-- Whether no strategy that is left does worse than another one. -/
def Settled (g : Game) (kept : List (List ℕ)) : Prop :=
  ∀ q < g.numPlayers, ∀ c ∈ kept.getD q [], ∀ d ∈ kept.getD q [], ¬g.BetterAmong kept q d c

namespace Remnant

theorem length (h : g.Remnant kept) : kept.length = g.numPlayers := by
  rw [h.selection.length, length_counts]

theorem lt_numStrategies (h : g.Remnant kept) (hp : p < g.numPlayers) (ha : a ∈ kept.getD p []) :
    a < g.numStrategies p :=
  h.selection.lt p (by rwa [length_counts]) a ha

/-- What two runs leave is the same if it has the same members. -/
theorem eq_of_subset (h : g.Remnant kept) (h' : g.Remnant kept')
    (hsub : ∀ q, kept.getD q [] ⊆ kept'.getD q []) (hsub' : ∀ q, kept'.getD q [] ⊆ kept.getD q []) :
    kept = kept' := by
  apply List.ext_getElem (by rw [h.length, h'.length])
  intro q hq hq'
  rw [← List.getD_eq_getElem _ [] hq, ← List.getD_eq_getElem _ [] hq']
  exact (h.ascending q).eq_of_mem_iff (h'.ascending q) fun a => ⟨@hsub q a, @hsub' q a⟩

theorem better_restrict_iff (h : g.Remnant kept) (hp : p < g.numPlayers)
    (ha : a < (kept.getD p []).length) (hb : b < (kept.getD p []).length) :
    (g.restrict kept).Better p a b ↔
      g.BetterAmong kept p ((kept.getD p []).getD a 0) ((kept.getD p []).getD b 0) := by
  have hshape := counts_restrict h.selection.listing
  refine better_iff hshape (fun s hs => ?_) (by rwa [h.length]) ha hb
  rw [hshape] at hs
  exact g.payoff_restrict hs p

/-- All that a removal does, in the strategies of the whole game. -/
theorem removes_spec (h : g.Remnant kept) (hstep : g.Removes kept kept') :
    ∃ p < g.numPlayers, ∃ c ∈ kept.getD p [], ∃ d ∈ kept'.getD p [], g.BetterAmong kept p d c ∧
      kept'.length = kept.length ∧ (∀ q, (kept'.getD q []).Sublist (kept.getD q [])) ∧
        ∀ q, ∀ a ∈ kept.getD q [], a ∉ kept'.getD q [] → q = p ∧ a = c := by
  obtain ⟨p, hp, worse, hworse, better, hbetter, hne, hdominates, rfl⟩ := hstep
  have hpk : p < kept.length := by rwa [h.length]
  have hafter : ∀ q, (kept.modify p fun own => own.eraseIdx worse).getD q [] =
      if q = p then (kept.getD p []).eraseIdx worse else kept.getD q [] := by
    intro q
    split_ifs with hqp
    · subst hqp
      simp [List.getD_eq_getElem?_getD, hpk]
    · simp [List.getD_eq_getElem?_getD, Ne.symm hqp]
  rw [h.better_restrict_iff hp hbetter hworse, List.getD_eq_getElem _ _ hbetter,
    List.getD_eq_getElem _ _ hworse] at hdominates
  refine ⟨p, hp, _, List.getElem_mem hworse, _, ?_, hdominates, List.length_modify _ _ _,
    fun q => ?_, fun q a ha hgone => ?_⟩
  · rw [hafter, if_pos rfl]
    exact List.mem_eraseIdx_iff_getElem.mpr ⟨better, hbetter, hne, rfl⟩
  · rw [hafter]
    split_ifs with hqp
    · rw [hqp]
      exact List.eraseIdx_sublist _ _
    · exact List.Sublist.refl _
  · rw [hafter] at hgone
    split_ifs at hgone with hqp
    · subst hqp
      obtain ⟨i, hi, rfl⟩ := List.getElem_of_mem ha
      refine ⟨rfl, ?_⟩
      by_contra hdifferent
      refine hgone (List.mem_eraseIdx_iff_getElem.mpr ⟨i, hi, ?_, rfl⟩)
      rintro rfl
      exact hdifferent rfl
    · exact absurd ha hgone

/-- **A removal keeps the invariant.**  A strategy that was worse than the one that goes is worse than
that for which it goes. -/
theorem removes (h : g.Remnant kept) (hstep : g.Removes kept kept') :
    g.Remnant kept' := by
  obtain ⟨p, hp, c, hc, d, hd, hdominates, hlength, hsub, hgone⟩ := h.removes_spec hstep
  have hmono : ∀ {q a b}, g.BetterAmong kept q a b → g.BetterAmong kept' q a b :=
    fun hbetter => hbetter.mono hlength fun q => (hsub q).subset
  refine ⟨⟨hlength.trans h.selection.length, fun q hq => ?_, fun q hq => ?_, fun q hq a ha => ?_⟩,
    fun q => (h.ascending q).sublist (hsub q), fun q hq a ha hmissing => ?_⟩
  · obtain ⟨a, ha⟩ := List.exists_mem_of_ne_nil _ (h.selection.nonempty q hq)
    by_cases hstays : a ∈ kept'.getD q []
    · exact List.ne_nil_of_mem hstays
    · obtain ⟨rfl, -⟩ := hgone q a ha hstays
      exact List.ne_nil_of_mem hd
  · exact (h.selection.nodup q hq).sublist (hsub q)
  · exact h.selection.lt q hq a ((hsub q).subset ha)
  · by_cases hbefore : a ∈ kept.getD q []
    · obtain ⟨rfl, rfl⟩ := hgone q a hbefore hmissing
      exact ⟨d, hd, hmono hdominates⟩
    · obtain ⟨e, he, hbetter⟩ := h.beaten q hq a ha hbefore
      by_cases hstays : e ∈ kept'.getD q []
      · exact ⟨e, hstays, hmono hbetter⟩
      · obtain ⟨rfl, rfl⟩ := hgone q e he hstays
        exact ⟨d, hd, hmono (hdominates.trans hbetter)⟩

/-- Where no removal is possible, no strategy does worse than another one. -/
theorem settled (hg : g.Valid) (h : g.Remnant kept) (hfinal : ∀ kept', ¬g.Removes kept kept') :
    g.Settled kept := by
  intro q hq c hc d hd hbetter
  obtain ⟨i, hi, rfl⟩ := List.getElem_of_mem hc
  obtain ⟨j, hj, rfl⟩ := List.getElem_of_mem hd
  have hq' : q < g.counts.length := by rwa [length_counts]
  have hne : j ≠ i := by
    rintro rfl
    obtain ⟨s, hs⟩ : ∃ s, s ∈ profiles (kept.map List.length) := by
      rw [← counts_restrict h.selection.listing]
      exact ⟨_, (hg.restrict h.selection).zeroDigits_mem⟩
    exact lt_irrefl _ (betterAmong_iff.mp hbetter s hs)
  refine hfinal _ ⟨q, hq, i, hi, j, hj, hne, ?_, rfl⟩
  rw [h.better_restrict_iff hq hj hi, List.getD_eq_getElem _ _ hj, List.getD_eq_getElem _ _ hi]
  exact hbetter

theorem subset_identity (h : g.Remnant kept) (q : ℕ) :
    kept.getD q [] ⊆ (g.counts.map List.range).getD q [] := by
  rcases Nat.lt_or_ge q g.counts.length with hq | hq
  · rw [getD_map_range _ hq]
    exact fun a ha => List.mem_range.mpr (h.selection.lt q hq a ha)
  · rw [List.getD_eq_default _ _ (by rwa [h.selection.length])]
    exact List.nil_subset _

/-- **What a finished run leaves is never removed elsewhere**: a strategy that does worse than some
other against more than the run leaves is gone in the run. -/
theorem not_mem_of_beaten (h : g.Remnant kept) (hsettled : g.Settled kept)
    (hlength : kept.length = M.length) (hsub : ∀ q, kept.getD q [] ⊆ M.getD q [])
    (hp : p < g.numPlayers) (hd : d < g.numStrategies p) (hbetter : g.BetterAmong M p d c) :
    c ∉ kept.getD p [] := by
  intro hc
  have hamong : g.BetterAmong kept p d c := hbetter.mono hlength hsub
  by_cases hleft : d ∈ kept.getD p []
  · exact hsettled p hp c hc d hleft hamong
  · obtain ⟨e, he, hbest⟩ := h.beaten p hp d hd hleft
    exact hsettled p hp c hc e he (hbest.trans hamong)

end Remnant

end Game

/-! ### Runs of removals -/

/-- A shorter row makes a shorter table. -/
theorem length_flatten_modify_lt {α : Type} {rows : List (List α)} {f : List α → List α} {p : ℕ}
    (hp : p < rows.length) (hlt : (f (rows.getD p [])).length < (rows.getD p []).length) :
    (rows.modify p f).flatten.length < rows.flatten.length := by
  induction rows generalizing p with
  | nil => exact absurd hp (Nat.not_lt_zero p)
  | cons row rows ih =>
    cases p with
    | zero => simpa using hlt
    | succ p =>
      have hrest := ih (Nat.lt_of_succ_lt_succ hp) hlt
      simpa using hrest

namespace Reduction

variable {g : Game} {r : Reduction} {p : ℕ}

theorem Sound.remnant (h : Sound g r) (hascending : ∀ q, (r.kept.getD q []).Pairwise (· < ·)) :
    g.Remnant r.kept where
  selection := h.selection
  ascending := hascending
  beaten := by
    intro q hq c hc hgone
    obtain ⟨d, hd, hlt⟩ := h.beaten q hq c hc hgone
    refine ⟨d, hd, Game.betterAmong_iff.mpr ?_⟩
    rwa [← h.shape]

theorem ascending_identity (g : Game) (q : ℕ) :
    ((identity g).kept.getD q []).Pairwise (· < ·) := by
  show ((g.counts.map List.range).getD q []).Pairwise (· < ·)
  rcases Nat.lt_or_ge q g.counts.length with hq | hq
  · rw [getD_map_range _ hq]
    exact List.pairwise_lt_range
  · rw [List.getD_eq_default _ _ (by rwa [List.length_map])]
    exact List.Pairwise.nil

end Reduction

namespace Game

variable {g : Game} {kept kept' M : List (List ℕ)}

theorem remnant_identity (hg : g.Valid) : g.Remnant (g.counts.map List.range) :=
  (Reduction.sound_identity hg).remnant (Reduction.ascending_identity g)

/-- Every run keeps the invariant. -/
theorem remnant_of_run (hg : g.Valid)
    (hrun : Relation.ReflTransGen g.Removes (g.counts.map List.range) M) : g.Remnant M := by
  induction hrun with
  | refl => exact remnant_identity hg
  | tail _ hstep ih => exact ih.removes hstep

theorem Removes.length_flatten_lt (hlength : kept.length = g.numPlayers)
    (hstep : g.Removes kept kept') : kept'.flatten.length < kept.flatten.length := by
  obtain ⟨p, hp, worse, hworse, -, -, -, -, rfl⟩ := hstep
  refine length_flatten_modify_lt (by rwa [hlength]) ?_
  rw [List.length_eraseIdx_of_lt hworse]
  omega

/-- Some run is finished, since every removal leaves less. -/
theorem exists_exhausted (hg : g.Valid) : ∃ kept, g.Exhausted kept := by
  have hfinish : ∀ (n : ℕ) (kept : List (List ℕ)), kept.flatten.length ≤ n → g.Remnant kept →
      Relation.ReflTransGen g.Removes (g.counts.map List.range) kept →
        ∃ final, g.Exhausted final := by
    intro n
    induction n with
    | zero =>
      intro kept hn h hrun
      exact ⟨kept, hrun, fun kept' hstep => by have := hstep.length_flatten_lt h.length; omega⟩
    | succ n ih =>
      intro kept hn h hrun
      by_cases hfinal : ∀ kept', ¬g.Removes kept kept'
      · exact ⟨kept, hrun, hfinal⟩
      · push Not at hfinal
        obtain ⟨kept', hstep⟩ := hfinal
        have hless := hstep.length_flatten_lt h.length
        exact ih kept' (by omega) (h.removes hstep) (hrun.tail hstep)
  exact hfinish _ _ le_rfl (remnant_identity hg) Relation.ReflTransGen.refl

/-- **A run keeps all that a finished run leaves.** -/
theorem Remnant.subset_of_run (hg : g.Valid) (h : g.Remnant kept) (hsettled : g.Settled kept)
    (hrun : Relation.ReflTransGen g.Removes (g.counts.map List.range) M) :
    ∀ q, kept.getD q [] ⊆ M.getD q [] := by
  induction hrun with
  | refl => exact h.subset_identity
  | tail hrun hstep hsub =>
    have hbefore := remnant_of_run hg hrun
    obtain ⟨p, hp, c, -, d, hd, hbetter, -, hsublist, hgone⟩ := hbefore.removes_spec hstep
    intro q a ha
    by_contra hmissing
    obtain ⟨rfl, rfl⟩ := hgone q a (hsub q ha) hmissing
    exact h.not_mem_of_beaten hsettled (by rw [h.length, hbefore.length]) hsub hp
      (hbefore.lt_numStrategies hp ((hsublist _).subset hd)) hbetter ha

end Game

end Equilibria
