import Mathlib
import Equilibria.Approximation.Iteration
import Equilibria.Proofs.LinearizedGames
import Equilibria.Proofs.NondegenerateGames
import Equilibria.Proofs.Responses

/-!
# Fixed points of the iteration

A profile stays where it is when it is the equilibrium of the game linearized at it.  In exact
arithmetic:

* `Polymatrix.expense_self` — what strategies cost at a profile in its own problem;
* `Polymatrix.isNash_of_isSolution_own`, `Polymatrix.isSolution_own` — a profile solves its own
  problem, with some payoff levels, exactly when it is an equilibrium of the game;
* `Polymatrix.firstBest_spec`, `Polymatrix.isNash_of_bestResponse_eq` — a profile that answers itself by
  pure best responses is an equilibrium;
* `Polymatrix.isNash_of_response_eq` — so is every profile that is its own response;
* `Polymatrix.response_eq_iff` — the profiles that are their own responses, among the equilibria;
* `Polymatrix.lcp_linearized` — the problem, its solutions and the fixed points together.

Not every equilibrium is a fixed point: of several solutions pivoting finds one
(`Polymatrix.next_leaves_equilibrium`).
-/

namespace Equilibria

open Finset (range)

namespace Polymatrix

variable {g : Game} {x : MixedProfile ℚ} {p q a b : ℕ}

/-! ### A profile in its own problem -/

section

variable {levels : List ℚ}

theorem length_own (hx : x.shape = g.counts) (hlevels : levels.length = g.numPlayers) :
    (x.flatten ++ levels).length = (lcp (Payoffs.ofGame g) x).size := by
  rw [List.length_append, MixedProfile.flatten, length_flatten_of_map hx, size_lcp, hlevels,
    numPlayers_ofGame]
  rfl

theorem weights_own (hx : x.shape = g.counts) (hb : b < g.numStrategies q) :
    weights (Payoffs.ofGame g) (x.flatten ++ levels) q b = x.get q b := by
  have hlt : place g.counts q b < x.flatten.length := by
    rw [MixedProfile.flatten, length_flatten_of_map hx]
    exact place_lt hb
  show (x.flatten ++ levels).getD (place g.counts q b) 0 = _
  rw [List.getD_append _ _ _ _ hlt]
  exact getD_flatten 0 hx hb

theorem level_own (hx : x.shape = g.counts) (levels : List ℚ) (p : ℕ) :
    (x.flatten ++ levels).getD ((Payoffs.ofGame g : Payoffs ℚ).counts.sum + p) 0 = levels.getD p 0 := by
  have hlength : x.flatten.length = (Payoffs.ofGame g : Payoffs ℚ).counts.sum := length_flatten_of_map hx
  rw [List.getD_append_right _ _ _ _ (by rw [hlength]; omega), hlength, Nat.add_sub_cancel_left]

/-- **What a strategy costs at a profile in the profile's own problem** is what it is truly worth less
than the ceilings. -/
theorem expense_self (h : g.Valid) (htwo : 2 ≤ g.numPlayers) (hx : x.shape = g.counts)
    (hnormal : x.isNormalized = true) (hp : p < g.numPlayers) (ha : a < g.numStrategies p) :
    expense (Payoffs.ofGame g) x x.get p a =
      (g.numPlayers - 1) * top (Payoffs.ofGame g) x - x.deviation g p a := by
  rw [expense_eq_sub_value h htwo hx (fun q hq => MixedProfile.sum_get hx hnormal hq) hp ha,
    Game.value_linearize_self htwo hx hnormal hp]

theorem expense_own (h : g.Valid) (htwo : 2 ≤ g.numPlayers) (hx : x.shape = g.counts)
    (hnormal : x.isNormalized = true) (hp : p < g.numPlayers) (ha : a < g.numStrategies p) :
    expense (Payoffs.ofGame g) x (weights (Payoffs.ofGame g) (x.flatten ++ levels)) p a =
      (g.numPlayers - 1) * top (Payoffs.ofGame g) x - x.deviation g p a := by
  have hget : ∀ q, ∀ b < (Payoffs.ofGame g : Payoffs ℚ).count q,
      weights (Payoffs.ofGame g) (x.flatten ++ levels) q b = x.get q b :=
    fun q b hb => weights_own hx hb
  rw [expense_congr hget, expense_self h htwo hx hnormal hp ha]

/-- **A profile that solves its own problem is an equilibrium.** -/
theorem isNash_of_isSolution_own (h : g.Valid) (htwo : 2 ≤ g.numPlayers) (hx : x.shape = g.counts)
    (hnormal : x.isNormalized = true)
    (hsolution : (lcp (Payoffs.ofGame g) x).IsSolution (x.flatten ++ levels)) : x.isNash g = true := by
  rw [MixedProfile.isNash_iff_largest h hx]
  intro p hp a ha hpos b hb
  have hused : 0 < weights (Payoffs.ofGame g) (x.flatten ++ levels) p a := by rwa [weights_own hx ha]
  exact worth_le_of_used hsolution (fun a ha => expense_own h htwo hx hnormal hp ha)
    (by rwa [numPlayers_ofGame]) ha hused hb

/-- What a player expects is less than the ceilings, since every strategy costs something. -/
theorem expected_le_ceilings (h : g.Valid) (htwo : 2 ≤ g.numPlayers) (hx : x.shape = g.counts)
    (hnormal : x.isNormalized = true) (hp : p < g.numPlayers) :
    x.expected g p ≤ (g.numPlayers - 1) * top (Payoffs.ofGame g) x := by
  have hplayers := numPlayers_ofGame g
  have hdist := MixedProfile.isDistribution_player hx hnormal hp
  obtain ⟨q, hq, hne⟩ := exists_other (hplayers.ge.trans' htwo) p
  rw [Payoffs.expected_eq_sum hx hp, ← Payoffs.length_player hx]
  refine hdist.sum_mul_le fun a ha => ?_
  rw [Payoffs.length_player hx] at ha
  have hle := sum_le_expense (x := x) (MixedProfile.get_nonneg hnormal) (hp.trans_eq hplayers.symm) hq
    hne ha
  have hsum : ∑ b ∈ range (g.numStrategies q), x.get q b = 1 :=
    MixedProfile.sum_get hx hnormal (hq.trans_eq hplayers)
  rw [expense_self h htwo hx hnormal hp ha] at hle
  have hone : 1 ≤ (g.numPlayers - 1) * top (Payoffs.ofGame g) x - x.deviation g p a := hsum.ge.trans hle
  linarith

end

/-- The payoff levels that what the players expect leaves below the ceilings. -/
def levelsOf (g : Game) (x : MixedProfile ℚ) : List ℚ :=
  (List.range g.numPlayers).map fun p =>
    (g.numPlayers - 1) * top (Payoffs.ofGame g) x - x.expected g p

theorem length_levelsOf (g : Game) (x : MixedProfile ℚ) : (levelsOf g x).length = g.numPlayers := by
  rw [levelsOf, List.length_map, List.length_range]

theorem getD_levelsOf (hp : p < g.numPlayers) : (levelsOf g x).getD p 0 =
    (g.numPlayers - 1) * top (Payoffs.ofGame g) x - x.expected g p := by
  rw [List.getD_eq_getElem _ _ (by rwa [length_levelsOf])]
  unfold levelsOf
  rw [List.getElem_map, List.getElem_range]

/-- At these levels the slack of a strategy is what it is worth less than its player expects. -/
theorem slack_own_strategy (h : g.Valid) (htwo : 2 ≤ g.numPlayers) (hx : x.shape = g.counts)
    (hnormal : x.isNormalized = true) (hp : p < g.numPlayers) (ha : a < g.numStrategies p) :
    ((lcp (Payoffs.ofGame g) x).slack (x.flatten ++ levelsOf g x)).getD
        (place (Payoffs.ofGame g : Payoffs ℚ).counts p a) 0 = x.expected g p - x.deviation g p a := by
  rw [slack_strategy (length_own hx (length_levelsOf g x)) (by rwa [numPlayers_ofGame]) ha,
    expense_own h htwo hx hnormal hp ha, level_own hx, getD_levelsOf hp]
  ring

theorem slack_own_level (hx : x.shape = g.counts) (hnormal : x.isNormalized = true)
    (hp : p < g.numPlayers) : ((lcp (Payoffs.ofGame g) x).slack (x.flatten ++ levelsOf g x)).getD
        ((Payoffs.ofGame g : Payoffs ℚ).counts.sum + p) 0 = 0 := by
  rw [slack_level (length_own hx (length_levelsOf g x)) (by rwa [numPlayers_ofGame]), sub_eq_zero,
    ← MixedProfile.sum_get hx hnormal hp]
  exact Finset.sum_congr rfl fun b hb => weights_own hx (Finset.mem_range.mp hb)

/-- **An equilibrium solves its own problem**: what is used is worth what its player expects, and nothing
is worth more. -/
theorem isSolution_own (h : g.Valid) (htwo : 2 ≤ g.numPlayers) (hx : x.shape = g.counts)
    (hnormal : x.isNormalized = true) (hnash : x.isNash g = true) :
    (lcp (Payoffs.ofGame g) x).IsSolution (x.flatten ++ levelsOf g x) := by
  have hplayers := numPlayers_ofGame g
  have hbest := (MixedProfile.isNash_iff h hx hnormal).mp hnash
  have hused := (MixedProfile.isNash_iff_largest h hx).mp hnash
  refine ⟨length_own hx (length_levelsOf g x), forall_lt_size.mpr ⟨fun p _ a ha => ?_, fun p hp => ?_⟩,
    forall_lt_size.mpr ⟨fun p hp a ha => ?_, fun p hp => ?_⟩,
    forall_lt_size.mpr ⟨fun p hp a ha => ?_, fun p hp => ?_⟩⟩
  · exact (MixedProfile.get_nonneg hnormal p a).trans_eq (weights_own hx ha).symm
  · rw [level_own hx, getD_levelsOf (hp.trans_eq hplayers)]
    exact sub_nonneg.mpr (expected_le_ceilings h htwo hx hnormal (hp.trans_eq hplayers))
  · rw [slack_own_strategy h htwo hx hnormal (hp.trans_eq hplayers) ha]
    exact sub_nonneg.mpr (hbest p (hp.trans_eq hplayers) a ha)
  · exact (slack_own_level hx hnormal (hp.trans_eq hplayers)).ge
  · have hp := hp.trans_eq hplayers
    have hdist := MixedProfile.isDistribution_player hx hnormal hp
    rw [slack_own_strategy h htwo hx hnormal hp ha]
    rcases (MixedProfile.get_nonneg hnormal p a).eq_or_lt with hzero | hpos
    · exact mul_eq_zero_of_left ((weights_own hx ha).trans hzero.symm) _
    · have hle : x.expected g p ≤ x.deviation g p a := by
        rw [Payoffs.expected_eq_sum hx hp, ← Payoffs.length_player hx]
        exact hdist.sum_mul_le fun b hb => hused p hp a ha hpos b (by rwa [← Payoffs.length_player hx])
      exact mul_eq_zero_of_right _ (sub_eq_zero.mpr (le_antisymm hle (hbest p hp a ha)))
  · exact mul_eq_zero_of_right _ (slack_own_level hx hnormal (hp.trans_eq hplayers))

/-! ### Answers by pure best responses -/

/-- The place of a value and the value itself, unless a later value exceeds it. -/
def laterBest (best : ℕ × ℚ) (entry : ℚ × ℕ) : ℕ × ℚ :=
  if best.2 < entry.1 then (entry.2 + 1, entry.1) else best

theorem firstBest_cons (v : ℚ) (vs : List ℚ) :
    firstBest (v :: vs) = (vs.zipIdx.foldl laterBest (0, v)).1 := rfl

/-- What is kept is the place of a value and the value, which none exceeds. -/
theorem foldl_laterBest (v : ℚ) (vs : List ℚ) :
    (vs.zipIdx.foldl laterBest (0, v)).1 < (v :: vs).length ∧
      (v :: vs).getD (vs.zipIdx.foldl laterBest (0, v)).1 0 = (vs.zipIdx.foldl laterBest (0, v)).2 ∧
      ∀ u ∈ v :: vs, u ≤ (vs.zipIdx.foldl laterBest (0, v)).2 := by
  induction vs using List.reverseRecOn with
  | nil => exact ⟨Nat.one_pos, rfl, fun u hu => (List.mem_singleton.mp hu).le⟩
  | append_singleton vs w ih =>
    obtain ⟨hlt, hget, hle⟩ := ih
    rw [List.zipIdx_append, List.foldl_append, List.zipIdx_singleton, List.foldl_cons, List.foldl_nil,
      ← List.cons_append]
    generalize vs.zipIdx.foldl laterBest (0, v) = best at hlt hget hle ⊢
    unfold laterBest
    split_ifs with hw
    · refine ⟨by simp, ?_, fun u hu => ?_⟩
      · rw [List.getD_append_right _ _ _ _ (by simp)]
        simp
      · cases List.mem_append.mp hu with
        | inl hu => exact (hle u hu).trans hw.le
        | inr hu => exact (List.mem_singleton.mp hu).le
    · refine ⟨by rw [List.length_append]; omega, ?_, fun u hu => ?_⟩
      · rw [List.getD_append _ _ _ _ hlt, hget]
      · cases List.mem_append.mp hu with
        | inl hu => exact hle u hu
        | inr hu => exact (List.mem_singleton.mp hu).le.trans (not_lt.mp hw)

/-- **The first best value** has a place, and no value exceeds it. -/
theorem firstBest_spec {values : List ℚ} (h : values ≠ []) :
    firstBest values < values.length ∧ ∀ v ∈ values, v ≤ values.getD (firstBest values) 0 := by
  cases values with
  | nil => exact absurd rfl h
  | cons v vs =>
    obtain ⟨hlt, hget, hle⟩ := foldl_laterBest v vs
    rw [firstBest_cons]
    exact ⟨hlt, fun u hu => (hle u hu).trans_eq hget.symm⟩

theorem player_bestResponse (t : Payoffs ℚ) (x : MixedProfile ℚ) (hp : p < t.numPlayers) :
    (bestResponse t x).player p = Tableau.unitRow (t.count p) (firstBest (t.strategyValues x p)) := by
  rw [MixedProfile.player, bestResponse, getD_map_players _ _ hp]
  dsimp only
  rw [Payoffs.length_strategyValues]

/-- **A profile that answers itself by pure best responses is an equilibrium.** -/
theorem isNash_of_bestResponse_eq (h : g.Valid) (hx : x.shape = g.counts)
    (hfixed : bestResponse (Payoffs.ofGame g) x = x) : x.isNash g = true := by
  rw [MixedProfile.isNash_iff_largest h hx]
  intro p hp a ha hpos b hb
  have hne : (Payoffs.ofGame g).strategyValues x p ≠ [] := by
    rw [← List.length_pos_iff, Payoffs.length_strategyValues]
    exact Nat.zero_lt_of_lt ha
  obtain ⟨hlt, hbest⟩ := firstBest_spec hne
  rw [Payoffs.length_strategyValues] at hlt
  -- the only strategy that is used is the first of the largest value
  have hused : a = firstBest ((Payoffs.ofGame g).strategyValues x p) := by
    by_contra hother
    have hplayer := player_bestResponse (Payoffs.ofGame g) x (p := p) (by rwa [numPlayers_ofGame])
    rw [hfixed] at hplayer
    rw [MixedProfile.get, hplayer, getD_unitRow hlt, if_neg hother] at hpos
    exact lt_irrefl _ hpos
  rw [← hused, Payoffs.getD_strategyValues h hx ha] at hbest
  exact (Payoffs.forall_mem_strategyValues h hx (P := fun v => v ≤ x.deviation g p a)).mp hbest b hb

/-! ### The undamped iteration -/

/-- A step without damping leads to its aim. -/
theorem blend_zero {z : MixedProfile ℚ} (h : x.shape = z.shape) : Iteration.blend 0 x z = z := by
  have hright : ∀ a b : ℚ, 0 * a + (1 - 0) * b = b := fun a b => by ring
  have hplayers : x.probs.length = z.probs.length := by
    simpa [MixedProfile.shape] using congrArg List.length h
  unfold Iteration.blend
  congr 1
  apply List.ext_getElem
  · rw [List.length_zipWith, hplayers, min_self]
  · intro q hq hq'
    have hrow : x.probs[q].length = z.probs[q].length := by
      have hlength := congrArg (fun counts : List ℕ => counts.getD q 0) h
      simpa [MixedProfile.shape, hplayers, hq'] using hlength
    rw [List.getElem_zipWith]
    apply List.ext_getElem
    · rw [List.length_zipWith, hrow, min_self]
    · intro a ha ha'
      rw [List.getElem_zipWith, hright]

/-- The response is read off a solution, or it is made of pure best responses. -/
theorem response_cases (htwo : 2 ≤ g.numPlayers) {rules : PivotRules ℚ} (htolerance : rules.tolerance = 0)
    (x : MixedProfile ℚ) :
    (∃ z, (lcp (Payoffs.ofGame g) x).IsSolution z ∧
      response rules (Payoffs.ofGame g) x = profileOf (Payoffs.ofGame g) z) ∨
    response rules (Payoffs.ofGame g) x = bestResponse (Payoffs.ofGame g) x := by
  have hplayers : 2 ≤ (Payoffs.ofGame g : Payoffs ℚ).numPlayers := by rwa [numPlayers_ofGame]
  have hfails : ∀ e, (lcp (Payoffs.ofGame g) x).solve rules = .error e →
      response rules (Payoffs.ofGame g) x = bestResponse (Payoffs.ofGame g) x := by
    intro e he
    rw [response, if_neg (not_lt.mpr hplayers), he]
  obtain ⟨z, hsolve, hz⟩ | ⟨hray, -⟩ | ⟨hstopped, -⟩ :=
    Lcp.solve_spec (square_lcp (Payoffs.ofGame g) x) htolerance
  · exact Or.inl ⟨z, hz, response_of_solve hplayers hsolve hz⟩
  · exact Or.inr (hfails _ hray)
  · exact Or.inr (hfails _ hstopped)

/-- What a solution holds, followed by its levels, is the solution. -/
theorem own_of_profileOf_eq {z : List ℚ} (hholds : profileOf (Payoffs.ofGame g) z = x) :
    x.flatten ++ z.drop g.counts.sum = z := by
  rw [← hholds]
  show (Seed.portions g.counts z).flatten ++ z.drop g.counts.sum = z
  rw [flatten_portions, List.take_append_drop]

theorem profileOf_own (hx : x.shape = g.counts) (levels : List ℚ) :
    profileOf (Payoffs.ofGame g) (x.flatten ++ levels) = x := by
  cases x
  exact congrArg MixedProfile.mk (portions_flatten hx levels)

/-- **A profile that is its own response is an equilibrium.** -/
theorem isNash_of_response_eq (h : g.Valid) (htwo : 2 ≤ g.numPlayers) (hx : x.shape = g.counts)
    (hnormal : x.isNormalized = true) {rules : PivotRules ℚ} (htolerance : rules.tolerance = 0)
    (hfixed : response rules (Payoffs.ofGame g) x = x) : x.isNash g = true := by
  obtain ⟨z, hz, hresponse⟩ | hresponse := response_cases htwo htolerance x
  · rw [← own_of_profileOf_eq (hresponse.symm.trans hfixed)] at hz
    exact isNash_of_isSolution_own h htwo hx hnormal hz
  · exact isNash_of_bestResponse_eq h hx (hresponse.symm.trans hfixed)

/-- **A profile is its own response when it is the solution that pivoting finds** in its own problem. -/
theorem response_eq_iff (h : g.Valid) (htwo : 2 ≤ g.numPlayers) (hx : x.shape = g.counts)
    {rules : PivotRules ℚ} (htolerance : rules.tolerance = 0) (hlimit : stepBound g.counts ≤ rules.limit) :
    response rules (Payoffs.ofGame g) x = x ↔
      ∃ levels, (lcp (Payoffs.ofGame g) x).solve rules = .ok (x.flatten ++ levels) := by
  obtain ⟨z, hsolve, -, hresponse⟩ := exists_response (x := x) (by rwa [numPlayers_ofGame])
    (count_pos h.accepted) htolerance hlimit
  rw [hresponse, hsolve]
  constructor
  · intro hholds
    exact ⟨z.drop g.counts.sum, congrArg Except.ok (own_of_profileOf_eq hholds).symm⟩
  · rintro ⟨levels, hfound⟩
    rw [Except.ok.inj hfound]
    exact profileOf_own hx levels

/-- Without damping the next profile is the response. -/
theorem next_undamped (hx : x.shape = g.counts) {params : Iteration.Parameters ℚ}
    (hdamping : params.damping = 0) :
    (Iteration.next params (Payoffs.ofGame g) x).2 = response params.rules (Payoffs.ofGame g) x := by
  have hnext : (Iteration.next params (Payoffs.ofGame g) x).2 =
      Iteration.blend params.damping x (response params.rules (Payoffs.ofGame g) x) := rfl
  rw [hnext, hdamping]
  exact blend_zero (hx.trans (shape_response params.rules (Payoffs.ofGame g) x).symm)

/-- **The problem of a linearized game.**  Its solutions hold probabilities, in equilibrium of the
linearized game; the profile itself is among them exactly when it is an equilibrium of the game.  A
fixed point of the iteration without damping is therefore an equilibrium, and an equilibrium is a fixed
point when it is the solution that pivoting finds. -/
theorem lcp_linearized (h : g.Valid) (htwo : 2 ≤ g.numPlayers) (hx : x.shape = g.counts)
    (hnormal : x.isNormalized = true) :
    (∀ z, (lcp (Payoffs.ofGame g) x).IsSolution z →
      (∀ p < g.numPlayers, ((profileOf (Payoffs.ofGame g) z).player p).sum = 1) ∧
        (g.linearize x).IsEquilibrium (profileOf (Payoffs.ofGame g) z)) ∧
    ((∃ levels : List ℚ, levels.length = g.numPlayers ∧
      (lcp (Payoffs.ofGame g) x).IsSolution (x.flatten ++ levels)) ↔ x.isNash g = true) ∧
    ∀ params : Iteration.Parameters ℚ, params.damping = 0 → params.rules.tolerance = 0 →
      ((Iteration.next params (Payoffs.ofGame g) x).2 = x → x.isNash g = true) ∧
      (stepBound g.counts ≤ params.rules.limit →
        ((Iteration.next params (Payoffs.ofGame g) x).2 = x ↔
          ∃ levels, (lcp (Payoffs.ofGame g) x).solve params.rules = .ok (x.flatten ++ levels))) := by
  refine ⟨fun z hz => ⟨fun p hp => ?_, isEquilibrium_profileOf h htwo hx hz⟩, ⟨?_, fun hnash => ?_⟩,
    fun params hdamping htolerance => ?_⟩
  · have hplayers := numPlayers_ofGame g
    exact (isDistribution_profileOf (hplayers.ge.trans' htwo) hz (hp.trans_eq hplayers.symm)).2
  · rintro ⟨levels, -, hsolution⟩
    exact isNash_of_isSolution_own h htwo hx hnormal hsolution
  · exact ⟨levelsOf g x, length_levelsOf g x, isSolution_own h htwo hx hnormal hnash⟩
  · rw [next_undamped hx hdamping]
    exact ⟨isNash_of_response_eq h htwo hx hnormal htolerance,
      response_eq_iff h htwo hx htolerance⟩

/-- Jumps straight to each solution. -/
def undamped : Iteration.Parameters ℚ := ⟨10, 1 / 100, 0, ⟨0, 100000⟩⟩

/-- All three at the tower is an equilibrium that stays. -/
theorem lcp_linearized_gathering :
    Game.gathering.Valid ∧ 2 ≤ Game.gathering.numPlayers ∧
      (⟨[[0, 1], [0, 1], [0, 1]]⟩ : MixedProfile ℚ).shape = Game.gathering.counts ∧
      (⟨[[0, 1], [0, 1], [0, 1]]⟩ : MixedProfile ℚ).isNormalized = true ∧
      (lcp (Payoffs.ofGame Game.gathering) ⟨[[0, 1], [0, 1], [0, 1]]⟩).IsSolution
        [0, 1, 0, 1, 0, 1, 2, 3, 4] ∧
      (Game.gathering.linearize ⟨[[0, 1], [0, 1], [0, 1]]⟩).IsEquilibrium
        (profileOf (Payoffs.ofGame Game.gathering) [0, 1, 0, 1, 0, 1, 2, 3, 4]) ∧
      undamped.damping = 0 ∧ undamped.rules.tolerance = 0 ∧
      stepBound Game.gathering.counts ≤ undamped.rules.limit ∧
      (Iteration.next undamped (Payoffs.ofGame Game.gathering) ⟨[[0, 1], [0, 1], [0, 1]]⟩).2 =
        ⟨[[0, 1], [0, 1], [0, 1]]⟩ ∧
      (⟨[[0, 1], [0, 1], [0, 1]]⟩ : MixedProfile ℚ).isNash Game.gathering = true := by
  have htwo : 2 ≤ Game.gathering.numPlayers := by decide
  have hlimit : stepBound Game.gathering.counts ≤ undamped.rules.limit := by decide +kernel
  have hshape : (⟨[[0, 1], [0, 1], [0, 1]]⟩ : MixedProfile ℚ).shape = Game.gathering.counts := rfl
  have hnormal : (⟨[[0, 1], [0, 1], [0, 1]]⟩ : MixedProfile ℚ).isNormalized = true := by
    decide +kernel
  have hsolve : (lcp (Payoffs.ofGame Game.gathering) ⟨[[0, 1], [0, 1], [0, 1]]⟩).solve undamped.rules =
      .ok [0, 1, 0, 1, 0, 1, 2, 3, 4] := by decide +kernel
  obtain ⟨hsolutions, hown, hfixed⟩ := lcp_linearized Game.valid_gathering htwo hshape hnormal
  obtain ⟨hnash, hstays⟩ := hfixed undamped rfl rfl
  have hstays := (hstays hlimit).mpr ⟨[2, 3, 4], hsolve⟩
  obtain ⟨z, hfound, hz, -⟩ := exists_response (x := ⟨[[0, 1], [0, 1], [0, 1]]⟩) (by decide)
    (count_pos Game.valid_gathering.accepted) rfl hlimit
  rw [hsolve] at hfound
  cases hfound
  exact ⟨Game.valid_gathering, htwo, hshape, hnormal, hz, (hsolutions _ hz).2, rfl, rfl, hlimit, hstays,
    hnash hstays⟩

/-- **An equilibrium need not be a fixed point**: from the bridge, where both may well stay, the
iteration goes to the tower, the solution that pivoting finds. -/
theorem next_leaves_equilibrium :
    Game.rendezvous.Valid ∧ Game.rendezvous.numPlayers = 2 ∧
      (⟨[[1, 0], [1, 0]]⟩ : MixedProfile ℚ).shape = Game.rendezvous.counts ∧
      (⟨[[1, 0], [1, 0]]⟩ : MixedProfile ℚ).isNormalized = true ∧
      (⟨[[1, 0], [1, 0]]⟩ : MixedProfile ℚ).isNash Game.rendezvous = true ∧
      stepBound Game.rendezvous.counts ≤ undamped.rules.limit ∧
      (Iteration.next undamped (Payoffs.ofGame Game.rendezvous) ⟨[[1, 0], [1, 0]]⟩).2 ≠
        ⟨[[1, 0], [1, 0]]⟩ := by
  have hnext : (Iteration.next undamped (Payoffs.ofGame Game.rendezvous) ⟨[[1, 0], [1, 0]]⟩).2 =
      ⟨[[0, 1], [0, 1]]⟩ := by decide +kernel
  refine ⟨Game.valid_rendezvous, rfl, rfl, by decide +kernel, by decide +kernel, by decide +kernel, ?_⟩
  rw [hnext]
  decide

end Polymatrix

end Equilibria
