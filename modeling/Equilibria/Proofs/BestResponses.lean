import Mathlib
import Equilibria.Proofs.ExactScalar
import Equilibria.Proofs.Expectation

/-!
# Best responses and regret

What the passes over the payoff table compute in exact arithmetic, and what the tests made with
their results mean:

* `Payoffs.getD_strategyValues` — the value of a strategy is its expected payoff;
* `Payoffs.regret_le_iff` — the regret is the least bound of all gains from pure deviations;
* `Payoffs.isBestResponse_iff`, `MixedProfile.isNash_iff_largest`, `MixedProfile.isNash_iff` — the test
  for an equilibrium passes when only best responses are used, and so when no pure deviation gains;
* `MixedProfile.isNash_iff_regret` — that is when the regret is zero.
-/

namespace Equilibria

open Finset (range)

/-! ### What strategies give -/

namespace MixedProfile

/-- The payoff that a player expects. -/
def expected (x : MixedProfile ℚ) (g : Game) (p : ℕ) : ℚ := expectation x.probs (g.payoff p)

/-- The payoff that a player expects of a pure strategy, the others following the profile. -/
def deviation (x : MixedProfile ℚ) (g : Game) (p a : ℕ) : ℚ :=
  expectation (x.probs.set p (Tableau.unitRow (g.numStrategies p) a)) (g.payoff p)

theorem length_probs {x : MixedProfile ℚ} {g : Game} (hx : x.shape = g.counts) :
    x.probs.length = g.numPlayers := by
  rw [← Game.length_counts, ← hx]
  exact (List.length_map _).symm

theorem isNormalized_iff {x : MixedProfile ℚ} :
    x.isNormalized = true ↔ ∀ row ∈ x.probs, IsDistribution row := by
  simp only [isNormalized, List.all_eq_true, Bool.and_eq_true, Bool.not_eq_true',
    ← Bool.not_eq_true, Scalar.isStrictlyNegative_iff, Scalar.approxEq_iff, Scalar.sum_eq, not_lt]
  rfl

end MixedProfile

namespace Payoffs

variable {g : Game} {x : MixedProfile ℚ} {p : ℕ}

/-- A weight is the product of the probabilities of all strategies that are not skipped. -/
theorem weight_eq_prod (x : MixedProfile ℚ) (skip s : List ℕ) : weight x skip s =
    ∏ i ∈ range s.length, if skip.contains i then 1 else x.get i (s.getD i 0) := by
  have hfold : ∀ (ds : List ℕ) (k : ℕ) (w : ℚ),
      (ds.zipIdx k).foldl (fun w sq => if skip.contains sq.2 then w else w * x.get sq.2 sq.1) w =
        w * ∏ i ∈ range ds.length,
          if skip.contains (k + i) then 1 else x.get (k + i) (ds.getD i 0) := by
    intro ds
    induction ds with
    | nil => simp
    | cons d ds ih =>
      intro k w
      rw [List.zipIdx_cons, List.foldl_cons, ih, List.length_cons, Finset.prod_range_succ']
      have htail : ∀ i, (if skip.contains (k + (i + 1)) then 1 else
          x.get (k + (i + 1)) ((d :: ds).getD (i + 1) 0)) =
            if skip.contains (k + 1 + i) then 1 else x.get (k + 1 + i) (ds.getD i 0) := by
        intro i
        rw [show k + (i + 1) = k + 1 + i by omega]
        rfl
      rw [Finset.prod_congr rfl fun i _ => htail i, List.getD_cons_zero]
      show _ = w * (_ * if skip.contains k then 1 else x.get k d)
      by_cases hk : skip.contains k = true
      · rw [if_pos hk, if_pos hk, mul_one]
      · rw [if_neg hk, if_neg hk]
        ring
  refine (hfold s 0 1).trans ?_
  rw [one_mul]
  exact Finset.prod_congr rfl fun i _ => by rw [Nat.zero_add]

/-- With one player skipped it is the probability of the profile, that player being sure of the
strategy. -/
theorem weight_eq_mass {n a : ℕ} (hp : p < x.probs.length) (ha : a < n) {s : List ℕ}
    (hs : p < s.length) :
    mass (x.probs.set p (Tableau.unitRow n a)) s = if s.getD p 0 = a then weight x [p] s else 0 := by
  unfold mass
  split_ifs with hsa
  · rw [weight_eq_prod]
    refine Finset.prod_congr rfl fun k _ => ?_
    rw [getD_set [] hp]
    by_cases hk : k = p
    · rw [if_pos hk, if_pos (by simp [hk]), getD_unitRow ha, if_pos (hk ▸ hsa)]
    · rw [if_neg hk, if_neg (by simp [hk])]
      rfl
  · apply Finset.prod_eq_zero (Finset.mem_range.mpr hs)
    rw [getD_set [] hp, if_pos rfl, getD_unitRow ha, if_neg hsa]

theorem getD_addAt (values : List ℚ) {a : ℕ} (ha : a < values.length) (i : ℕ) (v : ℚ) :
    (addAt values i v).getD a 0 = values.getD a 0 + if i = a then v else 0 := by
  rw [List.getD_eq_getElem _ _ (by simpa [addAt] using ha), List.getD_eq_getElem _ _ ha]
  unfold addAt
  rw [List.getElem_modify]
  split_ifs
  · rfl
  · exact (add_zero _).symm

/-- What one pass over the table adds up for a strategy. -/
theorem getD_foldl_addAt (rows : List (List ℚ × List ℕ)) (values : List ℚ) {a : ℕ}
    (ha : a < values.length) :
    (rows.foldl (fun values c =>
        if Scalar.isZero (weight x [p] c.2) then values
        else addAt values (c.2.getD p 0) (weight x [p] c.2 * c.1.getD p 0)) values).getD a 0 =
      values.getD a 0 +
        (rows.map fun c => if c.2.getD p 0 = a then weight x [p] c.2 * c.1.getD p 0 else 0).sum := by
  induction rows generalizing values with
  | nil => simp
  | cons c rows ih =>
    rw [List.foldl_cons, List.map_cons, List.sum_cons, ← add_assoc]
    by_cases hzero : weight x [p] c.2 = 0
    · rw [if_pos ((Scalar.isZero_iff _).mpr hzero), ih values ha, hzero, zero_mul]
      simp
    · rw [if_neg (mt (Scalar.isZero_iff _).mp hzero), ih _ (by simpa [addAt] using ha),
        getD_addAt values ha]

theorem length_strategyValues {α : Type} [Scalar α] (t : Payoffs α) (x : MixedProfile α) (p : ℕ) :
    (t.strategyValues x p).length = t.count p := by
  have hfold : ∀ (rows : List (List α × List ℕ)) (values : List α),
      (rows.foldl (fun values c =>
        if Scalar.isZero (weight x [p] c.2) then values
        else addAt values (c.2.getD p 0) (weight x [p] c.2 * c.1.getD p 0)) values).length =
        values.length := by
    intro rows
    induction rows with
    | nil => exact fun values => rfl
    | cons c rows ih =>
      intro values
      rw [List.foldl_cons, ih]
      split_ifs
      · rfl
      · exact List.length_modify _ _ _
  exact (hfold _ _).trans List.length_replicate

/-- What the passes over the table add up for a strategy. -/
theorem strategyValue_eq_sum (t : Payoffs ℚ) (x : MixedProfile ℚ) {a : ℕ} (ha : a < t.count p) :
    (t.strategyValues x p).getD a 0 = (t.rows.map fun c =>
      if c.2.getD p 0 = a then weight x [p] c.2 * c.1.getD p 0 else 0).sum := by
  have hfold := getD_foldl_addAt (x := x) (p := p) t.rows (List.replicate (t.count p) 0) (a := a)
    (by simpa using ha)
  rw [List.getD_replicate _ ha, zero_add] at hfold
  exact hfold

/-- **What the program computes for a strategy is its expected payoff.** -/
theorem getD_strategyValues (h : g.Valid) (hx : x.shape = g.counts) {a : ℕ}
    (ha : a < g.numStrategies p) :
    ((ofGame g).strategyValues x p).getD a 0 = x.deviation g p a := by
  have hp : p < g.counts.length := by
    by_contra hge
    rw [Game.numStrategies, List.getD_eq_default _ _ (not_lt.mp hge)] at ha
    exact Nat.not_lt_zero a ha
  have hshape : (x.probs.set p (Tableau.unitRow (g.numStrategies p) a)).map List.length =
      g.counts := by
    rw [List.map_set, length_unitRow]
    show x.shape.set p _ = _
    rw [hx, Game.numStrategies, List.getD_eq_getElem _ _ hp]
    exact List.set_getElem_self hp
  rw [strategyValue_eq_sum _ _ ha, h.rows_eq, List.map_map, MixedProfile.deviation,
    expectation_eq_sum, hshape]
  congr 1
  refine List.map_congr_left fun s hs => ?_
  have hps : p < s.length := by rwa [length_of_mem_profiles hs]
  have hpx : p < x.probs.length := by rwa [MixedProfile.length_probs hx, ← Game.length_counts]
  rw [weight_eq_mass hpx ha hps]
  show (if s.getD p 0 = a then weight x [p] s * g.payoff p s else 0) = _
  split_ifs
  · rfl
  · rw [zero_mul]

/-! ### Regret and best responses -/

theorem larger_le_iff {a b c : ℚ} : MixedProfile.larger a b ≤ c ↔ a ≤ c ∧ b ≤ c := by
  unfold MixedProfile.larger
  split_ifs with h
  · exact ⟨fun hb => ⟨h.le.trans hb, hb⟩, fun hab => hab.2⟩
  · exact ⟨fun ha => ⟨ha, (not_lt.mp h).trans ha⟩, fun hab => hab.1⟩

theorem foldl_larger_le_iff (values : List ℚ) (found c : ℚ) :
    values.foldl MixedProfile.larger found ≤ c ↔ found ≤ c ∧ ∀ v ∈ values, v ≤ c := by
  induction values generalizing found with
  | nil => simp
  | cons v vs ih => rw [List.foldl_cons, ih, larger_le_iff, List.forall_mem_cons, and_assoc]

/-- The largest value is one that none exceeds. -/
theorem eq_best_iff {values : List ℚ} {v : ℚ} (hv : v ∈ values) :
    v = best values ↔ ∀ w ∈ values, w ≤ v := by
  cases values with
  | nil => exact absurd hv List.not_mem_nil
  | cons u us =>
    have hle : ∀ c, best (u :: us) ≤ c ↔ ∀ w ∈ u :: us, w ≤ c := by
      intro c
      rw [List.forall_mem_cons]
      exact foldl_larger_le_iff us u c
    constructor
    · intro h w hw
      rw [h]
      exact (hle _).mp le_rfl w hw
    · intro h
      exact le_antisymm ((hle _).mp le_rfl v hv) ((hle v).mpr h)

theorem average_eq {values probs : List ℚ} (h : values.length = probs.length) :
    average values probs = ∑ a ∈ range probs.length, probs.getD a 0 * values.getD a 0 := by
  have hsum : average values probs = (List.zipWith (· * ·) values probs).sum :=
    List.sum_eq_foldl.symm
  rw [hsum, sum_zipWith_mul h, h]
  exact Finset.sum_congr rfl fun a _ => mul_comm _ _

theorem length_player (hx : x.shape = g.counts) (p : ℕ) :
    (x.player p).length = g.numStrategies p := by
  rw [Game.numStrategies, ← hx]
  exact (getD_map_length x.probs p).symm

theorem forall_mem_strategyValues (h : g.Valid) (hx : x.shape = g.counts) {P : ℚ → Prop} :
    (∀ v ∈ (ofGame g).strategyValues x p, P v) ↔
      ∀ a < g.numStrategies p, P (x.deviation g p a) := by
  constructor
  · intro hall a ha
    rw [← getD_strategyValues h hx ha, List.getD_eq_getElem _ _ (by rwa [length_strategyValues])]
    exact hall _ (List.getElem_mem _)
  · intro hall v hv
    obtain ⟨a, ha, rfl⟩ := List.getElem_of_mem hv
    have ha' : a < g.numStrategies p := by rwa [length_strategyValues] at ha
    rw [← List.getD_eq_getElem _ 0 ha, getD_strategyValues h hx ha']
    exact hall a ha'

/-- A player's payoff is the average of what the strategies give. -/
theorem expected_eq_sum (hx : x.shape = g.counts) (hp : p < g.numPlayers) :
    x.expected g p = ∑ a ∈ range (g.numStrategies p), x.get p a * x.deviation g p a := by
  have hpx : p < x.probs.length := by rwa [MixedProfile.length_probs hx]
  unfold MixedProfile.expected MixedProfile.deviation
  rw [expectation_eq_sum_unitRow hpx, ← length_player hx]
  rfl

theorem average_strategyValues (h : g.Valid) (hx : x.shape = g.counts) (hp : p < g.numPlayers) :
    average ((ofGame g).strategyValues x p) (x.player p) = x.expected g p := by
  rw [average_eq ((length_strategyValues (ofGame g) x p).trans (length_player hx p).symm),
    expected_eq_sum hx hp, length_player hx]
  refine Finset.sum_congr rfl fun a ha => ?_
  rw [getD_strategyValues h hx (Finset.mem_range.mp ha)]
  rfl

/-- **The regret is the least bound of all gains** that is not negative. -/
theorem regret_le_iff (h : g.Valid) (hx : x.shape = g.counts) (c : ℚ) :
    x.regret g ≤ c ↔ 0 ≤ c ∧ ∀ p < g.numPlayers, ∀ a < g.numStrategies p,
      x.deviation g p a - x.expected g p ≤ c := by
  have hgain : ∀ found p, p < g.numPlayers → ((ofGame g).largestGain x found p ≤ c ↔
      found ≤ c ∧ ∀ a < g.numStrategies p, x.deviation g p a - x.expected g p ≤ c) := by
    intro found p hp
    have hmap : (ofGame g).largestGain x found p =
        (((ofGame g).strategyValues x p).map fun v => v - x.expected g p).foldl
          MixedProfile.larger found := by
      rw [List.foldl_map, ← average_strategyValues h hx hp]
      rfl
    rw [hmap, foldl_larger_le_iff, List.forall_mem_map, forall_mem_strategyValues h hx]
  have hfold : ∀ (ps : List ℕ) (found : ℚ), (∀ p ∈ ps, p < g.numPlayers) →
      (ps.foldl ((ofGame g).largestGain x) found ≤ c ↔ found ≤ c ∧
        ∀ p ∈ ps, ∀ a < g.numStrategies p, x.deviation g p a - x.expected g p ≤ c) := by
    intro ps
    induction ps with
    | nil => simp
    | cons p ps ih =>
      intro found hps
      rw [List.foldl_cons, ih _ fun q hq => hps q (List.mem_cons_of_mem _ hq),
        hgain found p (hps p List.mem_cons_self), List.forall_mem_cons, and_assoc]
  have hplayers : (ofGame g : Payoffs ℚ).numPlayers = g.numPlayers := Game.length_counts g
  unfold MixedProfile.regret regret
  rw [hplayers, hfold _ _ fun p hp => List.mem_range.mp hp]
  simp only [List.mem_range]

theorem regret_nonneg (h : g.Valid) (hx : x.shape = g.counts) : 0 ≤ x.regret g :=
  ((regret_le_iff h hx _).mp le_rfl).1

theorem isBestResponse_iff (h : g.Valid) (hx : x.shape = g.counts) (p : ℕ) :
    (ofGame g).isBestResponse x p = true ↔ ∀ a < g.numStrategies p, 0 < x.get p a →
      ∀ b < g.numStrategies p, x.deviation g p b ≤ x.deviation g p a := by
  have hvalues : ((ofGame g).strategyValues x p).length = g.numStrategies p :=
    length_strategyValues _ x p
  have hprobs := length_player hx p
  have hbest : ∀ a (ha : a < g.numStrategies p), ((ofGame g).strategyValues x p).getD a 0 =
      best ((ofGame g).strategyValues x p) ↔
        ∀ b < g.numStrategies p, x.deviation g p b ≤ x.deviation g p a := by
    intro a ha
    have hmem : ((ofGame g).strategyValues x p).getD a 0 ∈ (ofGame g).strategyValues x p := by
      rw [List.getD_eq_getElem _ _ (by rwa [hvalues])]
      exact List.getElem_mem _
    rw [eq_best_iff hmem, getD_strategyValues h hx ha,
      forall_mem_strategyValues h hx (P := fun v => v ≤ x.deviation g p a)]
  have hall : (ofGame g).isBestResponse x p = true ↔
      ∀ pv ∈ (x.player p).zip ((ofGame g).strategyValues x p),
        0 < pv.1 → pv.2 = best ((ofGame g).strategyValues x p) := by
    simp only [isBestResponse, List.all_eq_true, Bool.or_eq_true, Bool.not_eq_true',
      ← Bool.not_eq_true, Scalar.isStrictlyPositive_iff, Scalar.approxEq_iff, imp_iff_not_or]
  rw [hall]
  constructor
  · intro hzip a ha hpos
    have ha₁ : a < (x.player p).length := by rwa [hprobs]
    have ha₂ : a < ((ofGame g).strategyValues x p).length := by rwa [hvalues]
    refine (hbest a ha).mp ?_
    refine hzip ((x.player p).getD a 0, ((ofGame g).strategyValues x p).getD a 0) ?_ hpos
    rw [List.getD_eq_getElem _ _ ha₁, List.getD_eq_getElem _ _ ha₂]
    exact List.mem_iff_getElem.mpr ⟨a, by simpa using ⟨ha₁, ha₂⟩, List.getElem_zip⟩
  · intro hbr pv hpv hpos
    obtain ⟨a, ha, rfl⟩ := List.getElem_of_mem hpv
    have ha₁ : a < (x.player p).length := (List.length_zip ▸ ha).trans_le (min_le_left _ _)
    have ha₂ : a < ((ofGame g).strategyValues x p).length :=
      (List.length_zip ▸ ha).trans_le (min_le_right _ _)
    have ha' : a < g.numStrategies p := by rwa [hprobs] at ha₁
    rw [List.getElem_zip] at hpos ⊢
    show ((ofGame g).strategyValues x p)[a] = _
    rw [← List.getD_eq_getElem _ 0 ha₂]
    refine (hbest a ha').mpr (hbr a ha' ?_)
    show 0 < (x.player p).getD a 0
    rwa [List.getD_eq_getElem _ _ ha₁]

end Payoffs

namespace MixedProfile

variable {g : Game} {x : MixedProfile ℚ}

/-- The probabilities of a player are not negative and sum to one. -/
theorem isDistribution_player (hx : x.shape = g.counts) (hnormal : x.isNormalized = true) {p : ℕ}
    (hp : p < g.numPlayers) : IsDistribution (x.player p) := by
  have hpx : p < x.probs.length := by rwa [length_probs hx]
  unfold player
  rw [List.getD_eq_getElem _ _ hpx]
  exact isNormalized_iff.mp hnormal _ (List.getElem_mem _)

/-- The probabilities of a player sum to one. -/
theorem sum_get (hx : x.shape = g.counts) (hnormal : x.isNormalized = true) {p : ℕ}
    (hp : p < g.numPlayers) : ∑ a ∈ range (g.numStrategies p), x.get p a = 1 := by
  rw [← Payoffs.length_player hx, ← (isDistribution_player hx hnormal hp).2, sum_eq_sum_range]
  rfl

theorem get_nonneg (hnormal : x.isNormalized = true) (p a : ℕ) : 0 ≤ x.get p a := by
  unfold get player
  cases Nat.lt_or_ge p x.probs.length with
  | inl hp =>
    rw [List.getD_eq_getElem _ _ hp]
    exact (isNormalized_iff.mp hnormal _ (List.getElem_mem hp)).getD_nonneg a
  | inr hp => rw [List.getD_eq_default x.probs _ hp, List.getD_nil]

/-- **In an equilibrium only best responses are used.** -/
theorem isNash_iff_largest (h : g.Valid) (hx : x.shape = g.counts) :
    x.isNash g = true ↔ ∀ p < g.numPlayers, ∀ a < g.numStrategies p, 0 < x.get p a →
      ∀ b < g.numStrategies p, x.deviation g p b ≤ x.deviation g p a := by
  have hplayers : (Payoffs.ofGame g : Payoffs ℚ).numPlayers = g.numPlayers := Game.length_counts g
  unfold isNash Payoffs.isNash
  rw [hplayers, List.all_eq_true]
  simp only [List.mem_range, Payoffs.isBestResponse_iff h hx]

/-- **Best responses only means that no pure deviation gains.** -/
theorem isNash_iff (h : g.Valid) (hx : x.shape = g.counts) (hnormal : x.isNormalized = true) :
    x.isNash g = true ↔
      ∀ p < g.numPlayers, ∀ a < g.numStrategies p, x.deviation g p a ≤ x.expected g p := by
  rw [isNash_iff_largest h hx]
  refine forall₂_congr fun p hp => ?_
  have hlargest := (isDistribution_player hx hnormal hp).forall_largest_iff (x.deviation g p)
  rw [Payoffs.length_player hx] at hlargest
  rw [Payoffs.expected_eq_sum hx hp]
  exact hlargest

/-- **Equilibria are the profiles without regret.** -/
theorem isNash_iff_regret (h : g.Valid) (hx : x.shape = g.counts) (hnormal : x.isNormalized = true) :
    x.isNash g = true ↔ x.regret g = 0 := by
  have hregret : x.regret g = 0 ↔ x.regret g ≤ 0 :=
    ⟨fun heq => heq.le, fun hle => le_antisymm hle (Payoffs.regret_nonneg h hx)⟩
  rw [hregret, Payoffs.regret_le_iff h hx, isNash_iff h hx hnormal]
  simp only [sub_nonpos, le_refl, true_and]

end MixedProfile

end Equilibria
