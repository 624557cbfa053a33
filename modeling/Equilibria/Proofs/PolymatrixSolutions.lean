import Mathlib
import Equilibria.Proofs.ComplementaryRuns
import Equilibria.Proofs.ExpectedPayoffs
import Equilibria.Proofs.PolymatrixProblem

/-!
# Solutions of a linearized game

With two players or more, each of whom can choose something, the problem of a linearized game is solved
by complementary pivoting, and what is found are probabilities:

* `Polymatrix.expense` — what a strategy costs against weights of the other players, at least the
  weights of each of them, and by `Polymatrix.expense_eq_sub_terms` the ceilings less what it is worth;
* `Polymatrix.weightsAt_direction`, `Polymatrix.not_ray` — there is no complementary ray;
* `Polymatrix.sum_weights`, `Polymatrix.expense_le` — the weights of a solution sum to one for each
  player, and the strategies that are used are the cheapest;
* `Polymatrix.exists_response` — the response is read off a solution, if steps enough are allowed;
* `Polymatrix.solve_linearized` — hence pure best responses never stand in for it in an accepted game.
-/

namespace Equilibria

open Finset (range)

namespace Polymatrix

variable {t : Payoffs ℚ} {x : MixedProfile ℚ} {p q a b : ℕ}

/-! ### What strategies cost -/

/-- What a strategy costs against weights of all strategies. -/
def expense (t : Payoffs ℚ) (x : MixedProfile ℚ) (y : ℕ → ℕ → ℚ) (p a : ℕ) : ℚ :=
  ∑ q ∈ range t.numPlayers, ∑ b ∈ range (t.count q), cost t x p q a b * y q b

theorem cost_nonneg (hp : p < t.numPlayers) (hq : q < t.numPlayers) (ha : a < t.count p)
    (hb : b < t.count q) : 0 ≤ cost t x p q a b := by
  by_cases hqp : q = p
  · rw [cost, if_pos hqp]
  · exact zero_le_one.trans (one_le_cost hp hq hqp ha hb)

/-- **A strategy costs at least the weights of any other player.** -/
theorem sum_le_expense {y : ℕ → ℕ → ℚ} (hy : ∀ q b, 0 ≤ y q b) (hp : p < t.numPlayers)
    (hq : q < t.numPlayers) (hne : q ≠ p) (ha : a < t.count p) :
    ∑ b ∈ range (t.count q), y q b ≤ expense t x y p a := by
  have hterm : ∀ q' ∈ range t.numPlayers,
      0 ≤ ∑ b ∈ range (t.count q'), cost t x p q' a b * y q' b := by
    intro q' hq'
    refine Finset.sum_nonneg fun b hb => mul_nonneg ?_ (hy q' b)
    exact cost_nonneg hp (Finset.mem_range.mp hq') ha (Finset.mem_range.mp hb)
  calc ∑ b ∈ range (t.count q), y q b
      ≤ ∑ b ∈ range (t.count q), cost t x p q a b * y q b := by
        refine Finset.sum_le_sum fun b hb => le_mul_of_one_le_left (hy q b) ?_
        exact one_le_cost hp hq hne ha (Finset.mem_range.mp hb)
    _ ≤ expense t x y p a := Finset.single_le_sum hterm (Finset.mem_range.mpr hq)

theorem exists_other (htwo : 2 ≤ t.numPlayers) (p : ℕ) : ∃ q < t.numPlayers, q ≠ p := by
  by_cases hp : p = 0
  · exact ⟨1, by omega, by omega⟩
  · exact ⟨0, by omega, Ne.symm hp⟩

/-- A strategy costs the same against weights that agree. -/
theorem expense_congr {y y' : ℕ → ℕ → ℚ} (h : ∀ q, ∀ b < t.count q, y q b = y' q b) :
    expense t x y p a = expense t x y' p a := by
  refine Finset.sum_congr rfl fun q _ => Finset.sum_congr rfl fun b hb => ?_
  rw [h q b (Finset.mem_range.mp hb)]

theorem card_others {n : ℕ} (hp : p < n) : (((range n).erase p).card : ℚ) = n - 1 := by
  rw [Finset.card_erase_of_mem (Finset.mem_range.mpr hp), Finset.card_range, Nat.cast_pred (by omega)]

/-- **Against weights that sum to one a strategy costs the ceilings**, one for each other player, less
the terms that it is worth. -/
theorem expense_eq_sub_terms {y : ℕ → ℕ → ℚ}
    (hy : ∀ q < t.numPlayers, ∑ b ∈ range (t.count q), y q b = 1) (hp : p < t.numPlayers) :
    expense t x y p a = (t.numPlayers - 1) * top t x -
      ∑ q ∈ (range t.numPlayers).erase p, ∑ b ∈ range (t.count q), y q b * term t x p q a b := by
  have hown : ∑ b ∈ range (t.count p), cost t x p p a b * y p b = 0 :=
    Finset.sum_eq_zero fun b _ => by rw [cost, if_pos rfl, zero_mul]
  have hother : ∀ q ∈ (range t.numPlayers).erase p, ∑ b ∈ range (t.count q), cost t x p q a b * y q b =
      top t x - ∑ b ∈ range (t.count q), y q b * term t x p q a b := by
    intro q hq
    obtain ⟨hne, hq⟩ := Finset.mem_erase.mp hq
    have hcost : ∀ b ∈ range (t.count q), cost t x p q a b * y q b =
        top t x * y q b - y q b * term t x p q a b := by
      intro b _
      rw [cost, if_neg hne]
      ring
    rw [Finset.sum_congr rfl hcost, Finset.sum_sub_distrib, ← Finset.mul_sum,
      hy q (Finset.mem_range.mp hq), mul_one]
  rw [expense, ← Finset.add_sum_erase _ _ (Finset.mem_range.mpr hp), hown, zero_add,
    Finset.sum_congr rfl hother, Finset.sum_sub_distrib, Finset.sum_const, nsmul_eq_mul, card_others hp]

theorem place_lt_size (ha : a < t.count p) : place t.counts p a < (lcp t x).size := by
  rw [size_lcp]
  exact Nat.lt_add_right _ (place_lt ha)

theorem level_lt_size (hp : p < t.numPlayers) : t.counts.sum + p < (lcp t x).size := by
  rw [size_lcp]
  exact Nat.add_lt_add_left hp _

/-- What holds of all columns holds of those of strategies and those of levels. -/
theorem forall_lt_size {P : ℕ → Prop} : (∀ i < (lcp t x).size, P i) ↔
    (∀ p < t.numPlayers, ∀ a < t.count p, P (place t.counts p a)) ∧
      ∀ p < t.numPlayers, P (t.counts.sum + p) := by
  constructor
  · intro hall
    exact ⟨fun p _ a ha => hall _ (place_lt_size ha), fun p hp => hall _ (level_lt_size hp)⟩
  · rintro ⟨hstrategies, hlevels⟩ i hi
    by_cases hplace : i < t.counts.sum
    · obtain ⟨p, hp, a, ha, rfl⟩ := exists_place hplace
      exact hstrategies p hp a ha
    · obtain ⟨p, rfl⟩ := Nat.exists_eq_add_of_le (not_lt.mp hplace)
      rw [size_lcp] at hi
      exact hlevels p (Nat.lt_of_add_lt_add_left hi)

/-! ### There is no ray -/

variable (t) in
/-- The weights that values of the columns give to strategies. -/
def weightsAt (n : ℕ) (v : ℕ → ℚ) (q b : ℕ) : ℚ := v (n + place t.counts q b)

/-- What the system says of a strategy's row. -/
theorem system_strategy {v : ℕ → ℚ} (h : (lcp t x).System v) (hp : p < t.numPlayers)
    (ha : a < t.count p) : v (place t.counts p a) =
      expense t x (weightsAt t (lcp t x).size v) p a - v ((lcp t x).size + (t.counts.sum + p)) +
        v (2 * (lcp t x).size) := by
  have hrow := h _ (place_lt_size ha)
  rw [sum_strategy x hp ha (fun i => v ((lcp t x).size + i)), constant_strategy x ha] at hrow
  exact sub_eq_zero.mp ((sub_sub _ _ _).symm.trans hrow)

/-- What the system says of a level's row. -/
theorem system_level {v : ℕ → ℚ} (h : (lcp t x).System v) (hp : p < t.numPlayers) :
    v (t.counts.sum + p) =
      ∑ b ∈ range (t.count p), weightsAt t (lcp t x).size v p b + v (2 * (lcp t x).size) - 1 := by
  have hrow := h _ (level_lt_size hp)
  rw [sum_level x hp (fun i => v ((lcp t x).size + i)), constant_level x hp] at hrow
  show v _ = ∑ b ∈ range (t.count p), v _ + v _ - 1
  linarith

theorem direction_level {v d : ℕ → ℚ} (h : (lcp t x).Ray v d) (hp : p < t.numPlayers) :
    d (t.counts.sum + p) =
      ∑ b ∈ range (t.count p), weightsAt t (lcp t x).size d p b + d (2 * (lcp t x).size) := by
  rw [h.homogeneous _ (level_lt_size hp), sum_level x hp (fun i => d ((lcp t x).size + i))]
  rfl

/-- No weight grows along a ray: its player's level would be zero, and so would be every cost of the
strategy, but another player's weights cost something. -/
theorem weightsAt_direction {v d : ℕ → ℚ} (htwo : 2 ≤ t.numPlayers) (h : (lcp t x).Ray v d)
    (hp : p < t.numPlayers) (ha : a < t.count p) : weightsAt t (lcp t x).size d p a = 0 := by
  refine le_antisymm (not_lt.mp fun hgrows => ?_) (h.direction_nonneg _)
  have hslack : v (place t.counts p a) = 0 := by
    cases h.complementary _ (place_lt_size ha) with
    | inl hzero => exact hzero.1
    | inr hzero => exact absurd hzero.2 hgrows.ne'
  have hzero : v ((lcp t x).size + (t.counts.sum + p)) = 0 := by
    cases h.complementary _ (level_lt_size hp) with
    | inl hstill =>
      have hle : weightsAt t (lcp t x).size d p a ≤
          ∑ b ∈ range (t.count p), weightsAt t (lcp t x).size d p b :=
        Finset.single_le_sum (fun b _ => h.direction_nonneg _) (Finset.mem_range.mpr ha)
      have hartificial := h.direction_nonneg (2 * (lcp t x).size)
      have hsum := direction_level h hp
      rw [hstill.2] at hsum
      linarith
    | inr hzero => exact hzero.1
  obtain ⟨q, hq, hne⟩ := exists_other htwo p
  have hcosts := system_strategy h.system hp ha
  have hsuffice := system_level h.system hq
  have hweights : ∀ q b, 0 ≤ weightsAt t (lcp t x).size v q b := fun q b => h.nonneg _
  have hle := sum_le_expense (x := x) hweights hp hq hne ha
  have hnonneg := h.nonneg (t.counts.sum + q)
  rw [hslack, hzero] at hcosts
  linarith

/-- **There is no complementary ray** with two players or more, each with a strategy.  Only a level
could grow, and the artificial column with it, but then the level's slack grows too. -/
theorem not_ray (htwo : 2 ≤ t.numPlayers) (hcounts : ∀ p < t.numPlayers, 0 < t.count p)
    {v d : ℕ → ℚ} : ¬(lcp t x).Ray v d := by
  intro h
  obtain ⟨q, hq, hgrows⟩ : ∃ q < t.numPlayers, 0 < d ((lcp t x).size + (t.counts.sum + q)) := by
    by_contra hstill
    push Not at hstill
    have hnone : ∀ i < (lcp t x).size, d ((lcp t x).size + i) ≤ 0 :=
      forall_lt_size.mpr ⟨fun q hq b hb => (weightsAt_direction htwo h hq hb).le, hstill⟩
    obtain ⟨i, hi, hmoves⟩ := h.moves
    exact absurd hmoves (not_lt.mpr (hnone i hi))
  have hartificial : 0 < d (2 * (lcp t x).size) := by
    have hrow := h.homogeneous _ (place_lt_size (x := x) (hcounts q hq))
    have hstill : ∑ q' ∈ range t.numPlayers, ∑ b ∈ range (t.count q'),
        cost t x q q' 0 b * d ((lcp t x).size + place t.counts q' b) = 0 := by
      refine Finset.sum_eq_zero fun q' hq' => Finset.sum_eq_zero fun b hb => ?_
      have hzero := weightsAt_direction htwo h (Finset.mem_range.mp hq') (Finset.mem_range.mp hb)
      exact mul_eq_zero_of_right _ hzero
    rw [sum_strategy x hq (hcounts q hq) (fun i => d ((lcp t x).size + i)), hstill] at hrow
    have hnonneg := h.direction_nonneg (place t.counts q 0)
    linarith
  cases h.complementary _ (level_lt_size hq) with
  | inl hzero =>
    have hsum := direction_level h hq
    rw [hzero.2, Finset.sum_eq_zero fun b hb =>
      weightsAt_direction htwo h hq (Finset.mem_range.mp hb)] at hsum
    linarith
  | inr hzero => exact hgrows.ne' hzero.2

/-! ### Solutions -/

variable {z : List ℚ}

variable (t z) in
/-- The weights that a solution gives to strategies. -/
def weights (q b : ℕ) : ℚ := z.getD (place t.counts q b) 0

theorem weights_nonneg (hz : (lcp t x).IsSolution z) (q b : ℕ) : 0 ≤ weights t z q b := by
  unfold weights
  cases Nat.lt_or_ge (place t.counts q b) (lcp t x).size with
  | inl hlt => exact hz.nonneg _ hlt
  | inr hge => exact (List.getD_eq_default _ _ (by rwa [hz.length])).ge

/-- A strategy's slack is what it costs more than the level. -/
theorem slack_strategy (hz : z.length = (lcp t x).size) (hp : p < t.numPlayers) (ha : a < t.count p) :
    ((lcp t x).slack z).getD (place t.counts p a) 0 =
      expense t x (weights t z) p a - z.getD (t.counts.sum + p) 0 := by
  rw [Lcp.getD_slack (square_lcp t x) hz (place_lt_size ha), constant_strategy x ha, zero_add,
    sum_strategy x hp ha (fun i => z.getD i 0)]
  rfl

/-- A level's slack is what the weights sum to above one. -/
theorem slack_level (hz : z.length = (lcp t x).size) (hp : p < t.numPlayers) :
    ((lcp t x).slack z).getD (t.counts.sum + p) 0 =
      ∑ b ∈ range (t.count p), weights t z p b - 1 := by
  rw [Lcp.getD_slack (square_lcp t x) hz (level_lt_size hp), constant_level x hp,
    sum_level x hp (fun i => z.getD i 0), neg_add_eq_sub]
  rfl

/-- A strategy that is used costs as much as the level. -/
theorem expense_eq (hz : (lcp t x).IsSolution z) (hp : p < t.numPlayers) (ha : a < t.count p)
    (hpos : 0 < weights t z p a) : expense t x (weights t z) p a = z.getD (t.counts.sum + p) 0 := by
  have hcomplementary := hz.complementary _ (place_lt_size ha)
  rw [slack_strategy hz.length hp ha] at hcomplementary
  cases mul_eq_zero.mp hcomplementary with
  | inl hzero => exact absurd hzero hpos.ne'
  | inr hzero => exact sub_eq_zero.mp hzero

/-- **The strategies that are used are the cheapest.** -/
theorem expense_le (hz : (lcp t x).IsSolution z) (hp : p < t.numPlayers) (ha : a < t.count p)
    (hpos : 0 < weights t z p a) (hb : b < t.count p) :
    expense t x (weights t z) p a ≤ expense t x (weights t z) p b := by
  have hslack := hz.slack_nonneg _ (place_lt_size hb)
  rw [slack_strategy hz.length hp hb] at hslack
  rw [expense_eq hz hp ha hpos]
  exact sub_nonneg.mp hslack

/-- Where costs are what strategies are worth less than some amount, **only strategies of the largest
worth are used**. -/
theorem worth_le_of_used (hz : (lcp t x).IsSolution z) {worth : ℕ → ℚ} {ceiling : ℚ}
    (hworth : ∀ a < t.count p, expense t x (weights t z) p a = ceiling - worth a)
    (hp : p < t.numPlayers) (ha : a < t.count p) (hpos : 0 < weights t z p a) (hb : b < t.count p) :
    worth b ≤ worth a := by
  have hle := expense_le hz hp ha hpos hb
  rw [hworth a ha, hworth b hb] at hle
  exact (sub_le_sub_iff_left ceiling).mp hle

/-- **The weights of each player sum to one.** -/
theorem sum_weights (htwo : 2 ≤ t.numPlayers) (hz : (lcp t x).IsSolution z) (hp : p < t.numPlayers) :
    ∑ a ∈ range (t.count p), weights t z p a = 1 := by
  have hleast : ∀ q < t.numPlayers, 1 ≤ ∑ a ∈ range (t.count q), weights t z q a := by
    intro q hq
    have hslack := hz.slack_nonneg _ (level_lt_size hq)
    rw [slack_level hz.length hq] at hslack
    exact sub_nonneg.mp hslack
  have hcomplementary := hz.complementary _ (level_lt_size hp)
  rw [slack_level hz.length hp] at hcomplementary
  cases mul_eq_zero.mp hcomplementary with
  | inl hzero =>
    -- a strategy that is used would cost nothing, but another player's weights cost something
    obtain ⟨a, ha, hpos⟩ : ∃ a ∈ range (t.count p), 0 < weights t z p a := by
      apply Finset.exists_lt_of_sum_lt
      rw [Finset.sum_const_zero]
      exact zero_lt_one.trans_le (hleast p hp)
    obtain ⟨q, hq, hne⟩ := exists_other htwo p
    have ha' := Finset.mem_range.mp ha
    have hle := sum_le_expense (x := x) (weights_nonneg hz) hp hq hne ha'
    rw [expense_eq hz hp ha' hpos, hzero] at hle
    linarith [hleast q hq]
  | inr hzero => exact sub_eq_zero.mp hzero

/-! ### The response -/

variable (t z) in
/-- The profile that a solution holds. -/
def profileOf : MixedProfile ℚ := ⟨Seed.portions t.counts z⟩

theorem shape_profileOf (hz : (lcp t x).IsSolution z) : (profileOf t z).shape = t.counts := by
  refine map_length_portions ?_
  rw [hz.length, size_lcp]
  exact Nat.le_add_right _ _

theorem get_profileOf (hz : (lcp t x).IsSolution z) (ha : a < t.count p) :
    (profileOf t z).get p a = weights t z p a := by
  have hentry : (Seed.portions t.counts z).flatten.getD (place t.counts p a) 0 =
      (profileOf t z).get p a := getD_flatten 0 (shape_profileOf hz) ha
  rw [← hentry, flatten_portions, weights, List.getD_eq_getElem?_getD, List.getD_eq_getElem?_getD,
    List.getElem?_take_of_lt (place_lt ha)]

theorem length_player_profileOf (hz : (lcp t x).IsSolution z) (p : ℕ) :
    ((profileOf t z).player p).length = t.count p := by
  rw [Payoffs.count, ← shape_profileOf hz]
  exact (getD_map_length _ p).symm

theorem isDistribution_profileOf (htwo : 2 ≤ t.numPlayers) (hz : (lcp t x).IsSolution z)
    (hp : p < t.numPlayers) : IsDistribution ((profileOf t z).player p) := by
  have hlength := length_player_profileOf hz p
  constructor
  · intro v hv
    obtain ⟨a, ha, rfl⟩ := List.getElem_of_mem hv
    rw [← List.getD_eq_getElem _ 0 ha]
    exact (get_profileOf hz (hlength ▸ ha)).ge.trans' (weights_nonneg hz p a)
  · rw [sum_eq_sum_range, hlength, ← sum_weights htwo hz hp]
    exact Finset.sum_congr rfl fun a ha => get_profileOf hz (Finset.mem_range.mp ha)

theorem isNormalized_profileOf (htwo : 2 ≤ t.numPlayers) (hz : (lcp t x).IsSolution z) :
    (profileOf t z).isNormalized = true := by
  rw [MixedProfile.isNormalized_iff]
  intro row hrow
  obtain ⟨p, hp, rfl⟩ := List.getElem_of_mem hrow
  have hplayers : p < t.numPlayers := by
    rwa [Payoffs.numPlayers, ← shape_profileOf hz, MixedProfile.shape, List.length_map]
  rw [← List.getD_eq_getElem _ [] hp]
  exact isDistribution_profileOf htwo hz hplayers

/-- Probabilities stay what they are when they are divided by their sum. -/
theorem normalize_of_sum {row : List ℚ} (h : row.sum = 1) : MixedProfile.normalize row = row := by
  have htotal : Scalar.sum row = 1 := (Scalar.sum_eq row).trans h
  have hnot : ¬Scalar.isNegligible (1 : ℚ) = true := by
    rw [Scalar.isNegligible_iff]
    exact one_ne_zero
  unfold MixedProfile.normalize
  simp only [htotal, if_neg hnot]
  exact (List.map_congr_left fun w _ => div_one w).trans (List.map_id _)

theorem ofWeights_of_isNormalized {x : MixedProfile ℚ} (h : x.isNormalized = true) :
    MixedProfile.ofWeights x.probs = x := by
  unfold MixedProfile.ofWeights
  congr 1
  refine (List.map_congr_left fun row hrow => ?_).trans (List.map_id _)
  exact normalize_of_sum (MixedProfile.isNormalized_iff.mp h row hrow).2

/-- The number of steps that suffices for games with the given numbers of strategies. -/
def stepBound (counts : List ℕ) : ℕ :=
  (2 * (counts.sum + counts.length) + 1).choose (counts.sum + counts.length)

/-- Where the problem is solved, the response is the profile that the solution holds. -/
theorem response_of_solve (htwo : 2 ≤ t.numPlayers) {rules : PivotRules ℚ}
    (hsolve : (lcp t x).solve rules = .ok z) (hz : (lcp t x).IsSolution z) :
    response rules t x = profileOf t z := by
  rw [response, if_neg (not_lt.mpr htwo), hsolve]
  exact ofWeights_of_isNormalized (isNormalized_profileOf htwo hz)

/-- **The problem is solved or the steps do not suffice**; it never ends on a ray. -/
theorem solve_cases (htwo : 2 ≤ t.numPlayers) (hcounts : ∀ p < t.numPlayers, 0 < t.count p)
    {rules : PivotRules ℚ} (htolerance : rules.tolerance = 0) :
    (∃ z, (lcp t x).solve rules = .ok z ∧ (lcp t x).IsSolution z) ∨
      (lcp t x).solve rules = .error .pivotLimit ∧ rules.limit < stepBound t.counts := by
  obtain hsolved | hray | hstopped := Lcp.solve_spec (square_lcp t x) htolerance
  · exact Or.inl hsolved
  · obtain ⟨-, v, d, hray⟩ := hray
    exact absurd hray (not_ray htwo hcounts)
  · rw [size_lcp] at hstopped
    exact Or.inr hstopped

/-- **The response is read off a solution**, if steps enough are allowed. -/
theorem exists_response (htwo : 2 ≤ t.numPlayers) (hcounts : ∀ p < t.numPlayers, 0 < t.count p)
    {rules : PivotRules ℚ} (htolerance : rules.tolerance = 0) (hlimit : stepBound t.counts ≤ rules.limit) :
    ∃ z, (lcp t x).solve rules = .ok z ∧ (lcp t x).IsSolution z ∧
      response rules t x = profileOf t z := by
  obtain ⟨z, hsolve, hz⟩ | ⟨-, hless⟩ := solve_cases (x := x) htwo hcounts htolerance
  · exact ⟨z, hsolve, hz, response_of_solve htwo hsolve hz⟩
  · exact absurd hlimit (not_le.mpr hless)

theorem numPlayers_ofGame (g : Game) : (Payoffs.ofGame g : Payoffs ℚ).numPlayers = g.numPlayers :=
  Game.length_counts g

theorem count_pos {g : Game} (haccepted : g.validate = .ok ()) :
    ∀ p < (Payoffs.ofGame g : Payoffs ℚ).numPlayers, 0 < (Payoffs.ofGame g : Payoffs ℚ).count p := by
  intro p hp
  rw [numPlayers_ofGame] at hp
  exact Game.numStrategies_pos haccepted hp

/-- **Every linearized game is solved.**  At any profile the problem of an accepted game of two players
or more has the shape it needs, pivoting never ends on a ray, and with pivots enough for the numbers of
strategies it finds a solution, off which the response is read. -/
theorem solve_linearized {g : Game} (haccepted : g.validate = .ok ()) (htwo : 2 ≤ g.numPlayers)
    (x : MixedProfile ℚ) (limit : ℕ) :
    Lcp.build (lcp (Payoffs.ofGame g) x).matrix (lcp (Payoffs.ofGame g) x).offset =
        .ok (lcp (Payoffs.ofGame g) x) ∧
      (lcp (Payoffs.ofGame g) x).solve ⟨0, limit⟩ ≠ .error .ray ∧
      (stepBound g.counts ≤ limit → ∃ z, (lcp (Payoffs.ofGame g) x).solve ⟨0, limit⟩ = .ok z ∧
        (lcp (Payoffs.ofGame g) x).IsSolution z ∧
        response ⟨0, limit⟩ (Payoffs.ofGame g) x = profileOf (Payoffs.ofGame g) z) := by
  have hplayers : 2 ≤ (Payoffs.ofGame g : Payoffs ℚ).numPlayers := by rwa [numPlayers_ofGame]
  have htolerance : (⟨0, limit⟩ : PivotRules ℚ).tolerance = 0 := rfl
  refine ⟨Lcp.build_iff.mpr ⟨rfl, square_lcp _ x⟩, fun hray => ?_,
    fun hlimit => exists_response hplayers (count_pos haccepted) htolerance hlimit⟩
  obtain ⟨z, hsolve, -⟩ | ⟨hstopped, -⟩ :=
    solve_cases (x := x) hplayers (count_pos haccepted) htolerance
  · rw [hray] at hsolve
    cases hsolve
  · rw [hray] at hstopped
    cases hstopped

/-- With three players of two strategies each the standard number of pivots is enough. -/
theorem solve_linearized_gathering :
    Game.gathering.validate = .ok () ∧ 2 ≤ Game.gathering.numPlayers ∧
      stepBound Game.gathering.counts ≤ 100000 ∧
      (lcp (Payoffs.ofGame Game.gathering) ⟨[[1, 0], [1 / 2, 1 / 2], [1 / 3, 2 / 3]]⟩ : Lcp ℚ).solve
        ⟨0, 100000⟩ ≠ .error .ray ∧
      ∃ z : List ℚ, (lcp (Payoffs.ofGame Game.gathering)
          ⟨[[1, 0], [1 / 2, 1 / 2], [1 / 3, 2 / 3]]⟩).solve ⟨0, 100000⟩ = .ok z ∧
        response ⟨0, 100000⟩ (Payoffs.ofGame Game.gathering)
          ⟨[[1, 0], [1 / 2, 1 / 2], [1 / 3, 2 / 3]]⟩ = profileOf (Payoffs.ofGame Game.gathering) z := by
  have htwo : 2 ≤ Game.gathering.numPlayers := by decide
  have hlimit : stepBound Game.gathering.counts ≤ 100000 := by decide +kernel
  obtain ⟨-, hray, hsolved⟩ := solve_linearized Game.valid_gathering.accepted htwo
    ⟨[[1, 0], [1 / 2, 1 / 2], [1 / 3, 2 / 3]]⟩ 100000
  obtain ⟨z, hsolve, -, hresponse⟩ := hsolved hlimit
  exact ⟨Game.valid_gathering.accepted, htwo, hlimit, hray, z, hsolve, hresponse⟩

end Polymatrix

end Equilibria
