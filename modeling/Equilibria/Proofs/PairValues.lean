import Mathlib
import Equilibria.Proofs.BestResponses

/-!
# Values for pairs of strategies

What a player expects of a strategy against each strategy of one other player, everyone else following
the profile:

* `Payoffs.map_length_pairValues` — there is one value for each pair;
* `Payoffs.pairValues_congr` — the values depend on the numbers of the other players only;
* `Payoffs.pairValue_eq_sum` — what the pass over the table adds up for a pair;
* `Payoffs.strategyValue_eq_sum_pairs` — the value of a strategy is the average of those of its pairs.
-/

namespace Equilibria

open Finset (range)

namespace Payoffs

/-! ### The pass over the table -/

section

variable {α : Type} [Scalar α] {p q : ℕ}

theorem map_length_modify {β : Type} (rows : List (List β)) (i : ℕ) {f : List β → List β}
    (hf : ∀ row, (f row).length = row.length) :
    (rows.modify i f).map List.length = rows.map List.length := by
  apply List.ext_getElem
  · simp
  · intro k hk hk'
    rw [List.getElem_map, List.getElem_map, List.getElem_modify]
    split_ifs
    · exact hf _
    · rfl

/-- One step of the pass over the table. -/
def addPair (x : MixedProfile α) (p q : ℕ) (values : List (List α)) (c : List α × List ℕ) :
    List (List α) :=
  if Scalar.isZero (weight x [p, q] c.2) then values
  else values.modify (c.2.getD p 0) fun row =>
    addAt row (c.2.getD q 0) (weight x [p, q] c.2 * c.1.getD p 0)

theorem pairValues_eq (t : Payoffs α) (x : MixedProfile α) (p q : ℕ) : t.pairValues x p q =
    t.rows.foldl (addPair x p q) (List.replicate (t.count p) (List.replicate (t.count q) 0)) := rfl

theorem map_length_addPair (x : MixedProfile α) (values : List (List α)) (c : List α × List ℕ) :
    (addPair x p q values c).map List.length = values.map List.length := by
  unfold addPair
  split_ifs
  · rfl
  · exact map_length_modify _ _ fun row => List.length_modify _ _ _

/-- **There is one value for each pair.** -/
theorem map_length_pairValues (t : Payoffs α) (x : MixedProfile α) (p q : ℕ) :
    (t.pairValues x p q).map List.length = List.replicate (t.count p) (t.count q) := by
  have hfold : ∀ (rows : List (List α × List ℕ)) (values : List (List α)),
      (rows.foldl (addPair x p q) values).map List.length = values.map List.length := by
    intro rows
    induction rows with
    | nil => exact fun values => rfl
    | cons c rows ih =>
      intro values
      rw [List.foldl_cons, ih, map_length_addPair]
  rw [pairValues_eq, hfold, List.map_replicate, List.length_replicate]

theorem length_pairValues (t : Payoffs α) (x : MixedProfile α) (p q : ℕ) :
    (t.pairValues x p q).length = t.count p := by
  rw [← List.length_map List.length, map_length_pairValues, List.length_replicate]

/-- **The values for a pair depend on the numbers of the other players only.** -/
theorem pairValues_congr {t : Payoffs α} {x x' : MixedProfile α}
    (hget : ∀ c ∈ t.rows, ∀ i < c.2.length, i = p ∨ i = q ∨ ∀ d, x.get i d = x'.get i d) :
    t.pairValues x p q = t.pairValues x' p q := by
  have hweight : ∀ c ∈ t.rows, weight x [p, q] c.2 = weight x' [p, q] c.2 := by
    intro c hc
    refine List.foldl_ext _ _ _ fun w sq hsq => ?_
    obtain hp | hq | hsame := hget c hc sq.2 (List.snd_lt_of_mem_zipIdx hsq)
    · rw [if_pos (by simp [hp]), if_pos (by simp [hp])]
    · rw [if_pos (by simp [hq]), if_pos (by simp [hq])]
    · rw [hsame]
  rw [pairValues_eq, pairValues_eq]
  refine List.foldl_ext _ _ _ fun values c hc => ?_
  rw [addPair, addPair, hweight c hc]

end

variable {t : Payoffs ℚ} {x : MixedProfile ℚ} {p q a b : ℕ}

/-! ### The values -/

/-- The value for a pair of strategies. -/
def pairValue (t : Payoffs ℚ) (x : MixedProfile ℚ) (p q a b : ℕ) : ℚ :=
  ((t.pairValues x p q).getD a []).getD b 0

theorem getD_modify_addAt {values : List (List ℚ)} (ha : a < values.length)
    (hb : b < (values.getD a []).length) (i j : ℕ) (v : ℚ) :
    ((values.modify i fun row => addAt row j v).getD a []).getD b 0 =
      (values.getD a []).getD b 0 + if i = a ∧ j = b then v else 0 := by
  rw [List.getD_eq_getElem _ [] (by simpa using ha), List.getElem_modify]
  rw [List.getD_eq_getElem _ _ ha] at hb ⊢
  by_cases hia : i = a
  · rw [if_pos hia, getD_addAt _ hb]
    simp only [hia, true_and]
  · rw [if_neg hia, if_neg fun h => hia h.1, add_zero]

/-- **What the passes over the table add up for a pair.** -/
theorem pairValue_eq_sum (ha : a < t.count p) (hb : b < t.count q) :
    pairValue t x p q a b = (t.rows.map fun c =>
      if c.2.getD p 0 = a ∧ c.2.getD q 0 = b then weight x [p, q] c.2 * c.1.getD p 0 else 0).sum := by
  have hfold : ∀ (rows : List (List ℚ × List ℕ)) (values : List (List ℚ)),
      values.map List.length = List.replicate (t.count p) (t.count q) →
      ((rows.foldl (addPair x p q) values).getD a []).getD b 0 =
        (values.getD a []).getD b 0 + (rows.map fun c => if c.2.getD p 0 = a ∧ c.2.getD q 0 = b then
          weight x [p, q] c.2 * c.1.getD p 0 else 0).sum := by
    intro rows
    induction rows with
    | nil => exact fun values _ => (add_zero _).symm
    | cons c rows ih =>
      intro values hshape
      have hlength : a < values.length := by
        rw [← List.length_map List.length, hshape, List.length_replicate]
        exact ha
      have hrow : (values.getD a []).length = t.count q := by
        rw [← getD_map_length, hshape, List.getD_replicate _ ha]
      rw [List.foldl_cons, List.map_cons, List.sum_cons, ih _ ((map_length_addPair _ _ _).trans hshape),
        ← add_assoc]
      congr 1
      unfold addPair
      by_cases hzero : weight x [p, q] c.2 = 0
      · rw [if_pos ((Scalar.isZero_iff _).mpr hzero), hzero, zero_mul, ite_self, add_zero]
      · rw [if_neg (mt (Scalar.isZero_iff _).mp hzero), getD_modify_addAt hlength (by rwa [hrow])]
  have hzero : ((List.replicate (t.count p) (List.replicate (t.count q) (0 : ℚ))).getD a []).getD b 0 =
      0 := by
    rw [List.getD_replicate _ ha, List.getD_replicate _ hb]
  rw [pairValue, pairValues_eq, hfold _ _ (by rw [List.map_replicate, List.length_replicate]), hzero,
    zero_add]

/-- The probability of another player's strategy is one of the factors of a weight. -/
theorem weight_eq_mul (hne : q ≠ p) {s : List ℕ} (hq : q < s.length) :
    weight x [p] s = x.get q (s.getD q 0) * weight x [p, q] s := by
  have hmem := Finset.mem_range.mpr hq
  rw [weight_eq_prod, weight_eq_prod, ← Finset.mul_prod_erase _ _ hmem,
    ← Finset.mul_prod_erase _ (fun i => if [p, q].contains i then (1 : ℚ) else _) hmem,
    if_neg (by simpa using hne), if_pos (by simp), one_mul]
  congr 1
  refine Finset.prod_congr rfl fun i hi => ?_
  have hiq := Finset.ne_of_mem_erase hi
  refine if_congr ?_ rfl rfl
  simp [hiq]

/-- **The value of a strategy is the average of those of its pairs**, by the probabilities of the other
player. -/
theorem strategyValue_eq_sum_pairs (hne : q ≠ p)
    (hrows : ∀ c ∈ t.rows, q < c.2.length ∧ c.2.getD q 0 < t.count q) (ha : a < t.count p) :
    (t.strategyValues x p).getD a 0 = ∑ b ∈ range (t.count q), x.get q b * pairValue t x p q a b := by
  rw [strategyValue_eq_sum _ _ ha,
    Finset.sum_congr rfl fun b hb => by rw [pairValue_eq_sum ha (Finset.mem_range.mp hb)]]
  generalize t.rows = rows at hrows
  induction rows with
  | nil => simp
  | cons c rows ih =>
    obtain ⟨hlength, hlt⟩ := hrows c List.mem_cons_self
    simp only [List.map_cons, List.sum_cons, mul_add, Finset.sum_add_distrib]
    rw [ih fun c' hc' => hrows c' (List.mem_cons_of_mem _ hc')]
    congr 1
    -- of the other player's strategies only that of this row counts
    rw [Finset.sum_eq_single_of_mem _ (Finset.mem_range.mpr hlt)]
    · by_cases hc : c.2.getD p 0 = a
      · rw [if_pos hc, if_pos ⟨hc, rfl⟩, weight_eq_mul hne hlength, mul_assoc]
      · rw [if_neg hc, if_neg fun h => hc h.1, mul_zero]
    · intro b _ hb
      rw [if_neg fun h => hb h.2.symm, mul_zero]

/-- The rows of a valid game have a strategy of every player. -/
theorem rows_of_valid {g : Game} (h : g.Valid) (hq : q < g.numPlayers) :
    ∀ c ∈ (ofGame g : Payoffs ℚ).rows, q < c.2.length ∧ c.2.getD q 0 < (ofGame g : Payoffs ℚ).count q := by
  intro c hc
  have hs := h.mem_profiles_of_mem_rows hc
  have hlength := length_of_mem_profiles hs
  rw [Game.length_counts] at hlength
  exact ⟨by rwa [hlength], getD_lt_of_mem_profiles hs (by rwa [Game.length_counts])⟩

end Payoffs

end Equilibria
