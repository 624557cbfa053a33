import Mathlib
import Equilibria.Polytope.Tableau
import Equilibria.Proofs.PureProfiles

/-!
# Expectations

`expectation` is the expected value of a function of the pure profile when the players choose
independently, as a recursion on the players:

* `expectation_eq_sum` — it is the sum over all profiles, each with its probability;
* `expectation_eq_sum_unitRow` — it is linear in what one player does;
* `expectation_set_unitRow` — one player choosing a pure strategy;
* `IsDistribution.forall_largest_iff` — the largest of some values, and their average;
* `expectation_lt` — it grows with the function.
-/

namespace Equilibria

open Finset (range)

/-! ### Expectations -/

/-- The expected value of a function of the pure profile, every player choosing by one row. -/
def expectation : List (List ℚ) → (List ℕ → ℚ) → ℚ
  | [], f => f []
  | row :: rows, f =>
    ∑ d ∈ range row.length, row.getD d 0 * expectation rows fun s => f (d :: s)

/-- The probability of a pure profile. -/
def mass (rows : List (List ℚ)) (s : List ℕ) : ℚ :=
  ∏ k ∈ range s.length, (rows.getD k []).getD (s.getD k 0) 0

/-- A list of probabilities. -/
def IsDistribution (row : List ℚ) : Prop := (∀ v ∈ row, 0 ≤ v) ∧ row.sum = 1

variable {rows : List (List ℚ)} {f g : List ℕ → ℚ}

theorem mass_cons (row : List ℚ) (rows : List (List ℚ)) (d : ℕ) (s : List ℕ) :
    mass (row :: rows) (d :: s) = row.getD d 0 * mass rows s := by
  unfold mass
  rw [List.length_cons, Finset.prod_range_succ', mul_comm]
  rfl

theorem sum_map_range (n : ℕ) (h : ℕ → ℚ) : ((List.range n).map h).sum = ∑ d ∈ range n, h d := by
  induction n with
  | zero => rfl
  | succ n ih =>
    rw [List.range_succ, List.map_append, List.sum_append, ih, Finset.sum_range_succ]
    simp

theorem sum_eq_sum_range (row : List ℚ) : row.sum = ∑ d ∈ range row.length, row.getD d 0 := by
  rw [← sum_map_range]
  congr 1
  apply List.ext_getElem
  · simp
  · intro i hi hi'
    simp [hi]

theorem sum_zipWith_mul {xs ys : List ℚ} (h : xs.length = ys.length) :
    (List.zipWith (· * ·) xs ys).sum = ∑ i ∈ range xs.length, xs.getD i 0 * ys.getD i 0 := by
  rw [sum_eq_sum_range, List.length_zipWith, ← h, min_self]
  refine Finset.sum_congr rfl fun i hi => ?_
  have hx := Finset.mem_range.mp hi
  have hy : i < ys.length := by rwa [← h]
  rw [List.getD_eq_getElem _ _ (by simpa using ⟨hx, hy⟩), List.getElem_zipWith,
    List.getD_eq_getElem _ _ hx, List.getD_eq_getElem _ _ hy]

theorem sum_flatMap (ss : List (List ℕ)) (n : ℕ) (h : List ℕ → ℚ) :
    ((ss.flatMap fun s => (List.range n).map fun d => d :: s).map h).sum =
      ∑ d ∈ range n, (ss.map fun s => h (d :: s)).sum := by
  induction ss with
  | nil => simp
  | cons s ss ih =>
    rw [List.flatMap_cons, List.map_append, List.sum_append, ih, List.map_map, sum_map_range,
      ← Finset.sum_add_distrib]
    rfl

/-- **The expectation is the sum over all profiles.** -/
theorem expectation_eq_sum (rows : List (List ℚ)) (f : List ℕ → ℚ) :
    expectation rows f =
      ((profiles (rows.map List.length)).map fun s => mass rows s * f s).sum := by
  induction rows generalizing f with
  | nil => simp [expectation, profiles, mass]
  | cons row rows ih =>
    rw [List.map_cons, profiles, sum_flatMap, expectation]
    refine Finset.sum_congr rfl fun d _ => ?_
    rw [ih, ← List.sum_map_mul_left]
    congr 1
    refine List.map_congr_left fun s _ => ?_
    rw [mass_cons, mul_assoc]

theorem expectation_congr (h : ∀ s ∈ profiles (rows.map List.length), f s = g s) :
    expectation rows f = expectation rows g := by
  rw [expectation_eq_sum, expectation_eq_sum]
  congr 1
  refine List.map_congr_left fun s hs => ?_
  rw [h s hs]

theorem getD_unitRow {n a : ℕ} (ha : a < n) (d : ℕ) :
    (Tableau.unitRow n a : List ℚ).getD d 0 = if d = a then 1 else 0 := by
  unfold Tableau.unitRow
  rcases Nat.lt_or_ge d n with hd | hd
  · simp [List.getD_eq_getElem?_getD, hd]
  · rw [List.getD_eq_default _ _ (by simpa using hd), if_neg (by omega)]

theorem length_unitRow {α : Type} [Scalar α] (n a : ℕ) : (Tableau.unitRow n a : List α).length = n := by
  simp [Tableau.unitRow]

theorem expectation_unitRow {n a : ℕ} (ha : a < n) (rows : List (List ℚ)) (f : List ℕ → ℚ) :
    expectation (Tableau.unitRow n a :: rows) f = expectation rows fun s => f (a :: s) := by
  rw [expectation, length_unitRow, Finset.sum_eq_single_of_mem a (Finset.mem_range.mpr ha)]
  · rw [getD_unitRow ha, if_pos rfl, one_mul]
  · intro d _ hne
    rw [getD_unitRow ha, if_neg hne, zero_mul]

/-- **The expectation is linear in every row.** -/
theorem expectation_eq_sum_unitRow {p : ℕ} (hp : p < rows.length) (f : List ℕ → ℚ) :
    expectation rows f =
      ∑ a ∈ range (rows.getD p []).length, (rows.getD p []).getD a 0 *
        expectation (rows.set p (Tableau.unitRow (rows.getD p []).length a)) f := by
  induction rows generalizing p f with
  | nil => exact absurd hp (Nat.not_lt_zero p)
  | cons row rows ih =>
    cases p with
    | zero =>
      refine Finset.sum_congr rfl fun a ha => ?_
      rw [List.set_cons_zero]
      show row.getD a 0 * _ = row.getD a 0 * expectation (Tableau.unitRow row.length a :: rows) f
      have ha' : a < row.length := Finset.mem_range.mp ha
      rw [expectation_unitRow ha']
    | succ p =>
      have hp' : p < rows.length := Nat.lt_of_succ_lt_succ hp
      show ∑ d ∈ range row.length, _ = ∑ a ∈ range (rows.getD p []).length, (rows.getD p []).getD a 0 *
        ∑ d ∈ range row.length, _
      simp only [Finset.mul_sum]
      rw [Finset.sum_comm]
      refine Finset.sum_congr rfl fun d _ => ?_
      rw [ih hp', Finset.mul_sum]
      exact Finset.sum_congr rfl fun a _ => mul_left_comm _ _ _

/-- What a player's probabilities sum to does not matter when the player chooses a pure strategy. -/
theorem expectation_set_unitRow {p n a : ℕ} (hp : p < rows.length) (ha : a < n)
    (hrow : (rows.getD p []).sum = 1) (f : List ℕ → ℚ) :
    expectation (rows.set p (Tableau.unitRow n a)) f = expectation rows fun s => f (s.set p a) := by
  induction rows generalizing p f with
  | nil => exact absurd hp (Nat.not_lt_zero p)
  | cons row rows ih =>
    cases p with
    | zero =>
      have hsum : ∑ d ∈ range row.length, row.getD d 0 = 1 := by
        rw [← sum_eq_sum_range]
        exact hrow
      rw [List.set_cons_zero, expectation_unitRow ha]
      show _ = ∑ d ∈ range row.length, row.getD d 0 * expectation rows fun s => f (a :: s)
      rw [← Finset.sum_mul, hsum, one_mul]
    | succ p =>
      refine Finset.sum_congr rfl fun d _ => ?_
      rw [ih (Nat.lt_of_succ_lt_succ hp) hrow]
      rfl

theorem IsDistribution.getD_nonneg {row : List ℚ} (h : IsDistribution row) (d : ℕ) :
    0 ≤ row.getD d 0 := by
  rcases Nat.lt_or_ge d row.length with hd | hd
  · rw [List.getD_eq_getElem _ _ hd]
    exact h.1 _ (List.getElem_mem hd)
  · rw [List.getD_eq_default _ _ hd]

theorem IsDistribution.exists_pos {row : List ℚ} (h : IsDistribution row) :
    ∃ d < row.length, 0 < row.getD d 0 := by
  by_contra hcon
  push Not at hcon
  have hzero : row.sum ≤ 0 := by
    rw [sum_eq_sum_range]
    exact Finset.sum_nonpos fun d hd => hcon d (Finset.mem_range.mp hd)
  rw [h.2] at hzero
  exact absurd hzero (by norm_num)

/-- An average is at most what none of the values exceeds. -/
theorem IsDistribution.sum_mul_le {row : List ℚ} (h : IsDistribution row) {v : ℕ → ℚ} {c : ℚ}
    (hle : ∀ a < row.length, v a ≤ c) : ∑ a ∈ range row.length, row.getD a 0 * v a ≤ c := by
  calc ∑ a ∈ range row.length, row.getD a 0 * v a
      ≤ ∑ a ∈ range row.length, row.getD a 0 * c :=
        Finset.sum_le_sum fun a ha =>
          mul_le_mul_of_nonneg_left (hle a (Finset.mem_range.mp ha)) (h.getD_nonneg a)
    _ = c := by rw [← Finset.sum_mul, ← sum_eq_sum_range, h.2, one_mul]

/-- **Only largest values have a probability** when none exceeds the average. -/
theorem IsDistribution.forall_largest_iff {row : List ℚ} (h : IsDistribution row) (v : ℕ → ℚ) :
    (∀ a < row.length, 0 < row.getD a 0 → ∀ b < row.length, v b ≤ v a) ↔
      ∀ b < row.length, v b ≤ ∑ a ∈ range row.length, row.getD a 0 * v a := by
  constructor
  · intro hlargest b hb
    have hle : ∀ a ∈ range row.length, row.getD a 0 * v b ≤ row.getD a 0 * v a := by
      intro a ha
      rcases (h.getD_nonneg a).eq_or_lt with hzero | hpos
      · rw [← hzero, zero_mul, zero_mul]
      · exact mul_le_mul_of_nonneg_left (hlargest a (Finset.mem_range.mp ha) hpos b hb) hpos.le
    calc v b = ∑ a ∈ range row.length, row.getD a 0 * v b := by
          rw [← Finset.sum_mul, ← sum_eq_sum_range, h.2, one_mul]
      _ ≤ ∑ a ∈ range row.length, row.getD a 0 * v a := Finset.sum_le_sum hle
  · intro haverage a ha hpos b hb
    -- a value below the average, that has a probability, would pull the average below itself
    refine (haverage b hb).trans (not_lt.mp fun hlt => ?_)
    have hless : ∑ c ∈ range row.length, row.getD c 0 * v c < ∑ c ∈ range row.length,
        row.getD c 0 * ∑ e ∈ range row.length, row.getD e 0 * v e := by
      apply Finset.sum_lt_sum
      · intro c hc
        exact mul_le_mul_of_nonneg_left (haverage c (Finset.mem_range.mp hc)) (h.getD_nonneg c)
      · exact ⟨a, Finset.mem_range.mpr ha, mul_lt_mul_of_pos_left hlt hpos⟩
    rw [← Finset.sum_mul, ← sum_eq_sum_range, h.2, one_mul] at hless
    exact lt_irrefl _ hless

/-- **The expectation grows with the function.** -/
theorem expectation_lt (hrows : ∀ row ∈ rows, IsDistribution row)
    (hlt : ∀ s ∈ profiles (rows.map List.length), mass rows s ≠ 0 → f s < g s) :
    expectation rows f < expectation rows g := by
  induction rows generalizing f g with
  | nil => exact hlt [] (by simp [profiles]) (by simp [mass])
  | cons row rows ih =>
    have hrow := hrows row List.mem_cons_self
    have htail : ∀ d < row.length, 0 < row.getD d 0 →
        expectation rows (fun s => f (d :: s)) < expectation rows fun s => g (d :: s) := by
      intro d hd hpos
      apply ih fun row' hrow' => hrows row' (List.mem_cons_of_mem _ hrow')
      intro s hs hmass
      apply hlt
      · rw [List.map_cons, mem_profiles]
        exact List.Forall₂.cons hd (mem_profiles.mp hs)
      · rw [mass_cons]
        exact mul_ne_zero hpos.ne' hmass
    apply Finset.sum_lt_sum
    · intro d hd
      rcases (hrow.getD_nonneg d).eq_or_lt with hzero | hpos
      · rw [← hzero, zero_mul, zero_mul]
      · exact mul_le_mul_of_nonneg_left (htail d (Finset.mem_range.mp hd) hpos).le hpos.le
    · obtain ⟨d, hd, hpos⟩ := hrow.exists_pos
      exact ⟨d, Finset.mem_range.mpr hd, mul_lt_mul_of_pos_left (htail d hd hpos) hpos⟩

end Equilibria
