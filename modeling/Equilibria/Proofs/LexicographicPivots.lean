import Mathlib
import Equilibria.Complementarity
import Equilibria.Proofs.ObjectiveAscent

/-!
# The lexicographic ratio test

Complementary pivoting compares rows by their right sides and, where these are equal, by their rows of
the inverse basis, each divided by the coefficient of the entering column:

* `Lcp.sides`, `Lcp.share` — what is compared, in the lexicographic order;
* `Lcp.lexLess_iff` — the comparison is that order;
* `Lcp.Leaves`, `Lcp.leaving?_eq_some`, `Lcp.leaving?_eq_none` — the row that leaves is the only one
  with the least share, if no two shares are equal, and some row leaves unless no coefficient is
  positive;
* `Lcp.Leaves.positive` — a step by that row keeps all sides positive;
* `Lcp.Leaves.back` — and the way back is again such a step.
-/

namespace Equilibria

open Finset (range)

namespace Lcp

/-! ### The order -/

/-- The first entries of a list, zeros after them. -/
def front (count : ℕ) (xs : List ℚ) (k : ℕ) : ℚ := if k < count then xs.getD k 0 else 0

/-- What is compared of a row: its right side and then its row of the inverse basis. -/
def sides (n : ℕ) (e : TableauRow ℚ) : Lex (ℕ → ℚ) := toLex (front (n + 1) (e.rhs :: e.coefficients))

/-- The sides of a row divided by its coefficient of a column. -/
def share (n col : ℕ) (e : TableauRow ℚ) : Lex (ℕ → ℚ) := (e.entry col)⁻¹ • sides n e

/-- The earliest of two places decides, or those after it. -/
theorem toLex_lt_iff (f g : ℕ → ℚ) : toLex f < toLex g ↔
    f 0 < g 0 ∨ f 0 = g 0 ∧ toLex (fun k => f (k + 1)) < toLex fun k => g (k + 1) := by
  constructor
  · rintro ⟨i, heq, hlt⟩
    cases i with
    | zero => exact Or.inl hlt
    | succ i =>
      exact Or.inr ⟨heq 0 i.succ_pos, i, fun j hj => heq (j + 1) (Nat.succ_lt_succ hj), hlt⟩
  · intro h
    cases h with
    | inl hlt => exact ⟨0, fun j hj => absurd hj j.not_lt_zero, hlt⟩
    | inr hrest =>
      obtain ⟨hzero, i, heq, hlt⟩ := hrest
      refine ⟨i + 1, fun j hj => ?_, hlt⟩
      cases j with
      | zero => exact hzero
      | succ j => exact heq j (Nat.lt_of_succ_lt_succ hj)

/-- **The comparison is the lexicographic order** of the first entries. -/
theorem lexLess_iff (a b : ℚ) (count : ℕ) {xs ys : List ℚ} (hx : count ≤ xs.length)
    (hy : count ≤ ys.length) : lexLess 0 a b count xs ys = true ↔
      toLex (a⁻¹ • front count xs) < toLex (b⁻¹ • front count ys) := by
  have hcons : ∀ (c x : ℚ) (count : ℕ) (xs : List ℚ), (c⁻¹ • front (count + 1) (x :: xs)) 0 = x / c ∧
      (fun k => (c⁻¹ • front (count + 1) (x :: xs)) (k + 1)) = c⁻¹ • front count xs := by
    intro c x count xs
    refine ⟨?_, funext fun k => ?_⟩
    · show c⁻¹ * x = x / c
      ring
    · simp [front]
  induction count generalizing xs ys with
  | zero =>
    have hfront : ∀ (c : ℚ) (xs : List ℚ), c⁻¹ • front 0 xs = 0 := by
      intro c xs
      funext k
      simp [front]
    rw [hfront, hfront]
    exact iff_of_false Bool.false_ne_true (lt_irrefl _)
  | succ count ih =>
    cases xs with
    | nil => simp at hx
    | cons x xs =>
      cases ys with
      | nil => simp at hy
      | cons y ys =>
        have hrest : lexLess 0 a b count xs ys = true ↔
            toLex (a⁻¹ • front count xs) < toLex (b⁻¹ • front count ys) :=
          ih (Nat.le_of_succ_le_succ hx) (Nat.le_of_succ_le_succ hy)
        rw [toLex_lt_iff, (hcons a x count xs).1, (hcons a x count xs).2, (hcons b y count ys).1,
          (hcons b y count ys).2, ← hrest]
        have hdiffer : 0 < Scalar.abs (x / a - y / b) ↔ x / a ≠ y / b := by
          rw [Scalar.abs_eq, abs_pos, sub_ne_zero]
        rw [lexLess]
        simp only [hdiffer]
        split_ifs with hne
        · simp [hne]
        · simp [not_not.mp hne]

/-! ### The row that leaves -/

variable {n col : ℕ}

theorem precedes_iff (n col : ℕ) {e e' : TableauRow ℚ} (h : n ≤ e.coefficients.length)
    (h' : n ≤ e'.coefficients.length) :
    precedes 0 n col e e' = true ↔ share n col e < share n col e' :=
  lexLess_iff _ _ (n + 1) (Nat.succ_le_succ h) (Nat.succ_le_succ h')

/-- The best of some numbered rows for an entering column. -/
structure Foremost (n col : ℕ) (es : List (TableauRow ℚ × ℕ)) (best : Option (ℕ × TableauRow ℚ)) :
    Prop where
  empty : best = none → ∀ e ∈ es, e.1.entry col ≤ 0
  least : ∀ r row, best = some (r, row) → (row, r) ∈ es ∧ 0 < row.entry col ∧
    ∀ e ∈ es, 0 < e.1.entry col → share n col row ≤ share n col e.1

theorem Foremost.better {es : List (TableauRow ℚ × ℕ)} {best : Option (ℕ × TableauRow ℚ)}
    (h : Foremost n col es best) {e : TableauRow ℚ × ℕ}
    (hlength : ∀ e' ∈ es ++ [e], n ≤ e'.1.coefficients.length) :
    Foremost n col (es ++ [e]) (better 0 n col best e) := by
  have hlast : e ∈ es ++ [e] := List.mem_append_right es List.mem_cons_self
  -- a property of all rows so far and of the new one
  have hall : ∀ {P : TableauRow ℚ × ℕ → Prop}, (∀ e' ∈ es, P e') → P e → ∀ e' ∈ es ++ [e], P e' := by
    intro P hes he
    rw [List.forall_mem_append]
    exact ⟨hes, List.forall_mem_singleton.mpr he⟩
  by_cases hle : e.1.entry col ≤ 0
  · have hkeep : Lcp.better 0 n col best e = best := if_pos hle
    rw [hkeep]
    refine ⟨fun hnone => hall (h.empty hnone) hle, fun r row hsome => ?_⟩
    obtain ⟨hmem, hpos, hleast⟩ := h.least r row hsome
    exact ⟨List.mem_append_left _ hmem, hpos, hall hleast fun hpos' => absurd hpos' (not_lt.mpr hle)⟩
  · have hpos : 0 < e.1.entry col := not_le.mp hle
    cases best with
    | none =>
      have hfirst : Lcp.better 0 n col none e = some (e.2, e.1) := if_neg hle
      rw [hfirst]
      refine ⟨(fun hnone => by cases hnone), fun r row hsome => ?_⟩
      cases hsome
      refine ⟨hlast, hpos, hall (fun e' he' hpos' => ?_) fun _ => le_rfl⟩
      exact absurd hpos' (not_lt.mpr (h.empty rfl e' he'))
    | some best =>
      obtain ⟨r, row⟩ := best
      obtain ⟨hmem, hrow, hleast⟩ := h.least r row rfl
      have hiff := precedes_iff n col (hlength e hlast)
        (hlength (row, r) (List.mem_append_left _ hmem))
      by_cases hlt : share n col e.1 < share n col row
      · have hnew : Lcp.better 0 n col (some (r, row)) e = some (e.2, e.1) :=
          (if_neg hle).trans (if_pos (hiff.mpr hlt))
        rw [hnew]
        refine ⟨(fun hnone => by cases hnone), fun r' row' hsome => ?_⟩
        cases hsome
        exact ⟨hlast, hpos, hall (fun e' he' hpos' => hlt.le.trans (hleast e' he' hpos'))
          fun _ => le_rfl⟩
      · have hold : Lcp.better 0 n col (some (r, row)) e = some (r, row) :=
          (if_neg hle).trans (if_neg (mt hiff.mp hlt))
        rw [hold]
        refine ⟨(fun hnone => by cases hnone), fun r' row' hsome => ?_⟩
        cases hsome
        exact ⟨List.mem_append_left _ hmem, hrow, hall hleast fun _ => not_lt.mp hlt⟩

theorem foremost_foldl (n col : ℕ) (es : List (TableauRow ℚ × ℕ))
    (hlength : ∀ e ∈ es, n ≤ e.1.coefficients.length) :
    Foremost n col es (es.foldl (better 0 n col) none) := by
  induction es using List.reverseRecOn with
  | nil => exact ⟨fun _ e he => absurd he (by simp), fun r row h => by cases h⟩
  | append_singleton es e ih =>
    rw [List.foldl_append]
    exact (ih fun e' he' => hlength e' (List.mem_append_left _ he')).better hlength

/-- The only row with the least share of those with a positive coefficient. -/
structure Leaves (n : ℕ) (t : Tableau ℚ) (col row : ℕ) : Prop where
  lt_length : row < t.length
  pos : 0 < (t.row row).entry col
  least : ∀ r < t.length, r ≠ row → 0 < (t.row r).entry col →
    share n col (t.row row) < share n col (t.row r)

/-- **The row that leaves**, if any coefficient is positive, is the only one with the least share. -/
theorem leaving?_cases (n col : ℕ) {t : Tableau ℚ}
    (hlength : ∀ r < t.length, n ≤ (t.row r).coefficients.length)
    (hne : ∀ r < t.length, ∀ r' < t.length, r ≠ r' → 0 < (t.row r).entry col →
      0 < (t.row r').entry col → share n col (t.row r) ≠ share n col (t.row r')) :
    (leaving? 0 n t col = none ∧ ∀ r < t.length, (t.row r).entry col ≤ 0) ∨
      ∃ row, leaving? 0 n t col = some (row, (t.row row).basic) ∧ Leaves n t col row := by
  have hentries : ∀ e ∈ t.zipIdx, e.2 < t.length ∧ t.row e.2 = e.1 := by
    rintro ⟨e, r⟩ he
    obtain ⟨hr, hget⟩ := List.getElem?_eq_some_iff.mp (List.mem_zipIdx_iff_getElem?.mp he)
    exact ⟨hr, (Tableau.row_eq_getElem t hr).trans hget⟩
  have hrows : ∀ r < t.length, (t.row r, r) ∈ t.zipIdx := by
    intro r hr
    rw [Tableau.row_eq_getElem t hr]
    exact List.mem_zipIdx_iff_getElem?.mpr (List.getElem?_eq_getElem hr)
  have hbest := foremost_foldl n col t.zipIdx fun e he => by
    rw [← (hentries e he).2]
    exact hlength _ (hentries e he).1
  cases hfold : t.zipIdx.foldl (better 0 n col) none with
  | none =>
    refine Or.inl ⟨by rw [leaving?, hfold]; rfl, fun r hr => hbest.empty hfold _ (hrows r hr)⟩
  | some best =>
    obtain ⟨r, row⟩ := best
    obtain ⟨hmem, hpos, hleast⟩ := hbest.least r row hfold
    obtain ⟨hr, hrow⟩ := hentries _ hmem
    obtain rfl : t.row r = row := hrow
    refine Or.inr ⟨r, by rw [leaving?, hfold]; rfl, hr, hpos, fun r' hr' hr'r hpos' => ?_⟩
    exact lt_of_le_of_ne (hleast _ (hrows r' hr') hpos') (hne r hr r' hr' hr'r.symm hpos hpos')

/-! ### Steps -/

theorem sides_zero (n : ℕ) (e : TableauRow ℚ) : sides n e 0 = e.rhs := rfl

theorem sides_succ (n : ℕ) (e : TableauRow ℚ) (k : ℕ) :
    sides n e (k + 1) = if k < n then e.entry k else 0 := by
  show (if k + 1 < n + 1 then (e.rhs :: e.coefficients).getD (k + 1) 0 else 0) = _
  simp only [Nat.succ_lt_succ_iff, List.getD_cons_succ]
  rfl

variable {width row : ℕ} {S : (ℕ → ℚ) → Prop} {t : Tableau ℚ}

theorem sides_pivotRows (h : t.Solves width S) (hrow : row < t.length) {r : ℕ} (hr : r < t.length) :
    sides n ((t.pivotRows row col).row r) =
      if r = row then share n col (t.row row)
      else sides n (t.row r) - (t.row r).entry col • share n col (t.row row) := by
  funext k
  cases k with
  | zero =>
    rw [sides_zero, h.rhs_pivotRows hrow hr, apply_ite (fun v : Lex (ℕ → ℚ) => v 0)]
    refine if_congr Iff.rfl ?_ ?_
    · show _ = ((t.row row).entry col)⁻¹ * sides n (t.row row) 0
      rw [sides_zero]
      ring
    · show _ = sides n (t.row r) 0 -
        (t.row r).entry col * (((t.row row).entry col)⁻¹ * sides n (t.row row) 0)
      rw [sides_zero, sides_zero]
      ring
  | succ k =>
    rw [sides_succ, h.entry_pivotRows hrow hr, apply_ite (fun v : Lex (ℕ → ℚ) => v (k + 1))]
    have hscaled : share n col (t.row row) (k + 1) =
        ((t.row row).entry col)⁻¹ * sides n (t.row row) (k + 1) := rfl
    have hcleared : (sides n (t.row r) - (t.row r).entry col • share n col (t.row row)) (k + 1) =
        sides n (t.row r) (k + 1) - (t.row r).entry col * share n col (t.row row) (k + 1) := rfl
    rw [hcleared, hscaled, sides_succ, sides_succ]
    split_ifs <;> ring

/-- **A step by the row that leaves keeps all sides positive.** -/
theorem Leaves.positive (hl : Leaves n t col row) (h : t.Solves width S)
    (hpos : ∀ r < t.length, 0 < sides n (t.row r)) :
    ∀ r < (t.pivotRows row col).length, 0 < sides n ((t.pivotRows row col).row r) := by
  intro r hr
  rw [Tableau.length_pivotRows] at hr
  have hshare : 0 < share n col (t.row row) :=
    smul_pos (inv_pos.mpr hl.pos) (hpos row hl.lt_length)
  rw [sides_pivotRows h hl.lt_length hr]
  split_ifs with hne
  · exact hshare
  · rw [sub_pos]
    cases lt_or_ge 0 ((t.row r).entry col) with
    | inl hr0 =>
      have hless := smul_lt_smul_of_pos_left (hl.least r hr hne hr0) hr0
      rwa [share, share, smul_inv_smul₀ hr0.ne'] at hless
    | inr hr0 => exact (smul_nonpos_of_nonpos_of_nonneg hr0 hshare.le).trans_lt (hpos r hr)

/-- **The way back**: after the step the column that has left is taken in again by the same row. -/
theorem Leaves.back (hl : Leaves n t col row) (h : t.Solves width S)
    (hpos : ∀ r < t.length, 0 < sides n (t.row r)) :
    Leaves n (t.pivotRows row col) (t.row row).basic row := by
  have hrow := hl.lt_length
  have hunit := h.unit row hrow row hrow
  rw [if_pos rfl] at hunit
  have hown : ((t.pivotRows row col).row row).entry (t.row row).basic = ((t.row row).entry col)⁻¹ := by
    rw [h.entry_pivotRows hrow hrow, if_pos rfl, hunit, one_div]
  refine ⟨by rwa [Tableau.length_pivotRows], by rw [hown]; exact inv_pos.mpr hl.pos, ?_⟩
  intro r hr hne hr0
  rw [Tableau.length_pivotRows] at hr
  have hother : ((t.pivotRows row col).row r).entry (t.row row).basic =
      -((t.row r).entry col * ((t.row row).entry col)⁻¹) := by
    rw [h.entry_pivotRows hrow hr, if_neg hne, h.unit r hr row hrow, if_neg hne, hunit, one_div,
      zero_sub]
  set c : ℚ := -((t.row r).entry col * ((t.row row).entry col)⁻¹) with hc
  have hcpos : 0 < c := by rwa [hother] at hr0
  have hleast : share n (t.row row).basic ((t.pivotRows row col).row row) = sides n (t.row row) := by
    rw [share, hown, inv_inv, sides_pivotRows h hrow hrow, if_pos rfl, share,
      smul_inv_smul₀ hl.pos.ne']
  have hlarger : share n (t.row row).basic ((t.pivotRows row col).row r) =
      c⁻¹ • sides n (t.row r) + sides n (t.row row) := by
    have hcleared : sides n (t.row r) - (t.row r).entry col • share n col (t.row row) =
        sides n (t.row r) + c • sides n (t.row row) := by
      rw [share, smul_smul, hc, neg_smul, sub_eq_add_neg]
    rw [share, hother, sides_pivotRows h hrow hr, if_neg hne, hcleared, smul_add,
      inv_smul_smul₀ hcpos.ne']
  rw [hleast, hlarger]
  exact lt_add_of_pos_left _ (smul_pos (inv_pos.mpr hcpos) (hpos r hr))

end Lcp

end Equilibria
