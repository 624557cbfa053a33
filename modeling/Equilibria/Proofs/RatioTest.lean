import Mathlib
import Equilibria.Polytope.Tableau
import Equilibria.Proofs.ExactScalar

/-!
# Rows, pivot steps and the ratio test

What the steps on a tableau do to its numbers, over the rationals:

* `row_pivotRows` — a pivot step scales the pivot row and clears its column in every other row,
  with `entry_scaleRow` and `clearRow_spec` for the entries and `mem_basis_pivotRows_iff` for the
  basis;
* `mem_leavingRows_iff` — the ratio test allows exactly the rows with a positive coefficient and
  the least ratio, all ties included.

Nothing here asks that a tableau be solved for its basis.
-/

namespace Equilibria

open Finset (range)

namespace TableauRow

/-- The coefficient of a column, zero beyond the last one. -/
def entry (row : TableauRow ℚ) (c : ℕ) : ℚ := row.coefficients.getD c 0

/-- The left side of a row at values of the first `width` columns. -/
def lhs (width : ℕ) (z : ℕ → ℚ) (row : TableauRow ℚ) : ℚ := ∑ c ∈ range width, row.entry c * z c

end TableauRow

namespace Tableau

/-! ### Rows by their number -/

/-- A row, an empty one past the last. -/
def row (t : Tableau ℚ) (r : ℕ) : TableauRow ℚ := t.getD r ⟨[], 0, 0⟩

theorem row_eq_getElem (t : Tableau ℚ) {r : ℕ} (hr : r < t.length) : t.row r = t[r] :=
  List.getD_eq_getElem _ _ hr

theorem row_mem (t : Tableau ℚ) {r : ℕ} (hr : r < t.length) : t.row r ∈ t := by
  rw [row_eq_getElem t hr]
  exact List.getElem_mem hr

theorem mem_iff_row (t : Tableau ℚ) {e : TableauRow ℚ} : e ∈ t ↔ ∃ r < t.length, t.row r = e := by
  constructor
  · intro h
    obtain ⟨r, hr, rfl⟩ := List.mem_iff_getElem.mp h
    exact ⟨r, hr, row_eq_getElem t hr⟩
  · rintro ⟨r, hr, rfl⟩
    exact row_mem t hr

theorem sum_map_eq_sum_range {M : Type*} [AddCommMonoid M] (t : Tableau ℚ)
    (f : TableauRow ℚ → M) : (t.map f).sum = ∑ r ∈ range t.length, f (t.row r) := by
  induction t with
  | nil => rfl
  | cons e t ih =>
    rw [List.map_cons, List.sum_cons, ih, List.length_cons, Finset.sum_range_succ']
    exact add_comm _ _

/-! ### Entries after a pivot step -/

theorem entry_scaleRow (e : TableauRow ℚ) (col c : ℕ) :
    (scaleRow e col).entry c = e.entry c / e.entry col := by
  simp only [TableauRow.entry, scaleRow, List.getD_eq_getElem?_getD, List.getElem?_map]
  cases e.coefficients[c]? with
  | none => simp
  | some v => simp

theorem getD_lessMultiple (f : ℚ) (ps es : List ℚ) (h : ps.length = es.length) (c : ℕ) :
    (lessMultiple f ps es).getD c 0 = es.getD c 0 - f * ps.getD c 0 := by
  induction ps generalizing es c with
  | nil =>
    rw [List.eq_nil_of_length_eq_zero h.symm]
    simp [lessMultiple]
  | cons p ps ih =>
    cases es with
    | nil => simp at h
    | cons e es =>
      cases c with
      | zero => simp [lessMultiple]
      | succ c => simpa [lessMultiple] using ih es (by simpa using h) c

theorem length_lessMultiple (f : ℚ) (ps es : List ℚ) (h : ps.length = es.length) :
    (lessMultiple f ps es).length = es.length := by
  induction ps generalizing es with
  | nil =>
    rw [List.eq_nil_of_length_eq_zero h.symm]
    rfl
  | cons p ps ih =>
    cases es with
    | nil => simp at h
    | cons e es => simpa [lessMultiple] using ih es (by simpa using h)

/-- Clearing a column subtracts a multiple of the pivot row, also where the multiple is zero. -/
theorem clearRow_spec (pivotRow e : TableauRow ℚ) (col : ℕ)
    (h : pivotRow.coefficients.length = e.coefficients.length) :
    (∀ c, (clearRow pivotRow e col).entry c = e.entry c - e.entry col * pivotRow.entry c) ∧
      (clearRow pivotRow e col).rhs = e.rhs - e.entry col * pivotRow.rhs ∧
      (clearRow pivotRow e col).basic = e.basic ∧
      (clearRow pivotRow e col).coefficients.length = e.coefficients.length := by
  by_cases hzero : e.entry col = 0
  · have hkeep : clearRow pivotRow e col = e := by
      unfold clearRow
      exact if_pos ((Scalar.isZero_iff _).mpr hzero)
    rw [hkeep, hzero]
    simp
  · have hclear : clearRow pivotRow e col =
        ⟨lessMultiple (e.entry col) pivotRow.coefficients e.coefficients,
          e.rhs - e.entry col * pivotRow.rhs, e.basic⟩ := by
      unfold clearRow
      exact if_neg (mt (Scalar.isZero_iff _).mp hzero)
    rw [hclear]
    exact ⟨getD_lessMultiple _ _ _ h, rfl, rfl, length_lessMultiple _ _ _ h⟩

theorem length_pivotRows (t : Tableau ℚ) (row col : ℕ) :
    (t.pivotRows row col).length = t.length := by
  unfold pivotRows
  split
  · rfl
  · simp

/-- **The basis after a pivot step**, in any arithmetic: the column that has entered takes the place of
the one that was basic in the row. -/
theorem mem_basis_pivotRows_iff {α : Type} [Scalar α] {t : Tableau α} (hnodup : t.basis.Nodup)
    {row b : ℕ} (hb : t.basis[row]? = some b) (col c : ℕ) :
    c ∈ (t.pivotRows row col).basis ↔ c = col ∨ c ∈ t.basis ∧ c ≠ b := by
  obtain ⟨hrow, rfl⟩ := List.getElem?_eq_some_iff.mp hb
  rw [basis_pivotRows, List.mem_iff_getElem]
  constructor
  · rintro ⟨i, hi, rfl⟩
    have hi' : i < t.basis.length := by rwa [List.length_set] at hi
    rw [List.getElem_set]
    split_ifs with heq
    · exact Or.inl rfl
    · exact Or.inr ⟨List.getElem_mem hi', fun hsame => heq (hnodup.getElem_inj_iff.mp hsame).symm⟩
  · intro hc
    cases hc with
    | inl hcol =>
      refine ⟨row, by rwa [List.length_set], ?_⟩
      rw [List.getElem_set_self, hcol]
    | inr hold =>
      obtain ⟨i, hi, rfl⟩ := List.getElem_of_mem hold.1
      refine ⟨i, by rwa [List.length_set], ?_⟩
      rw [List.getElem_set_ne]
      rintro rfl
      exact hold.2 rfl

/-- The rows after a pivot step: the pivot row scaled, the others cleared by it. -/
theorem row_pivotRows (t : Tableau ℚ) {row col r : ℕ} (hrow : row < t.length) (hr : r < t.length) :
    (t.pivotRows row col).row r =
      if r = row then scaleRow (t.row row) col
      else clearRow (scaleRow (t.row row) col) (t.row r) col := by
  have hr' : r < (t.pivotRows row col).length := by rwa [length_pivotRows]
  rw [row_eq_getElem _ hr', row_eq_getElem _ hr, row_eq_getElem _ hrow]
  simp only [pivotRows, List.getElem?_eq_getElem hrow, List.getElem_mapIdx]

/-! ### The ratio test -/

/-- What the least ratio is after some ratios, each with its row. -/
structure LeastRatio.Of (qs : List (ℚ × ℕ)) (found : LeastRatio ℚ) : Prop where
  empty : found.ratio = none → qs = []
  least : ∀ b, found.ratio = some b → (∀ q ∈ qs, b ≤ q.1) ∧ ∃ r, (b, r) ∈ qs
  rows : ∀ r, r ∈ found.rows ↔ ∃ b, found.ratio = some b ∧ (b, r) ∈ qs

theorem LeastRatio.add_of_some {least : LeastRatio ℚ} {b : ℚ} (h : least.ratio = some b) (q : ℚ)
    (r : ℕ) : least.add q r =
      if q = b then ⟨some b, least.rows ++ [r]⟩ else if b < q then least else ⟨some q, [r]⟩ := by
  simp only [LeastRatio.add, h]
  exact if_congr (Scalar.approxEq_iff q b) rfl rfl

theorem LeastRatio.Of.add {qs : List (ℚ × ℕ)} {least : LeastRatio ℚ} (h : LeastRatio.Of qs least)
    (q : ℚ) (r : ℕ) : LeastRatio.Of (qs ++ [(q, r)]) (least.add q r) := by
  cases hratio : least.ratio with
  | none =>
    have hadd : least.add q r = ⟨some q, [r]⟩ := by simp only [LeastRatio.add, hratio]
    rw [hadd, h.empty hratio]
    refine ⟨by simp, by simp, fun r' => ?_⟩
    simp [eq_comm]
  | some b =>
    obtain ⟨hleast, r₀, hr₀⟩ := h.least b hratio
    have hrows : ∀ r', r' ∈ least.rows ↔ (b, r') ∈ qs := by
      intro r'
      rw [h.rows, hratio]
      simp
    rcases lt_trichotomy q b with hlt | heq | hgt
    · have hadd : least.add q r = ⟨some q, [r]⟩ := by
        rw [LeastRatio.add_of_some hratio, if_neg hlt.ne, if_neg (not_lt.mpr hlt.le)]
      rw [hadd]
      refine ⟨by simp, ?_, fun r' => ?_⟩
      · rintro _ ⟨⟩
        refine ⟨List.forall_mem_append.mpr ⟨fun q' hq' => ?_, ?_⟩, r, by simp⟩
        · exact hlt.le.trans (hleast q' hq')
        · exact List.forall_mem_singleton.mpr le_rfl
      · have hnot : ∀ r', (q, r') ∉ qs := fun r' hr' => absurd (hleast _ hr') (not_le.mpr hlt)
        simp [hnot]
    · have hadd : least.add q r = ⟨some b, least.rows ++ [r]⟩ := by
        rw [LeastRatio.add_of_some hratio, if_pos heq]
      rw [hadd]
      subst heq
      refine ⟨by simp, ?_, fun r' => ?_⟩
      · rintro _ ⟨⟩
        exact ⟨List.forall_mem_append.mpr ⟨hleast, List.forall_mem_singleton.mpr le_rfl⟩, r, by simp⟩
      · simp [hrows]
    · have hadd : least.add q r = least := by
        rw [LeastRatio.add_of_some hratio, if_neg hgt.ne', if_pos hgt]
      rw [hadd]
      refine ⟨by simp [hratio], ?_, fun r' => ?_⟩
      · intro b' hb'
        obtain rfl : b = b' := by simpa [hratio] using hb'
        exact ⟨List.forall_mem_append.mpr ⟨hleast, List.forall_mem_singleton.mpr hgt.le⟩, r₀,
          by simp [hr₀]⟩
      · have hne : b ≠ q := hgt.ne
        simp [hrows, hratio, hne]

theorem LeastRatio.of_foldl (qs : List (ℚ × ℕ)) :
    LeastRatio.Of qs (qs.foldl (fun least q => least.add q.1 q.2) ⟨none, []⟩) := by
  induction qs using List.reverseRecOn with
  | nil => exact ⟨fun _ => rfl, by simp, by simp⟩
  | append_singleton qs q ih =>
    rw [List.foldl_append]
    exact ih.add q.1 q.2

/-- The ratios of the rows with a positive coefficient, each with its row. -/
def ratios (t : Tableau ℚ) (col : ℕ) : List (ℚ × ℕ) :=
  t.zipIdx.filterMap fun e =>
    if 0 < e.1.entry col then some (e.1.rhs / e.1.entry col, e.2) else none

theorem mem_ratios (t : Tableau ℚ) (col : ℕ) {q : ℚ} {r : ℕ} :
    (q, r) ∈ t.ratios col ↔
      r < t.length ∧ 0 < (t.row r).entry col ∧ (t.row r).rhs / (t.row r).entry col = q := by
  simp only [ratios, List.mem_filterMap, Prod.exists, List.mem_zipIdx_iff_getElem?]
  constructor
  · rintro ⟨e, i, he, hif⟩
    obtain ⟨hi, rfl⟩ := List.getElem?_eq_some_iff.mp he
    split_ifs at hif with hpos
    simp only [Option.some.injEq, Prod.mk.injEq] at hif
    obtain ⟨rfl, rfl⟩ := hif
    rw [row_eq_getElem t hi]
    exact ⟨hi, hpos, rfl⟩
  · rintro ⟨hr, hpos, rfl⟩
    refine ⟨t.row r, r, ?_, ?_⟩
    · rw [row_eq_getElem t hr]
      exact List.getElem?_eq_getElem hr
    · rw [if_pos hpos]

theorem leavingRows_eq (t : Tableau ℚ) (col : ℕ) :
    t.leavingRows col =
      ((t.ratios col).foldl (fun least q => least.add q.1 q.2) (⟨none, []⟩ : LeastRatio ℚ)).rows := by
  unfold leavingRows ratios
  rw [List.foldl_filterMap]
  congr 2
  funext least e
  by_cases hpos : 0 < e.1.entry col
  · have h := (Scalar.isStrictlyPositive_iff _).mpr hpos
    rw [if_pos hpos]
    exact if_pos h
  · have h : ¬ Scalar.isStrictlyPositive (e.1.entry col) = true :=
      fun h => hpos ((Scalar.isStrictlyPositive_iff _).mp h)
    rw [if_neg hpos]
    exact if_neg h

/-- **The ratio test.**  A row may be left exactly if its coefficient is positive and no other row
with a positive coefficient has a smaller ratio. -/
theorem mem_leavingRows_iff (t : Tableau ℚ) (col r : ℕ) :
    r ∈ t.leavingRows col ↔
      r < t.length ∧ 0 < (t.row r).entry col ∧
        ∀ r' < t.length, 0 < (t.row r').entry col →
          (t.row r).rhs / (t.row r).entry col ≤ (t.row r').rhs / (t.row r').entry col := by
  have hof := LeastRatio.of_foldl (t.ratios col)
  rw [leavingRows_eq, hof.rows]
  constructor
  · rintro ⟨b, hb, hr⟩
    obtain ⟨hlt, hpos, rfl⟩ := (mem_ratios t col).mp hr
    exact ⟨hlt, hpos, fun r' hr' hpos' =>
      (hof.least _ hb).1 _ ((mem_ratios t col).mpr ⟨hr', hpos', rfl⟩)⟩
  · rintro ⟨hlt, hpos, hmin⟩
    have hr := (mem_ratios t col).mpr ⟨hlt, hpos, rfl⟩
    cases hb : ((t.ratios col).foldl (fun least q => least.add q.1 q.2)
        (⟨none, []⟩ : LeastRatio ℚ)).ratio with
    | none =>
      rw [hof.empty hb] at hr
      simp at hr
    | some b =>
      obtain ⟨hleast, r₀, hr₀⟩ := hof.least b hb
      obtain ⟨hlt₀, hpos₀, hq₀⟩ := (mem_ratios t col).mp hr₀
      have hle := hmin r₀ hlt₀ hpos₀
      rw [hq₀] at hle
      exact ⟨b, rfl, by rwa [← le_antisymm hle (hleast _ hr)]⟩

end Tableau

end Equilibria
