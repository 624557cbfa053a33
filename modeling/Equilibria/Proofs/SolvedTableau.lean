import Mathlib
import Equilibria.Proofs.SolvedSystems

/-!
# Solved tableaux

A tableau of a polytope is a way to write the system `C x + s = 1`: solved for the basic columns,
with right sides that are not negative.  `Tableau.Solved` says so, and it is the one invariant that
everything about the vertex enumeration is read off:

* `solved_origin` — the tableau of the origin is solved;
* `Solved.pivotRows` — a pivot step that passes the ratio test leaves the tableau solved.

Every pivot step leaves the system solved (`Solves.pivotRows`); that the right sides stay
non-negative is what the ratio test is for.
-/

namespace Equilibria

open Finset (range)

/-! ### The system of a polytope -/

namespace Polytope

/-- The number of columns of a tableau. -/
def width (p : Polytope ℚ) : ℕ := p.dimension + p.numConstraints

/-- A coefficient, zero outside of the constraints. -/
def coefficient (p : Polytope ℚ) (j i : ℕ) : ℚ := (p.constraints.getD j []).getD i 0

/-- Values of the columns that solve `C x + s = 1`. -/
def Solution (p : Polytope ℚ) (z : ℕ → ℚ) : Prop :=
  ∀ j < p.numConstraints,
    ∑ i ∈ range p.dimension, p.coefficient j i * z i + z (p.dimension + j) = 1

/-- At least one constraint, all of one length and with positive coefficients only. -/
structure Positive (p : Polytope ℚ) : Prop where
  nonempty : 0 < p.numConstraints
  rectangular : ∀ row ∈ p.constraints, row.length = p.dimension
  positive : ∀ row ∈ p.constraints, ∀ c ∈ row, 0 < c

theorem Positive.coefficient_pos {p : Polytope ℚ} (hp : p.Positive) {j i : ℕ}
    (hj : j < p.numConstraints) (hi : i < p.dimension) : 0 < p.coefficient j i := by
  have hj' : j < p.constraints.length := hj
  have hmem := List.getElem_mem hj'
  have hi' : i < p.constraints[j].length := by rwa [hp.rectangular _ hmem]
  unfold coefficient
  rw [List.getD_eq_getElem _ _ hj', List.getD_eq_getElem _ _ hi']
  exact hp.positive _ hmem _ (List.getElem_mem hi')

/-- **The polytope is bounded**: a direction in which it has no end is zero. -/
theorem Positive.eq_zero_of_nonneg {p : Polytope ℚ} (hp : p.Positive) {u : ℕ → ℚ}
    (hnonneg : ∀ c, 0 ≤ u c) (hu : ∀ j < p.numConstraints,
      ∑ i ∈ range p.dimension, p.coefficient j i * u i + u (p.dimension + j) = 0)
    {c : ℕ} (hc : c < p.width) : u c = 0 := by
  have hterm : ∀ j < p.numConstraints, ∀ i ∈ range p.dimension, 0 ≤ p.coefficient j i * u i := by
    intro j hj i hi
    exact mul_nonneg (hp.coefficient_pos hj (Finset.mem_range.mp hi)).le (hnonneg i)
  rcases Nat.lt_or_ge c p.dimension with hlt | hge
  · have hle := Finset.single_le_sum (hterm 0 hp.nonempty) (Finset.mem_range.mpr hlt)
    have hprod : p.coefficient 0 c * u c = 0 :=
      le_antisymm (by linarith [hu 0 hp.nonempty, hnonneg (p.dimension + 0)])
        (hterm 0 hp.nonempty c (Finset.mem_range.mpr hlt))
    exact (mul_eq_zero.mp hprod).resolve_left (hp.coefficient_pos hp.nonempty hlt).ne'
  · have hj : c - p.dimension < p.numConstraints := by
      unfold width at hc
      omega
    have hsum := hu _ hj
    rw [Nat.add_sub_cancel' hge] at hsum
    linarith [hnonneg c, Finset.sum_nonneg (hterm _ hj)]

end Polytope

namespace Tableau

/-- **The invariant of all pivot steps.**  A tableau is the system of a polytope solved for its
basic columns, and its basic solution is not negative. -/
structure Solved (p : Polytope ℚ) (t : Tableau ℚ) : Prop where
  /-- There is a row per constraint. -/
  size : t.length = p.numConstraints
  /-- Every row has a coefficient per column. -/
  lengths : ∀ r < t.length, (t.row r).coefficients.length = p.width
  /-- Basic columns are columns. -/
  basic_lt : ∀ r < t.length, (t.row r).basic < p.width
  /-- Every basic column is the unit vector of its row. -/
  unit : ∀ r < t.length, ∀ r' < t.length,
    (t.row r).entry (t.row r').basic = if r = r' then 1 else 0
  /-- The rows have the solutions of the system. -/
  solution : ∀ z : ℕ → ℚ,
    (∀ r < t.length, (t.row r).lhs p.width z = (t.row r).rhs) ↔ p.Solution z
  /-- Right sides are not negative. -/
  rhs_nonneg : ∀ r < t.length, 0 ≤ (t.row r).rhs

variable {p : Polytope ℚ} {t : Tableau ℚ}

theorem Solved.solves (h : t.Solved p) : t.Solves p.width p.Solution :=
  ⟨h.lengths, h.basic_lt, h.unit, h.solution⟩

theorem Solved.card_basis (h : t.Solved p) : t.basis.toFinset.card = p.numConstraints :=
  h.solves.card_basis.trans h.size

/-- A basis is a set of columns. -/
theorem Solved.nodup_basis_and_lt (h : t.Solved p) : t.basis.Nodup ∧ ∀ c ∈ t.basis, c < p.width := by
  refine ⟨h.solves.nodup_basis, fun c hc => ?_⟩
  obtain ⟨r, hr, rfl⟩ := (mem_basis_iff t).mp hc
  exact h.basic_lt r hr

/-! ### The tableau of the origin -/

theorem length_origin (p : Polytope ℚ) : (origin p).length = p.numConstraints := by
  simp [origin, Polytope.numConstraints]

theorem row_origin (p : Polytope ℚ) {j : ℕ} (hj : j < p.numConstraints) :
    (origin p).row j =
      ⟨p.constraints.getD j [] ++ unitRow p.numConstraints j, 1, p.dimension + j⟩ := by
  have hj' : j < p.constraints.length := hj
  rw [row_eq_getElem _ (by rwa [length_origin])]
  simp only [origin, List.getElem_mapIdx, List.getD_eq_getElem _ _ hj']

theorem entry_origin (hp : p.Positive) {j : ℕ} (hj : j < p.numConstraints) (c : ℕ) :
    ((origin p).row j).entry c =
      if c < p.dimension then p.coefficient j c
      else if c = p.dimension + j then 1 else 0 := by
  have hj' : j < p.constraints.length := hj
  have hlen : (p.constraints.getD j []).length = p.dimension := by
    rw [List.getD_eq_getElem _ _ hj']
    exact hp.rectangular _ (List.getElem_mem hj')
  rw [row_origin p hj]
  unfold TableauRow.entry
  split_ifs with hc he
  · rw [List.getD_append _ _ _ _ (by rwa [hlen])]
    rfl
  · subst he
    rw [List.getD_append_right _ _ _ _ (by omega), hlen]
    simp [unitRow, hj]
  · rw [List.getD_append_right _ _ _ _ (by omega), hlen]
    simp only [unitRow, List.getD_eq_getElem?_getD, List.getElem?_map]
    rcases Nat.lt_or_ge (c - p.dimension) p.numConstraints with hlt | hge
    · rw [List.getElem?_range hlt]
      have : c - p.dimension ≠ j := by omega
      simp [this]
    · rw [List.getElem?_eq_none (by simpa using hge)]
      rfl

theorem lhs_origin (hp : p.Positive) {j : ℕ} (hj : j < p.numConstraints) (z : ℕ → ℚ) :
    ((origin p).row j).lhs p.width z =
      ∑ i ∈ range p.dimension, p.coefficient j i * z i + z (p.dimension + j) := by
  unfold TableauRow.lhs Polytope.width
  rw [Finset.sum_range_add]
  congr 1
  · refine Finset.sum_congr rfl fun i hi => ?_
    rw [entry_origin hp hj, if_pos (Finset.mem_range.mp hi)]
  · rw [Finset.sum_eq_single_of_mem j (Finset.mem_range.mpr hj)]
    · rw [entry_origin hp hj, if_neg (by omega), if_pos rfl, one_mul]
    · intro c _ hc
      rw [entry_origin hp hj, if_neg (by omega), if_neg (by omega), zero_mul]

/-- The walk starts from a solved tableau. -/
theorem solved_origin (hp : p.Positive) : (origin p).Solved p where
  size := length_origin p
  lengths := by
    intro r hr
    rw [length_origin] at hr
    have hr' : r < p.constraints.length := hr
    rw [row_origin p hr, List.length_append, List.getD_eq_getElem _ _ hr',
      hp.rectangular _ (List.getElem_mem hr')]
    simp [unitRow, Polytope.width]
  basic_lt := by
    intro r hr
    rw [length_origin] at hr
    rw [row_origin p hr]
    exact Nat.add_lt_add_left hr _
  unit := by
    intro r hr r' hr'
    rw [length_origin] at hr hr'
    have hbasic : ((origin p).row r').basic = p.dimension + r' := by rw [row_origin p hr']
    rw [entry_origin hp hr, hbasic, if_neg (by omega)]
    exact if_congr (by omega) rfl rfl
  solution := by
    intro z
    rw [length_origin]
    refine forall₂_congr fun r hr => ?_
    rw [lhs_origin hp hr, row_origin p hr]
  rhs_nonneg := by
    intro r hr
    rw [length_origin] at hr
    rw [row_origin p hr]
    exact zero_le_one

/-! ### A pivot step keeps the invariant -/

/-- **A pivot step that passes the ratio test keeps the invariant.** -/
theorem Solved.pivotRows (h : t.Solved p) {row col : ℕ} (hcol : col < p.width)
    (hleave : row ∈ t.leavingRows col) : (t.pivotRows row col).Solved p := by
  obtain ⟨hrow, hpos, hleast⟩ := (mem_leavingRows_iff t col row).mp hleave
  have hlen := length_pivotRows t row col
  obtain ⟨hlengths, hbasic, hunit, hsolution⟩ := h.solves.pivotRows hrow hcol hpos.ne'
  refine ⟨hlen.trans h.size, hlengths, hbasic, hunit, hsolution, ?_⟩
  intro r hr
  rw [hlen] at hr
  have hratio : 0 ≤ (t.row row).rhs / (t.row row).entry col :=
    div_nonneg (h.rhs_nonneg row hrow) hpos.le
  rw [h.solves.rhs_pivotRows hrow hr]
  split_ifs
  · exact hratio
  · rcases lt_or_ge 0 ((t.row r).entry col) with hr0 | hr0
    · have hmin := mul_le_mul_of_nonneg_left (hleast r hr hr0) hr0.le
      rw [mul_div_cancel₀ _ hr0.ne'] at hmin
      linarith
    · have hneg := mul_nonpos_of_nonpos_of_nonneg hr0 hratio
      linarith [h.rhs_nonneg r hr]

/-- Exact pivot steps never leave the finite numbers. -/
theorem pivot_eq (t : Tableau ℚ) (row col : ℕ) : t.pivot row col = .ok (t.pivotRows row col) := by
  have hfinite : isFinite (t.pivotRows row col) = true := by
    simp [isFinite, Scalar.isFinite]
  exact if_pos hfinite

end Tableau

end Equilibria
