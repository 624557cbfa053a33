import Mathlib
import Equilibria.Proofs.SolvedTableau

/-!
# Basic solutions

The basic solution of a solved tableau gives the basic columns their right sides and the others
zero.  Three things follow from the invariant alone:

* `Solved.exists_leavingRow` — every column that is not basic can enter, because a polytope with
  positive coefficients is bounded;
* `Solved.perm_of_key` — the basis determines the tableau up to the order of its rows, so that a
  search may drop a tableau whose basis it has seen;
* `Solved.getD_point` — the point that the search notes is the basic solution.

All three move a solution along `direction`, the way the basic columns change when one other column
grows.
-/

namespace Equilibria

open Finset (range)

namespace Tableau

variable {p : Polytope ℚ} {t : Tableau ℚ}

/-! ### Basic solutions -/

theorem Solved.basicSolution_nonneg (h : t.Solved p) (c : ℕ) : 0 ≤ t.basicSolution c :=
  Tableau.basicSolution_nonneg h.rhs_nonneg c

theorem Solved.sum_direction (h : t.Solved p) {col : ℕ} (hcol : col < p.width) {j : ℕ}
    (hj : j < p.numConstraints) :
    ∑ i ∈ range p.dimension, p.coefficient j i * t.direction col i +
      t.direction col (p.dimension + j) = 0 := by
  have hz := h.solves.solution_basicSolution
  have hmoved := h.solves.solution_add_direction hcol hz j hj
  simp only [Pi.add_apply, mul_add, Finset.sum_add_distrib] at hmoved
  linarith [hz j hj]

/-- **Some row limits every column**: a column without a positive coefficient could grow without
end. -/
theorem Solved.exists_entry_pos (h : t.Solved p) (hp : p.Positive) {col : ℕ} (hcol : col < p.width)
    (hbasis : col ∉ t.basis) : ∃ r < t.length, 0 < (t.row r).entry col := by
  by_contra hcon
  push Not at hcon
  have hzero := hp.eq_zero_of_nonneg (direction_nonneg hcon)
    (fun j hj => h.sum_direction hcol hj) hcol
  rw [direction_self hbasis] at hzero
  exact one_ne_zero hzero

/-- A column that is not basic can always enter. -/
theorem Solved.exists_leavingRow (h : t.Solved p) (hp : p.Positive) {col : ℕ}
    (hcol : col < p.width) (hbasis : col ∉ t.basis) : ∃ r, r ∈ t.leavingRows col := by
  obtain ⟨r, ⟨hr, hpos⟩, hmin⟩ := Set.exists_min_image
    {r | r < t.length ∧ 0 < (t.row r).entry col} (fun r => (t.row r).rhs / (t.row r).entry col)
    ((Set.finite_lt_nat t.length).subset fun r hr => hr.1) (h.exists_entry_pos hp hcol hbasis)
  exact ⟨r, (mem_leavingRows_iff t col r).mpr ⟨hr, hpos, fun r' hr' hpos' => hmin r' ⟨hr', hpos'⟩⟩⟩

/-! ### Bases determine tableaux -/

theorem mem_basis_of_key {t' : Tableau ℚ} (hkey : t.key = t'.key) (c : ℕ) :
    c ∈ t.basis ↔ c ∈ t'.basis := by
  have h₁ := perm_ascending t.basis
  have h₂ := perm_ascending t'.basis
  rw [← h₁.mem_iff, ← h₂.mem_iff]
  unfold key at hkey
  rw [hkey]

/-- **A tableau is determined by its basis** up to the order of its rows. -/
theorem Solved.perm_of_key (h : t.Solved p) {t' : Tableau ℚ} (h' : t'.Solved p)
    (hkey : t.key = t'.key) : t.Perm t' := by
  have hsub : ∀ {u u' : Tableau ℚ}, u.Solved p → u'.Solved p → u.key = u'.key → ∀ e ∈ u, e ∈ u' := by
    intro u u' hu hu' hkey e he
    obtain ⟨r, hr, rfl⟩ := (mem_iff_row u).mp he
    have hmem : (u.row r).basic ∈ u'.basis :=
      (mem_basis_of_key hkey _).mp ((mem_basis_iff u).mpr ⟨r, hr, rfl⟩)
    obtain ⟨r', hr', hbasic⟩ := (mem_basis_iff u').mp hmem
    rw [hu.solves.row_eq_row hu'.solves (mem_basis_of_key hkey) hr hr' hbasic.symm]
    exact row_mem u' hr'
  rw [List.perm_ext_iff_of_nodup (List.Nodup.of_map _ h.solves.nodup_basis)
    (List.Nodup.of_map _ h'.solves.nodup_basis)]
  exact fun e => ⟨hsub h h' hkey e, hsub h' h hkey.symm e⟩

/-! ### The point of a tableau -/

theorem length_point (d : ℕ) (t : Tableau ℚ) : (t.point d).length = d := by
  have h : ∀ x : List ℚ, (t.foldl (fun x row =>
      if row.basic < d then x.set row.basic row.rhs else x) x).length = x.length := by
    induction t with
    | nil => exact fun x => rfl
    | cons e t ih =>
      intro x
      rw [List.foldl_cons, ih]
      split_ifs
      · exact List.length_set
      · rfl
  exact (h _).trans List.length_replicate

/-- Every row puts its right side into its place, which no row before has touched. -/
theorem getD_foldl_set {d i : ℕ} (hi : i < d) (t : Tableau ℚ) (x : List ℚ) (hnodup : t.basis.Nodup)
    (hx : x.length = d) (hfree : i ∈ t.basis → x.getD i 0 = 0) :
    (t.foldl (fun x row => if row.basic < d then x.set row.basic row.rhs else x) x).getD i 0 =
      x.getD i 0 + (t.map fun e => if e.basic = i then e.rhs else 0).sum := by
  induction t generalizing x with
  | nil => simp
  | cons e t ih =>
    obtain ⟨hnotMem, hnodup'⟩ := List.nodup_cons.mp hnodup
    rw [List.foldl_cons, List.map_cons, List.sum_cons]
    by_cases hbasic : e.basic = i
    · have hset : (x.set i e.rhs).getD i 0 = e.rhs := by
        rw [List.getD_eq_getElem _ _ (by rwa [List.length_set, hx])]
        exact List.getElem_set_self _
      rw [if_pos (by omega), if_pos hbasic, hbasic, ih _ hnodup' (by rwa [List.length_set])
        (fun hmem => absurd (hbasic ▸ hmem) hnotMem), hset, hfree (by simp [basis, hbasic]), zero_add]
    · rw [if_neg hbasic, zero_add]
      have hset : (if e.basic < d then x.set e.basic e.rhs else x).getD i 0 = x.getD i 0 := by
        split_ifs
        · simp [List.getD_eq_getElem?_getD, hbasic]
        · rfl
      rw [ih _ hnodup' (by split_ifs <;> simp [hx]), hset]
      intro hmem
      rw [hset]
      exact hfree (List.mem_cons_of_mem _ hmem)

/-- The coordinates of the point are the values of the basic solution. -/
theorem Solved.getD_point (h : t.Solved p) {i : ℕ} (hi : i < p.dimension) :
    (t.point p.dimension).getD i 0 = t.basicSolution i := by
  have hzero : (List.replicate p.dimension (0 : ℚ)).getD i 0 = 0 := by
    rw [List.getD_eq_getElem _ _ (by simpa using hi), List.getElem_replicate]
  have hfold := getD_foldl_set hi t (List.replicate p.dimension 0) h.solves.nodup_basis
    List.length_replicate fun _ => hzero
  rw [hzero, zero_add, sum_map_eq_sum_range] at hfold
  exact hfold

end Tableau

end Equilibria
