import Mathlib
import Equilibria.Proofs.ComplementaryWalk

/-!
# Solutions and rays

What the end of complementary pivoting tells about a problem, in exact arithmetic:

* `Lcp.IsSolution` — `z ≥ 0` with `w = q + M z ≥ 0` and `w · z = 0`;
* `Lcp.Feasible`, `Lcp.Stage.Valid.feasible_after` — tableaux with a feasible basic solution, to which
  every step leads;
* `Lcp.Stage.Valid.isSolution` — what is read off the last tableau is a solution;
* `Lcp.Ray` — a complementary ray: a solution of the system and a direction in which it may be followed
  without end, of each pair one column zero, and on which `z` grows;
* `Lcp.Reached.exists_ray` — a walk that ends on a ray ends on such a one, since the ray from which it
  has come, where `z` does not grow, is not met again;
* `Lcp.solve_spec` — the walk finds a solution or a ray, unless it is stopped early.
-/

namespace Equilibria

open Finset (range)

namespace Lcp

variable {p : Lcp ℚ} {s : Stage ℚ}

/-! ### Solutions -/

/-- **A solution of a problem.** -/
structure IsSolution (p : Lcp ℚ) (z : List ℚ) : Prop where
  length : z.length = p.size
  nonneg : ∀ i < p.size, 0 ≤ z.getD i 0
  slack_nonneg : ∀ i < p.size, 0 ≤ (p.slack z).getD i 0
  complementary : ∀ i < p.size, z.getD i 0 * (p.slack z).getD i 0 = 0

theorem dot_eq {row z : List ℚ} (h : row.length = z.length) :
    dot row z = ∑ i ∈ range row.length, row.getD i 0 * z.getD i 0 := by
  rw [← sum_zipWith_mul h, List.sum_eq_foldl, dot]
  show List.foldl _ (-(0 : ℚ)) _ = _
  rw [neg_zero]

theorem getD_slack (hp : p.Square) {z : List ℚ} (hz : z.length = p.size) {r : ℕ} (hr : r < p.size) :
    (p.slack z).getD r 0 =
      p.constant r + ∑ i ∈ range p.size, p.coefficient r i * z.getD i 0 := by
  have hrow : r < p.matrix.length := by rwa [hp.rows]
  have hlength := hp.rectangular _ (List.getElem_mem hrow)
  rw [slack, List.getD_eq_getElem _ _ (by simpa using ⟨hrow, hr⟩), List.getElem_zipWith,
    dot_eq (hlength.trans hz.symm), hlength, constant, List.getD_eq_getElem _ _ hr]
  simp only [coefficient, List.getD_eq_getElem p.matrix _ hrow]
  rfl

theorem length_solution {α : Type} [Scalar α] (n : ℕ) (t : Tableau α) :
    (solution n t).length = n := by
  have h : ∀ z : List α, (t.foldl (fun z row => if n ≤ row.basic ∧ row.basic < 2 * n then
      z.set (row.basic - n) (positivePart row.rhs) else z) z).length = z.length := by
    induction t with
    | nil => exact fun z => rfl
    | cons e t ih =>
      intro z
      rw [List.foldl_cons, ih]
      split_ifs
      · exact List.length_set
      · rfl
  exact (h _).trans List.length_replicate

theorem positivePart_eq {v : ℚ} (h : 0 ≤ v) : positivePart v = v := by
  unfold positivePart
  split_ifs with hpos
  · rfl
  · exact le_antisymm h (not_lt.mp hpos)

/-- Every row puts its right side into its place, which no row before has touched. -/
theorem getD_foldl_solution {n i : ℕ} (hi : i < n) (t : Tableau ℚ) (z : List ℚ)
    (hnodup : t.basis.Nodup) (hnonneg : ∀ e ∈ t, 0 ≤ e.rhs) (hz : z.length = n)
    (hfree : n + i ∈ t.basis → z.getD i 0 = 0) :
    (t.foldl (fun z row => if n ≤ row.basic ∧ row.basic < 2 * n then
        z.set (row.basic - n) (positivePart row.rhs) else z) z).getD i 0 =
      z.getD i 0 + (t.map fun e => if e.basic = n + i then e.rhs else 0).sum := by
  induction t generalizing z with
  | nil => simp
  | cons e t ih =>
    obtain ⟨hnotMem, hnodup'⟩ := List.nodup_cons.mp hnodup
    have hnonneg' : ∀ e' ∈ t, 0 ≤ e'.rhs := fun e' he' => hnonneg e' (List.mem_cons_of_mem e he')
    rw [List.foldl_cons, List.map_cons, List.sum_cons]
    by_cases hbasic : e.basic = n + i
    · have hset : (z.set i e.rhs).getD i 0 = e.rhs := by
        rw [List.getD_eq_getElem _ _ (by rwa [List.length_set, hz])]
        exact List.getElem_set_self _
      rw [if_pos (by omega), if_pos hbasic, hbasic, Nat.add_sub_cancel_left,
        positivePart_eq (hnonneg e List.mem_cons_self),
        ih _ hnodup' hnonneg' (by rwa [List.length_set]) (fun hmem => absurd (hbasic ▸ hmem) hnotMem),
        hset, hfree (by simp [Tableau.basis, hbasic]), zero_add]
    · rw [if_neg hbasic, zero_add]
      have hset : (if n ≤ e.basic ∧ e.basic < 2 * n then
          z.set (e.basic - n) (positivePart e.rhs) else z).getD i 0 = z.getD i 0 := by
        split_ifs with hplace
        · simp [List.getD_eq_getElem?_getD, show e.basic - n ≠ i by omega]
        · rfl
      rw [ih _ hnodup' hnonneg' (by split_ifs <;> simp [hz]), hset]
      intro hmem
      rw [hset]
      exact hfree (List.mem_cons_of_mem _ hmem)

/-- What is read off a tableau are the values of `z` at the basic solution. -/
theorem getD_solution {n i : ℕ} (hi : i < n) (t : Tableau ℚ) (hnodup : t.basis.Nodup)
    (hnonneg : ∀ e ∈ t, 0 ≤ e.rhs) : (solution n t).getD i 0 = t.basicSolution (n + i) := by
  have hzero : (List.replicate n (0 : ℚ)).getD i 0 = 0 := by
    rw [List.getD_eq_getElem _ _ (by simpa using hi), List.getElem_replicate]
  have hfold := getD_foldl_solution hi t (List.replicate n 0) hnodup hnonneg List.length_replicate
    fun _ => hzero
  rw [hzero, zero_add, Tableau.sum_map_eq_sum_range] at hfold
  exact hfold

/-- Right sides are not negative where all sides are positive. -/
theorem rhs_nonneg_of_sides {n : ℕ} {e : TableauRow ℚ} (h : 0 < sides n e) : 0 ≤ e.rhs := by
  obtain ⟨i, heq, hlt⟩ := h
  cases i with
  | zero => exact hlt.le
  | succ i => exact (heq 0 i.succ_pos).le

/-- **A tableau with a feasible basic solution** of the system. -/
structure Feasible (p : Lcp ℚ) (t : Tableau ℚ) : Prop where
  size : t.length = p.size
  solves : t.Solves (2 * p.size + 1) p.System
  rhs_nonneg : ∀ r < t.length, 0 ≤ (t.row r).rhs

/-- **What is read off a tableau is a solution**, if no right side is negative, the artificial column is
off the basis and so is one column of each pair. -/
theorem isSolution_solution (hp : p.Square) {t : Tableau ℚ} (h : p.Feasible t)
    (hartificial : 2 * p.size ∉ t.basis)
    (hpairs : ∀ i < p.size, i ∉ t.basis ∨ p.size + i ∉ t.basis) : p.IsSolution (solution p.size t) := by
  have hnonneg := Tableau.basicSolution_nonneg h.rhs_nonneg
  have hz : ∀ i < p.size, (solution p.size t).getD i 0 = t.basicSolution (p.size + i) := by
    refine fun i hi => getD_solution hi t h.solves.nodup_basis fun e he => ?_
    obtain ⟨r, hr, rfl⟩ := (Tableau.mem_iff_row t).mp he
    exact h.rhs_nonneg r hr
  -- the artificial column is zero, so that `w` is what the system says
  have hw : ∀ r < p.size, (p.slack (solution p.size t)).getD r 0 = t.basicSolution r := by
    intro r hr
    have hzero : t.basicSolution (2 * p.size) = 0 := Tableau.spread_of_notMem _ hartificial
    have hsystem := h.solves.solution_basicSolution r hr
    rw [hzero] at hsystem
    rw [getD_slack hp (length_solution _ t) hr,
      Finset.sum_congr rfl fun i hi => by rw [hz i (Finset.mem_range.mp hi)]]
    linarith
  refine ⟨length_solution _ t, fun i hi => ?_, fun i hi => ?_, fun i hi => ?_⟩
  · rw [hz i hi]
    exact hnonneg _
  · rw [hw i hi]
    exact hnonneg _
  · rw [hz i hi, hw i hi, mul_eq_zero]
    exact ((hpairs i hi).imp (Tableau.spread_of_notMem _) (Tableau.spread_of_notMem _)).symm

namespace Stage

theorem Valid.feasible (h : s.Valid p) : p.Feasible s.tableau :=
  ⟨h.size, h.solves, fun r hr => rhs_nonneg_of_sides (h.positive r hr)⟩

/-- A step keeps the basic solution feasible, whatever column leaves. -/
theorem Valid.feasible_after (h : s.Valid p) {row : ℕ}
    (hl : Leaves p.size s.tableau (s.entering p.size) row) :
    p.Feasible (s.after p.size row).tableau := by
  have hlt := h.entering_lt
  refine ⟨(Tableau.length_pivotRows _ _ _).trans h.size,
    h.solves.pivotRows hl.lt_length (by omega) hl.pos.ne', fun r hr => ?_⟩
  exact rhs_nonneg_of_sides (hl.positive h.solves h.positive r hr)

/-- The basis after the last step. -/
theorem Valid.mem_basis_last (h : s.Valid p) {row : ℕ}
    (hl : Leaves p.size s.tableau (s.entering p.size) row)
    (hbasic : (s.tableau.row row).basic = 2 * p.size) (b : ℕ) :
    b ∈ (s.after p.size row).tableau.basis ↔
      b = s.entering p.size ∨ b ∈ s.tableau.basis ∧ b ≠ 2 * p.size := by
  rw [after, h.solves.mem_basis_pivotRows_iff hl.lt_length, hbasic]

/-- After the last step the artificial column is off the basis. -/
theorem Valid.artificial_notMem_last (h : s.Valid p) {row : ℕ}
    (hl : Leaves p.size s.tableau (s.entering p.size) row)
    (hbasic : (s.tableau.row row).basic = 2 * p.size) :
    2 * p.size ∉ (s.after p.size row).tableau.basis := by
  have hlt := h.entering_lt
  rw [h.mem_basis_last hl hbasic]
  omega

/-- The basic solution of a stage. -/
theorem Valid.basicSolution (h : s.Valid p) : p.System s.tableau.basicSolution ∧
    ∀ c, 0 ≤ s.tableau.basicSolution c :=
  ⟨h.solves.solution_basicSolution, Tableau.basicSolution_nonneg h.feasible.rhs_nonneg⟩

/-- **What is read off the last tableau is a solution.** -/
theorem Valid.isSolution (h : s.Valid p) {z : List ℚ} (hstep : step 0 p.size s = .solved z) :
    p.IsSolution z := by
  cases h.step_cases with
  | inl hray =>
    rw [hray.1] at hstep
    cases hstep
  | inr hleaves =>
    obtain ⟨row, hl, hcases⟩ := hleaves
    rw [hcases] at hstep
    split_ifs at hstep with hbasic
    obtain rfl := Progress.solved.inj hstep
    have hoff : ∀ b, ¬(b = s.entering p.size ∨ b ∈ s.tableau.basis) →
        b ∉ (s.after p.size row).tableau.basis :=
      fun b hb hin => hb (((h.mem_basis_last hl hbasic b).mp hin).imp_right And.left)
    exact isSolution_solution h.square (h.feasible_after hl) (h.artificial_notMem_last hl hbasic)
      fun i hi => (h.paired_entering.exists_off hi).imp (hoff _) (hoff _)

end Stage

/-! ### Rays -/

/-- **A complementary ray on which `z` grows**: a solution of the system and a direction. -/
structure Ray (p : Lcp ℚ) (v d : ℕ → ℚ) : Prop where
  system : p.System v
  nonneg : ∀ c, 0 ≤ v c
  homogeneous : ∀ r < p.size,
    d r = ∑ i ∈ range p.size, p.coefficient r i * d (p.size + i) + d (2 * p.size)
  direction_nonneg : ∀ c, 0 ≤ d c
  complementary : ∀ i < p.size, v i = 0 ∧ d i = 0 ∨ v (p.size + i) = 0 ∧ d (p.size + i) = 0
  moves : ∃ i < p.size, 0 < d (p.size + i)

namespace Stage

/-- Along the direction of a stage the system is kept. -/
theorem Valid.homogeneous (h : s.Valid p) {r : ℕ} (hr : r < p.size) :
    s.tableau.direction (s.entering p.size) r =
      ∑ i ∈ range p.size, p.coefficient r i * s.tableau.direction (s.entering p.size) (p.size + i) +
        s.tableau.direction (s.entering p.size) (2 * p.size) := by
  have hlt := h.entering_lt
  have hstart := h.solves.solution_basicSolution r hr
  have hmoved := h.solves.solution_add_direction (show s.entering p.size < _ by omega)
    h.solves.solution_basicSolution r hr
  simp only [Pi.add_apply, mul_add, Finset.sum_add_distrib] at hmoved
  linarith

/-- Of each pair one column stays zero, at the basic solution and along the direction. -/
theorem Valid.complementary (h : s.Valid p) {i : ℕ} (hi : i < p.size) :
    s.tableau.basicSolution i = 0 ∧ s.tableau.direction (s.entering p.size) i = 0 ∨
      s.tableau.basicSolution (p.size + i) = 0 ∧
        s.tableau.direction (s.entering p.size) (p.size + i) = 0 := by
  have hstill : ∀ c, ¬(c = s.entering p.size ∨ c ∈ s.tableau.basis) →
      s.tableau.basicSolution c = 0 ∧ s.tableau.direction (s.entering p.size) c = 0 := by
    intro c hc
    obtain ⟨hne, hmem⟩ := not_or.mp hc
    exact ⟨Tableau.spread_of_notMem _ hmem, Tableau.direction_of_notMem hne hmem⟩
  exact (h.paired_entering.exists_off hi).imp (hstill _) (hstill _)

/-- Where `z` does not grow along the direction, the basis is that of the artificial column in the row
of the column that enters. -/
theorem Valid.basis_of_still (h : s.Valid p)
    (hstill : ∀ i < p.size, s.tableau.direction (s.entering p.size) (p.size + i) = 0) :
    s.entering p.size < p.size ∧
      ∀ b, b ∈ s.tableau.basis ↔ b = 2 * p.size ∨ b < p.size ∧ b ≠ s.entering p.size := by
  have hlt := h.entering_lt
  have hself := Tableau.direction_self h.entering_notMem
  have hw : s.entering p.size < p.size := by
    by_contra hge
    obtain ⟨i, hi⟩ := Nat.exists_eq_add_of_le (not_lt.mp hge)
    have hzero := hstill i (by omega)
    rw [← hi, hself] at hzero
    exact one_ne_zero hzero
  -- all columns of `w` grow as the artificial one does
  have hgrow : ∀ r < p.size, s.tableau.direction (s.entering p.size) r =
      s.tableau.direction (s.entering p.size) (2 * p.size) := by
    intro r hr
    rw [h.homogeneous hr, Finset.sum_eq_zero, zero_add]
    intro i hi
    rw [hstill i (Finset.mem_range.mp hi), mul_zero]
  refine ⟨hw, fun b => ⟨fun hb => ?_, fun hb => ?_⟩⟩
  · have hble := Finset.mem_range.mp (h.solves.toFinset_basis_subset (List.mem_toFinset.mpr hb))
    by_cases hbw : b < p.size
    · exact Or.inr ⟨hbw, fun heq => h.entering_notMem (heq ▸ hb)⟩
    · left
      by_contra hne
      obtain ⟨i, rfl⟩ := Nat.exists_eq_add_of_le (not_lt.mp hbw)
      -- then its complement is off the basis, so it is the one that enters, and `b` has just left
      have hnot : ¬(i = s.left ∨ i ∈ s.tableau.basis) := fun hin =>
        (h.paired i (by omega)).mp hin (Or.inr hb)
      have hentering : i = s.entering p.size := by
        by_contra hother
        have hzero := Tableau.direction_of_notMem hother fun hmem => hnot (Or.inr hmem)
        rw [hgrow i (by omega), ← hgrow _ hw, hself] at hzero
        exact one_ne_zero hzero
      have hleft : s.left = p.size + i := by
        have hback := complement_complement h.left_lt
        rw [show complement p.size s.left = i from hentering.symm, complement, if_pos (by omega)] at hback
        omega
      exact h.left_notMem (hleft ▸ hb)
  · cases hb with
    | inl heq => exact heq ▸ h.artificial
    | inr hother =>
      by_contra hmem
      have hzero := Tableau.direction_of_notMem hother.2 hmem
      rw [hgrow b hother.1, ← hgrow _ hw, hself] at hzero
      exact one_ne_zero hzero

/-- **The only ray on which `z` does not grow** is that from which the walk has come. -/
theorem Valid.position_of_still (h : s.Valid p) (hneg : ∃ q ∈ p.offset, q < 0)
    (hstill : ∀ i < p.size, s.tableau.direction (s.entering p.size) (p.size + i) = 0) :
    s.position = turned p.size p.firstStage.position := by
  obtain ⟨q, hq, -⟩ := id hneg
  have hne := List.ne_nil_of_mem hq
  have hfirst := (firstRow_spec hne).1
  obtain ⟨hw, hbasis⟩ := h.basis_of_still hstill
  have hsame : s.entering p.size = p.firstRow := by
    by_contra hother
    -- the row of the first column to leave would have negative sides
    have hu := solves_pivotRows_start h.square hw
    have hmem := mem_basis_pivotRows_start h.square hw
    obtain ⟨r, hr, hbasic⟩ := (Tableau.mem_basis_iff _).mp
      ((hbasis p.firstRow).mpr (Or.inr ⟨hfirst, Ne.symm hother⟩))
    have hlength : (p.start.pivotRows (s.entering p.size) (2 * p.size)).length = p.size := by
      rw [Tableau.length_pivotRows, length_start h.square]
    have hrow := h.solves.row_eq_row hu (fun c => (hbasis c).trans (hmem c).symm) hr
      (show p.firstRow < _ by rwa [hlength]) (by
        rw [hbasic, (solves_start h.square).basic_pivotRows (by rwa [length_start h.square])
          (by rwa [length_start h.square]), if_neg (Ne.symm hother), row_start h.square hfirst])
    have hpositive := h.positive r hr
    rw [hrow, sides_pivotRows_start h.square hw hfirst, if_neg (Ne.symm hother)] at hpositive
    exact lt_asymm (sub_pos.mp hpositive) (sub_pos.mp (sides_firstRow_lt h.square hne hw hother))
  refine Prod.ext (Finset.ext fun b => ?_) ?_
  · show b ∈ s.tableau.basis.toFinset ↔ b ∈ p.entered.basis.toFinset
    rw [List.mem_toFinset, List.mem_toFinset, hbasis, mem_basis_entered h.square hne, hsame]
  · show s.left = complement p.size p.firstRow
    rw [← hsame]
    exact (complement_complement h.left_lt).symm

end Stage

/-- **A walk that ends on a ray ends on one on which `z` grows.** -/
theorem Reached.exists_ray (hp : p.Square) (hneg : ∃ q ∈ p.offset, q < 0) {k : ℕ}
    (h : Reached p k s) (hstep : step 0 p.size s = .ray) : ∃ v d, p.Ray v d := by
  have hvalid := h.valid hp hneg
  have hcolumn : ∀ r < s.tableau.length, (s.tableau.row r).entry (s.entering p.size) ≤ 0 := by
    cases hvalid.step_cases with
    | inl hray =>
      intro r hr
      exact hray.2 r (by rwa [← hvalid.size])
    | inr hleaves =>
      obtain ⟨row, -, hcases⟩ := hleaves
      rw [hcases] at hstep
      split_ifs at hstep
  have hnonneg := Tableau.direction_nonneg hcolumn
  refine ⟨s.tableau.basicSolution, s.tableau.direction (s.entering p.size), hvalid.basicSolution.1,
    hvalid.basicSolution.2, fun r hr => hvalid.homogeneous hr, hnonneg,
    fun i hi => hvalid.complementary hi, ?_⟩
  by_contra hmoves
  refine h.position_ne_turned hp hneg Reached.first (hvalid.position_of_still hneg fun i hi => ?_)
  by_contra hne
  exact hmoves ⟨i, hi, lt_of_le_of_ne (hnonneg _) (Ne.symm hne)⟩

/-! ### The whole walk -/

/-- Where no constant is negative, the zero vector is a solution. -/
theorem isSolution_zero (hp : p.Square) (hnonneg : ∀ q ∈ p.offset, 0 ≤ q) :
    p.IsSolution (List.replicate p.size 0) := by
  have hzero : ∀ i, (List.replicate p.size (0 : ℚ)).getD i 0 = 0 := by
    intro i
    cases Nat.lt_or_ge i p.size with
    | inl hi => exact List.getD_replicate _ hi
    | inr hi => exact List.getD_eq_default _ _ (by rwa [List.length_replicate])
  refine ⟨List.length_replicate, fun i _ => (hzero i).ge, fun i hi => ?_, fun i _ => ?_⟩
  · rw [getD_slack hp List.length_replicate hi, Finset.sum_eq_zero fun j _ => by rw [hzero, mul_zero],
      add_zero, constant, List.getD_eq_getElem _ _ hi]
    exact hnonneg _ (List.getElem_mem hi)
  · rw [hzero, zero_mul]

/-- **What complementary pivoting finds**: a solution, or a ray, unless fewer steps are allowed than
there are bases. -/
theorem solve_spec (hp : p.Square) {rules : PivotRules ℚ} (htolerance : rules.tolerance = 0) :
    (∃ z, p.solve rules = .ok z ∧ p.IsSolution z) ∨
    (p.solve rules = .error .ray ∧ ∃ v d, p.Ray v d) ∨
    (p.solve rules = .error .pivotLimit ∧ rules.limit < (2 * p.size + 1).choose p.size) := by
  by_cases hneg : ∃ q ∈ p.offset, q < 0
  · obtain hray | hsolved | hlimit := solve_cases hp hneg htolerance
    · obtain ⟨k, s, hs, hstep, hsolve⟩ := hray
      exact Or.inr (Or.inl ⟨hsolve, hs.exists_ray hp hneg hstep⟩)
    · obtain ⟨k, s, z, hs, hstep, hsolve⟩ := hsolved
      exact Or.inl ⟨z, hsolve, (hs.valid hp hneg).isSolution hstep⟩
    · obtain ⟨s, hs, hsolve⟩ := hlimit
      exact Or.inr (Or.inr ⟨hsolve, hs.lt_choose hp hneg⟩)
  · have hnonneg : ∀ q ∈ p.offset, 0 ≤ q := by
      intro q hq
      by_contra hq0
      exact hneg ⟨q, hq, not_le.mp hq0⟩
    refine Or.inl ⟨_, ?_, isSolution_zero hp hnonneg⟩
    have hall : (p.offset.all fun q => decide (0 ≤ q)) = true := by
      rw [List.all_eq_true]
      exact fun q hq => decide_eq_true (hnonneg q hq)
    rw [solve, hall]
    rfl

end Lcp

end Equilibria
