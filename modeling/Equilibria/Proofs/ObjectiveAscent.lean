import Mathlib
import Equilibria.Proofs.BasicSolution

/-!
# The ascent to an optimal tableau

A search that follows every pivot step the ratio test allows meets, for every linear objective, a
tableau whose basic solution maximizes it.  With ties the plain objective may stand still, so the
right sides are perturbed: they take values in an ordered space in which no row has right side zero.

* `Perturbation` — what is asked of such right sides; they are measured on the multipliers of the
  constraints that make up a row;
* `Solved.exists_ascent` — a column with a positive reduced cost can enter so that the perturbed
  objective grows, by a row that the plain ratio test allows too;
* `Explored.exists_optimal` — hence a finite set of tableaux closed under the steps holds an optimal
  one.

The perturbation in use is the lexicographic one, by the multipliers or by other measures of them
(`lexicographicBy`).
-/

namespace Equilibria

open Finset (range)

namespace Tableau

variable {p : Polytope ℚ} {t : Tableau ℚ}

/-! ### The right side as a combination of the constraints -/

/-- The multiples of the constraints that add up to a row. -/
def multipliers (p : Polytope ℚ) (e : TableauRow ℚ) (j : ℕ) : ℚ := e.entry (p.dimension + j)

/-- The values of the columns for given coordinates: these and what the constraints leave. -/
def completion (p : Polytope ℚ) (x : ℕ → ℚ) (c : ℕ) : ℚ :=
  if c < p.dimension then x c
  else 1 - ∑ i ∈ range p.dimension, p.coefficient (c - p.dimension) i * x i

theorem solution_completion (p : Polytope ℚ) (x : ℕ → ℚ) : p.Solution (completion p x) := by
  intro j _
  have hcoord : ∑ i ∈ range p.dimension, p.coefficient j i * completion p x i =
      ∑ i ∈ range p.dimension, p.coefficient j i * x i := by
    refine Finset.sum_congr rfl fun i hi => ?_
    rw [completion, if_pos (Finset.mem_range.mp hi)]
  rw [hcoord, completion, if_neg (by omega), Nat.add_sub_cancel_left]
  ring

theorem lhs_completion (e : TableauRow ℚ) (x : ℕ → ℚ) :
    e.lhs p.width (completion p x) =
      ∑ i ∈ range p.dimension, e.entry i * x i +
        ∑ j ∈ range p.numConstraints, multipliers p e j *
          (1 - ∑ i ∈ range p.dimension, p.coefficient j i * x i) := by
  unfold TableauRow.lhs Polytope.width
  rw [Finset.sum_range_add]
  congr 1
  · refine Finset.sum_congr rfl fun i hi => ?_
    rw [completion, if_pos (Finset.mem_range.mp hi)]
  · refine Finset.sum_congr rfl fun j _ => ?_
    rw [completion, if_neg (by omega), Nat.add_sub_cancel_left]
    rfl

/-- The right side is the sum of the multipliers. -/
theorem Solved.rhs_eq_sum (h : t.Solved p) {r : ℕ} (hr : r < t.length) :
    (t.row r).rhs = ∑ j ∈ range p.numConstraints, multipliers p (t.row r) j := by
  have hzero := (h.solution _).mpr (solution_completion p 0) r hr
  rw [lhs_completion] at hzero
  simpa using hzero.symm

/-- No row is the trivial combination of the constraints. -/
theorem Solved.exists_multiplier_ne_zero (h : t.Solved p) {r : ℕ} (hr : r < t.length) :
    ∃ j < p.numConstraints, multipliers p (t.row r) j ≠ 0 := by
  by_contra hcon
  push Not at hcon
  have hrow : ∀ x : ℕ → ℚ, ∑ i ∈ range p.dimension, (t.row r).entry i * x i = 0 := by
    intro x
    have hx := (h.solution _).mpr (solution_completion p x) r hr
    have hsum : ∀ f : ℕ → ℚ,
        ∑ j ∈ range p.numConstraints, multipliers p (t.row r) j * f j = 0 := by
      intro f
      refine Finset.sum_eq_zero fun j hj => ?_
      rw [hcon j (Finset.mem_range.mp hj), zero_mul]
    have hrhs : (t.row r).rhs = 0 := by
      rw [h.rhs_eq_sum hr]
      exact Finset.sum_eq_zero fun j hj => hcon j (Finset.mem_range.mp hj)
    rwa [lhs_completion, hsum, add_zero, hrhs] at hx
  have hone := h.unit r hr r hr
  rw [if_pos rfl] at hone
  rcases Nat.lt_or_ge (t.row r).basic p.dimension with hlt | hge
  · have hx := hrow (Pi.single (t.row r).basic 1)
    rw [Finset.sum_eq_single_of_mem (t.row r).basic (Finset.mem_range.mpr hlt), Pi.single_eq_same,
      mul_one, hone] at hx
    · exact one_ne_zero hx
    · intro i _ hne
      rw [Pi.single_eq_of_ne hne, mul_zero]
  · have hbound := h.basic_lt r hr
    unfold Polytope.width at hbound
    have hj := hcon ((t.row r).basic - p.dimension) (by omega)
    rw [multipliers, Nat.add_sub_cancel' hge, hone] at hj
    exact one_ne_zero hj

/-! ### Perturbed right sides -/

/-- Right sides in an ordered space in place of the number one: an additive measure of combinations
of the constraints that keeps the sign of the plain right side and vanishes only for the trivial
combination. -/
structure Perturbation (p : Polytope ℚ) (V : Type*) [AddCommGroup V] [LinearOrder V]
    [Module ℚ V] where
  /-- The measure. -/
  value : (ℕ → ℚ) →ₗ[ℚ] V
  pos_of_sum_pos : ∀ N : ℕ → ℚ, 0 < ∑ j ∈ range p.numConstraints, N j → 0 < value N
  eq_zero : ∀ N : ℕ → ℚ, value N = 0 → ∀ j < p.numConstraints, N j = 0

variable {V : Type*} [AddCommGroup V] [LinearOrder V] [Module ℚ V] (ρ : Perturbation p V)

/-- The perturbed right side of a row. -/
def Perturbation.side (e : TableauRow ℚ) : V := ρ.value (multipliers p e)

/-- Whether all perturbed right sides are positive. -/
def Perturbation.Feasible (t : Tableau ℚ) : Prop := ∀ e ∈ t, 0 < ρ.side e

/-- The value of an objective at the perturbed basic solution. -/
def Perturbation.gain (γ : ℕ → ℚ) (t : Tableau ℚ) : V := (t.map fun e => γ e.basic • ρ.side e).sum

/-- What an objective gains when a column grows by one and the basic columns adapt. -/
def reducedCost (γ : ℕ → ℚ) (t : Tableau ℚ) (col : ℕ) : ℚ :=
  γ col - ∑ r ∈ range t.length, γ (t.row r).basic * (t.row r).entry col

theorem Solved.side_pivotRows (h : t.Solved p) {row col r : ℕ} (hrow : row < t.length)
    (hr : r < t.length) :
    ρ.side ((t.pivotRows row col).row r) =
      if r = row then ((t.row row).entry col)⁻¹ • ρ.side (t.row row)
      else ρ.side (t.row r) -
        (t.row r).entry col • ((t.row row).entry col)⁻¹ • ρ.side (t.row row) := by
  unfold Perturbation.side
  split_ifs with hne
  · rw [← map_smul]
    congr 1
    funext j
    unfold multipliers
    rw [h.solves.entry_pivotRows hrow hr, if_pos hne, Pi.smul_apply, smul_eq_mul]
    ring
  · rw [← map_smul, ← map_smul, ← map_sub]
    congr 1
    funext j
    unfold multipliers
    rw [h.solves.entry_pivotRows hrow hr, if_neg hne, Pi.sub_apply, Pi.smul_apply, Pi.smul_apply,
      smul_eq_mul, smul_eq_mul]
    ring

theorem Solved.side_ne_zero (h : t.Solved p) {r : ℕ} (hr : r < t.length) :
    ρ.side (t.row r) ≠ 0 := by
  intro hzero
  obtain ⟨j, hj, hne⟩ := h.exists_multiplier_ne_zero hr
  exact hne (ρ.eq_zero _ hzero j hj)

theorem gain_eq_sum (γ : ℕ → ℚ) (t : Tableau ℚ) :
    ρ.gain γ t = ∑ r ∈ range t.length, γ (t.row r).basic • ρ.side (t.row r) :=
  sum_map_eq_sum_range t _

/-- The gain is the measure of what the rows add up to. -/
theorem gain_eq_value (γ : ℕ → ℚ) (t : Tableau ℚ) : ρ.gain γ t =
    ρ.value (∑ r ∈ range t.length, γ (t.row r).basic • multipliers p (t.row r)) := by
  rw [gain_eq_sum, map_sum]
  exact Finset.sum_congr rfl fun r _ => (map_smul _ _ _).symm

/-! ### The ascent -/

/-- What a search leaves behind that has made all its steps: finitely many solved tableaux, the
origin among them, closed under the steps that the ratio test allows.  The order of the rows does not
matter. -/
structure Explored (p : Polytope ℚ) (S : Set (Tableau ℚ)) : Prop where
  finite : S.Finite
  solved : ∀ t ∈ S, t.Solved p
  start : ∃ t ∈ S, t.Perm (origin p)
  closed : ∀ t ∈ S, ∀ col < p.width, col ∉ t.basis → ∀ row ∈ t.leavingRows col,
    ∃ t' ∈ S, t'.Perm (t.pivotRows row col)

theorem reducedCost_of_mem_basis (h : t.Solved p) (γ : ℕ → ℚ) {c : ℕ} (hc : c ∈ t.basis) :
    reducedCost γ t c = 0 := by
  obtain ⟨r, hr, rfl⟩ := (mem_basis_iff t).mp hc
  unfold reducedCost
  rw [Finset.sum_eq_single_of_mem r (Finset.mem_range.mpr hr), h.unit r hr r hr, if_pos rfl,
    mul_one, sub_self]
  intro r' hr' hne
  rw [h.unit r' (Finset.mem_range.mp hr') r hr, if_neg hne, mul_zero]

/-- A pivot step gains the reduced cost of the column, times the amount by which it grows. -/
theorem Solved.gain_pivotRows (h : t.Solved p) (γ : ℕ → ℚ) {row col : ℕ} (hrow : row < t.length)
    (hpivot : (t.row row).entry col ≠ 0) :
    ρ.gain γ (t.pivotRows row col) =
      ρ.gain γ t + reducedCost γ t col • ((t.row row).entry col)⁻¹ • ρ.side (t.row row) := by
  set θ : V := ((t.row row).entry col)⁻¹ • ρ.side (t.row row) with hθ
  have hmem : row ∈ range t.length := Finset.mem_range.mpr hrow
  have hback : ρ.side (t.row row) - (t.row row).entry col • θ = 0 := by
    rw [hθ, smul_smul, mul_inv_cancel₀ hpivot, one_smul, sub_self]
  have hothers : ∑ r ∈ (range t.length).erase row,
        γ ((t.pivotRows row col).row r).basic • ρ.side ((t.pivotRows row col).row r) =
      ∑ r ∈ range t.length,
        γ (t.row r).basic • (ρ.side (t.row r) - (t.row r).entry col • θ) := by
    rw [← Finset.add_sum_erase _ _ hmem, hback, smul_zero, zero_add]
    refine Finset.sum_congr rfl fun r hr => ?_
    obtain ⟨hne, hr⟩ := Finset.mem_erase.mp hr
    rw [h.solves.basic_pivotRows hrow (Finset.mem_range.mp hr), h.side_pivotRows ρ hrow
      (Finset.mem_range.mp hr), if_neg hne, if_neg hne]
  rw [gain_eq_sum, gain_eq_sum, length_pivotRows, ← Finset.add_sum_erase _ _ hmem, hothers,
    h.solves.basic_pivotRows hrow hrow, h.side_pivotRows ρ hrow hrow, if_pos rfl, if_pos rfl, ← hθ]
  simp only [smul_sub, Finset.sum_sub_distrib, smul_smul, ← Finset.sum_smul, reducedCost, sub_smul]
  abel

/-- An objective is what the reduced costs say of all columns and what the basic ones bring in. -/
theorem objective_eq (t : Tableau ℚ) (γ z : ℕ → ℚ) (width : ℕ) :
    ∑ c ∈ range width, γ c * z c = ∑ c ∈ range width, reducedCost γ t c * z c +
      ∑ r ∈ range t.length, γ (t.row r).basic * (t.row r).lhs width z := by
  have hrows : ∑ r ∈ range t.length, γ (t.row r).basic * (t.row r).lhs width z =
      ∑ c ∈ range width, (∑ r ∈ range t.length, γ (t.row r).basic * (t.row r).entry c) * z c := by
    simp only [Finset.sum_mul]
    rw [Finset.sum_comm]
    refine Finset.sum_congr rfl fun r _ => ?_
    rw [TableauRow.lhs, Finset.mul_sum]
    exact Finset.sum_congr rfl fun c _ => (mul_assoc _ _ _).symm
  rw [hrows, ← Finset.sum_add_distrib]
  refine Finset.sum_congr rfl fun c _ => ?_
  unfold reducedCost
  ring

/-- What is not negative gains nothing once no reduced cost is positive. -/
theorem sum_reducedCost_nonpos {width : ℕ} {γ z : ℕ → ℚ}
    (hcost : ∀ c < width, reducedCost γ t c ≤ 0) (hnonneg : ∀ c, 0 ≤ z c) :
    ∑ c ∈ range width, reducedCost γ t c * z c ≤ 0 :=
  Finset.sum_nonpos fun c hc =>
    mul_nonpos_of_nonpos_of_nonneg (hcost c (Finset.mem_range.mp hc)) (hnonneg c)

/-- No solution beats the basic one once no reduced cost is positive. -/
theorem Solved.objective_le (h : t.Solved p) {γ : ℕ → ℚ}
    (hcost : ∀ c < p.width, reducedCost γ t c ≤ 0) {z : ℕ → ℚ} (hz : p.Solution z)
    (hnonneg : ∀ c, 0 ≤ z c) :
    ∑ c ∈ range p.width, γ c * z c ≤ ∑ c ∈ range p.width, γ c * t.basicSolution c := by
  have hrows : ∀ u : ℕ → ℚ, p.Solution u →
      ∑ r ∈ range t.length, γ (t.row r).basic * (t.row r).lhs p.width u =
        ∑ r ∈ range t.length, γ (t.row r).basic * (t.row r).rhs := by
    intro u hu
    refine Finset.sum_congr rfl fun r hr => ?_
    rw [(h.solution u).mpr hu r (Finset.mem_range.mp hr)]
  have hbasic : ∑ c ∈ range p.width, reducedCost γ t c * t.basicSolution c = 0 := by
    refine Finset.sum_eq_zero fun c _ => ?_
    by_cases hc : c ∈ t.basis
    · rw [reducedCost_of_mem_basis h γ hc, zero_mul]
    · rw [basicSolution, spread_of_notMem _ hc, mul_zero]
  have hloss := sum_reducedCost_nonpos hcost hnonneg
  rw [objective_eq t γ z, objective_eq t γ t.basicSolution, hrows z hz,
    hrows _ h.solves.solution_basicSolution, hbasic]
  linarith

theorem Perturbation.feasible_origin (hp : p.Positive) : ρ.Feasible (origin p) := by
  intro e he
  obtain ⟨r, hr, rfl⟩ := (mem_iff_row _).mp he
  apply ρ.pos_of_sum_pos
  have hone := (solved_origin hp).rhs_eq_sum hr
  rw [← hone, row_origin p (by rwa [length_origin] at hr)]
  exact zero_lt_one

variable [IsOrderedAddMonoid V] [PosSMulStrictMono ℚ V]

/-- **The perturbed ratio test** chooses among the rows of the plain one, keeps the perturbed right
sides positive and makes a column with a positive reduced cost gain. -/
theorem Solved.exists_ascent (h : t.Solved p) (hp : p.Positive) (hfeasible : ρ.Feasible t)
    (γ : ℕ → ℚ) {col : ℕ} (hcol : col < p.width) (hbasis : col ∉ t.basis)
    (hcost : 0 < reducedCost γ t col) :
    ∃ row ∈ t.leavingRows col,
      ρ.Feasible (t.pivotRows row col) ∧ ρ.gain γ t < ρ.gain γ (t.pivotRows row col) := by
  obtain ⟨row, ⟨hrow, hpos⟩, hmin⟩ := Set.exists_min_image
    {r | r < t.length ∧ 0 < (t.row r).entry col}
    (fun r => ((t.row r).entry col)⁻¹ • ρ.side (t.row r))
    ((Set.finite_lt_nat t.length).subset fun r hr => hr.1) (h.exists_entry_pos hp hcol hbasis)
  set θ : V := ((t.row row).entry col)⁻¹ • ρ.side (t.row row) with hθ
  have hθpos : 0 < θ := smul_pos (inv_pos.mpr hpos) (hfeasible _ (row_mem t hrow))
  have hleave : row ∈ t.leavingRows col := by
    refine (mem_leavingRows_iff t col row).mpr ⟨hrow, hpos, fun r hr hr0 => ?_⟩
    by_contra hlt
    push Not at hlt
    have hsum : 0 < ∑ j ∈ range p.numConstraints,
        (((t.row row).entry col)⁻¹ • multipliers p (t.row row) -
          ((t.row r).entry col)⁻¹ • multipliers p (t.row r)) j := by
      simp only [Pi.sub_apply, Pi.smul_apply, smul_eq_mul, Finset.sum_sub_distrib,
        ← Finset.mul_sum, ← h.rhs_eq_sum hrow, ← h.rhs_eq_sum hr]
      rw [inv_mul_eq_div, inv_mul_eq_div]
      linarith
    have hless := ρ.pos_of_sum_pos _ hsum
    rw [map_sub, map_smul, map_smul, sub_pos] at hless
    exact absurd (hmin r ⟨hr, hr0⟩) (not_le.mpr hless)
  refine ⟨row, hleave, ?_, ?_⟩
  · intro e he
    obtain ⟨r, hr, rfl⟩ := (mem_iff_row _).mp he
    have hr' : r < t.length := by rwa [length_pivotRows] at hr
    have hne := (h.pivotRows hcol hleave).side_ne_zero ρ hr
    refine lt_of_le_of_ne ?_ hne.symm
    rw [h.side_pivotRows ρ hrow hr', ← hθ]
    split_ifs
    · exact hθpos.le
    · rw [sub_nonneg]
      rcases lt_or_ge 0 ((t.row r).entry col) with hr0 | hr0
      · have hle := smul_le_smul_of_nonneg_left (hmin r ⟨hr', hr0⟩) hr0.le
        rwa [smul_inv_smul₀ hr0.ne'] at hle
      · have hle : (t.row r).entry col • θ ≤ 0 := smul_nonpos_of_nonpos_of_nonneg hr0 hθpos.le
        exact hle.trans (hfeasible _ (row_mem t hr')).le
  · rw [h.gain_pivotRows ρ γ hrow hpos.ne']
    exact lt_add_of_pos_right _ (smul_pos hcost hθpos)

/-- **Every closed search meets an optimum.**  Among the finitely many tableaux take a feasible one
of the largest gain: if a column could still gain, the search would hold a tableau with more. -/
theorem Explored.exists_reducedCost_nonpos {S : Set (Tableau ℚ)} (h : Explored p S)
    (ρ : Perturbation p V) (hp : p.Positive) (γ : ℕ → ℚ) :
    ∃ t ∈ S, ρ.Feasible t ∧ ∀ c < p.width, reducedCost γ t c ≤ 0 := by
  obtain ⟨t₀, ht₀, hperm₀⟩ := h.start
  have hfeasible₀ : ρ.Feasible t₀ := fun e he => ρ.feasible_origin hp e (hperm₀.mem_iff.mp he)
  obtain ⟨t, ⟨ht, hfeasible⟩, hmax⟩ := Set.exists_max_image {t | t ∈ S ∧ ρ.Feasible t} (ρ.gain γ)
    (h.finite.subset fun t ht => ht.1) ⟨t₀, ht₀, hfeasible₀⟩
  refine ⟨t, ht, hfeasible, fun col hcol => ?_⟩
  by_contra hcost
  push Not at hcost
  have hbasis : col ∉ t.basis := by
    intro hmem
    rw [reducedCost_of_mem_basis (h.solved t ht) γ hmem] at hcost
    exact lt_irrefl _ hcost
  obtain ⟨row, hleave, hfeasible', hgain⟩ :=
    (h.solved t ht).exists_ascent ρ hp hfeasible γ hcol hbasis hcost
  obtain ⟨t', ht', hperm⟩ := h.closed t ht col hcol hbasis row hleave
  have hle := hmax t' ⟨ht', fun e he => hfeasible' e (hperm.mem_iff.mp he)⟩
  have hsame : ρ.gain γ t' = ρ.gain γ (t.pivotRows row col) := (hperm.map _).sum_eq
  rw [hsame] at hle
  exact absurd hgain (not_lt.mpr hle)

/-! ### The lexicographic perturbation -/

instance : PosSMulStrictMono ℚ (Lex (ℕ → ℚ)) where
  smul_lt_smul_of_pos_left q hq u v := by
    rintro ⟨i, heq, hlt⟩
    exact ⟨i, fun j hj => congrArg (q * ·) (heq j hj), mul_lt_mul_of_pos_left hlt hq⟩

/-- The plain right side first, and then other measures one after the other. -/
def sumThen (p : Polytope ℚ) (f : ℕ → (ℕ → ℚ) →ₗ[ℚ] ℚ) (N : ℕ → ℚ) : ℕ → ℚ
  | 0 => ∑ j ∈ range p.numConstraints, N j
  | n + 1 => f n N

/-- Combinations in the lexicographic order of `sumThen`, for measures that vanish together only for
the trivial combination. -/
def lexicographicBy (p : Polytope ℚ) (f : ℕ → (ℕ → ℚ) →ₗ[ℚ] ℚ)
    (hf : ∀ N : ℕ → ℚ, (∀ n, f n N = 0) → ∀ j < p.numConstraints, N j = 0) :
    Perturbation p (Lex (ℕ → ℚ)) where
  value :=
    { toFun := fun N => toLex (sumThen p f N)
      map_add' := by
        intro N M
        funext n
        cases n with
        | zero =>
          show ∑ j ∈ range p.numConstraints, (N j + M j) =
            ∑ j ∈ range p.numConstraints, N j + ∑ j ∈ range p.numConstraints, M j
          exact Finset.sum_add_distrib
        | succ n => exact map_add (f n) N M
      map_smul' := by
        intro q N
        funext n
        cases n with
        | zero =>
          show ∑ j ∈ range p.numConstraints, q * N j = q * ∑ j ∈ range p.numConstraints, N j
          exact (Finset.mul_sum _ _ _).symm
        | succ n => exact map_smul (f n) q N }
  pos_of_sum_pos := by
    intro N hN
    exact ⟨0, fun j hj => absurd hj (Nat.not_lt_zero j), hN⟩
  eq_zero := by
    intro N hN
    exact hf N fun n => congrFun hN (n + 1)

/-- The lexicographic order of the plain right side and the multipliers one after the other. -/
def lexicographic (p : Polytope ℚ) : Perturbation p (Lex (ℕ → ℚ)) :=
  lexicographicBy p LinearMap.proj fun _ hN j _ => hN j

theorem Explored.exists_optimal {S : Set (Tableau ℚ)} (h : Explored p S) (hp : p.Positive)
    (γ : ℕ → ℚ) :
    ∃ t ∈ S, ∀ z, p.Solution z → (∀ c, 0 ≤ z c) →
      ∑ c ∈ range p.width, γ c * z c ≤ ∑ c ∈ range p.width, γ c * t.basicSolution c := by
  obtain ⟨t, ht, -, hcost⟩ := h.exists_reducedCost_nonpos (lexicographic p) hp γ
  exact ⟨t, ht, fun z hz hnonneg => (h.solved t ht).objective_le hcost hz hnonneg⟩

end Tableau

end Equilibria
