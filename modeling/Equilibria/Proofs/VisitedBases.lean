import Mathlib
import Equilibria.Proofs.GamePolytopes

/-!
# The bases that the enumeration visits

A set of columns of `C x + s = 1` is a feasible basis if it has as many columns as there are
constraints, the columns are linearly independent, and the solution that is zero elsewhere is not
negative.  The enumeration visits exactly these:

* `Tableau.Solved.feasibleBasis` — a solved tableau has a feasible basis;
* `Polytope.FeasibleBasis.perturbation` — right sides perturbed along the columns of a feasible
  basis, so that its own basic solution becomes positive;
* `Tableau.Explored.exists_basis_eq` — with them the objective that charges for the other columns
  has no optimum but that basis, so that a search which has made all its steps holds it;
* `Polytope.visited_iff`, `Polytope.visited_of_pair` — hence the bases visited are the feasible ones.

Two bases of one degenerate vertex need not be joined by a step between them.  The ascent that joins
them leads over other vertices of the perturbed polytope.
-/

namespace Equilibria

open Finset (range)

/-! ### Columns -/

namespace Polytope

variable {p : Polytope ℚ} {B : Finset ℕ}

/-- A column of `C x + s = 1`. -/
def column (p : Polytope ℚ) (c : ℕ) (j : Fin p.numConstraints) : ℚ :=
  if c < p.dimension then p.coefficient j c else if c = p.dimension + j then 1 else 0

/-- The entry of a column in a combination of the constraints. -/
def combined (p : Polytope ℚ) (c : ℕ) : (ℕ → ℚ) →ₗ[ℚ] ℚ :=
  ∑ j : Fin p.numConstraints, p.column c j • LinearMap.proj (j : ℕ)

theorem combined_apply (c : ℕ) (N : ℕ → ℚ) :
    p.combined c N = (fun j : Fin p.numConstraints => N j) ⬝ᵥ p.column c := by
  rw [combined, LinearMap.sum_apply, dotProduct]
  exact Finset.sum_congr rfl fun j _ => mul_comm _ _

theorem sum_smul_column (z : ℕ → ℚ) (j : Fin p.numConstraints) :
    (∑ c ∈ range p.width, z c • p.column c) j =
      ∑ i ∈ range p.dimension, p.coefficient j i * z i + z (p.dimension + j) := by
  rw [Finset.sum_apply, width, Finset.sum_range_add]
  congr 1
  · refine Finset.sum_congr rfl fun i hi => ?_
    rw [Pi.smul_apply, column, if_pos (Finset.mem_range.mp hi), smul_eq_mul, mul_comm]
  · rw [Finset.sum_eq_single_of_mem (j : ℕ) (Finset.mem_range.mpr j.isLt)]
    · rw [Pi.smul_apply, column, if_neg (by omega), if_pos rfl, smul_eq_mul, mul_one]
    · intro i _ hne
      rw [Pi.smul_apply, column, if_neg (by omega), if_neg (by omega), smul_zero]

/-- A solution combines the columns to the right side. -/
theorem solution_iff {z : ℕ → ℚ} :
    p.Solution z ↔ ∑ c ∈ range p.width, z c • p.column c = 1 := by
  rw [funext_iff]
  simp only [sum_smul_column, Pi.one_apply]
  exact ⟨fun h j => h j j.isLt, fun h j hj => h ⟨j, hj⟩⟩

/-! ### Feasible bases -/

/-- **Feasible bases**: as many columns as there are constraints, linearly independent, with a basic
solution that is not negative. -/
structure FeasibleBasis (p : Polytope ℚ) (B : Finset ℕ) : Prop where
  subset : B ⊆ range p.width
  card : B.card = p.numConstraints
  independent : LinearIndepOn ℚ p.column (B : Set ℕ)
  feasible : ∃ z : ℕ → ℚ, p.Solution z ∧ (∀ c, c ∉ B → z c = 0) ∧ ∀ c, 0 ≤ z c

/-- Only the trivial combination of the constraints has no entry in the columns of a basis, since
these span the space. -/
theorem FeasibleBasis.eq_zero (hB : p.FeasibleBasis B) {N : ℕ → ℚ}
    (hN : ∀ c ∈ B, p.combined c N = 0) : ∀ j < p.numConstraints, N j = 0 := by
  have hspan : Submodule.span ℚ (Set.range fun c : (B : Set ℕ) => p.column c) = ⊤ := by
    refine LinearIndependent.span_eq_top_of_card_eq_finrank' hB.independent ?_
    rw [Module.finrank_fin_fun, ← hB.card]
    exact Fintype.card_coe B
  have hzero : (fun j : Fin p.numConstraints => N j) = 0 := by
    refine dotProduct_eq_zero _ fun v => ?_
    have hv : v ∈ Submodule.span ℚ (Set.range fun c : (B : Set ℕ) => p.column c) := by
      rw [hspan]
      exact Submodule.mem_top
    induction hv using Submodule.span_induction with
    | mem v hv =>
      obtain ⟨⟨c, hc⟩, rfl⟩ := hv
      rw [← combined_apply]
      exact hN c hc
    | zero => exact dotProduct_zero _
    | add v w _ _ hv hw => rw [dotProduct_add, hv, hw, add_zero]
    | smul q v _ hv => rw [dotProduct_smul, hv, smul_zero]
  exact fun j hj => congrFun hzero ⟨j, hj⟩

/-- **Right sides perturbed along the columns of a basis**, one after the other. -/
def FeasibleBasis.perturbation (hB : p.FeasibleBasis B) :
    Tableau.Perturbation p (Lex (ℕ → ℚ)) :=
  Tableau.lexicographicBy p (fun c => if c ∈ B then p.combined c else 0) fun N hN =>
    hB.eq_zero fun c hc => by simpa only [if_pos hc] using hN c

end Polytope

/-! ### The bases of solved tableaux -/

namespace Tableau

variable {p : Polytope ℚ} {t : Tableau ℚ} {B : Finset ℕ}

/-- **The columns of a solved tableau are a feasible basis.**  If they were dependent, then the
basic solution could be changed on the basis alone. -/
theorem Solved.feasibleBasis (h : t.Solved p) : p.FeasibleBasis t.basis.toFinset where
  subset := h.solves.toFinset_basis_subset
  card := h.card_basis
  independent := by
    rw [linearIndepOn_finset_iff]
    intro f hf c hc
    have hchange : ∑ c ∈ range p.width, (if c ∈ t.basis.toFinset then f c else 0) • p.column c =
        0 := by
      simp only [ite_smul, zero_smul]
      rwa [Finset.sum_ite_mem, Finset.inter_eq_right.mpr h.solves.toFinset_basis_subset]
    have hbase := h.solves.solution_basicSolution
    have hmoved :
        p.Solution (t.basicSolution + fun c => if c ∈ t.basis.toFinset then f c else 0) := by
      rw [Polytope.solution_iff] at hbase ⊢
      simp only [Pi.add_apply, add_smul, Finset.sum_add_distrib, hbase, hchange, add_zero]
    have heq := h.solves.eq_of_off_basis hmoved hbase fun c hc => by
      rw [Pi.add_apply, if_neg (mt List.mem_toFinset.mp hc), add_zero]
    simpa [List.mem_toFinset.mp hc] using congrFun heq c
  feasible :=
    ⟨t.basicSolution, h.solves.solution_basicSolution,
      fun _ hc => spread_of_notMem _ (mt List.mem_toFinset.mpr hc), h.basicSolution_nonneg⟩

/-- The entries of a row are those of the combination of constraints that it is. -/
theorem Solved.entry_eq_combined (h : t.Solved p) (hp : p.Positive) {r : ℕ} (hr : r < t.length)
    (c : ℕ) : (t.row r).entry c = p.combined c (multipliers p (t.row r)) := by
  rw [h.solves.entry_eq_sum (solved_origin hp).solves hr, length_origin, Finset.sum_range,
    Polytope.combined_apply, dotProduct]
  refine Finset.sum_congr rfl fun j _ => ?_
  rw [entry_origin hp j.isLt, row_origin p j.isLt]
  rfl

/-! ### The objective that leads to a basis -/

/-- An objective that charges one for every column outside of a set. -/
def outside (B : Finset ℕ) (c : ℕ) : ℚ := if c ∈ B then 0 else -1

/-- The rows that were charged for, added up. -/
def charged (p : Polytope ℚ) (B : Finset ℕ) (t : Tableau ℚ) : ℕ → ℚ :=
  ∑ r ∈ range t.length, outside B (t.row r).basic • multipliers p (t.row r)

/-- A tableau with a column outside of the set has a cost. -/
theorem gain_outside_neg {V : Type*} [AddCommGroup V] [LinearOrder V] [Module ℚ V]
    [IsOrderedAddMonoid V] [PosSMulStrictMono ℚ V] {ρ : Perturbation p V} (hfeasible : ρ.Feasible t)
    {b : ℕ} (hb : b ∈ t.basis) (hbB : b ∉ B) : ρ.gain (outside B) t < 0 := by
  rw [gain_eq_sum]
  have hneg : ∀ r < t.length, (t.row r).basic ∉ B →
      outside B (t.row r).basic • ρ.side (t.row r) < 0 := by
    intro r hr hout
    rw [outside, if_neg hout, neg_one_smul, neg_lt_zero]
    exact hfeasible _ (row_mem t hr)
  apply Finset.sum_neg'
  · intro r hr
    by_cases hin : (t.row r).basic ∈ B
    · rw [outside, if_pos hin, zero_smul]
    · exact (hneg r (Finset.mem_range.mp hr) hin).le
  · obtain ⟨r, hr, rfl⟩ := (mem_basis_iff t).mp hb
    exact ⟨r, Finset.mem_range.mpr hr, hneg r hr hbB⟩

/-- Values that are not negative and need no column outside of the set cost nothing, so that an
optimal tableau is charged nothing at them either. -/
theorem sum_outside_nonneg (hcost : ∀ c < p.width, reducedCost (outside B) t c ≤ 0) {u : ℕ → ℚ}
    (hnonneg : ∀ c, 0 ≤ u c) (hoff : ∀ c, c ∉ B → u c = 0) :
    0 ≤ ∑ r ∈ range t.length, outside B (t.row r).basic * (t.row r).lhs p.width u := by
  have hfree : ∑ c ∈ range p.width, outside B c * u c = 0 := by
    refine Finset.sum_eq_zero fun c _ => ?_
    by_cases hc : c ∈ B
    · rw [outside, if_pos hc, zero_mul]
    · rw [hoff c hc, mul_zero]
  rw [objective_eq t] at hfree
  linarith [sum_reducedCost_nonpos hcost hnonneg]

/-- The rows that were charged for add up to a right side that is not negative. -/
theorem Solved.sum_charged_nonneg (h : t.Solved p) (hB : p.FeasibleBasis B)
    (hcost : ∀ c < p.width, reducedCost (outside B) t c ≤ 0) :
    0 ≤ ∑ j ∈ range p.numConstraints, charged p B t j := by
  obtain ⟨z, hz, hoff, hnonneg⟩ := hB.feasible
  have hsum : ∑ j ∈ range p.numConstraints, charged p B t j =
      ∑ r ∈ range t.length, outside B (t.row r).basic * (t.row r).lhs p.width z := by
    simp only [charged, Finset.sum_apply, Pi.smul_apply, smul_eq_mul]
    rw [Finset.sum_comm]
    refine Finset.sum_congr rfl fun r hr => ?_
    rw [← Finset.mul_sum, ← h.rhs_eq_sum (Finset.mem_range.mp hr),
      (h.solution z).mpr hz r (Finset.mem_range.mp hr)]
  rw [hsum]
  exact sum_outside_nonneg hcost hnonneg hoff

/-- They add up to entries that are not negative in the columns of the set. -/
theorem Solved.combined_charged_nonneg (h : t.Solved p) (hp : p.Positive) (hB : p.FeasibleBasis B)
    (hcost : ∀ c < p.width, reducedCost (outside B) t c ≤ 0) {c : ℕ} (hc : c ∈ B) :
    0 ≤ p.combined c (charged p B t) := by
  have hsum : p.combined c (charged p B t) = ∑ r ∈ range t.length,
      outside B (t.row r).basic * (t.row r).lhs p.width (Pi.single c 1) := by
    simp only [charged, map_sum, map_smul, smul_eq_mul]
    refine Finset.sum_congr rfl fun r hr => ?_
    rw [lhs_single (Finset.mem_range.mp (hB.subset hc)),
      h.entry_eq_combined hp (Finset.mem_range.mp hr)]
  rw [hsum]
  refine sum_outside_nonneg hcost (fun b => ?_) fun b hb => ?_
  · rw [Pi.single_apply]
    split_ifs <;> norm_num
  · have hne : b ≠ c := fun heq => hb (heq.symm ▸ hc)
    exact Pi.single_eq_of_ne hne 1

/-- **No feasible basis is missed.**  An optimal tableau costs nothing in right sides perturbed along
the basis, so that it has no other column. -/
theorem Explored.exists_basis_eq {S : Set (Tableau ℚ)} (h : Explored p S) (hp : p.Positive)
    (hB : p.FeasibleBasis B) : ∃ t ∈ S, t.basis.toFinset = B := by
  obtain ⟨t, ht, hfeasible, hcost⟩ := h.exists_reducedCost_nonpos hB.perturbation hp (outside B)
  have hsolved := h.solved t ht
  have hgain : 0 ≤ hB.perturbation.gain (outside B) t := by
    -- no entry that the lexicographic order compares is negative
    rw [gain_eq_value]
    refine Pi.toLex_monotone fun n => ?_
    cases n with
    | zero => exact hsolved.sum_charged_nonneg hB hcost
    | succ c =>
      show 0 ≤ (if c ∈ B then p.combined c else 0) (charged p B t)
      split_ifs with hc
      · exact hsolved.combined_charged_nonneg hp hB hcost hc
      · exact le_rfl
  have hsub : t.basis.toFinset ⊆ B := by
    intro b hb
    by_contra hbB
    exact absurd (gain_outside_neg hfeasible (List.mem_toFinset.mp hb) hbB) (not_lt.mpr hgain)
  refine ⟨t, ht, Finset.eq_of_subset_of_card_le hsub ?_⟩
  rw [hB.card, hsolved.card_basis]

end Tableau

/-! ### The bases visited -/

namespace Polytope

variable {p : Polytope ℚ}

theorem toFinset_key (t : Tableau ℚ) : t.key.toFinset = t.basis.toFinset := by
  ext c
  rw [List.mem_toFinset, List.mem_toFinset]
  exact mem_ascending

/-- **The search visits the feasible bases**, each once, and ends with an empty stack. -/
theorem visited_iff (hp : p.Positive) : ∃ s : Search ℚ,
    Search.explore p.width p.dimension (2 ^ p.width) (Search.start p) = .ok s ∧
      p.vertices = .ok ⟨s.found.reverse, s.visited.length⟩ ∧ s.stack = [] ∧
      (s.visited.map List.toFinset).Nodup ∧
      ∀ B, B ∈ s.visited.map List.toFinset ↔ p.FeasibleBasis B := by
  obtain ⟨s, S, hexplore, hok, hempty, htracks, hexplored⟩ := exists_search hp
  have hkeys : (S.map Tableau.key).Perm s.visited := by
    simpa only [hempty, List.append_nil] using htracks.visited
  refine ⟨s, hexplore, hok, hempty, ?_, fun B => ?_⟩
  · refine htracks.nodup.map_on fun a ha b hb hab => ?_
    obtain ⟨t, ht, rfl⟩ := List.mem_map.mp (hkeys.mem_iff.mpr ha)
    obtain ⟨u, hu, rfl⟩ := List.mem_map.mp (hkeys.mem_iff.mpr hb)
    exact ascending_eq_of_toFinset_eq (hexplored.solved t ht).solves.nodup_basis
      (hexplored.solved u hu).solves.nodup_basis hab
  · rw [← (hkeys.map List.toFinset).mem_iff, List.map_map, List.mem_map]
    constructor
    · rintro ⟨t, ht, rfl⟩
      rw [Function.comp_apply, toFinset_key]
      exact (hexplored.solved t ht).feasibleBasis
    · intro hB
      obtain ⟨t, ht, rfl⟩ := hexplored.exists_basis_eq hp hB
      exact ⟨t, ht, toFinset_key t⟩

/-- **The bases visited on both polytopes are the feasible bases**, and their number is what the
enumeration reports. -/
theorem visited_of_pair (g : Game) (htwo : g.numPlayers = 2) (hvalid : g.validate = .ok ()) :
    ∃ p q : Polytope ℚ, pair g = .ok (p, q) ∧
      (p.dimension = g.numStrategies 0 ∧ p.numConstraints = g.numStrategies 1) ∧
      (q.dimension = g.numStrategies 1 ∧ q.numConstraints = g.numStrategies 0) ∧
      ∀ r ∈ [p, q], ∃ s : Search ℚ,
        Search.explore r.width r.dimension (2 ^ r.width) (Search.start r) = .ok s ∧
        s.stack = [] ∧ (s.visited.map List.toFinset).Nodup ∧
        (∀ B, B ∈ s.visited.map List.toFinset ↔ r.FeasibleBasis B) ∧
        r.vertices = .ok ⟨s.found.reverse, {B | r.FeasibleBasis B}.ncard⟩ := by
  have h₀ : 0 < g.numStrategies 0 := Game.numStrategies_pos hvalid (by omega)
  have h₁ : 0 < g.numStrategies 1 := Game.numStrategies_pos hvalid (by omega)
  refine ⟨first g, second g, pair_eq htwo, ⟨dimension_first h₁, numConstraints_first g⟩,
    ⟨dimension_second h₀, numConstraints_second g⟩, fun r hr => ?_⟩
  obtain ⟨s, hexplore, hok, hempty, hnodup, hmem⟩ := visited_iff (positive_of_mem h₀ h₁ r hr)
  have hcount : {B | r.FeasibleBasis B}.ncard = s.visited.length := by
    have hset : {B | r.FeasibleBasis B} = ((s.visited.map List.toFinset).toFinset : Set _) := by
      ext B
      rw [Set.mem_ofPred_eq, ← hmem, List.coe_toFinset, Set.mem_ofPred_eq]
    rw [hset, Set.ncard_coe_finset, List.toFinset_card_of_nodup hnodup, List.length_map]
  exact ⟨s, hexplore, hempty, hnodup, hmem, by rw [hok, hcount]⟩

theorem visited_of_pair_dilemma :
    Game.dilemma.numPlayers = 2 ∧ Game.dilemma.validate = .ok () ∧
      ∃ p q : Polytope ℚ, pair Game.dilemma = .ok (p, q) ∧
        (p.dimension = Game.dilemma.numStrategies 0 ∧
          p.numConstraints = Game.dilemma.numStrategies 1) ∧
        (q.dimension = Game.dilemma.numStrategies 1 ∧
          q.numConstraints = Game.dilemma.numStrategies 0) ∧
        ∀ r ∈ [p, q], ∃ s : Search ℚ,
          Search.explore r.width r.dimension (2 ^ r.width) (Search.start r) = .ok s ∧
          s.stack = [] ∧ (s.visited.map List.toFinset).Nodup ∧
          (∀ B, B ∈ s.visited.map List.toFinset ↔ r.FeasibleBasis B) ∧
          r.vertices = .ok ⟨s.found.reverse, {B | r.FeasibleBasis B}.ncard⟩ :=
  ⟨rfl, rfl, visited_of_pair Game.dilemma rfl rfl⟩

end Polytope

end Equilibria
