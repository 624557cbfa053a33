import Mathlib
import Equilibria.Proofs.EvenWalls
import Equilibria.Proofs.VertexEnumeration

/-!
# Feasible bases

With perturbed right sides a basis is feasible when its perturbed basic solution is positive.  Of the
bases among one column more than a basis has, an even number is feasible:

* `Solved.side_eq_level` — a row of one tableau at the perturbed basic solution of another;
* `Solved.exists_exchange` — a column that enters a feasible basis gives a second one;
* `Solved.exchange_unique` — and no third, since of two exchanges the one that keeps a column gives
  the new one less;
* `Perturbation.evenWalls` — so the feasible bases have even walls.

Without the perturbation this fails, since a degenerate vertex has bases in any number.
-/

namespace Equilibria

open Finset (range)

namespace Tableau

variable {p : Polytope ℚ} {t u w : Tableau ℚ}

/-! ### Perturbed basic solutions -/

variable {V : Type*} [AddCommGroup V] [LinearOrder V] [Module ℚ V] (ρ : Perturbation p V)

/-- The value of a column at the perturbed basic solution. -/
def Perturbation.level (t : Tableau ℚ) (c : ℕ) : V :=
  ∑ r ∈ range t.length, if (t.row r).basic = c then ρ.side (t.row r) else 0

theorem Perturbation.level_of_notMem {c : ℕ} (hc : c ∉ t.basis) : ρ.level t c = 0 := by
  apply Finset.sum_eq_zero
  intro r hr
  rw [if_neg]
  intro heq
  exact hc ((mem_basis_iff t).mpr ⟨r, Finset.mem_range.mp hr, heq⟩)

theorem Solved.level_basic (h : t.Solved p) {r : ℕ} (hr : r < t.length) :
    ρ.level t (t.row r).basic = ρ.side (t.row r) := by
  unfold Perturbation.level
  rw [Finset.sum_eq_single_of_mem r (Finset.mem_range.mpr hr), if_pos rfl]
  intro r' hr' hne
  rw [if_neg]
  intro heq
  exact hne (h.solves.basic_inj (Finset.mem_range.mp hr') hr heq)

theorem Solved.level_pos (h : t.Solved p) (hfeasible : ρ.Feasible t) {c : ℕ} (hc : c ∈ t.basis) :
    0 < ρ.level t c := by
  obtain ⟨r, hr, rfl⟩ := (mem_basis_iff t).mp hc
  rw [h.level_basic ρ hr]
  exact hfeasible _ (row_mem t hr)

theorem Solved.side_eq_sum (h : t.Solved p) (hu : u.Solved p) {r : ℕ} (hr : r < t.length) :
    ρ.side (t.row r) =
      ∑ r' ∈ range u.length, (t.row r).entry (u.row r').basic • ρ.side (u.row r') := by
  unfold Perturbation.side
  simp only [← map_smul, ← map_sum]
  congr 1
  funext j
  rw [Finset.sum_apply]
  exact h.solves.entry_eq_sum hu.solves hr _

/-- A row at the perturbed basic solution of a tableau whose basis has one new column: only its own
basic column and the new one count. -/
theorem Solved.side_eq_level (h : t.Solved p) (hu : u.Solved p) {c : ℕ} (hc : c ∉ t.basis)
    (hsub : ∀ b ∈ u.basis, b = c ∨ b ∈ t.basis) {r : ℕ} (hr : r < t.length) :
    ρ.side (t.row r) = ρ.level u (t.row r).basic + (t.row r).entry c • ρ.level u c := by
  unfold Perturbation.level
  rw [h.side_eq_sum ρ hu hr, Finset.smul_sum, ← Finset.sum_add_distrib]
  refine Finset.sum_congr rfl fun r' hr' => ?_
  have hmem : (u.row r').basic ∈ u.basis :=
    (mem_basis_iff u).mpr ⟨r', Finset.mem_range.mp hr', rfl⟩
  have hown : (t.row r).basic ∈ t.basis := (mem_basis_iff t).mpr ⟨r, hr, rfl⟩
  rcases hsub _ hmem with heq | hold
  · rw [heq, if_pos rfl, if_neg fun h : c = (t.row r).basic => hc (h ▸ hown), zero_add]
  · rw [if_neg fun h : (u.row r').basic = c => hc (h ▸ hold), smul_zero, add_zero]
    obtain ⟨s, hs, hbasic⟩ := (mem_basis_iff t).mp hold
    rw [← hbasic, h.unit r hr s hs]
    by_cases hrs : r = s
    · rw [if_pos hrs, if_pos (by rw [hrs]), one_smul]
    · rw [if_neg hrs, if_neg fun heq => hrs (h.solves.basic_inj hs hr heq).symm, zero_smul]

/-! ### Exchanging one column -/

/-- A feasible tableau whose basis is that of `t` with the column `c` in place of another. -/
structure Perturbation.Exchanged (t : Tableau ℚ) (c : ℕ) (u : Tableau ℚ) : Prop where
  solved : u.Solved p
  feasible : ρ.Feasible u
  enters : c ∈ u.basis
  others : ∀ b ∈ u.basis, b = c ∨ b ∈ t.basis

/-- Of two different bases one has a column that the other lacks. -/
theorem Solved.exists_mem_basis (hu : u.Solved p) (hw : w.Solved p)
    (hne : u.basis.toFinset ≠ w.basis.toFinset) : ∃ b ∈ u.basis, b ∉ w.basis := by
  obtain ⟨b, hbu, hbw⟩ := Finset.not_subset.mp fun h =>
    hne (Finset.eq_of_subset_of_card_le h (by rw [hu.card_basis, hw.card_basis]))
  rw [List.mem_toFinset] at hbu hbw
  exact ⟨b, hbu, hbw⟩

variable {c : ℕ} [IsOrderedAddMonoid V] [PosSMulStrictMono ℚ V]

/-- **A column that enters a feasible basis gives another one.** -/
theorem Solved.exists_exchange (h : t.Solved p) (hp : p.Positive) (hfeasible : ρ.Feasible t)
    (hc : c < p.width) (hbasis : c ∉ t.basis) : ∃ u, ρ.Exchanged t c u := by
  have hcost : 0 < reducedCost (Pi.single c 1) t c := by
    have hzero : ∑ r ∈ range t.length,
        (Pi.single c 1 : ℕ → ℚ) (t.row r).basic * (t.row r).entry c = 0 := by
      refine Finset.sum_eq_zero fun r hr => ?_
      have hne : (t.row r).basic ≠ c := by
        rintro rfl
        exact hbasis ((mem_basis_iff t).mpr ⟨r, Finset.mem_range.mp hr, rfl⟩)
      rw [Pi.single_eq_of_ne hne, zero_mul]
    rw [reducedCost, hzero, Pi.single_eq_same, sub_zero]
    exact one_pos
  obtain ⟨row, hleave, hfeasible', -⟩ := h.exists_ascent ρ hp hfeasible _ hc hbasis hcost
  have hrow := ((mem_leavingRows_iff t c row).mp hleave).1
  exact ⟨t.pivotRows row c, h.pivotRows hc hleave, hfeasible', h.solves.col_mem_basis_pivotRows hrow,
    fun b hb => h.solves.mem_basis_pivotRows hrow hb⟩

/-- If a column leaves in one exchange and stays in another, the new column is larger in the first:
the row of the column gives the new one all that it keeps for itself in the second. -/
theorem Solved.level_lt (h : t.Solved p) (hfeasible : ρ.Feasible t) (hc : c ∉ t.basis)
    (hu : ρ.Exchanged t c u) (hw : ρ.Exchanged t c w) {b : ℕ} (hbu : b ∉ u.basis)
    (hbw : b ∈ w.basis) : ρ.level w c < ρ.level u c := by
  have hb : b ∈ t.basis := (hw.others b hbw).resolve_left fun heq => hbu (heq ▸ hu.enters)
  obtain ⟨r, hr, rfl⟩ := (mem_basis_iff t).mp hb
  have hleaves := h.side_eq_level ρ hu.solved hc hu.others hr
  have hstays := h.side_eq_level ρ hw.solved hc hw.others hr
  rw [ρ.level_of_notMem hbu, zero_add] at hleaves
  have hgrows : (t.row r).entry c • ρ.level w c < (t.row r).entry c • ρ.level u c := by
    rw [← hleaves, hstays]
    exact lt_add_of_pos_left _ (hw.solved.level_pos ρ hw.feasible hbw)
  have hentry : 0 < (t.row r).entry c := by
    by_contra hle
    have hneg := smul_nonpos_of_nonpos_of_nonneg (not_lt.mp hle)
      (hu.solved.level_pos ρ hu.feasible hu.enters).le
    rw [← hleaves] at hneg
    exact absurd (hfeasible _ (row_mem t hr)) (not_lt.mpr hneg)
  exact lt_of_smul_lt_smul_of_nonneg_left hgrows hentry.le

/-- **An exchange is determined by the column that enters.** -/
theorem Solved.exchange_unique (h : t.Solved p) (hfeasible : ρ.Feasible t) (hc : c ∉ t.basis)
    (hu : ρ.Exchanged t c u) (hw : ρ.Exchanged t c w) :
    u.basis.toFinset = w.basis.toFinset := by
  by_contra hne
  obtain ⟨b, hbu, hbw⟩ := hu.solved.exists_mem_basis hw.solved hne
  obtain ⟨b', hbw', hbu'⟩ := hw.solved.exists_mem_basis hu.solved (Ne.symm hne)
  exact lt_asymm (h.level_lt ρ hfeasible hc hu hw hbu' hbw')
    (h.level_lt ρ hfeasible hc hw hu hbw hbu)

/-! ### The family of feasible bases -/

/-- Whether a set of columns is the basis of a solved tableau with positive perturbed right sides. -/
def Perturbation.IsBasis (T : Finset ℕ) : Prop :=
  ∃ t : Tableau ℚ, t.Solved p ∧ ρ.Feasible t ∧ t.basis.toFinset = T

open Classical in
/-- The feasible bases. -/
noncomputable def Perturbation.bases : Finset (Finset ℕ) :=
  (range p.width).powerset.filter ρ.IsBasis

omit [IsOrderedAddMonoid V] [PosSMulStrictMono ℚ V] in
theorem Perturbation.mem_bases {T : Finset ℕ} : T ∈ ρ.bases ↔ ρ.IsBasis T := by
  classical
  rw [bases, Finset.mem_filter, Finset.mem_powerset, and_iff_right_iff_imp]
  rintro ⟨t, ht, -, rfl⟩
  exact ht.solves.toFinset_basis_subset

/-- **The feasible bases have even walls.**  A wall that holds a feasible basis holds exactly two: the
basis itself, and the one that the column in excess gives. -/
theorem Perturbation.evenWalls (hp : p.Positive) :
    EvenWalls (range p.width) p.numConstraints ρ.bases where
  subset := by
    intro T hT
    obtain ⟨t, ht, -, rfl⟩ := ρ.mem_bases.mp hT
    exact ht.solves.toFinset_basis_subset
  card := by
    intro T hT
    obtain ⟨t, ht, -, rfl⟩ := ρ.mem_bases.mp hT
    exact ht.card_basis
  even := by
    intro U hU hcard
    rcases Finset.eq_empty_or_nonempty {T ∈ ρ.bases | T ⊆ U} with hempty | ⟨T₀, hT₀⟩
    · rw [hempty]
      exact Even.zero
    -- a wall that holds the basis of `t` has one more column `c`, and `c` can enter
    obtain ⟨hbase, hsub₀⟩ := Finset.mem_filter.mp hT₀
    obtain ⟨t, ht, hfeasible, rfl⟩ := ρ.mem_bases.mp hbase
    obtain ⟨c, hc, rfl⟩ := Finset.exists_eq_insert_iff.mpr ⟨hsub₀, by rw [ht.card_basis, hcard]⟩
    have hcol : c < p.width := Finset.mem_range.mp (hU (Finset.mem_insert_self _ _))
    have hcbasis : c ∉ t.basis := fun h => hc (List.mem_toFinset.mpr h)
    have hinsert : ∀ {v : Tableau ℚ}, v.basis.toFinset ⊆ insert c t.basis.toFinset ↔
        ∀ b ∈ v.basis, b = c ∨ b ∈ t.basis := by
      intro v
      simp [Finset.subset_iff]
    obtain ⟨u, hu⟩ := ht.exists_exchange ρ hp hfeasible hcol hcbasis
    have htwo : {T ∈ ρ.bases | T ⊆ insert c t.basis.toFinset} =
        {t.basis.toFinset, u.basis.toFinset} := by
      ext T
      rw [Finset.mem_filter, Finset.mem_insert, Finset.mem_singleton]
      constructor
      · rintro ⟨hT, hsub⟩
        obtain ⟨w, hw, hfeasible', rfl⟩ := ρ.mem_bases.mp hT
        rw [hinsert] at hsub
        by_cases hcw : c ∈ w.basis
        · right
          exact ht.exchange_unique ρ hfeasible hcbasis ⟨hw, hfeasible', hcw, hsub⟩ hu
        · left
          -- without `c` the wall leaves only the columns of `t`
          by_contra hne
          obtain ⟨b, hbw, hbt⟩ := hw.exists_mem_basis ht hne
          exact hbt ((hsub b hbw).resolve_left fun heq => hcw (heq ▸ hbw))
      · rintro (rfl | rfl)
        · exact ⟨hbase, Finset.subset_insert _ _⟩
        · exact ⟨ρ.mem_bases.mpr ⟨u, hu.solved, hu.feasible, rfl⟩, hinsert.mpr hu.others⟩
    have hne : t.basis.toFinset ≠ u.basis.toFinset := by
      intro heq
      rw [heq] at hc
      exact hc (List.mem_toFinset.mpr hu.enters)
    rw [htwo, Finset.card_pair hne]
    exact even_two

end Tableau

end Equilibria
