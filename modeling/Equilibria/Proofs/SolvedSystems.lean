import Mathlib
import Equilibria.Proofs.RatioTest

/-!
# Solved systems

A tableau may be a linear system in any number of columns, solved for the basic ones:

* `Solves` — the rows have the solutions of the system, and every basic column is the unit vector of
  its row;
* `Solves.pivotRows` — a pivot step leaves the system solved, whatever row and column it takes, with
  `Solves.entry_pivotRows` and its companions for what it does row by row;
* `Solves.solution_basicSolution`, `Solves.lhs_direction` — the basic solution, and the way in which
  the basic columns change when one other column grows;
* `Solves.row_eq_row` — a row is determined by the basis and its own basic column;
* `Solves.entry_eq_sum` — a row is a combination of the rows of any other solved tableau.

Right sides may have any sign here.
-/

namespace Equilibria

open Finset (range)

namespace Tableau

/-! ### Left sides -/

theorem lhs_scaleRow (width : ℕ) (z : ℕ → ℚ) (e : TableauRow ℚ) (col : ℕ) :
    (scaleRow e col).lhs width z = e.lhs width z / e.entry col := by
  unfold TableauRow.lhs
  rw [Finset.sum_div]
  refine Finset.sum_congr rfl fun c _ => ?_
  rw [entry_scaleRow]
  ring

theorem lhs_clearRow (width : ℕ) (z : ℕ → ℚ) (pivotRow e : TableauRow ℚ) (col : ℕ)
    (h : pivotRow.coefficients.length = e.coefficients.length) :
    (clearRow pivotRow e col).lhs width z =
      e.lhs width z - e.entry col * pivotRow.lhs width z := by
  unfold TableauRow.lhs
  rw [Finset.mul_sum, ← Finset.sum_sub_distrib]
  refine Finset.sum_congr rfl fun c _ => ?_
  rw [(clearRow_spec pivotRow e col h).1]
  ring

theorem lhs_add (width : ℕ) (z u : ℕ → ℚ) (e : TableauRow ℚ) :
    e.lhs width (z + u) = e.lhs width z + e.lhs width u := by
  unfold TableauRow.lhs
  rw [← Finset.sum_add_distrib]
  exact Finset.sum_congr rfl fun c _ => mul_add _ _ _

theorem lhs_sub (width : ℕ) (z u : ℕ → ℚ) (e : TableauRow ℚ) :
    e.lhs width (z - u) = e.lhs width z - e.lhs width u := by
  unfold TableauRow.lhs
  rw [← Finset.sum_sub_distrib]
  exact Finset.sum_congr rfl fun c _ => mul_sub _ _ _

theorem lhs_single {width col : ℕ} (hcol : col < width) (e : TableauRow ℚ) :
    e.lhs width (Pi.single col 1) = e.entry col := by
  unfold TableauRow.lhs
  rw [Finset.sum_eq_single_of_mem col (Finset.mem_range.mpr hcol), Pi.single_eq_same, mul_one]
  intro c _ hne
  rw [Pi.single_eq_of_ne hne, mul_zero]

/-! ### Systems solved for basic columns -/

/-- A tableau is a linear system in the first columns, solved for its basic columns. -/
structure Solves (width : ℕ) (S : (ℕ → ℚ) → Prop) (t : Tableau ℚ) : Prop where
  /-- Every row has a coefficient per column. -/
  lengths : ∀ r < t.length, (t.row r).coefficients.length = width
  /-- Basic columns are columns. -/
  basic_lt : ∀ r < t.length, (t.row r).basic < width
  /-- Every basic column is the unit vector of its row. -/
  unit : ∀ r < t.length, ∀ r' < t.length,
    (t.row r).entry (t.row r').basic = if r = r' then 1 else 0
  /-- The rows have the solutions of the system. -/
  solution : ∀ z : ℕ → ℚ, (∀ r < t.length, (t.row r).lhs width z = (t.row r).rhs) ↔ S z

variable {width : ℕ} {S : (ℕ → ℚ) → Prop} {t u : Tableau ℚ}

theorem Solves.basic_inj (h : t.Solves width S) {r r' : ℕ} (hr : r < t.length) (hr' : r' < t.length)
    (heq : (t.row r).basic = (t.row r').basic) : r = r' := by
  have h₁ := h.unit r hr r hr
  rw [heq, h.unit r hr r' hr', if_pos rfl] at h₁
  by_contra hne
  rw [if_neg hne] at h₁
  exact zero_ne_one h₁

theorem Solves.length_scaleRow (h : t.Solves width S) {row col r : ℕ} (hrow : row < t.length)
    (hr : r < t.length) :
    (scaleRow (t.row row) col).coefficients.length = (t.row r).coefficients.length := by
  rw [h.lengths r hr, ← h.lengths row hrow]
  exact List.length_map _

/-- The entries after a pivot step. -/
theorem Solves.entry_pivotRows (h : t.Solves width S) {row col r : ℕ} (hrow : row < t.length)
    (hr : r < t.length) (c : ℕ) :
    ((t.pivotRows row col).row r).entry c =
      if r = row then (t.row row).entry c / (t.row row).entry col
      else (t.row r).entry c -
        (t.row r).entry col * ((t.row row).entry c / (t.row row).entry col) := by
  rw [row_pivotRows t hrow hr]
  split_ifs
  · rw [entry_scaleRow]
  · rw [(clearRow_spec _ _ col (h.length_scaleRow hrow hr)).1, entry_scaleRow]

/-- The right sides after a pivot step. -/
theorem Solves.rhs_pivotRows (h : t.Solves width S) {row col r : ℕ} (hrow : row < t.length)
    (hr : r < t.length) :
    ((t.pivotRows row col).row r).rhs =
      if r = row then (t.row row).rhs / (t.row row).entry col
      else (t.row r).rhs -
        (t.row r).entry col * ((t.row row).rhs / (t.row row).entry col) := by
  rw [row_pivotRows t hrow hr]
  split_ifs
  · rfl
  · rw [(clearRow_spec _ _ col (h.length_scaleRow hrow hr)).2.1]
    rfl

/-- The left sides after a pivot step. -/
theorem Solves.lhs_pivotRows (h : t.Solves width S) {row col r : ℕ} (hrow : row < t.length)
    (hr : r < t.length) (z : ℕ → ℚ) :
    ((t.pivotRows row col).row r).lhs width z =
      if r = row then (t.row row).lhs width z / (t.row row).entry col
      else (t.row r).lhs width z -
        (t.row r).entry col * ((t.row row).lhs width z / (t.row row).entry col) := by
  rw [row_pivotRows t hrow hr]
  split_ifs
  · rw [lhs_scaleRow]
  · rw [lhs_clearRow _ _ _ _ col (h.length_scaleRow hrow hr), lhs_scaleRow]

/-- The basic columns after a pivot step. -/
theorem Solves.basic_pivotRows (h : t.Solves width S) {row col r : ℕ} (hrow : row < t.length)
    (hr : r < t.length) :
    ((t.pivotRows row col).row r).basic = if r = row then col else (t.row r).basic := by
  rw [row_pivotRows t hrow hr]
  split_ifs
  · rfl
  · exact (clearRow_spec _ _ col (h.length_scaleRow hrow hr)).2.2.1

/-- The rows after a pivot step have the same solutions as before. -/
theorem Solves.solution_pivotRows (h : t.Solves width S) {row col : ℕ} (hrow : row < t.length)
    (hpivot : (t.row row).entry col ≠ 0) (z : ℕ → ℚ) :
    (∀ r < t.length, ((t.pivotRows row col).row r).lhs width z =
        ((t.pivotRows row col).row r).rhs) ↔
      ∀ r < t.length, (t.row r).lhs width z = (t.row r).rhs := by
  constructor
  · intro hz
    have hscaled : (t.row row).lhs width z / (t.row row).entry col =
        (t.row row).rhs / (t.row row).entry col := by
      simpa only [h.lhs_pivotRows hrow hrow, h.rhs_pivotRows hrow hrow, if_true] using hz row hrow
    intro r hr
    by_cases hne : r = row
    · subst hne
      exact (div_left_inj' hpivot).mp hscaled
    · have hcleared := hz r hr
      rw [h.lhs_pivotRows hrow hr, h.rhs_pivotRows hrow hr, if_neg hne, if_neg hne, hscaled]
        at hcleared
      linarith
  · intro hz r hr
    rw [h.lhs_pivotRows hrow hr, h.rhs_pivotRows hrow hr, hz r hr, hz row hrow]

/-- **A pivot step leaves the system solved.** -/
theorem Solves.pivotRows (h : t.Solves width S) {row col : ℕ} (hrow : row < t.length)
    (hcol : col < width) (hpivot : (t.row row).entry col ≠ 0) :
    (t.pivotRows row col).Solves width S := by
  have hlen := length_pivotRows t row col
  refine ⟨?_, ?_, ?_, ?_⟩
  · intro r hr
    rw [hlen] at hr
    rw [row_pivotRows t hrow hr]
    split_ifs
    · rw [h.length_scaleRow hrow hr, h.lengths r hr]
    · rw [(clearRow_spec _ _ col (h.length_scaleRow hrow hr)).2.2.2, h.lengths r hr]
  · intro r hr
    rw [hlen] at hr
    rw [h.basic_pivotRows hrow hr]
    split_ifs
    · exact hcol
    · exact h.basic_lt r hr
  · intro r hr r' hr'
    rw [hlen] at hr hr'
    rw [h.basic_pivotRows hrow hr', h.entry_pivotRows hrow hr]
    by_cases hr'row : r' = row
    · rw [if_pos hr'row, hr'row, div_self hpivot]
      split_ifs <;> ring
    · rw [if_neg hr'row, h.unit row hrow r' hr', if_neg (Ne.symm hr'row), zero_div, mul_zero,
        sub_zero]
      split_ifs with h₁ h₂ h₂
      · exact absurd (h₂.symm.trans h₁) hr'row
      · rfl
      · rw [h.unit r hr r' hr', if_pos h₂]
      · rw [h.unit r hr r' hr', if_neg h₂]
  · intro z
    rw [hlen, h.solution_pivotRows hrow hpivot, h.solution]

/-! ### Basic solutions -/

/-- The values that give every basic column what `f` says of its row, and the others zero. -/
def spread (t : Tableau ℚ) (f : TableauRow ℚ → ℚ) (c : ℕ) : ℚ :=
  ∑ r ∈ range t.length, if (t.row r).basic = c then f (t.row r) else 0

/-- The basic solution. -/
def basicSolution (t : Tableau ℚ) : ℕ → ℚ := t.spread TableauRow.rhs

/-- The change of a solution when a column that is not basic grows by one and the others that are
not basic stay. -/
def direction (t : Tableau ℚ) (col : ℕ) : ℕ → ℚ :=
  Pi.single col 1 - t.spread fun e => e.entry col

theorem mem_basis_iff (t : Tableau ℚ) {c : ℕ} :
    c ∈ t.basis ↔ ∃ r < t.length, (t.row r).basic = c := by
  unfold basis
  rw [List.mem_map]
  constructor
  · rintro ⟨e, he, rfl⟩
    obtain ⟨r, hr, rfl⟩ := (mem_iff_row t).mp he
    exact ⟨r, hr, rfl⟩
  · rintro ⟨r, hr, rfl⟩
    exact ⟨t.row r, row_mem t hr, rfl⟩

theorem Solves.nodup_basis (h : t.Solves width S) : t.basis.Nodup := by
  rw [List.nodup_iff_injective_getElem]
  intro i j hij
  have hi : i.val < t.length := by simpa [basis] using i.isLt
  have hj : j.val < t.length := by simpa [basis] using j.isLt
  apply Fin.ext
  apply h.basic_inj hi hj
  rw [row_eq_getElem t hi, row_eq_getElem t hj]
  simpa [basis] using hij

theorem Solves.toFinset_basis_subset (h : t.Solves width S) : t.basis.toFinset ⊆ range width := by
  intro b hb
  obtain ⟨r, hr, rfl⟩ := (mem_basis_iff t).mp (List.mem_toFinset.mp hb)
  exact Finset.mem_range.mpr (h.basic_lt r hr)

theorem Solves.card_basis (h : t.Solves width S) : t.basis.toFinset.card = t.length := by
  rw [List.toFinset_card_of_nodup h.nodup_basis, basis, List.length_map]

theorem spread_of_notMem (f : TableauRow ℚ → ℚ) {c : ℕ} (hc : c ∉ t.basis) : t.spread f c = 0 := by
  apply Finset.sum_eq_zero
  intro r hr
  rw [if_neg]
  intro heq
  exact hc ((mem_basis_iff t).mpr ⟨r, Finset.mem_range.mp hr, heq⟩)

theorem Solves.spread_basic (h : t.Solves width S) (f : TableauRow ℚ → ℚ) {r : ℕ} (hr : r < t.length) :
    t.spread f (t.row r).basic = f (t.row r) := by
  unfold spread
  rw [Finset.sum_eq_single_of_mem r (Finset.mem_range.mpr hr), if_pos rfl]
  intro r' hr' hne
  rw [if_neg]
  intro heq
  exact hne (h.basic_inj (Finset.mem_range.mp hr') hr heq)

/-- A row only sees its own basic column of values that are zero off the basis. -/
theorem Solves.lhs_of_off_basis (h : t.Solves width S) {z : ℕ → ℚ} (hz : ∀ c, c ∉ t.basis → z c = 0)
    {r : ℕ} (hr : r < t.length) : (t.row r).lhs width z = z (t.row r).basic := by
  unfold TableauRow.lhs
  rw [Finset.sum_eq_single_of_mem (t.row r).basic (Finset.mem_range.mpr (h.basic_lt r hr)),
    h.unit r hr r hr, if_pos rfl, one_mul]
  intro c _ hne
  by_cases hc : c ∈ t.basis
  · obtain ⟨r', hr', rfl⟩ := (mem_basis_iff t).mp hc
    rw [h.unit r hr r' hr', if_neg (fun heq => hne (by rw [heq])), zero_mul]
  · rw [hz c hc, mul_zero]

theorem Solves.lhs_spread (h : t.Solves width S) (f : TableauRow ℚ → ℚ) {r : ℕ} (hr : r < t.length) :
    (t.row r).lhs width (t.spread f) = f (t.row r) := by
  rw [h.lhs_of_off_basis (fun c hc => spread_of_notMem f hc) hr, h.spread_basic f hr]

theorem basicSolution_nonneg (h : ∀ r < t.length, 0 ≤ (t.row r).rhs) (c : ℕ) :
    0 ≤ t.basicSolution c := by
  unfold basicSolution spread
  apply Finset.sum_nonneg
  intro r hr
  split_ifs
  · exact h r (Finset.mem_range.mp hr)
  · exact le_rfl

theorem Solves.solution_basicSolution (h : t.Solves width S) : S t.basicSolution :=
  (h.solution _).mp fun _ hr => h.lhs_spread _ hr

/-- A solution is determined by its values off the basis. -/
theorem Solves.eq_of_off_basis (h : t.Solves width S) {z u : ℕ → ℚ} (hz : S z)
    (hu : S u) (hoff : ∀ c, c ∉ t.basis → z c = u c) : z = u := by
  funext c
  by_cases hc : c ∈ t.basis
  · obtain ⟨r, hr, rfl⟩ := (mem_basis_iff t).mp hc
    have hzero : ∀ c, c ∉ t.basis → (z - u) c = 0 := fun c hc => sub_eq_zero.mpr (hoff c hc)
    have hrow := h.lhs_of_off_basis hzero hr
    rw [lhs_sub, (h.solution z).mpr hz r hr, (h.solution u).mpr hu r hr, sub_self] at hrow
    exact sub_eq_zero.mp hrow.symm
  · exact hoff c hc

/-- The rows do not see a change along a direction. -/
theorem Solves.lhs_direction (h : t.Solves width S) {col : ℕ} (hcol : col < width) {r : ℕ}
    (hr : r < t.length) : (t.row r).lhs width (t.direction col) = 0 := by
  unfold direction
  rw [lhs_sub, lhs_single hcol, h.lhs_spread _ hr, sub_self]

/-- Solutions move along directions. -/
theorem Solves.solution_add_direction (h : t.Solves width S) {col : ℕ} (hcol : col < width)
    {z : ℕ → ℚ} (hz : S z) : S (z + t.direction col) := by
  refine (h.solution _).mp fun r hr => ?_
  rw [lhs_add, h.lhs_direction hcol hr, add_zero]
  exact (h.solution z).mpr hz r hr

theorem direction_self {col : ℕ} (hcol : col ∉ t.basis) : t.direction col col = 1 := by
  unfold direction
  rw [Pi.sub_apply, Pi.single_eq_same, spread_of_notMem _ hcol, sub_zero]

theorem direction_of_notMem {col c : ℕ} (hne : c ≠ col) (hc : c ∉ t.basis) : t.direction col c = 0 := by
  unfold direction
  rw [Pi.sub_apply, Pi.single_eq_of_ne hne, spread_of_notMem _ hc, sub_zero]

/-- Without a positive coefficient in the column nothing shrinks. -/
theorem direction_nonneg {col : ℕ} (hcol : ∀ r < t.length, (t.row r).entry col ≤ 0) (c : ℕ) :
    0 ≤ t.direction col c := by
  have hspread : t.spread (fun e => e.entry col) c ≤ 0 := by
    unfold spread
    apply Finset.sum_nonpos
    intro r hr
    split_ifs
    · exact hcol r (Finset.mem_range.mp hr)
    · exact le_rfl
  have hsingle : 0 ≤ (Pi.single col 1 : ℕ → ℚ) c := by
    rw [Pi.single_apply]
    split_ifs <;> norm_num
  unfold direction
  rw [Pi.sub_apply]
  linarith

/-! ### One tableau and another -/

/-- The row of a basic column is the same in every solved tableau with that basis. -/
theorem Solves.row_eq_row (h : t.Solves width S) {t' : Tableau ℚ} (h' : t'.Solves width S)
    (hbasis : ∀ c, c ∈ t.basis ↔ c ∈ t'.basis) {r r' : ℕ} (hr : r < t.length) (hr' : r' < t'.length)
    (hbasic : (t.row r).basic = (t'.row r').basic) : t.row r = t'.row r' := by
  have hspread : ∀ f : TableauRow ℚ → ℚ,
      (t.row r).lhs width (t'.spread f) = f (t'.row r') := by
    intro f
    rw [h.lhs_of_off_basis (fun c hc => spread_of_notMem f (mt (hbasis c).mpr hc)) hr, hbasic,
      h'.spread_basic f hr']
  have hrhs : (t.row r).rhs = (t'.row r').rhs := by
    rw [← (h.solution _).mpr h'.solution_basicSolution r hr]
    exact hspread _
  have hentry : ∀ c < width, (t.row r).entry c = (t'.row r').entry c := by
    intro c hc
    have hbase := h'.solution_basicSolution
    have hmoved := (h.solution _).mpr (h'.solution_add_direction hc hbase) r hr
    rw [lhs_add, (h.solution _).mpr hbase r hr, add_eq_left] at hmoved
    unfold direction at hmoved
    rw [lhs_sub, lhs_single hc, hspread] at hmoved
    exact sub_eq_zero.mp hmoved
  have hcoefficients : (t.row r).coefficients = (t'.row r').coefficients := by
    apply List.ext_getElem
    · rw [h.lengths r hr, h'.lengths r' hr']
    · intro c hc hc'
      have hwidth : c < width := by rwa [h.lengths r hr] at hc
      simpa only [TableauRow.entry, List.getD_eq_getElem _ _ hc, List.getD_eq_getElem _ _ hc']
        using hentry c hwidth
  cases hrow : t.row r
  cases hrow' : t'.row r'
  simp only [hrow, hrow'] at hrhs hcoefficients hbasic
  rw [hrhs, hcoefficients, hbasic]

theorem entry_eq_zero_of_width_le (h : t.Solves width S) {r c : ℕ} (hr : r < t.length)
    (hc : width ≤ c) : (t.row r).entry c = 0 := by
  apply List.getD_eq_default
  rwa [h.lengths r hr]

theorem Solves.lhs_spread_eq_sum (hu : u.Solves width S) (e : TableauRow ℚ) (f : TableauRow ℚ → ℚ) :
    e.lhs width (u.spread f) =
      ∑ r ∈ range u.length, e.entry (u.row r).basic * f (u.row r) := by
  unfold TableauRow.lhs spread
  simp only [Finset.mul_sum]
  rw [Finset.sum_comm]
  refine Finset.sum_congr rfl fun r hr => ?_
  have hlt := hu.basic_lt r (Finset.mem_range.mp hr)
  rw [Finset.sum_eq_single_of_mem _ (Finset.mem_range.mpr hlt), if_pos rfl]
  intro c _ hne
  rw [if_neg (Ne.symm hne), mul_zero]

/-- A row of one tableau is a combination of the rows of another, by its entries at the basis of the
other. -/
theorem Solves.entry_eq_sum (h : t.Solves width S) (hu : u.Solves width S) {r : ℕ} (hr : r < t.length) (c : ℕ) :
    (t.row r).entry c =
      ∑ r' ∈ range u.length, (t.row r).entry (u.row r').basic * (u.row r').entry c := by
  rcases Nat.lt_or_ge c width with hc | hc
  · have hbase := hu.solution_basicSolution
    have hmoved := (h.solution _).mpr (hu.solution_add_direction hc hbase) r hr
    rw [lhs_add, (h.solution _).mpr hbase r hr, add_eq_left] at hmoved
    unfold direction at hmoved
    rw [lhs_sub, lhs_single hc, hu.lhs_spread_eq_sum] at hmoved
    exact sub_eq_zero.mp hmoved
  · rw [entry_eq_zero_of_width_le h hr hc]
    refine (Finset.sum_eq_zero fun r' hr' => ?_).symm
    rw [entry_eq_zero_of_width_le hu (Finset.mem_range.mp hr') hc, mul_zero]

/-- The column that has entered takes the place of another. -/
theorem Solves.mem_basis_pivotRows_iff (h : t.Solves width S) {row : ℕ} (hrow : row < t.length)
    (col b : ℕ) : b ∈ (t.pivotRows row col).basis ↔
      b = col ∨ b ∈ t.basis ∧ b ≠ (t.row row).basic := by
  refine Tableau.mem_basis_pivotRows_iff h.nodup_basis ?_ col b
  rw [row_eq_getElem t hrow, basis, List.getElem?_map, List.getElem?_eq_getElem hrow]
  rfl

theorem Solves.mem_basis_pivotRows (h : t.Solves width S) {row col : ℕ} (hrow : row < t.length) {b : ℕ}
    (hb : b ∈ (t.pivotRows row col).basis) : b = col ∨ b ∈ t.basis :=
  ((h.mem_basis_pivotRows_iff hrow col b).mp hb).imp_right And.left

theorem Solves.col_mem_basis_pivotRows (h : t.Solves width S) {row col : ℕ} (hrow : row < t.length) :
    col ∈ (t.pivotRows row col).basis :=
  (h.mem_basis_pivotRows_iff hrow col col).mpr (Or.inl rfl)

end Tableau

end Equilibria
