import Mathlib
import Equilibria.Proofs.Expectation
import Equilibria.Proofs.LexicographicPivots

/-!
# Tableaux of a complementarity problem

The tableaux of complementary pivoting are the system `w - M z - d z₀ = q` solved for the basic
columns:

* `Lcp.Square`, `Lcp.System` — the shape that is asked of a problem, and its system;
* `Lcp.solves_start` — the first tableau, with `w` basic;
* `Lcp.share_ne` — no two rows of a solved tableau have the same share, since a row is determined by
  its part of the inverse basis;
* `Lcp.firstRow_spec`, `Lcp.positive_entered` — once the artificial column has entered in the row of
  the last least constant, all sides are positive.
-/

namespace Equilibria

open Finset (range)

namespace Lcp

variable {p : Lcp ℚ}

/-! ### Problems -/

/-- A coefficient, zero outside of the matrix. -/
def coefficient (p : Lcp ℚ) (r i : ℕ) : ℚ := (p.matrix.getD r []).getD i 0

/-- A constant, zero past the last one. -/
def constant (p : Lcp ℚ) (r : ℕ) : ℚ := p.offset.getD r 0

/-- The matrix is square of the size of the vector. -/
structure Square (p : Lcp ℚ) : Prop where
  rows : p.matrix.length = p.size
  rectangular : ∀ row ∈ p.matrix, row.length = p.size

/-- Values of the columns that solve `w - M z - d z₀ = q`. -/
def System (p : Lcp ℚ) (v : ℕ → ℚ) : Prop :=
  ∀ r < p.size, v r - ∑ i ∈ range p.size, p.coefficient r i * v (p.size + i) - v (2 * p.size) =
    p.constant r

/-! ### The first tableau -/

theorem length_start (h : p.Square) : p.start.length = p.size := by
  rw [start, List.length_mapIdx, List.length_zip, h.rows]
  exact Nat.min_self _

theorem row_start (h : p.Square) {r : ℕ} (hr : r < p.size) : p.start.row r =
    ⟨Tableau.unitRow p.size r ++ (p.matrix.getD r []).map (fun v => -v) ++ [-1], p.constant r, r⟩ := by
  have hmatrix : r < p.matrix.length := by rwa [h.rows]
  rw [Tableau.row_eq_getElem _ (by rwa [length_start h])]
  simp only [start, List.getElem_mapIdx, List.getElem_zip, constant,
    List.getD_eq_getElem _ _ hmatrix, List.getD_eq_getElem _ _ hr]
  rfl

theorem length_matrix_row (h : p.Square) {r : ℕ} (hr : r < p.size) :
    (p.matrix.getD r []).length = p.size := by
  have hmatrix : r < p.matrix.length := by rwa [h.rows]
  rw [List.getD_eq_getElem _ _ hmatrix]
  exact h.rectangular _ (List.getElem_mem hmatrix)

theorem entry_start (h : p.Square) {r : ℕ} (hr : r < p.size) (c : ℕ) : (p.start.row r).entry c =
    if c < p.size then if c = r then 1 else 0
    else if c < 2 * p.size then -p.coefficient r (c - p.size)
    else if c = 2 * p.size then -1 else 0 := by
  have hmiddle : ((p.matrix.getD r []).map fun v => -v).length = p.size := by
    rw [List.length_map, length_matrix_row h hr]
  have hleft : (Tableau.unitRow p.size r ++ (p.matrix.getD r []).map fun v : ℚ => -v).length =
      2 * p.size := by
    rw [List.length_append, length_unitRow, hmiddle, two_mul]
  rw [row_start h hr, TableauRow.entry]
  rcases lt_trichotomy c (2 * p.size) with hc | hc | hc
  · rw [List.getD_append _ _ _ _ (by rwa [hleft])]
    split_ifs with hw
    · rw [List.getD_append _ _ _ _ (by rwa [length_unitRow]), getD_unitRow hr, if_pos ‹_›]
    · rw [List.getD_append _ _ _ _ (by rwa [length_unitRow]), getD_unitRow hr, if_neg ‹_›]
    · have hcol : c - p.size < (p.matrix.getD r []).length := by
        rw [length_matrix_row h hr]
        omega
      rw [List.getD_append_right _ _ _ _ (by rw [length_unitRow]; omega), length_unitRow,
        List.getD_eq_getElem _ _ (by rwa [List.length_map]), List.getElem_map, coefficient,
        List.getD_eq_getElem _ _ hcol]
  · rw [List.getD_append_right _ _ _ _ (by omega), hleft, if_neg (by omega), if_neg (by omega),
      if_pos hc, hc, Nat.sub_self]
    rfl
  · rw [List.getD_eq_default _ _ (by rw [List.length_append, hleft, List.length_singleton]; omega),
      if_neg (by omega), if_neg (by omega), if_neg (by omega)]

theorem lhs_start (h : p.Square) {r : ℕ} (hr : r < p.size) (v : ℕ → ℚ) :
    (p.start.row r).lhs (2 * p.size + 1) v =
      v r - ∑ i ∈ range p.size, p.coefficient r i * v (p.size + i) - v (2 * p.size) := by
  have hw : ∑ c ∈ range p.size, (p.start.row r).entry c * v c = v r := by
    rw [Finset.sum_eq_single_of_mem r (Finset.mem_range.mpr hr), entry_start h hr, if_pos hr, if_pos rfl,
      one_mul]
    intro c hc hne
    rw [entry_start h hr, if_pos (Finset.mem_range.mp hc), if_neg hne, zero_mul]
  have hz : ∑ i ∈ range p.size, (p.start.row r).entry (p.size + i) * v (p.size + i) =
      -∑ i ∈ range p.size, p.coefficient r i * v (p.size + i) := by
    rw [← Finset.sum_neg_distrib]
    refine Finset.sum_congr rfl fun i hi => ?_
    have hlt := Finset.mem_range.mp hi
    rw [entry_start h hr, if_neg (by omega), if_pos (by omega), Nat.add_sub_cancel_left, neg_mul]
  have hlast : (p.start.row r).entry (2 * p.size) = -1 := by
    rw [entry_start h hr, if_neg (by omega), if_neg (by omega), if_pos rfl]
  rw [TableauRow.lhs, Finset.sum_range_succ, hlast, two_mul, Finset.sum_range_add, hw, hz]
  ring

/-- The walk starts from the system solved for `w`. -/
theorem solves_start (h : p.Square) : p.start.Solves (2 * p.size + 1) p.System where
  lengths := by
    intro r hr
    rw [length_start h] at hr
    rw [row_start h hr, List.length_append, List.length_append, length_unitRow, List.length_map,
      length_matrix_row h hr, List.length_singleton, two_mul]
  basic_lt := by
    intro r hr
    rw [length_start h] at hr
    rw [row_start h hr]
    show r < 2 * p.size + 1
    omega
  unit := by
    intro r hr r' hr'
    rw [length_start h] at hr hr'
    have hbasic : (p.start.row r').basic = r' := by rw [row_start h hr']
    rw [entry_start h hr, hbasic, if_pos hr']
    exact if_congr eq_comm rfl rfl
  solution := by
    intro v
    rw [length_start h]
    refine forall₂_congr fun r hr => ?_
    rw [lhs_start h hr, row_start h hr]

/-! ### No two shares are equal -/

variable {t : Tableau ℚ} {col : ℕ}

/-- A row is a combination of the first rows, by its part of the inverse basis. -/
theorem entry_eq_sum_start (hp : p.Square) (h : t.Solves (2 * p.size + 1) p.System) {r : ℕ}
    (hr : r < t.length) (c : ℕ) : (t.row r).entry c =
      ∑ k ∈ range p.size, (t.row r).entry k * (p.start.row k).entry c := by
  rw [h.entry_eq_sum (solves_start hp) hr, length_start hp]
  refine Finset.sum_congr rfl fun k hk => ?_
  rw [show (p.start.row k).basic = k by rw [row_start hp (Finset.mem_range.mp hk)]]

/-- **No two rows have the same share.** -/
theorem share_ne (hp : p.Square) (h : t.Solves (2 * p.size + 1) p.System) {r r' : ℕ}
    (hr : r < t.length) (hr' : r' < t.length) (hne : r ≠ r') (hpos : 0 < (t.row r).entry col) :
    share p.size col (t.row r) ≠ share p.size col (t.row r') := by
  intro heq
  -- equal shares make the rows multiples of each other, also in the basic column of the first
  have hinverse : ∀ k < p.size, ((t.row r).entry col)⁻¹ * (t.row r).entry k =
      ((t.row r').entry col)⁻¹ * (t.row r').entry k := by
    intro k hk
    have hside : ((t.row r).entry col)⁻¹ * sides p.size (t.row r) (k + 1) =
        ((t.row r').entry col)⁻¹ * sides p.size (t.row r') (k + 1) := congrFun heq (k + 1)
    rwa [sides_succ, sides_succ, if_pos hk, if_pos hk] at hside
  have hbasic : ((t.row r).entry col)⁻¹ * (t.row r).entry (t.row r).basic =
      ((t.row r').entry col)⁻¹ * (t.row r').entry (t.row r).basic := by
    rw [entry_eq_sum_start hp h hr (t.row r).basic, entry_eq_sum_start hp h hr' (t.row r).basic,
      Finset.mul_sum, Finset.mul_sum]
    refine Finset.sum_congr rfl fun k hk => ?_
    rw [← mul_assoc, hinverse k (Finset.mem_range.mp hk), mul_assoc]
  rw [h.unit r hr r hr, h.unit r' hr' r hr, if_pos rfl, if_neg hne.symm, mul_one, mul_zero] at hbasic
  exact (inv_pos.mpr hpos).ne' hbasic

/-! ### The artificial column enters -/

/-- The least of some values so far and the last place where it stands. -/
theorem foldl_least_spec (q : ℚ) (qs : List ℚ) :
    let best := qs.zipIdx.foldl (fun (least : ℕ × ℚ) entry =>
      if entry.1 ≤ least.2 then (entry.2 + 1, entry.1) else least) (0, q)
    best.1 < (q :: qs).length ∧ (q :: qs).getD best.1 0 = best.2 ∧
      ∀ r < (q :: qs).length, best.2 ≤ (q :: qs).getD r 0 ∧
        ((q :: qs).getD r 0 = best.2 → r ≤ best.1) := by
  induction qs using List.reverseRecOn with
  | nil =>
    refine ⟨Nat.one_pos, rfl, fun r hr => ?_⟩
    rw [Nat.lt_one_iff.mp hr]
    exact ⟨le_rfl, fun _ => le_rfl⟩
  | append_singleton qs v ih =>
    obtain ⟨hlt, hvalue, hleast⟩ := ih
    rw [List.zipIdx_append, List.foldl_append]
    set best := qs.zipIdx.foldl (fun (least : ℕ × ℚ) entry =>
      if entry.1 ≤ least.2 then (entry.2 + 1, entry.1) else least) (0, q)
    have hearlier : ∀ r < (q :: qs).length, (q :: (qs ++ [v])).getD r 0 = (q :: qs).getD r 0 :=
      fun r hr => List.getD_append (q :: qs) [v] 0 r hr
    have hlast : (q :: (qs ++ [v])).getD (q :: qs).length 0 = v := by
      rw [← List.cons_append, List.getD_append_right _ _ _ _ le_rfl, Nat.sub_self]
      rfl
    have hlength : (q :: (qs ++ [v])).length = (q :: qs).length + 1 := by simp
    show _ ∧ _ ∧ _
    simp only [List.zipIdx_singleton, List.foldl_cons, List.foldl_nil, Nat.zero_add]
    rw [hlength]
    split_ifs with hle
    · -- the new value is not larger, and it is the last one
      refine ⟨Nat.lt_succ_self _, hlast, fun r hr => ?_⟩
      cases Nat.lt_succ_iff_lt_or_eq.mp hr with
      | inl hr =>
        rw [hearlier r hr]
        exact ⟨hle.trans (hleast r hr).1, fun _ => Nat.le_of_lt_succ (Nat.lt_succ_of_lt hr)⟩
      | inr hr =>
        rw [hr, hlast]
        exact ⟨le_rfl, fun _ => le_rfl⟩
    · refine ⟨Nat.lt_succ_of_lt hlt, (hearlier _ hlt).trans hvalue, fun r hr => ?_⟩
      cases Nat.lt_succ_iff_lt_or_eq.mp hr with
      | inl hr =>
        rw [hearlier r hr]
        exact hleast r hr
      | inr hr =>
        rw [hr, hlast]
        exact ⟨(not_le.mp hle).le, fun heq => absurd heq.le hle⟩

/-- **The first row to leave** has the least constant, and no later row has it too. -/
theorem firstRow_spec (hne : p.offset ≠ []) : p.firstRow < p.size ∧
    ∀ r < p.size, p.constant p.firstRow ≤ p.constant r ∧
      (p.constant r = p.constant p.firstRow → r ≤ p.firstRow) := by
  obtain ⟨q, qs, hoffset⟩ := List.exists_cons_of_ne_nil hne
  obtain ⟨hlt, hvalue, hleast⟩ := foldl_least_spec q qs
  simp only [firstRow, size, constant, hoffset]
  rw [hvalue]
  exact ⟨hlt, hleast⟩

/-- The tableau after the artificial column has entered. -/
def entered (p : Lcp ℚ) : Tableau ℚ := p.start.pivotRows p.firstRow (2 * p.size)

theorem length_entered (hp : p.Square) : p.entered.length = p.size := by
  rw [entered, Tableau.length_pivotRows, length_start hp]

theorem entry_artificial (hp : p.Square) {r : ℕ} (hr : r < p.size) :
    (p.start.row r).entry (2 * p.size) = -1 := by
  rw [entry_start hp hr, if_neg (by omega), if_neg (by omega), if_pos rfl]

/-- The artificial column may enter in any row. -/
theorem solves_pivotRows_start (hp : p.Square) {k : ℕ} (hk : k < p.size) :
    (p.start.pivotRows k (2 * p.size)).Solves (2 * p.size + 1) p.System := by
  refine (solves_start hp).pivotRows (by rwa [length_start hp]) (Nat.lt_succ_self _) ?_
  rw [entry_artificial hp hk]
  norm_num

theorem mem_basis_pivotRows_start (hp : p.Square) {k : ℕ} (hk : k < p.size) (b : ℕ) :
    b ∈ (p.start.pivotRows k (2 * p.size)).basis ↔ b = 2 * p.size ∨ b < p.size ∧ b ≠ k := by
  have hstart : b ∈ p.start.basis ↔ b < p.size := by
    rw [Tableau.mem_basis_iff, length_start hp]
    constructor
    · rintro ⟨r, hr, rfl⟩
      rwa [row_start hp hr]
    · exact fun hb => ⟨b, hb, by rw [row_start hp hb]⟩
  have hbasic : (p.start.row k).basic = k := by rw [row_start hp hk]
  rw [(solves_start hp).mem_basis_pivotRows_iff (by rwa [length_start hp]), hstart, hbasic]

theorem solves_entered (hp : p.Square) (hne : p.offset ≠ []) :
    p.entered.Solves (2 * p.size + 1) p.System :=
  solves_pivotRows_start hp (firstRow_spec hne).1

theorem mem_basis_entered (hp : p.Square) (hne : p.offset ≠ []) (b : ℕ) :
    b ∈ p.entered.basis ↔ b = 2 * p.size ∨ b < p.size ∧ b ≠ p.firstRow :=
  mem_basis_pivotRows_start hp (firstRow_spec hne).1 b

/-- Nothing bounds the column that has just left. -/
theorem entry_entered (hp : p.Square) (hne : p.offset ≠ []) {r : ℕ} (hr : r < p.size) :
    (p.entered.row r).entry p.firstRow = -1 := by
  have hrow := (firstRow_spec hne).1
  rw [entered, (solves_start hp).entry_pivotRows (by rwa [length_start hp]) (by rwa [length_start hp]),
    entry_artificial hp hrow, entry_artificial hp hr, entry_start hp hrow, entry_start hp hr,
    if_pos hrow, if_pos hrow, if_pos rfl]
  by_cases heq : r = p.firstRow
  · rw [if_pos heq]
    norm_num
  · rw [if_neg heq, if_neg (Ne.symm heq)]
    norm_num

theorem sides_start (hp : p.Square) {r : ℕ} (hr : r < p.size) (k : ℕ) :
    sides p.size (p.start.row r) (k + 1) = if k = r then 1 else 0 := by
  rw [sides_succ, entry_start hp hr]
  split_ifs with h₁ h₂ h₂
  · rfl
  · rfl
  · omega
  · rfl

theorem sides_start_zero (hp : p.Square) {r : ℕ} (hr : r < p.size) :
    sides p.size (p.start.row r) 0 = p.constant r := by
  rw [sides_zero, row_start hp hr]

/-- The first row that leaves is before all others: it is the last one of the least constant. -/
theorem sides_firstRow_lt (hp : p.Square) (hne : p.offset ≠ []) {r : ℕ} (hr : r < p.size)
    (hother : r ≠ p.firstRow) :
    0 < sides p.size (p.start.row r) - sides p.size (p.start.row p.firstRow) := by
  obtain ⟨hrow, hleast⟩ := firstRow_spec hne
  have hplace : ∀ k, (sides p.size (p.start.row r) - sides p.size (p.start.row p.firstRow)) k =
      sides p.size (p.start.row r) k - sides p.size (p.start.row p.firstRow) k := fun k => rfl
  cases lt_or_eq_of_le (hleast r hr).1 with
  | inl hlt =>
    refine ⟨0, fun j hj => absurd hj j.not_lt_zero, ?_⟩
    rw [hplace, sides_start_zero hp hr, sides_start_zero hp hrow]
    exact sub_pos.mpr hlt
  | inr hsame =>
    have hlt : r < p.firstRow := lt_of_le_of_ne ((hleast r hr).2 hsame.symm) hother
    refine ⟨r + 1, fun j hj => ?_, ?_⟩
    · cases j with
      | zero =>
        rw [hplace, sides_start_zero hp hr, sides_start_zero hp hrow, hsame, sub_self]
        rfl
      | succ j =>
        rw [hplace, sides_start hp hr, sides_start hp hrow, if_neg (by omega), if_neg (by omega),
          sub_self]
        rfl
    · rw [hplace, sides_start hp hr, sides_start hp hrow, if_pos rfl, if_neg hother, sub_zero]
      exact one_pos

/-- What the artificial column does to the sides when it enters, in whatever row. -/
theorem sides_pivotRows_start (hp : p.Square) {k r : ℕ} (hk : k < p.size) (hr : r < p.size) :
    sides p.size ((p.start.pivotRows k (2 * p.size)).row r) =
      if r = k then -sides p.size (p.start.row k)
      else sides p.size (p.start.row r) - sides p.size (p.start.row k) := by
  have hshare : share p.size (2 * p.size) (p.start.row k) = -sides p.size (p.start.row k) := by
    rw [share, entry_artificial hp hk, inv_neg, inv_one, neg_smul, one_smul]
  rw [sides_pivotRows (solves_start hp) (by rwa [length_start hp]) (by rwa [length_start hp]),
    hshare, entry_artificial hp hr, smul_neg, neg_smul, one_smul, neg_neg]

/-- **All sides are positive** once the artificial column has entered. -/
theorem positive_entered (hp : p.Square) (hneg : ∃ q ∈ p.offset, q < 0) {r : ℕ} (hr : r < p.size) :
    0 < sides p.size (p.entered.row r) := by
  obtain ⟨q, hq, hq0⟩ := hneg
  have hne := List.ne_nil_of_mem hq
  obtain ⟨hrow, hleast⟩ := firstRow_spec hne
  have hfirst : p.constant p.firstRow < 0 := by
    obtain ⟨k, hk, rfl⟩ := List.mem_iff_getElem.mp hq
    refine lt_of_le_of_lt (hleast k hk).1 ?_
    rwa [constant, List.getD_eq_getElem _ _ hk]
  rw [entered, sides_pivotRows_start hp hrow hr]
  split_ifs with hother
  · refine ⟨0, fun j hj => absurd hj j.not_lt_zero, ?_⟩
    show (0 : ℚ) < -sides p.size (p.start.row p.firstRow) 0
    rw [sides_start_zero hp hrow]
    exact neg_pos.mpr hfirst
  · exact sides_firstRow_lt hp hne hr hother

end Lcp

end Equilibria
