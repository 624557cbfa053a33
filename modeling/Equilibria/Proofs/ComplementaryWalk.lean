import Mathlib
import Equilibria.Proofs.ComplementaryTableaux
import Equilibria.Proofs.ReversibleSteps

/-!
# The walk of complementary pivoting

In exact arithmetic complementary pivoting never returns:

* `Lcp.Stage.Valid` — what holds between any two steps: the system is solved with positive sides, the
  artificial column is basic, and the basis with the column that has left has one column of each pair;
* `Lcp.Stage.Valid.step_cases` — what a step leads to, with `Valid.further` for the invariant;
* `Lcp.reversible_stepped` — steps can be turned around, by taking the column that has left in again;
* `Lcp.Reached.basis_injective` — hence no basis occurs twice, whatever ties there are;
* `Lcp.Reached.lt_choose`, `Lcp.solve_cases` — so there are fewer steps than bases, and the walk ends
  with a solution or on a ray unless fewer are allowed.
-/

namespace Equilibria

open Finset (range)

namespace Lcp

/-! ### Pairs of columns -/

variable {p : Lcp ℚ} {s s' : Stage ℚ} {n row : ℕ}

theorem complement_lt {c : ℕ} (hc : c < 2 * n) : complement n c < 2 * n := by
  unfold complement
  split_ifs <;> omega

theorem complement_complement {c : ℕ} (hc : c < 2 * n) : complement n (complement n c) = c := by
  unfold complement
  split_ifs <;> omega

theorem complement_ne (hn : 0 < n) (c : ℕ) : complement n c ≠ c := by
  unfold complement
  split_ifs <;> omega

/-- A column and some others hold one column of each pair. -/
def Paired (n c : ℕ) (B : List ℕ) : Prop :=
  ∀ i < n, (i = c ∨ i ∈ B) ↔ ¬(n + i = c ∨ n + i ∈ B)

/-- A column may give its place to its complement. -/
theorem Paired.swap {c : ℕ} {B : List ℕ} (h : Paired n c B) (hc : c < 2 * n) (hcB : c ∉ B) :
    complement n c ∉ B ∧ Paired n (complement n c) B := by
  unfold complement
  split_ifs with hlt
  · have hother : n + c ∉ B := by
      intro hmem
      exact (h c hlt).mp (Or.inl rfl) (Or.inr hmem)
    rw [Nat.add_comm c n]
    refine ⟨hother, fun i hi => ?_⟩
    by_cases hic : i = c
    · subst hic
      simp [hcB, show n ≠ 0 by omega]
    · simpa [hic, show ¬n + i = c by omega, show ¬i = n + c by omega] using h i hi
  · obtain ⟨j, rfl⟩ := Nat.exists_eq_add_of_le (not_lt.mp hlt)
    rw [Nat.add_sub_cancel_left]
    have hother : j ∉ B := by
      intro hmem
      exact (h j (by omega)).mp (Or.inr hmem) (Or.inl rfl)
    refine ⟨hother, fun i hi => ?_⟩
    by_cases hij : i = j
    · subst hij
      simp [hcB, show n ≠ 0 by omega]
    · simpa [hij, show ¬n + i = j by omega, show ¬i = n + j by omega] using h i hi

/-- Of every pair one column is neither that column nor among the others. -/
theorem Paired.exists_off {c i : ℕ} {B : List ℕ} (h : Paired n c B) (hi : i < n) :
    ¬(i = c ∨ i ∈ B) ∨ ¬(n + i = c ∨ n + i ∈ B) := by
  by_cases hin : i = c ∨ i ∈ B
  · exact Or.inr ((h i hi).mp hin)
  · exact Or.inl hin

/-- A pair of which no column is among the others is that of the column. -/
theorem Paired.eq_or_eq {c c' : ℕ} {B : List ℕ} (h : Paired n c B) (hc' : c' < 2 * n) (hmem : c' ∉ B)
    (hmem' : complement n c' ∉ B) : c' = c ∨ c' = complement n c := by
  unfold complement at hmem' ⊢
  by_cases hlt : c' < n
  · rw [if_pos hlt, Nat.add_comm] at hmem'
    have hpair := h c' hlt
    simp only [hmem, hmem', or_false] at hpair
    split_ifs <;> omega
  · obtain ⟨j, rfl⟩ := Nat.exists_eq_add_of_le (not_lt.mp hlt)
    rw [if_neg hlt, Nat.add_sub_cancel_left] at hmem'
    have hpair := h j (by omega)
    simp only [hmem, hmem', or_false] at hpair
    split_ifs <;> omega

namespace Stage

/-- **The invariant of complementary pivoting.** -/
structure Valid (p : Lcp ℚ) (s : Stage ℚ) : Prop where
  square : p.Square
  size : s.tableau.length = p.size
  solves : s.tableau.Solves (2 * p.size + 1) p.System
  positive : ∀ r < s.tableau.length, 0 < sides p.size (s.tableau.row r)
  artificial : 2 * p.size ∈ s.tableau.basis
  left_lt : s.left < 2 * p.size
  left_notMem : s.left ∉ s.tableau.basis
  paired : Paired p.size s.left s.tableau.basis

/-- The column that enters next. -/
def entering (n : ℕ) (s : Stage ℚ) : ℕ := complement n s.left

/-- The stage in which the column that has left would enter again. -/
def turn (n : ℕ) (s : Stage ℚ) : Stage ℚ := ⟨s.tableau, complement n s.left⟩

theorem Valid.turn (h : s.Valid p) : (s.turn p.size).Valid p := by
  obtain ⟨hmem, hpaired⟩ := h.paired.swap h.left_lt h.left_notMem
  exact ⟨h.square, h.size, h.solves, h.positive, h.artificial, complement_lt h.left_lt, hmem, hpaired⟩

theorem Valid.entering_lt (h : s.Valid p) : s.entering p.size < 2 * p.size := h.turn.left_lt

theorem Valid.entering_notMem (h : s.Valid p) : s.entering p.size ∉ s.tableau.basis :=
  h.turn.left_notMem

theorem Valid.paired_entering (h : s.Valid p) : Paired p.size (s.entering p.size) s.tableau.basis :=
  h.turn.paired

theorem Valid.entering_turn (h : s.Valid p) : (s.turn p.size).entering p.size = s.left :=
  complement_complement h.left_lt

/-! ### One step -/

/-- The stage after a step by a row. -/
def after (n : ℕ) (s : Stage ℚ) (row : ℕ) : Stage ℚ :=
  ⟨s.tableau.pivotRows row (s.entering n), (s.tableau.row row).basic⟩

/-- Unless nothing bounds the column that enters, one row bounds it first. -/
theorem Valid.leaving?_cases (h : s.Valid p) :
    (leaving? 0 p.size s.tableau (s.entering p.size) = none ∧
      ∀ r < p.size, (s.tableau.row r).entry (s.entering p.size) ≤ 0) ∨
    ∃ row, leaving? 0 p.size s.tableau (s.entering p.size) =
      some (row, (s.tableau.row row).basic) ∧ Leaves p.size s.tableau (s.entering p.size) row := by
  have hlength : ∀ r < s.tableau.length, p.size ≤ (s.tableau.row r).coefficients.length := by
    intro r hr
    rw [h.solves.lengths r hr]
    omega
  have hcases := Lcp.leaving?_cases p.size (s.entering p.size) hlength
    fun r hr r' hr' hne hpos _ => share_ne h.square h.solves hr hr' hne hpos
  rwa [h.size] at hcases

theorem step_of_none (hnone : leaving? 0 n s.tableau (s.entering n) = none) :
    step 0 n s = .ray := by
  rw [step, show complement n s.left = s.entering n from rfl]
  simp only [hnone]

theorem step_of_some (hsome : leaving? 0 n s.tableau (s.entering n) =
    some (row, (s.tableau.row row).basic)) : step 0 n s =
      if (s.tableau.row row).basic = 2 * n then .solved (solution n (s.after n row).tableau)
      else .further (s.after n row) := by
  rw [step, show complement n s.left = s.entering n from rfl]
  simp only [hsome]
  rfl

/-- **What a step leads to.** -/
theorem Valid.step_cases (h : s.Valid p) :
    (step 0 p.size s = .ray ∧ ∀ r < p.size, (s.tableau.row r).entry (s.entering p.size) ≤ 0) ∨
    ∃ row, Leaves p.size s.tableau (s.entering p.size) row ∧ step 0 p.size s =
      if (s.tableau.row row).basic = 2 * p.size then
        .solved (solution p.size (s.after p.size row).tableau)
      else .further (s.after p.size row) := by
  cases h.leaving?_cases with
  | inl hray => exact Or.inl ⟨step_of_none hray.1, hray.2⟩
  | inr hleaves =>
    obtain ⟨row, hleaving, hleaves⟩ := hleaves
    exact Or.inr ⟨row, hleaves, step_of_some hleaving⟩

/-- **A step keeps the invariant**, unless the artificial column leaves. -/
theorem Valid.further (h : s.Valid p) (hl : Leaves p.size s.tableau (s.entering p.size) row)
    (hbasic : (s.tableau.row row).basic ≠ 2 * p.size) : (s.after p.size row).Valid p := by
  have hrow := hl.lt_length
  have hlt := h.entering_lt
  have hleft : (s.tableau.row row).basic ∈ s.tableau.basis :=
    (Tableau.mem_basis_iff _).mpr ⟨row, hrow, rfl⟩
  have hmem := h.solves.mem_basis_pivotRows_iff hrow (s.entering p.size)
  refine ⟨h.square, (Tableau.length_pivotRows _ _ _).trans h.size,
    h.solves.pivotRows hrow (by omega) hl.pos.ne', hl.positive h.solves h.positive,
    (hmem _).mpr (Or.inr ⟨h.artificial, hbasic.symm⟩), ?_, ?_, ?_⟩
  · have hle := h.solves.basic_lt row hrow
    show (s.tableau.row row).basic < 2 * p.size
    omega
  · rw [after, hmem]
    rintro (heq | hmem)
    · have hsame : (s.tableau.row row).basic = complement p.size s.left := heq
      rw [hsame] at hleft
      exact h.entering_notMem hleft
    · exact hmem.2 rfl
  · -- the columns are those of the basis before and the one that has entered
    have hcolumns : ∀ b, (b = (s.tableau.row row).basic ∨ b ∈ (s.after p.size row).tableau.basis) ↔
        (b = s.entering p.size ∨ b ∈ s.tableau.basis) := by
      intro b
      rw [after, hmem]
      by_cases hb : b = (s.tableau.row row).basic
      · simp [hb, hleft]
      · simp [hb]
    intro i hi
    rw [after] at hcolumns ⊢
    rw [hcolumns, hcolumns]
    exact h.paired_entering i hi

/-! ### Positions -/

/-- The set of basic columns and the column that has left. -/
def position (s : Stage ℚ) : Finset ℕ × ℕ := (s.tableau.basis.toFinset, s.left)

theorem mem_basis_of_position (h : s.position = s'.position) (c : ℕ) :
    c ∈ s.tableau.basis ↔ c ∈ s'.tableau.basis := by
  have hsets : s.tableau.basis.toFinset = s'.tableau.basis.toFinset := congrArg Prod.fst h
  rw [← List.mem_toFinset, hsets, List.mem_toFinset]

theorem entering_of_position (h : s.position = s'.position) (n : ℕ) :
    s.entering n = s'.entering n := congrArg (complement n) (congrArg Prod.snd h)

/-- The row of a stage is also a row of any other in the same position. -/
theorem Valid.exists_row (h : s.Valid p) (h' : s'.Valid p) (hsame : s.position = s'.position) {r : ℕ}
    (hr : r < s.tableau.length) :
    ∃ r' < s'.tableau.length, s'.tableau.row r' = s.tableau.row r := by
  have hmem := (mem_basis_of_position hsame _).mp
    ((Tableau.mem_basis_iff s.tableau).mpr ⟨r, hr, rfl⟩)
  obtain ⟨r', hr', hbasic⟩ := (Tableau.mem_basis_iff _).mp hmem
  exact ⟨r', hr', h'.solves.row_eq_row h.solves (fun c => (mem_basis_of_position hsame c).symm) hr' hr
    hbasic⟩

/-- **The position determines the column that leaves.** -/
theorem Valid.basic_eq (h : s.Valid p) (h' : s'.Valid p) (hsame : s.position = s'.position)
    {row' : ℕ} (hl : Leaves p.size s.tableau (s.entering p.size) row)
    (hl' : Leaves p.size s'.tableau (s'.entering p.size) row') :
    (s.tableau.row row).basic = (s'.tableau.row row').basic := by
  by_contra hne
  rw [← entering_of_position hsame] at hl'
  obtain ⟨r', hr', hrow'⟩ := h.exists_row h' hsame hl.lt_length
  obtain ⟨r, hr, hrow⟩ := h'.exists_row h hsame.symm hl'.lt_length
  have hlt := hl.least r hr (fun heq => hne (by rw [← heq, hrow])) (by rw [hrow]; exact hl'.pos)
  have hlt' := hl'.least r' hr' (fun heq => hne (by rw [← heq, hrow'])) (by rw [hrow']; exact hl.pos)
  rw [hrow] at hlt
  rw [hrow'] at hlt'
  exact lt_asymm hlt hlt'

theorem Valid.position_after (h : s.Valid p)
    (hl : Leaves p.size s.tableau (s.entering p.size) row) : (s.after p.size row).position =
      (insert (s.entering p.size) (s.tableau.basis.toFinset.erase (s.tableau.row row).basic),
        (s.tableau.row row).basic) := by
  refine Prod.ext (Finset.ext fun b => ?_) rfl
  show b ∈ (s.after p.size row).tableau.basis.toFinset ↔ _
  rw [List.mem_toFinset, after, h.solves.mem_basis_pivotRows_iff hl.lt_length, Finset.mem_insert,
    Finset.mem_erase, List.mem_toFinset, and_comm (a := b ∈ s.tableau.basis)]

end Stage

/-! ### Steps can be turned around -/

/-- A step from one position to another. -/
def Stepped (p : Lcp ℚ) (a b : Finset ℕ × ℕ) : Prop :=
  ∃ s s' : Stage ℚ, s.Valid p ∧ s'.Valid p ∧ s.position = a ∧ s'.position = b ∧
    step 0 p.size s = .further s'

/-- A position with the complement in place of the column that has left. -/
def turned (n : ℕ) (a : Finset ℕ × ℕ) : Finset ℕ × ℕ := (a.1, complement n a.2)

/-- A step on is a step by the row that leaves. -/
theorem Stage.Valid.exists_leaves (h : s.Valid p) (hstep : step 0 p.size s = .further s') :
    ∃ row, Leaves p.size s.tableau (s.entering p.size) row ∧
      (s.tableau.row row).basic ≠ 2 * p.size ∧ s' = s.after p.size row := by
  cases h.step_cases with
  | inl hray =>
    rw [hray.1] at hstep
    cases hstep
  | inr hleaves =>
    obtain ⟨row, hl, hcases⟩ := hleaves
    rw [hcases] at hstep
    split_ifs at hstep with hbasic
    cases hstep
    exact ⟨row, hl, hbasic, rfl⟩

theorem Leaves.unique {t : Tableau ℚ} {col row' : ℕ} (h : Leaves n t col row)
    (h' : Leaves n t col row') : row = row' := by
  by_contra hne
  exact lt_asymm (h.least row' h'.lt_length (Ne.symm hne) h'.pos) (h'.least row h.lt_length hne h.pos)

theorem Stage.Valid.step_of_leaves (h : s.Valid p)
    (hl : Leaves p.size s.tableau (s.entering p.size) row)
    (hbasic : (s.tableau.row row).basic ≠ 2 * p.size) :
    step 0 p.size s = .further (s.after p.size row) := by
  cases h.step_cases with
  | inl hray => exact absurd (hray.2 row (by rw [← h.size]; exact hl.lt_length)) (not_le.mpr hl.pos)
  | inr hleaves =>
    obtain ⟨row', hl', hcases⟩ := hleaves
    obtain rfl := hl.unique hl'
    rw [hcases, if_neg hbasic]

/-- **Every step can be turned around.** -/
theorem reversible_stepped (p : Lcp ℚ) : Reversible (Stepped p) (turned p.size) where
  functional := by
    rintro a b c ⟨s, s₁, h, -, ha, hb, hstep⟩ ⟨s', s₁', h', -, ha', hc, hstep'⟩
    obtain ⟨row, hl, -, rfl⟩ := h.exists_leaves hstep
    obtain ⟨row', hl', -, rfl⟩ := h'.exists_leaves hstep'
    have hsame : s.position = s'.position := ha.trans ha'.symm
    have hsets : s.tableau.basis.toFinset = s'.tableau.basis.toFinset := congrArg Prod.fst hsame
    rw [← hb, ← hc, h.position_after hl, h'.position_after hl', h.basic_eq h' hsame hl hl', hsets,
      Stage.entering_of_position hsame]
  back := by
    rintro a b ⟨s, s', h, h', rfl, rfl, hstep⟩
    obtain ⟨row, hl, hbasic, rfl⟩ := h.exists_leaves hstep
    -- the column that has left enters again, in the same row
    have hback : Leaves p.size ((s.after p.size row).turn p.size).tableau
        (((s.after p.size row).turn p.size).entering p.size) row := by
      rw [h'.entering_turn]
      exact hl.back h.solves h.positive
    have hlast : (((s.after p.size row).turn p.size).tableau.row row).basic = s.entering p.size := by
      show ((s.tableau.pivotRows row _).row row).basic = _
      rw [h.solves.basic_pivotRows hl.lt_length hl.lt_length, if_pos rfl]
    have hne : s.entering p.size ≠ 2 * p.size := h.entering_lt.ne
    have hstep' := h'.turn.step_of_leaves hback (by rwa [hlast])
    refine ⟨_, _, h'.turn, h'.turn.further hback (by rwa [hlast]), rfl, ?_, hstep'⟩
    have hentering := h.entering_notMem
    have hleft : (s.tableau.row row).basic ∈ s.tableau.basis :=
      (Tableau.mem_basis_iff _).mpr ⟨row, hl.lt_length, rfl⟩
    have hafter : (s.after p.size row).tableau.basis.toFinset = insert (s.entering p.size)
        (s.tableau.basis.toFinset.erase (s.tableau.row row).basic) :=
      congrArg Prod.fst (h.position_after hl)
    rw [h'.turn.position_after hback, hlast, h'.entering_turn]
    refine Prod.ext ?_ rfl
    show insert (s.tableau.row row).basic ((s.after p.size row).tableau.basis.toFinset.erase _) =
      s.tableau.basis.toFinset
    rw [hafter, Finset.erase_insert, Finset.insert_erase (List.mem_toFinset.mpr hleft)]
    exact fun hmem => hentering (List.mem_toFinset.mp (Finset.mem_of_mem_erase hmem))
  turn_turn := by
    rintro a b ⟨s, s', h, h', rfl, rfl, -⟩
    exact ⟨Prod.ext rfl (complement_complement h.left_lt),
      Prod.ext rfl (complement_complement h'.left_lt)⟩

/-! ### The stages that are reached -/

/-- The stage from which the walk starts. -/
def firstStage (p : Lcp ℚ) : Stage ℚ := ⟨p.entered, p.firstRow⟩

/-- The stages that are reached after a number of steps. -/
inductive Reached (p : Lcp ℚ) : ℕ → Stage ℚ → Prop where
  | first : Reached p 0 p.firstStage
  | next {k : ℕ} {s s' : Stage ℚ} (h : Reached p k s) (hstep : step 0 p.size s = .further s') :
      Reached p (k + 1) s'

theorem valid_firstStage (hp : p.Square) (hneg : ∃ q ∈ p.offset, q < 0) : p.firstStage.Valid p := by
  obtain ⟨q, hq, -⟩ := id hneg
  have hne := List.ne_nil_of_mem hq
  have hrow := (firstRow_spec hne).1
  have hmem := mem_basis_entered hp hne
  refine ⟨hp, length_entered hp, solves_entered hp hne,
    fun r hr => positive_entered hp hneg (by rwa [← length_entered hp]), (hmem _).mpr (Or.inl rfl), ?_,
    ?_, ?_⟩
  · show p.firstRow < 2 * p.size
    omega
  · show p.firstRow ∉ p.entered.basis
    rw [hmem]
    omega
  · intro i hi
    show (i = p.firstRow ∨ i ∈ p.entered.basis) ↔ ¬(p.size + i = p.firstRow ∨ p.size + i ∈ p.entered.basis)
    rw [hmem, hmem]
    omega

theorem Reached.valid (hp : p.Square) (hneg : ∃ q ∈ p.offset, q < 0) {k : ℕ} (h : Reached p k s) :
    s.Valid p := by
  induction h with
  | first => exact valid_firstStage hp hneg
  | next _ hstep ih =>
    obtain ⟨row, hl, hbasic, rfl⟩ := ih.exists_leaves hstep
    exact ih.further hl hbasic

theorem Reached.walk (hp : p.Square) (hneg : ∃ q ∈ p.offset, q < 0) {k : ℕ} (h : Reached p k s) :
    Walk (Stepped p) p.firstStage.position k s.position := by
  induction h with
  | first => exact Walk.start
  | next h hstep ih =>
    exact ih.next ⟨_, _, h.valid hp hneg, (h.next hstep).valid hp hneg, rfl, rfl, hstep⟩

/-- No step leads on from the first stage turned around: nothing bounds the column that left first. -/
theorem not_stepped_turned_first (hp : p.Square) (hneg : ∃ q ∈ p.offset, q < 0)
    (b : Finset ℕ × ℕ) : ¬Stepped p (turned p.size p.firstStage.position) b := by
  rintro ⟨s, s', h, -, hs, -, hstep⟩
  obtain ⟨q, hq, -⟩ := id hneg
  have hfirst := valid_firstStage hp hneg
  obtain ⟨row, hl, -, -⟩ := h.exists_leaves hstep
  have hsame : s.position = (p.firstStage.turn p.size).position := hs
  obtain ⟨r, hr, hrow⟩ := h.exists_row hfirst.turn hsame hl.lt_length
  have hpos := hl.pos
  rw [← hrow, Stage.entering_of_position hsame, hfirst.entering_turn] at hpos
  have hentry := entry_entered hp (List.ne_nil_of_mem hq) (r := r) (by rwa [← length_entered hp])
  rw [show (p.firstStage.turn p.size).tableau = p.entered from rfl,
    show p.firstStage.left = p.firstRow from rfl, hentry] at hpos
  exact absurd hpos (by norm_num)

/-- No stage is reached in the position of another one turned around. -/
theorem Reached.position_ne_turned (hp : p.Square) (hneg : ∃ q ∈ p.offset, q < 0) {i j : ℕ}
    (hi : Reached p i s) (hj : Reached p j s') : s.position ≠ turned p.size s'.position := by
  intro heq
  have hn : 0 < p.size := by
    obtain ⟨q, hq, -⟩ := hneg
    exact List.length_pos_of_mem hq
  refine (reversible_stepped p).walk_ne_turn (fun a ha => ?_) ?_ ?_ (heq ▸ hi.walk hp hneg)
    (hj.walk hp hneg)
  · exact complement_ne hn a.2 (congrArg Prod.snd ha)
  · -- a step changes the basis
    rintro a ⟨s, s', h, -, rfl, hs', hstep⟩
    obtain ⟨row, hl, -, rfl⟩ := h.exists_leaves hstep
    have hentering := h.entering_notMem
    have hsets : insert (s.entering p.size) _ = s.tableau.basis.toFinset :=
      congrArg Prod.fst ((h.position_after hl).symm.trans hs')
    have hmem := Finset.mem_insert_self (s.entering p.size)
      (s.tableau.basis.toFinset.erase (s.tableau.row row).basic)
    rw [hsets, List.mem_toFinset] at hmem
    exact hentering hmem
  · exact Prod.ext rfl (complement_complement (valid_firstStage hp hneg).left_lt)

/-- **No basis occurs twice**, whatever ties there are. -/
theorem Reached.basis_injective (hp : p.Square) (hneg : ∃ q ∈ p.offset, q < 0) {i j : ℕ}
    (hi : Reached p i s) (hj : Reached p j s')
    (hsame : s.tableau.basis.toFinset = s'.tableau.basis.toFinset) : i = j := by
  have h := hi.valid hp hneg
  have h' := hj.valid hp hneg
  -- the basis leaves out one pair, from which the column comes that has left
  have hleft : s'.left = s.left ∨ s'.left = complement p.size s.left := by
    have hmem : ∀ c, c ∉ s'.tableau.basis → c ∉ s.tableau.basis := by
      intro c hc
      rwa [← List.mem_toFinset, hsame, List.mem_toFinset]
    exact h.paired.eq_or_eq h'.left_lt (hmem _ h'.left_notMem)
      (hmem _ h'.entering_notMem)
  cases hleft with
  | inl hleft =>
    refine (reversible_stepped p).walk_injective (not_stepped_turned_first hp hneg)
      (hi.walk hp hneg) ?_
    rw [show s.position = s'.position from Prod.ext hsame hleft.symm]
    exact hj.walk hp hneg
  | inr hleft => exact absurd (Prod.ext hsame.symm hleft) (hj.position_ne_turned hp hneg hi)

/-- There is a reached stage for every smaller number of steps. -/
theorem Reached.exists_reached {k : ℕ} (h : Reached p k s) {j : ℕ} (hj : j ≤ k) :
    ∃ s', Reached p j s' := by
  induction h with
  | first => exact ⟨_, by rw [Nat.le_zero.mp hj]; exact Reached.first⟩
  | next h hstep ih =>
    cases Nat.le_succ_iff.mp hj with
    | inl hj => exact ih hj
    | inr hj => exact ⟨_, by rw [hj]; exact h.next hstep⟩

/-- **There are fewer steps than bases.** -/
theorem Reached.lt_choose (hp : p.Square) (hneg : ∃ q ∈ p.offset, q < 0) {k : ℕ} (h : Reached p k s) :
    k < (2 * p.size + 1).choose p.size := by
  choose stages hstages using fun j : Fin (k + 1) => h.exists_reached (Nat.le_of_lt_succ j.isLt)
  have hbasis : ∀ j, (stages j).tableau.basis.toFinset ∈
      (range (2 * p.size + 1)).powersetCard p.size := by
    intro j
    have hvalid := (hstages j).valid hp hneg
    exact Finset.mem_powersetCard.mpr
      ⟨hvalid.solves.toFinset_basis_subset, hvalid.solves.card_basis.trans hvalid.size⟩
  have hinj : Function.Injective fun j => (stages j).tableau.basis.toFinset :=
    fun i j hij => Fin.ext ((hstages i).basis_injective hp hneg (hstages j) hij)
  have hcard := Finset.card_le_card_of_injOn (s := Finset.univ) _ (fun j _ => hbasis j) hinj.injOn
  rw [Finset.card_univ, Fintype.card_fin, Finset.card_powersetCard, Finset.card_range] at hcard
  exact hcard

/-! ### How the walk ends -/

theorem basis_of_same {t u : Tableau ℚ} (h : Tableau.same t u = true) : t.basis = u.basis := by
  induction t generalizing u with
  | nil =>
    cases u with
    | nil => rfl
    | cons e u => cases h
  | cons e t ih =>
    cases u with
    | nil => cases h
    | cons e' u =>
      simp only [Tableau.same, List.isEqv, Tableau.sameRow, Bool.and_eq_true, beq_iff_eq] at h
      rw [Tableau.basis, List.map_cons, h.1.1.1]
      exact congrArg _ (ih h.2)

/-- Stages that are the same are in the same position. -/
theorem Stage.position_of_same (h : s.same s' = true) : s.position = s'.position := by
  rw [Stage.same, Bool.and_eq_true, beq_iff_eq] at h
  exact Prod.ext (congrArg List.toFinset (basis_of_same h.2)) h.1

/-- After a step on, the walk goes on with a mark that was reached before: it has not come back to the
one it had. -/
theorem walk_further (hp : p.Square) (hneg : ∃ q ∈ p.offset, q < 0) {k k' : ℕ} {mark next : Stage ℚ}
    (h : Reached p k s) (hmark : Reached p k' mark) (hle : k' ≤ k)
    (hstep : step 0 p.size s = .further next) (steps rest span : ℕ) :
    ∃ j mark' rest' span', Reached p j mark' ∧ j ≤ k + 1 ∧
      walk 0 p.size (steps + 1) s mark rest span = walk 0 p.size steps next mark' rest' span' := by
  have hnext := h.next hstep
  have hsame : next.same mark = false := by
    rw [← Bool.not_eq_true]
    intro hsame
    have hposition := Stage.position_of_same hsame
    have hk := hnext.basis_injective hp hneg hmark (congrArg Prod.fst hposition)
    omega
  cases rest with
  | zero =>
    refine ⟨k + 1, next, span, 2 * span, hnext, le_rfl, ?_⟩
    rw [walk, hstep]
    simp only [hsame]
    rfl
  | succ rest =>
    refine ⟨k', mark, rest, span, hmark, Nat.le_succ_of_le hle, ?_⟩
    rw [walk, hstep]
    simp only [hsame]
    rfl

/-- The walk ends with what a step from a reached stage leads to, or when no step is left. -/
theorem walk_cases (hp : p.Square) (hneg : ∃ q ∈ p.offset, q < 0) (steps : ℕ) {k k' : ℕ}
    {mark : Stage ℚ} (h : Reached p k s) (hmark : Reached p k' mark) (hle : k' ≤ k) (rest span : ℕ) :
    (∃ j s', Reached p j s' ∧ step 0 p.size s' = .ray ∧
      walk 0 p.size steps s mark rest span = .error .ray) ∨
    (∃ j s' z, Reached p j s' ∧ step 0 p.size s' = .solved z ∧
      walk 0 p.size steps s mark rest span = .ok z) ∨
    ∃ s', Reached p (k + steps) s' ∧ walk 0 p.size steps s mark rest span = .error .pivotLimit := by
  induction steps generalizing k k' s mark rest span with
  | zero => exact Or.inr (Or.inr ⟨s, h, rfl⟩)
  | succ steps ih =>
    cases hstep : step 0 p.size s with
    | ray => exact Or.inl ⟨k, s, h, hstep, by rw [walk, hstep]⟩
    | solved z => exact Or.inr (Or.inl ⟨k, s, z, h, hstep, by rw [walk, hstep]⟩)
    | further next =>
      obtain ⟨j, mark', rest', span', hmark', hle', hwalk⟩ :=
        walk_further hp hneg h hmark hle hstep steps rest span
      have hcount : k + 1 + steps = k + (steps + 1) := by omega
      rw [hwalk, ← hcount]
      exact ih (h.next hstep) hmark' hle' rest' span'

/-- **How complementary pivoting ends** if a constant is negative: on a ray or with a solution, which
the step from a reached stage gives, or when as many stages as are allowed have been passed. -/
theorem solve_cases (hp : p.Square) (hneg : ∃ q ∈ p.offset, q < 0) {rules : PivotRules ℚ}
    (htolerance : rules.tolerance = 0) :
    (∃ k s, Reached p k s ∧ step 0 p.size s = .ray ∧ p.solve rules = .error .ray) ∨
    (∃ k s z, Reached p k s ∧ step 0 p.size s = .solved z ∧ p.solve rules = .ok z) ∨
    ∃ s, Reached p rules.limit s ∧ p.solve rules = .error .pivotLimit := by
  have hsolve : p.solve rules =
      walk 0 p.size rules.limit p.firstStage p.firstStage 8 16 := by
    obtain ⟨q, hq, hq0⟩ := hneg
    have hall : (p.offset.all fun q => decide (0 ≤ q)) = false := by
      rw [List.all_eq_false]
      exact ⟨q, hq, by simpa using hq0⟩
    rw [solve, hall, htolerance]
    rfl
  have hcases := walk_cases hp hneg rules.limit Reached.first Reached.first le_rfl 8 16
  rw [Nat.zero_add] at hcases
  rwa [hsolve]

end Lcp

end Equilibria
