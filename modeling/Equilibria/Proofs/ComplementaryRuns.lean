import Mathlib
import Equilibria.Proofs.ComplementarySolutions

/-!
# Runs of complementary pivoting

What one run of complementary pivoting goes through and what it returns, in exact arithmetic:

* `Lcp.build_iff` — the problems that are built are those with a square matrix;
* `Lcp.trail` — all tableaux of a run, in order, and how the run ends, no stage being marked;
* `Lcp.solve_eq_trail` — marking stages does not change how a run ends;
* `Lcp.Feasible.basis_ne_start` — the first basis is left for good, since its solution is not feasible;
* `Lcp.Later`, `Lcp.pivots_spec` — what may come after a stage, and that it comes once;
* `Lcp.solve_complementary` — what is returned is complementary;
* `Lcp.solve_trail` — no basis occurs twice, so that enough pivots reach a solution or a ray.

The first and the last basis of a run are those without the artificial column.
-/

namespace Equilibria

open Finset (range)

namespace Lcp

/-- A problem is built exactly from a square matrix of the size of the vector. -/
theorem build_iff {matrix : List (List ℚ)} {offset : List ℚ} {p : Lcp ℚ} :
    build matrix offset = .ok p ↔ p = ⟨matrix, offset⟩ ∧ p.Square := by
  have hshape : (matrix.length = offset.length ∧
      (matrix.all fun row => row.length = offset.length) = true) ↔
      (⟨matrix, offset⟩ : Lcp ℚ).Square := by
    simp only [List.all_eq_true, decide_eq_true_eq]
    exact ⟨fun h => ⟨h.1, h.2⟩, fun h => ⟨h.rows, h.rectangular⟩⟩
  unfold build
  split_ifs with h
  · rw [Except.ok.injEq, eq_comm]
    exact ⟨fun heq => ⟨heq, heq ▸ hshape.mp h⟩, And.left⟩
  · constructor
    · intro heq
      cases heq
    · rintro ⟨rfl, hsquare⟩
      exact absurd (hshape.mpr hsquare) h

/-! ### The tableaux of a run -/

section Trail

variable {α : Type} [Scalar α]

/-- The tableaux that pivots lead to from a stage, at most so many, and how they end. -/
def pivots (tolerance : α) (n : ℕ) : ℕ → Stage α → List (Tableau α) × Except LcpFault (List α)
  | 0, _ => ([], .error .pivotLimit)
  | steps + 1, s =>
    match leaving? tolerance n s.tableau (complement n s.left) with
    | none => ([], .error .ray)
    | some (row, column) =>
      let next := s.tableau.pivotRows row (complement n s.left)
      if column = 2 * n then ([next], .ok (solution n next))
      else
        let rest := pivots tolerance n steps ⟨next, column⟩
        (next :: rest.1, rest.2)

/-- **The tableaux of a run**, from the first one on, and how the run ends.  There are none where the
zero vector is a solution. -/
def trail (rules : PivotRules α) (p : Lcp α) : List (Tableau α) × Except LcpFault (List α) :=
  if p.offset.all fun q => decide (0 ≤ q) then ([], .ok (List.replicate p.size 0))
  else
    let first := p.start.pivotRows p.firstRow (2 * p.size)
    let rest := pivots rules.tolerance p.size rules.limit ⟨first, p.firstRow⟩
    (p.start :: first :: rest.1, rest.2)

end Trail

variable {p : Lcp ℚ} {s : Stage ℚ} {t : Tableau ℚ} {n row steps k : ℕ}

theorem pivots_of_none (h : leaving? 0 n s.tableau (s.entering n) = none) :
    pivots 0 n (steps + 1) s = ([], .error .ray) := by
  rw [pivots, show complement n s.left = s.entering n from rfl]
  simp only [h]

theorem pivots_of_some (h : leaving? 0 n s.tableau (s.entering n) =
    some (row, (s.tableau.row row).basic)) : pivots 0 n (steps + 1) s =
      if (s.tableau.row row).basic = 2 * n then
        ([(s.after n row).tableau], .ok (solution n (s.after n row).tableau))
      else ((s.after n row).tableau :: (pivots 0 n steps (s.after n row)).1,
        (pivots 0 n steps (s.after n row)).2) := by
  rw [pivots, show complement n s.left = s.entering n from rfl]
  simp only [h]
  rfl

/-- No walk comes back to its mark, so that it ends as the pivots do. -/
theorem walk_eq_pivots (hp : p.Square) (hneg : ∃ q ∈ p.offset, q < 0) (steps : ℕ) {k k' : ℕ}
    {mark : Stage ℚ} (h : Reached p k s) (hmark : Reached p k' mark) (hle : k' ≤ k) (rest span : ℕ) :
    walk 0 p.size steps s mark rest span = (pivots 0 p.size steps s).2 := by
  induction steps generalizing k k' s mark rest span with
  | zero => rfl
  | succ steps ih =>
    cases (h.valid hp hneg).leaving?_cases with
    | inl hray => rw [pivots_of_none hray.1, walk, Stage.step_of_none hray.1]
    | inr hleaves =>
      obtain ⟨row, hleaving, -⟩ := hleaves
      have hstep := Stage.step_of_some hleaving
      rw [pivots_of_some hleaving]
      split_ifs at hstep ⊢ with hbasic
      · rw [walk, hstep]
      · obtain ⟨j, mark', rest', span', hmark', hle', hwalk⟩ :=
          walk_further hp hneg h hmark hle hstep steps rest span
        rw [hwalk]
        exact ih (h.next hstep) hmark' hle' rest' span'

theorem exists_neg_of_all_eq_false (h : ¬(p.offset.all fun q => decide (0 ≤ q)) = true) :
    ∃ q ∈ p.offset, q < 0 := by
  rw [Bool.not_eq_true, List.all_eq_false] at h
  obtain ⟨q, hq, hneg⟩ := h
  exact ⟨q, hq, not_le.mp fun hle => hneg (decide_eq_true hle)⟩

/-- **A run ends as its trail does.** -/
theorem solve_eq_trail (hp : p.Square) (limit : ℕ) :
    p.solve ⟨0, limit⟩ = (p.trail ⟨0, limit⟩).2 := by
  unfold solve trail
  dsimp only
  split_ifs with hall
  · rfl
  · exact walk_eq_pivots hp (exists_neg_of_all_eq_false hall) limit Reached.first Reached.first le_rfl
      8 16

/-! ### No basis occurs twice -/

/-- **The first basis is left for good**: its basic solution is not feasible. -/
theorem Feasible.basis_ne_start (h : p.Feasible t) (hp : p.Square) (hneg : ∃ q ∈ p.offset, q < 0) :
    p.start.basis.toFinset ≠ t.basis.toFinset := by
  intro hsame
  obtain ⟨q, hq, hq0⟩ := hneg
  obtain ⟨r, hr, rfl⟩ := List.getElem_of_mem hq
  have hrow := row_start hp hr
  have hmem : ∀ c, c ∈ p.start.basis ↔ c ∈ t.basis := by
    intro c
    rw [← List.mem_toFinset, hsame, List.mem_toFinset]
  have hr' : r < p.start.length := by rwa [length_start hp]
  have hbasis : r ∈ t.basis := (hmem r).mp ((Tableau.mem_basis_iff _).mpr ⟨r, hr', by rw [hrow]⟩)
  obtain ⟨r', hr'', hbasic⟩ := (Tableau.mem_basis_iff _).mp hbasis
  have heq := (solves_start hp).row_eq_row h.solves hmem hr' hr'' (by rw [hbasic, hrow])
  have hrhs := h.rhs_nonneg r' hr''
  rw [← heq, hrow] at hrhs
  refine absurd hq0 (not_lt.mpr ?_)
  rwa [constant, List.getD_eq_getElem _ _ hr] at hrhs

/-- **What may come after a number of steps**: the tableau of a later stage, or a last tableau, from
which the artificial column has gone. -/
structure Later (p : Lcp ℚ) (k : ℕ) (t : Tableau ℚ) : Prop where
  feasible : p.Feasible t
  place : (∃ j s, k < j ∧ Reached p j s ∧ s.tableau = t) ∨ 2 * p.size ∉ t.basis

theorem Later.of_succ (h : p.Later (k + 1) t) : p.Later k t := by
  refine ⟨h.feasible, h.place.imp_left ?_⟩
  rintro ⟨j, s, hlt, hs, ht⟩
  exact ⟨j, s, Nat.lt_of_succ_lt hlt, hs, ht⟩

/-- What comes later has another basis. -/
theorem Reached.basis_ne_later (hp : p.Square) (hneg : ∃ q ∈ p.offset, q < 0) (h : Reached p k s)
    (ht : p.Later k t) : s.tableau.basis.toFinset ≠ t.basis.toFinset := by
  intro hsame
  -- a later stage has another basis since the walk does not return, a last tableau since the artificial
  -- column is off its basis
  cases ht.place with
  | inl hstage =>
    obtain ⟨j, s', hlt, hs', rfl⟩ := hstage
    exact hlt.ne (h.basis_injective hp hneg hs' hsame)
  | inr hlast =>
    refine hlast (List.mem_toFinset.mp ?_)
    rw [← hsame]
    exact List.mem_toFinset.mpr (h.valid hp hneg).artificial

/-- **Pivots lead to what may come later, and to every basis once.** -/
theorem pivots_spec (hp : p.Square) (hneg : ∃ q ∈ p.offset, q < 0) (steps : ℕ) (h : Reached p k s) :
    (∀ t ∈ (pivots 0 p.size steps s).1, p.Later k t) ∧
      ((pivots 0 p.size steps s).1.map fun t => t.basis.toFinset).Nodup := by
  -- over the steps allowed: the next stage differs from all that comes later, and so on from there
  induction steps generalizing k s with
  | zero => exact ⟨fun t ht => absurd ht List.not_mem_nil, List.nodup_nil⟩
  | succ steps ih =>
    have hvalid := h.valid hp hneg
    cases hvalid.leaving?_cases with
    | inl hray =>
      rw [pivots_of_none hray.1]
      exact ⟨fun t ht => absurd ht List.not_mem_nil, List.nodup_nil⟩
    | inr hleaves =>
      obtain ⟨row, hleaving, hl⟩ := hleaves
      have hfeasible := hvalid.feasible_after hl
      rw [pivots_of_some hleaving]
      split_ifs with hbasic
      · refine ⟨fun t ht => ?_, List.nodup_singleton _⟩
        rw [List.mem_singleton.mp ht]
        exact ⟨hfeasible, Or.inr (hvalid.artificial_notMem_last hl hbasic)⟩
      · have hnext : Reached p (k + 1) (s.after p.size row) :=
          h.next (hvalid.step_of_leaves hl hbasic)
        obtain ⟨hlater, hnodup⟩ := ih hnext
        refine ⟨List.forall_mem_cons.mpr ⟨⟨hfeasible, Or.inl ⟨k + 1, _, k.lt_succ_self, hnext, rfl⟩⟩,
          fun t ht => (hlater t ht).of_succ⟩, List.nodup_cons.mpr ⟨fun hmem => ?_, hnodup⟩⟩
        obtain ⟨t, ht, hsame⟩ := List.mem_map.mp hmem
        exact hnext.basis_ne_later hp hneg (hlater t ht) hsame.symm

/-- **The bases of a run**: each has as many columns as the problem has rows, and none occurs twice. -/
theorem trail_spec (hp : p.Square) (limit : ℕ) :
    (∀ t ∈ (p.trail ⟨0, limit⟩).1, t.Solves (2 * p.size + 1) p.System ∧ t.length = p.size) ∧
      ((p.trail ⟨0, limit⟩).1.map fun t => t.basis.toFinset).Nodup := by
  unfold trail
  dsimp only
  split_ifs with hall
  · exact ⟨fun t ht => absurd ht List.not_mem_nil, List.nodup_nil⟩
  · have hneg := exists_neg_of_all_eq_false hall
    have hfirst := (valid_firstStage hp hneg).feasible
    obtain ⟨hlater, hnodup⟩ := pivots_spec hp hneg limit Reached.first
    have hafter : ∀ t ∈ p.firstStage.tableau :: (pivots 0 p.size limit p.firstStage).1,
        p.Feasible t :=
      List.forall_mem_cons.mpr ⟨hfirst, fun t ht => (hlater t ht).feasible⟩
    refine ⟨List.forall_mem_cons.mpr ⟨⟨solves_start hp, length_start hp⟩,
      fun t ht => ⟨(hafter t ht).solves, (hafter t ht).size⟩⟩, ?_⟩
    refine List.nodup_cons.mpr ⟨fun hmem => ?_, List.nodup_cons.mpr ⟨fun hmem => ?_, hnodup⟩⟩
    · obtain ⟨t, ht, hsame⟩ := List.mem_map.mp hmem
      exact (hafter t ht).basis_ne_start hp hneg hsame.symm
    · obtain ⟨t, ht, hsame⟩ := List.mem_map.mp hmem
      exact Reached.first.basis_ne_later hp hneg (hlater t ht) hsame.symm

/-! ### What a run returns -/

/-- A problem whose rows are the same, so that both bound every column at once. -/
def tied : Lcp ℚ := ⟨[[1, 1], [1, 1]], [-1, -1]⟩

theorem build_tied : build [[1, 1], [1, 1]] [-1, -1] = .ok tied := rfl

/-- **What complementary pivoting returns is complementary**: `z` and `w = q + M z` are not negative,
and of each pair one is zero. -/
theorem solve_complementary {matrix : List (List ℚ)} {offset : List ℚ} {p : Lcp ℚ}
    (hbuild : build matrix offset = .ok p) {rules : PivotRules ℚ} (htolerance : rules.tolerance = 0)
    {z : List ℚ} (hz : p.solve rules = .ok z) :
    z.length = offset.length ∧ (p.slack z).length = offset.length ∧
      ∀ i < offset.length, 0 ≤ z.getD i 0 ∧
        (p.slack z).getD i 0 = offset.getD i 0 +
          ∑ j ∈ range offset.length, (matrix.getD i []).getD j 0 * z.getD j 0 ∧
        0 ≤ (p.slack z).getD i 0 ∧ z.getD i 0 * (p.slack z).getD i 0 = 0 := by
  obtain ⟨rfl, hp⟩ := build_iff.mp hbuild
  have h : IsSolution ⟨matrix, offset⟩ z := by
    obtain ⟨z', hsolve, hsolution⟩ | ⟨hsolve, -⟩ | ⟨hsolve, -⟩ := solve_spec hp htolerance
    · rw [hz] at hsolve
      cases hsolve
      exact hsolution
    · rw [hz] at hsolve
      cases hsolve
    · rw [hz] at hsolve
      cases hsolve
  have hlength : (slack ⟨matrix, offset⟩ z).length = offset.length := by
    rw [slack, List.length_zipWith, hp.rows]
    exact Nat.min_self _
  exact ⟨h.length, hlength, fun i hi => ⟨h.nonneg i hi, getD_slack hp h.length hi, h.slack_nonneg i hi,
    h.complementary i hi⟩⟩

theorem solve_complementary_tied :
    build [[1, 1], [1, 1]] [-1, -1] = .ok tied ∧ tied.solve ⟨0, 10⟩ = .ok [0, 1] ∧
      [(0 : ℚ), 1].length = 2 ∧ (tied.slack [0, 1]).length = 2 ∧
      ∀ i < 2, 0 ≤ [(0 : ℚ), 1].getD i 0 ∧
        (tied.slack [0, 1]).getD i 0 = [(-1 : ℚ), -1].getD i 0 +
          ∑ j ∈ range 2, (([[1, 1], [1, 1]] : List (List ℚ)).getD i []).getD j 0 *
            [(0 : ℚ), 1].getD j 0 ∧
        0 ≤ (tied.slack [0, 1]).getD i 0 ∧ [(0 : ℚ), 1].getD i 0 * (tied.slack [0, 1]).getD i 0 = 0 := by
  have hsolve : tied.solve ⟨0, 10⟩ = .ok [0, 1] := by decide +kernel
  have htolerance : (⟨0, 10⟩ : PivotRules ℚ).tolerance = 0 := rfl
  exact ⟨build_tied, hsolve, solve_complementary build_tied htolerance hsolve⟩

/-- **No basis occurs twice in a run**, however degenerate the problem: hence as many pivots as there
are bases are enough for a solution or a ray. -/
theorem solve_trail {matrix : List (List ℚ)} {offset : List ℚ} {p : Lcp ℚ}
    (hbuild : build matrix offset = .ok p) (limit : ℕ) :
    p.solve ⟨0, limit⟩ = (p.trail ⟨0, limit⟩).2 ∧
      (∀ t ∈ (p.trail ⟨0, limit⟩).1,
        t.basis.toFinset ∈ (range (2 * p.size + 1)).powersetCard p.size) ∧
      ((p.trail ⟨0, limit⟩).1.map fun t => t.basis.toFinset).Nodup ∧
      ((2 * p.size + 1).choose p.size ≤ limit →
        (∃ z, p.solve ⟨0, limit⟩ = .ok z ∧ p.IsSolution z) ∨ p.solve ⟨0, limit⟩ = .error .ray) := by
  obtain ⟨-, hp⟩ := build_iff.mp hbuild
  obtain ⟨hbases, hnodup⟩ := trail_spec hp limit
  refine ⟨solve_eq_trail hp limit, fun t ht => ?_, hnodup, fun hlimit => ?_⟩
  · obtain ⟨hsolves, hsize⟩ := hbases t ht
    exact Finset.mem_powersetCard.mpr
      ⟨hsolves.toFinset_basis_subset, hsolves.card_basis.trans hsize⟩
  · have htolerance : (⟨0, limit⟩ : PivotRules ℚ).tolerance = 0 := rfl
    obtain hsolved | ⟨hray, -⟩ | ⟨-, hless⟩ := solve_spec hp htolerance
    · exact Or.inl hsolved
    · exact Or.inr hray
    · exact absurd hlimit (not_le.mpr hless)

theorem solve_trail_tied :
    build [[1, 1], [1, 1]] [-1, -1] = .ok tied ∧ tied.solve ⟨0, 10⟩ = (tied.trail ⟨0, 10⟩).2 ∧
      (∀ t ∈ (tied.trail ⟨0, 10⟩).1, t.basis.toFinset ∈ (range 5).powersetCard 2) ∧
      ((tied.trail ⟨0, 10⟩).1.map fun t => t.basis.toFinset).Nodup ∧ Nat.choose 5 2 ≤ 10 ∧
      ((∃ z, tied.solve ⟨0, 10⟩ = .ok z ∧ tied.IsSolution z) ∨
        tied.solve ⟨0, 10⟩ = .error .ray) := by
  obtain ⟨hsolve, hbases, hnodup, hends⟩ := solve_trail build_tied 10
  exact ⟨build_tied, hsolve, hbases, hnodup, by decide, hends (by decide)⟩

/-- The first pivot brings in the artificial column and the last one takes it out. -/
example : (tied.trail ⟨0, 10⟩).1.map (·.basis) = [[0, 1], [0, 4], [0, 3]] := by decide +kernel

end Lcp

end Equilibria
