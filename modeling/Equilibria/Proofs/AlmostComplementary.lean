import Mathlib
import Equilibria.Proofs.ComplementaryRuns

/-!
# Almost complementary bases

Which columns are basic during complementary pivoting depends on no number: every step puts the
complement of the column that has left in the place of another one, whatever row the ratio test
takes.  So all this holds in rounded arithmetic as well, and even if the numbers are no numbers:

* `Lcp.leaving?_spec` — the column that leaves is the basic one of the row found;
* `Lcp.Stage.AlmostComplementary` — one column of each pair is basic, but for the pair of the column
  that has left, in whose stead the artificial column is basic;
* `Lcp.almostComplementary_opening`, `Lcp.Stage.AlmostComplementary.further` — this holds before the
  first step, and a step keeps it;
* `Lcp.Met.almostComplementary`, `Lcp.exists_met_of_walk` — hence it holds before every step of a run,
  and a run that finds a solution finds it by a step from there;
* `Lcp.solve_almostComplementary` — what that says about a run, column by column.

No law is asked of the numbers.
-/

namespace Equilibria

namespace Lcp

variable {α : Type} {n : ℕ}

/-! ### The invariant -/

namespace Stage

/-- **The basis is almost complementary**: it has the artificial column, and with the column that has
left it has one column of each pair. -/
structure AlmostComplementary (n : ℕ) (s : Stage α) : Prop where
  length : s.tableau.basis.length = n
  nodup : s.tableau.basis.Nodup
  le : ∀ c ∈ s.tableau.basis, c ≤ 2 * n
  artificial : 2 * n ∈ s.tableau.basis
  left_lt : s.left < 2 * n
  left_notMem : s.left ∉ s.tableau.basis
  paired : Paired n s.left s.tableau.basis

variable {s : Stage α}

theorem AlmostComplementary.entering_lt (h : s.AlmostComplementary n) :
    complement n s.left < 2 * n := complement_lt h.left_lt

/-- The column that enters is not basic. -/
theorem AlmostComplementary.entering_notMem (h : s.AlmostComplementary n) :
    complement n s.left ∉ s.tableau.basis := (h.paired.swap h.left_lt h.left_notMem).1

theorem AlmostComplementary.paired_entering (h : s.AlmostComplementary n) :
    Paired n (complement n s.left) s.tableau.basis := (h.paired.swap h.left_lt h.left_notMem).2

/-- **One pair has no basic column**, that of the column that has left. -/
theorem AlmostComplementary.exists_free (h : s.AlmostComplementary n) : ∃ i < n,
    (s.left = i ∨ s.left = n + i) ∧
      (∀ j < n, j ∉ s.tableau.basis ∧ n + j ∉ s.tableau.basis ↔ j = i) ∧
      ∀ j < n, j ≠ i → (j ∈ s.tableau.basis ↔ n + j ∉ s.tableau.basis) := by
  obtain ⟨i, hi, hleft⟩ : ∃ i < n, s.left = i ∨ s.left = n + i := by
    have hlt := h.left_lt
    rcases Nat.lt_or_ge s.left n with hw | hz
    · exact ⟨s.left, hw, Or.inl rfl⟩
    · exact ⟨s.left - n, by omega, Or.inr (by omega)⟩
  have hfree : i ∉ s.tableau.basis ∧ n + i ∉ s.tableau.basis := by
    have hpair := h.paired i hi
    have hnotMem := h.left_notMem
    rcases hleft with hw | hz
    · rw [hw] at hpair hnotMem
      exact ⟨hnotMem, fun hmem => hpair.mp (Or.inl rfl) (Or.inr hmem)⟩
    · rw [hz] at hpair hnotMem
      exact ⟨fun hmem => hpair.mp (Or.inr hmem) (Or.inl rfl), hnotMem⟩
  have hothers : ∀ j < n, j ≠ i → (j ∈ s.tableau.basis ↔ n + j ∉ s.tableau.basis) := by
    intro j hj hne
    have hpair := h.paired j hj
    simpa [show j ≠ s.left by omega, show n + j ≠ s.left by omega] using hpair
  refine ⟨i, hi, hleft, fun j hj => ⟨fun hnone => ?_, fun heq => heq ▸ hfree⟩, hothers⟩
  by_contra hne
  exact hnone.1 ((hothers j hj hne).mpr hnone.2)

end Stage

variable [Scalar α] {tolerance : α}

/-! ### The rows that are found -/

/-- The comparison of rows picks one of them. -/
theorem foldl_better_eq_some {P : ℕ → TableauRow α → Prop} {col : ℕ}
    {es : List (TableauRow α × ℕ)} (hes : ∀ e ∈ es, P e.2 e.1) {best : Option (ℕ × TableauRow α)}
    (hbest : ∀ r e, best = some (r, e) → P r e) {r : ℕ} {e : TableauRow α}
    (hfold : es.foldl (better tolerance n col) best = some (r, e)) : P r e := by
  induction es generalizing best with
  | nil => exact hbest r e hfold
  | cons e' es ih =>
    obtain ⟨he', hes'⟩ := List.forall_mem_cons.mp hes
    refine ih hes' ?_ hfold
    intro r e heq
    unfold better at heq
    split at heq
    · exact hbest r e heq
    · split at heq
      · cases heq
        exact he'
      · split at heq
        · cases heq
          exact he'
        · exact hbest r e heq

/-- **The column that leaves is the basic one of its row.** -/
theorem leaving?_spec {t : Tableau α} {col row c : ℕ}
    (h : leaving? tolerance n t col = some (row, c)) : t.basis[row]? = some c := by
  obtain ⟨⟨r, e⟩, hfold, heq⟩ := Option.map_eq_some_iff.mp h
  cases heq
  have hrow : t[r]? = some e :=
    foldl_better_eq_some (P := fun r e => t[r]? = some e)
      (fun e he => List.mem_zipIdx_iff_getElem?.mp he)
      (fun _ _ hnone => absurd hnone.symm (Option.some_ne_none _)) hfold
  rw [Tableau.basis, List.getElem?_map, hrow]
  rfl

/-- The artificial column enters in some row. -/
theorem firstRow_lt {p : Lcp α} (hne : p.offset ≠ []) : p.firstRow < p.size := by
  obtain ⟨q, qs, hoffset⟩ := List.exists_cons_of_ne_nil hne
  simp only [firstRow, size, hoffset]
  refine List.foldlRecOn qs.zipIdx _ (motive := fun least : ℕ × α => least.1 < (q :: qs).length)
    (Nat.succ_pos _) fun least hleast e he => ?_
  split_ifs
  · have hlt := List.snd_lt_of_mem_zipIdx he
    exact Nat.succ_lt_succ hlt
  · exact hleast

/-! ### Steps -/

namespace Stage

variable {s s' : Stage α} {z : List α}

/-- What a step on does. -/
theorem step_eq_further (hstep : step tolerance n s = .further s') : ∃ row,
    s.tableau.basis[row]? = some s'.left ∧ s'.left ≠ 2 * n ∧
      s'.tableau = s.tableau.pivotRows row (complement n s.left) := by
  unfold step at hstep
  dsimp only at hstep
  split at hstep
  · cases hstep
  · next row column hleaving =>
    split_ifs at hstep with hlast
    cases hstep
    exact ⟨row, leaving?_spec hleaving, hlast, rfl⟩

/-- What a last step does. -/
theorem step_eq_solved (hstep : step tolerance n s = .solved z) : ∃ row,
    s.tableau.basis[row]? = some (2 * n) ∧
      z = solution n (s.tableau.pivotRows row (complement n s.left)) := by
  unfold step at hstep
  dsimp only at hstep
  split at hstep
  · cases hstep
  · next row column hleaving =>
    split_ifs at hstep with hlast
    cases hstep
    exact ⟨row, hlast ▸ leaving?_spec hleaving, rfl⟩

/-- **A step keeps the basis almost complementary**, by whatever row it is made. -/
theorem AlmostComplementary.further (h : s.AlmostComplementary n)
    (hstep : step tolerance n s = .further s') : s'.AlmostComplementary n := by
  obtain ⟨row, hrow, hlast, htableau⟩ := step_eq_further hstep
  have hlt := h.entering_lt
  have hleft : s'.left ∈ s.tableau.basis := List.mem_of_getElem? hrow
  have hmem := Tableau.mem_basis_pivotRows_iff h.nodup hrow (complement n s.left)
  rw [← htableau] at hmem
  have hbasis : s'.tableau.basis = s.tableau.basis.set row (complement n s.left) := by
    rw [htableau, Tableau.basis_pivotRows]
  refine ⟨?_, ?_, fun c hc => ?_, (hmem _).mpr (Or.inr ⟨h.artificial, hlast.symm⟩), ?_, ?_, ?_⟩
  · rw [hbasis, List.length_set, h.length]
  · rw [hbasis]
    exact h.nodup.set h.entering_notMem
  · cases (hmem c).mp hc with
    | inl henters => omega
    | inr hold => exact h.le c hold.1
  · have hle := h.le s'.left hleft
    omega
  · rw [hmem]
    rintro (henters | hold)
    · rw [henters] at hleft
      exact h.entering_notMem hleft
    · exact hold.2 rfl
  · -- the columns are those of the basis before and the one that has entered
    have hcolumns : ∀ c, (c = s'.left ∨ c ∈ s'.tableau.basis) ↔
        (c = complement n s.left ∨ c ∈ s.tableau.basis) := by
      intro c
      rw [hmem]
      by_cases hc : c = s'.left
      · simp [hc, hleft]
      · simp [hc]
    intro i hi
    rw [hcolumns, hcolumns]
    exact h.paired_entering i hi

/-- **The last step makes the basis complementary**: the artificial column gives its place to the one
that was missing. -/
theorem AlmostComplementary.last (h : s.AlmostComplementary n) {row : ℕ}
    (hrow : s.tableau.basis[row]? = some (2 * n)) :
    let t := s.tableau.pivotRows row (complement n s.left)
    t.basis.length = n ∧ t.basis.Nodup ∧ (∀ c ∈ t.basis, c < 2 * n) ∧
      ∀ i < n, (i ∈ t.basis ↔ n + i ∉ t.basis) := by
  have hlt := h.entering_lt
  have hmem := Tableau.mem_basis_pivotRows_iff h.nodup hrow (complement n s.left)
  refine ⟨?_, ?_, fun c hc => ?_, fun i hi => ?_⟩
  · rw [Tableau.basis_pivotRows, List.length_set, h.length]
  · rw [Tableau.basis_pivotRows]
    exact h.nodup.set h.entering_notMem
  · cases (hmem c).mp hc with
    | inl henters => omega
    | inr hold =>
      have hle := h.le c hold.1
      omega
  · have hpair := h.paired_entering i hi
    rw [hmem, hmem]
    simpa [show i ≠ 2 * n by omega, show n + i ≠ 2 * n by omega] using hpair

end Stage

/-! ### Runs -/

variable {p : Lcp α} {s : Stage α} {k : ℕ}

/-- The stage before the first step: the artificial column has entered. -/
def opening (p : Lcp α) : Stage α := ⟨p.start.pivotRows p.firstRow (2 * p.size), p.firstRow⟩

/-- The stages before the steps of a run, with the number of steps made. -/
def Met (tolerance : α) (p : Lcp α) : ℕ → Stage α → Prop :=
  Walk (fun s s' => step tolerance p.size s = .further s') p.opening

/-- The first tableau has the columns of `w` as its basis. -/
theorem basis_start (hrows : p.matrix.length = p.size) : p.start.basis = List.range p.size := by
  apply List.ext_getElem
  · have hlength : (p.matrix.zip p.offset).length = p.size := by
      rw [List.length_zip, hrows]
      exact Nat.min_self _
    rw [Tableau.basis, List.length_map, start, List.length_mapIdx, hlength, List.length_range]
  · intro i hi hi'
    simp only [Tableau.basis, start, List.getElem_map, List.getElem_mapIdx, List.getElem_range]

/-- **The artificial column makes the basis almost complementary.** -/
theorem almostComplementary_opening (hrows : p.matrix.length = p.size) (hne : p.offset ≠ []) :
    p.opening.AlmostComplementary p.size := by
  have hrow := firstRow_lt hne
  have hbasis := basis_start hrows
  have hat : p.start.basis[p.firstRow]? = some p.firstRow := by
    rw [hbasis, List.getElem?_range hrow]
  have hnodup : p.start.basis.Nodup := hbasis ▸ List.nodup_range
  have hmem : ∀ c, c ∈ p.opening.tableau.basis ↔ c = 2 * p.size ∨ c < p.size ∧ c ≠ p.firstRow := by
    intro c
    rw [opening, Tableau.mem_basis_pivotRows_iff hnodup hat, hbasis, List.mem_range]
  have hset : p.opening.tableau.basis = (List.range p.size).set p.firstRow (2 * p.size) := by
    rw [opening, Tableau.basis_pivotRows, hbasis]
  have hleft : p.opening.left = p.firstRow := rfl
  refine ⟨?_, ?_, fun c hc => ?_, (hmem _).mpr (Or.inl rfl), ?_, ?_, fun i hi => ?_⟩
  · rw [hset, List.length_set, List.length_range]
  · rw [hset]
    refine List.nodup_range.set ?_
    rw [List.mem_range]
    omega
  · have hcolumn := (hmem c).mp hc
    omega
  · omega
  · rw [hmem, hleft]
    omega
  · rw [hmem, hmem, hleft]
    omega

/-- **The basis is almost complementary before every step.** -/
theorem Met.almostComplementary (hrows : p.matrix.length = p.size) (hne : p.offset ≠ [])
    (h : p.Met tolerance k s) : s.AlmostComplementary p.size := by
  induction h with
  | start => exact almostComplementary_opening hrows hne
  | next _ hstep ih => exact ih.further hstep

/-- A walk that ends with a solution ends with a step from a stage that is met. -/
theorem exists_met_of_walk {steps : ℕ} {mark : Stage α} {rest span : ℕ} {z : List α}
    (h : p.Met tolerance k s) (hz : walk tolerance p.size steps s mark rest span = .ok z) :
    ∃ j s', j < k + steps ∧ p.Met tolerance j s' ∧ step tolerance p.size s' = .solved z := by
  induction steps generalizing k s mark rest span with
  | zero => cases hz
  | succ steps ih =>
    cases hstep : step tolerance p.size s with
    | ray =>
      simp only [walk, hstep] at hz
      cases hz
    | solved z' =>
      simp only [walk, hstep] at hz
      cases hz
      exact ⟨k, s, by omega, h, hstep⟩
    | further next =>
      have hnext : p.Met tolerance (k + 1) next := Walk.next h hstep
      obtain ⟨mark', rest', span', hz'⟩ : ∃ mark' rest' span',
          walk tolerance p.size steps next mark' rest' span' = .ok z := by
        simp only [walk, hstep] at hz
        split at hz
        · cases hz
        · split at hz
          · exact ⟨_, _, _, hz⟩
          · exact ⟨_, _, _, hz⟩
      obtain ⟨j, s', hj, hmet, hlast⟩ := ih hnext hz'
      exact ⟨j, s', by omega, hmet, hlast⟩

/-- **Whatever the numbers, the basis is almost complementary before every step**: it has as many
columns as there are pairs, the artificial one among them; one pair has no basic column, that of the
column that left last; of each other pair one column is basic; and the column that enters is neither
basic nor the artificial one.  So a solution is read off a basis with one column of each pair. -/
theorem solve_almostComplementary {matrix : List (List α)} {offset : List α}
    (hbuild : build matrix offset = .ok p) (rules : PivotRules α)
    (hall : ¬(p.offset.all fun q => decide (0 ≤ q)) = true) :
    (∀ k s, p.Met rules.tolerance k s →
      s.tableau.basis.length = p.size ∧ s.tableau.basis.Nodup ∧
      (∀ c ∈ s.tableau.basis, c ≤ 2 * p.size) ∧ 2 * p.size ∈ s.tableau.basis ∧
      s.left < 2 * p.size ∧
      (∃ i < p.size, (s.left = i ∨ s.left = p.size + i) ∧
        (∀ j < p.size, j ∉ s.tableau.basis ∧ p.size + j ∉ s.tableau.basis ↔ j = i) ∧
        ∀ j < p.size, j ≠ i → (j ∈ s.tableau.basis ↔ p.size + j ∉ s.tableau.basis)) ∧
      complement p.size s.left < 2 * p.size ∧ complement p.size s.left ∉ s.tableau.basis) ∧
    ∀ z, p.solve rules = .ok z → ∃ k s row t, k < rules.limit ∧ p.Met rules.tolerance k s ∧
      s.tableau.basis[row]? = some (2 * p.size) ∧
      t = s.tableau.pivotRows row (complement p.size s.left) ∧ z = solution p.size t ∧
      t.basis.length = p.size ∧ t.basis.Nodup ∧ (∀ c ∈ t.basis, c < 2 * p.size) ∧
      ∀ i < p.size, (i ∈ t.basis ↔ p.size + i ∉ t.basis) := by
  have hrows : p.matrix.length = p.size := by
    unfold build at hbuild
    split_ifs at hbuild with hshape
    cases hbuild
    exact hshape.1
  have hne : p.offset ≠ [] := by
    intro hnil
    rw [hnil] at hall
    exact hall rfl
  refine ⟨fun k s hmet => ?_, fun z hz => ?_⟩
  · have h := hmet.almostComplementary hrows hne
    exact ⟨h.length, h.nodup, h.le, h.artificial, h.left_lt, h.exists_free, h.entering_lt,
      h.entering_notMem⟩
  · unfold solve at hz
    rw [if_neg hall] at hz
    obtain ⟨k, s, hk, hmet, hlast⟩ := exists_met_of_walk (Walk.start : p.Met rules.tolerance 0 _) hz
    obtain ⟨row, hrow, hsolution⟩ := Stage.step_eq_solved hlast
    have h := hmet.almostComplementary hrows hne
    exact ⟨k, s, row, _, by omega, hmet, hrow, rfl, hsolution, h.last hrow⟩

theorem solve_almostComplementary_tied :
    build [[1, 1], [1, 1]] [-1, -1] = .ok tied ∧
      ¬(tied.offset.all fun q => decide (0 ≤ q)) = true ∧
      (tied.Met 0 0 tied.opening ∧ tied.opening.tableau.basis.length = 2 ∧
        tied.opening.tableau.basis.Nodup ∧ (∀ c ∈ tied.opening.tableau.basis, c ≤ 4) ∧
        4 ∈ tied.opening.tableau.basis ∧ tied.opening.left < 4 ∧
        (∃ i < 2, (tied.opening.left = i ∨ tied.opening.left = 2 + i) ∧
          (∀ j < 2, j ∉ tied.opening.tableau.basis ∧ 2 + j ∉ tied.opening.tableau.basis ↔ j = i) ∧
          ∀ j < 2, j ≠ i →
            (j ∈ tied.opening.tableau.basis ↔ 2 + j ∉ tied.opening.tableau.basis)) ∧
        complement 2 tied.opening.left < 4 ∧
        complement 2 tied.opening.left ∉ tied.opening.tableau.basis) ∧
      tied.solve ⟨0, 10⟩ = .ok [0, 1] ∧
      ∃ k s row t, k < 10 ∧ tied.Met 0 k s ∧ s.tableau.basis[row]? = some 4 ∧
        t = s.tableau.pivotRows row (complement 2 s.left) ∧ [0, 1] = solution 2 t ∧
        t.basis.length = 2 ∧ t.basis.Nodup ∧ (∀ c ∈ t.basis, c < 4) ∧
        ∀ i < 2, (i ∈ t.basis ↔ 2 + i ∉ t.basis) := by
  have hall : ¬(tied.offset.all fun q => decide (0 ≤ q)) = true := by decide
  have hmet : tied.Met 0 0 tied.opening := Walk.start
  have hsolve : tied.solve ⟨0, 10⟩ = .ok [0, 1] := by decide +kernel
  obtain ⟨hstages, hsolved⟩ := solve_almostComplementary build_tied ⟨0, 10⟩ hall
  exact ⟨build_tied, hall, ⟨hmet, hstages 0 _ hmet⟩, hsolve, hsolved _ hsolve⟩

end Lcp

end Equilibria
