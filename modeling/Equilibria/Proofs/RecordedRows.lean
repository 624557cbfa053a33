import Mathlib
import Equilibria.Solve

/-!
# The rows of an enumeration

What a solve reports, seen by a renderer that keeps every row:

* `Recording.Reports` — a computation that ends well, having added rows, and its rules
  `Reports.pure`, `Reports.bind`, `Reports.forM`;
* `Solver.reports_enumerate` — an enumeration adds one row for each equilibrium and then one for each
  member of each component;
* `cellsUnder`, `cellsUnder_groupRows` — the rows under a label, which give the components back.
-/

namespace Equilibria

/-- Computations that keep rows, also when they fail. -/
abbrev Recording := ExceptT Failure (StateM (List Row))

/-- Keeps every row at the end of a list. -/
def Renderer.recorder (places : ℕ) : Renderer Recording :=
  Renderer.memory places (fun row => modify fun rows => rows ++ [row]) fun _ => pure ()

/-- How a solve ends, and the rows it has reported until then. -/
def Solver.record (ask : String → ProgramOutcome) (s : Settings) (g : Game) (places : ℕ) :
    Except Failure SolveReport × List Row :=
  (Solver.solve ask s g (Renderer.recorder places)).run.run []

/-! ### Computations that end well -/

namespace Recording

variable {α β : Type} {p : Recording α} {a : α} {rows : List Row}

/-- A computation that returns `a`, having added rows. -/
def Reports (p : Recording α) (a : α) (rows : List Row) : Prop :=
  ∀ earlier, p.run.run earlier = (.ok a, earlier ++ rows)

theorem Reports.pure (a : α) : Reports (pure a) a [] := by
  intro earlier
  rw [List.append_nil]
  rfl

theorem Reports.bind {f : α → Recording β} {b : β} {rows' : List Row} (h : Reports p a rows)
    (h' : Reports (f a) b rows') : Reports (p >>= f) b (rows ++ rows') := by
  intro earlier
  rw [← List.append_assoc, ← h' (earlier ++ rows)]
  show (ExceptT.bindCont f (p.run.run earlier).1).run (p.run.run earlier).2 = _
  rw [h earlier]
  rfl

theorem Reports.forM {xs : List α} {f : α → Recording PUnit} {rowsOf : α → List Row}
    (h : ∀ x ∈ xs, Reports (f x) ⟨⟩ (rowsOf x)) : Reports (xs.forM f) ⟨⟩ (xs.flatMap rowsOf) := by
  induction xs with
  | nil => exact Reports.pure _
  | cons x xs ih =>
    rw [List.flatMap_cons]
    exact (h x List.mem_cons_self).bind (ih fun y hy => h y (List.mem_cons_of_mem x hy))

/-- A loop that adds one row each time. -/
theorem Reports.forM_map {xs : List α} {f : α → Recording PUnit} {row : α → Row}
    (h : ∀ x ∈ xs, Reports (f x) ⟨⟩ [row x]) : Reports (xs.forM f) ⟨⟩ (xs.map row) := by
  rw [List.map_eq_flatMap]
  exact Reports.forM h

theorem reports_render (places : ℕ) (label : String) (z : AnyProfile) :
    Reports ((Renderer.recorder places).render label z) ⟨⟩ [Row.ofProfile places label z] :=
  fun _ => rfl

end Recording

/-! ### Rows under labels -/

/-- The texts of the rows under a label. -/
def cellsUnder (rows : List Row) (label : String) : List (List String) :=
  (rows.filter fun row => row.label = label).map Row.cells

/-- The label of a component by its number, counted from zero. -/
def groupLabel (k : ℕ) : String := "convex-" ++ toString (k + 1)

/-- Rows for the members of numbered groups. -/
def groupRows (groups : List (List (List String))) (start : ℕ) : List Row :=
  (groups.zipIdx start).flatMap fun entry => entry.1.map (Row.mk (groupLabel entry.2))

theorem groupLabel_injective : Function.Injective groupLabel := by
  intro i j h
  have hdigits := congrArg String.toList h
  simp only [groupLabel, String.toList_append] at hdigits
  have hnumber := String.toList_injective (List.append_cancel_left hdigits)
  rw [Nat.toString_eq_repr, Nat.toString_eq_repr, Nat.repr_inj] at hnumber
  omega

theorem groupLabel_ne (k : ℕ) {label : String} (h : label.toList.head? ≠ some 'c') :
    groupLabel k ≠ label := by
  rintro rfl
  exact h (by simp [groupLabel])

theorem cellsUnder_append (rows rows' : List Row) (label : String) :
    cellsUnder (rows ++ rows') label = cellsUnder rows label ++ cellsUnder rows' label := by
  rw [cellsUnder, List.filter_append, List.map_append]
  rfl

theorem cellsUnder_map_mk (cells : List (List String)) (label label' : String) :
    cellsUnder (cells.map (Row.mk label')) label = if label' = label then cells else [] := by
  rw [cellsUnder, List.filter_map, List.map_map]
  split_ifs with h <;> simp [Function.comp_def, h]

theorem cellsUnder_groupRows_of_ne {groups : List (List (List String))} {start : ℕ} {label : String}
    (h : ∀ k, start ≤ k → groupLabel k ≠ label) : cellsUnder (groupRows groups start) label = [] := by
  induction groups generalizing start with
  | nil => rfl
  | cons group groups ih =>
    rw [groupRows, List.zipIdx_cons, List.flatMap_cons, cellsUnder_append, cellsUnder_map_mk,
      if_neg (h start le_rfl), List.nil_append]
    exact ih fun k hk => h k (Nat.le_of_succ_le hk)

/-- **The rows under a group's label are that group.** -/
theorem cellsUnder_groupRows (groups : List (List (List String))) (start k : ℕ) :
    cellsUnder (groupRows groups start) (groupLabel (start + k)) = groups.getD k [] := by
  -- the labels count from `start`, which moves along with the list
  induction groups generalizing start k with
  | nil => rfl
  | cons group groups ih =>
    rw [groupRows, List.zipIdx_cons, List.flatMap_cons, cellsUnder_append, cellsUnder_map_mk]
    cases k with
    | zero =>
      have hlater : ∀ k, start + 1 ≤ k → groupLabel k ≠ groupLabel start :=
        fun k hk heq => absurd (groupLabel_injective heq) (by omega)
      rw [Nat.add_zero, if_pos rfl, ← groupRows, cellsUnder_groupRows_of_ne hlater, List.append_nil]
      rfl
    | succ k =>
      have hother : groupLabel start ≠ groupLabel (start + (k + 1)) :=
        fun heq => absurd (groupLabel_injective heq) (by omega)
      have hnext : start + (k + 1) = start + 1 + k := by omega
      rw [if_neg hother, List.nil_append, ← groupRows, hnext, ih]
      rfl

theorem label_of_mem_groupRows {groups : List (List (List String))} {row : Row}
    (h : row ∈ groupRows groups 0) : ∃ k < groups.length, row.label = groupLabel k := by
  obtain ⟨⟨group, k⟩, hgroup, hrow⟩ := List.mem_flatMap.mp h
  obtain ⟨cells, -, rfl⟩ := List.mem_map.mp hrow
  exact ⟨k, (List.getElem?_eq_some_iff.mp (List.mem_zipIdx_iff_getElem?.mp hgroup)).1, rfl⟩

/-! ### Enumerations -/

namespace Solver

open Recording

variable {α : Type} [Scalar α] {wrap : MixedProfile α → AnyProfile}
  {enumerator : VertexEnumerator α} {s : Settings} {r : Reduction} {solution : Solution α}

/-- The texts of a profile of what is left, in the strategies of the whole game. -/
def cellsOf (wrap : MixedProfile α → AnyProfile) (r : Reduction) (places : ℕ) (z : MixedProfile α) :
    List String :=
  (wrap (r.expand z)).render places

/-- The rows of an enumeration. -/
def enumerationRows (wrap : MixedProfile α → AnyProfile) (r : Reduction) (places : ℕ)
    (solution : Solution α) : List Row :=
  (solution.profiles.map (cellsOf wrap r places)).map (Row.mk "NE") ++
    groupRows (solution.cliqueProfiles.map (List.map (cellsOf wrap r places))) 0

theorem reports_findWith (wrap : MixedProfile α → AnyProfile) (places : ℕ)
    (hfind : Solution.find enumerator r.game = .ok solution) :
    Reports (Solution.findWith enumerator r.game fun e =>
        (Renderer.recorder places).render "" (wrap (r.expand e.profile))) solution
      ((solution.profiles.map (cellsOf wrap r places)).map (Row.mk "NE")) := by
  rw [Solution.findWith, hfind, Solution.profiles, List.map_map, List.map_map,
    ← List.append_nil (List.map _ _)]
  exact (Reports.forM_map fun e _ => reports_render places "" _).bind (Reports.pure solution)

theorem ofProfile_groupLabel (places k : ℕ) (z : AnyProfile) :
    Row.ofProfile places (groupLabel k) z = ⟨groupLabel k, z.render places⟩ := by
  have hlabel : (groupLabel k).isEmpty = false := by
    rw [← Bool.not_eq_true, String.isEmpty_iff]
    exact groupLabel_ne k (by decide)
  rw [Row.ofProfile, hlabel]
  rfl

/-- The rows of the components, member by member. -/
theorem groupRows_cliqueProfiles (wrap : MixedProfile α → AnyProfile) (r : Reduction) (places : ℕ)
    (solution : Solution α) :
    groupRows (solution.cliqueProfiles.map (List.map (cellsOf wrap r places))) 0 =
      solution.cliques.zipIdx.flatMap fun entry => entry.1.map fun i =>
        ⟨groupLabel entry.2, cellsOf wrap r places (solution.profiles.getD i ⟨[]⟩)⟩ := by
  rw [groupRows, Solution.cliqueProfiles, List.map_map, List.zipIdx_map, List.flatMap_map]
  simp only [Function.comp_def, Prod.map_fst, Prod.map_snd, List.map_map, id_eq]

theorem reports_reportCliques (wrap : MixedProfile α → AnyProfile) (r : Reduction) (places : ℕ)
    (solution : Solution α) :
    Reports (reportCliques wrap r (Renderer.recorder places) solution) ⟨⟩
      (groupRows (solution.cliqueProfiles.map (List.map (cellsOf wrap r places))) 0) := by
  have hmember : ∀ k i, Reports ((Renderer.recorder places).render (groupLabel k)
      (wrap (r.expand (solution.profiles.getD i ⟨[]⟩)))) ⟨⟩
        [⟨groupLabel k, cellsOf wrap r places (solution.profiles.getD i ⟨[]⟩)⟩] := by
    intro k i
    rw [cellsOf, ← ofProfile_groupLabel]
    exact reports_render places (groupLabel k) _
  rw [groupRows_cliqueProfiles]
  exact Reports.forM fun entry _ => Reports.forM_map fun i _ => hmember entry.2 i

/-- **What an enumeration reports**: every equilibrium and then every component. -/
theorem reports_enumerate (wrap : MixedProfile α → AnyProfile) (places : ℕ)
    (hcliques : s.reportCliques = true) (hfind : Solution.find enumerator r.game = .ok solution) :
    Reports (enumerate wrap enumerator s r (Renderer.recorder places))
      (.enumeration solution.size (some solution.cliques.length))
      (enumerationRows wrap r places solution) := by
  have hrest : Reports (do
      reportCliques wrap r (Renderer.recorder places) solution
      pure (SolveReport.enumeration solution.size (some solution.cliques.length)))
      (.enumeration solution.size (some solution.cliques.length))
      (groupRows (solution.cliqueProfiles.map (List.map (cellsOf wrap r places))) 0) := by
    rw [← List.append_nil (groupRows _ _)]
    exact (reports_reportCliques wrap r places solution).bind (Reports.pure _)
  refine (reports_findWith wrap places hfind).bind ?_
  rw [if_pos hcliques]
  exact hrest

theorem cellsUnder_enumerationRows (wrap : MixedProfile α → AnyProfile) (r : Reduction) (places : ℕ)
    (solution : Solution α) : cellsUnder (enumerationRows wrap r places solution) "NE" =
      solution.profiles.map (cellsOf wrap r places) := by
  rw [enumerationRows, cellsUnder_append, cellsUnder_map_mk, if_pos rfl,
    cellsUnder_groupRows_of_ne fun k _ => groupLabel_ne k (by decide), List.append_nil]

/-- The rows of a component. -/
theorem cellsUnder_enumerationRows_group (wrap : MixedProfile α → AnyProfile) (r : Reduction)
    (places : ℕ) (solution : Solution α) (k : ℕ) :
    cellsUnder (enumerationRows wrap r places solution) (groupLabel k) =
      (solution.cliqueProfiles.map (List.map (cellsOf wrap r places))).getD k [] := by
  have hgroup := cellsUnder_groupRows
    (solution.cliqueProfiles.map (List.map (cellsOf wrap r places))) 0 k
  rw [Nat.zero_add] at hgroup
  rw [enumerationRows, cellsUnder_append, cellsUnder_map_mk,
    if_neg (groupLabel_ne k (by decide)).symm, List.nil_append, hgroup]

theorem label_of_mem_enumerationRows {places : ℕ} {row : Row}
    (h : row ∈ enumerationRows wrap r places solution) :
    row.label = "NE" ∨ ∃ k < solution.cliques.length, row.label = groupLabel k := by
  rcases List.mem_append.mp h with hrow | hrow
  · obtain ⟨cells, -, rfl⟩ := List.mem_map.mp hrow
    exact Or.inl rfl
  · right
    have hlabel := label_of_mem_groupRows hrow
    rwa [List.length_map, Solution.cliqueProfiles, List.length_map] at hlabel

end Solver

end Equilibria
