import Mathlib
import Equilibria.Proofs.Elimination
import Equilibria.Proofs.EliminationReports
import Equilibria.Proofs.LinkedPairs

/-!
# Grouped rows

The rows of an enumeration in any domain and with any enumerator:

* `Solver.found` — what an enumeration finds, in the strategies of the whole game and without its
  domain;
* `Solver.ListsGroups` — rows for all that was found, and then rows for the same in groups;
* `Solver.record_listsGroups` — every enumeration that ends well has reported such rows.
-/

namespace Equilibria

/-! ### Widths of rows -/

theorem MixedProfile.length_render {α : Type} [Scalar α] (x : MixedProfile α) (places : ℕ) :
    (x.render places).length = x.shape.sum := by
  rw [render, List.length_map, flatten, List.length_flatten]
  rfl

namespace Reduction

variable {α : Type} [Scalar α]

/-- A profile of what is left has a number for every strategy of the whole game when it is
expanded. -/
theorem sum_shape_expand (r : Reduction) (h : r.kept.length = r.wholeCounts.length)
    (x : MixedProfile α) : (r.expand x).shape.sum = r.wholeCounts.sum := by
  have hshape : (r.expand x).shape = r.wholeCounts := by
    rw [MixedProfile.shape, expand, List.map_map]
    have hcount : (List.length ∘ fun entry : (List ℕ × ℕ) × ℕ =>
        expandRow entry.1.1 entry.1.2 (x.player entry.2)) = Prod.snd ∘ Prod.fst := by
      funext entry
      show (expandRow _ _ _).length = entry.1.2
      rw [length_expandRow]
    rw [hcount, ← List.map_map, List.zipIdx_map_fst]
    exact List.map_snd_zip h.ge
  rw [hshape]

theorem kept_exhaust (g : Game) :
    (identity g).exhaust.kept.length = (identity g).exhaust.wholeCounts.length ∧
      (identity g).exhaust.wholeCounts = g.counts := by
  refine exhaust_of_cut (P := fun r => r.kept.length = r.wholeCounts.length ∧
    r.wholeCounts = g.counts) (fun r p hr => ?_) ⟨by simp [identity], rfl⟩
  unfold cut
  dsimp only
  split_ifs
  · exact hr
  · exact ⟨by rw [List.length_modify, hr.1], hr.2⟩

end Reduction

/-! ### What is found -/

namespace Solver

open Recording

variable {α : Type} [Scalar α] {wrap : MixedProfile α → AnyProfile}
  {enumerator : VertexEnumerator α} {s : Settings} {g : Game} {r : Reduction}
  {ask : String → ProgramOutcome} {places : ℕ} {report : SolveReport} {rows : List Row}

/-- The equilibria of a solution in the strategies of the whole game, each with the numbers of its
vertices. -/
def foundBy (wrap : MixedProfile α → AnyProfile) (r : Reduction) (solution : Solution α) :
    List (AnyProfile × (ℕ × ℕ)) :=
  solution.equilibria.map fun e => (wrap (r.expand e.profile), e.vertices)

/-- What an enumeration finds under given settings, nothing for an approximation. -/
def found (ask : String → ProgramOutcome) (s : Settings) (g : Game) :
    Except Failure (List (AnyProfile × (ℕ × ℕ))) :=
  match reduce s g with
  | .error e => .error e
  | .ok r =>
    match Method.ofSettings s with
    | .exact => (Solution.find Polytope.vertices r.game).map (foundBy .exact r)
    | .floating => (Solution.find Polytope.vertices r.game).map (foundBy .floating r)
    | .delegated =>
      (Solution.find (Delegate.vertices ⟨s.program, ask⟩) r.game).map (foundBy .exact r)
    | .approximation => .ok []

/-- Rows that list what was found, and then list it again by groups of what is linked by shared
vertices. -/
structure ListsGroups (g : Game) (places : ℕ) (es : List (AnyProfile × (ℕ × ℕ)))
    (groups : List (List ℕ)) (report : SolveReport) (rows : List Row) : Prop where
  ending : report = .enumeration es.length (some groups.length)
  listed : rows = (es.map fun e => Row.mk "NE" (e.1.render places)) ++
    groups.zipIdx.flatMap fun group => group.1.map fun i =>
      ⟨"convex-" ++ toString (group.2 + 1), (es.map fun e => e.1.render places).getD i []⟩
  /-- Everything found is in one group, once. -/
  once : groups.flatten.Perm (List.range es.length)
  nonempty : ∀ G ∈ groups, G ≠ []
  ordered : ∀ G ∈ groups, G.Pairwise (· < ·)
  firsts : groups.Pairwise fun G G' => ∀ i ∈ G.head?, ∀ j ∈ G'.head?, i < j
  /-- A group is what chains of shared vertices link with one of its members. -/
  linked : ∀ G ∈ groups, ∀ i ∈ G, ∀ j, j ∈ G ↔ Components.Linked (es.map Prod.snd) i j
  width : ∀ row ∈ rows, row.cells.length = g.counts.sum

theorem enumerationRows_eq (wrap : MixedProfile α → AnyProfile) (r : Reduction) (places : ℕ)
    (solution : Solution α) : enumerationRows wrap r places solution =
      ((foundBy wrap r solution).map fun e => Row.mk "NE" (e.1.render places)) ++
        solution.cliques.zipIdx.flatMap fun group => group.1.map fun i =>
          ⟨"convex-" ++ toString (group.2 + 1),
            ((foundBy wrap r solution).map fun e => e.1.render places).getD i []⟩ := by
  have hcells : (foundBy wrap r solution).map (fun e => e.1.render places) =
      solution.profiles.map (cellsOf wrap r places) := by
    rw [foundBy, Solution.profiles, List.map_map, List.map_map]
    rfl
  have hfirst : (foundBy wrap r solution).map (fun e => Row.mk "NE" (e.1.render places)) =
      (solution.profiles.map (cellsOf wrap r places)).map (Row.mk "NE") := by
    rw [← hcells, List.map_map]
    rfl
  rw [hcells, hfirst, enumerationRows, groupRows_cliqueProfiles, List.flatMap_congr]
  rintro ⟨G, k⟩ hG
  refine List.map_congr_left fun i hi => ?_
  -- members of a group are numbers of profiles
  have hlt : i < solution.profiles.length := by
    have hmem : G ∈ Components.build solution.vertexPairs :=
      List.mem_of_getElem? (List.mem_zipIdx_iff_getElem?.mp hG)
    have hlt := Components.lt_length_of_mem hmem hi
    rwa [Solution.vertexPairs, List.length_map, ← List.length_map] at hlt
  rw [List.getD_eq_getElem _ _ hlt, List.getD_eq_getElem _ _ (by rwa [List.length_map]),
    List.getElem_map]
  rfl

theorem exists_cellsOf {row : Row} {solution : Solution α}
    (h : row ∈ enumerationRows wrap r places solution) : ∃ z, row.cells = cellsOf wrap r places z := by
  rw [enumerationRows, groupRows_cliqueProfiles] at h
  cases List.mem_append.mp h with
  | inl h =>
    obtain ⟨cells, hcells, rfl⟩ := List.mem_map.mp h
    obtain ⟨z, -, rfl⟩ := List.mem_map.mp hcells
    exact ⟨z, rfl⟩
  | inr h =>
    obtain ⟨group, -, hmember⟩ := List.mem_flatMap.mp h
    obtain ⟨i, -, rfl⟩ := List.mem_map.mp hmember
    exact ⟨_, rfl⟩

/-- The rows of an enumeration of what is left of a game. -/
theorem listsGroups_of_find {solution : Solution α}
    (hwrap : ∀ x : MixedProfile α, (wrap x).render places = x.render places)
    (hkept : r.kept.length = r.wholeCounts.length ∧ r.wholeCounts = g.counts) :
    ListsGroups g places (foundBy wrap r solution) solution.cliques
      (.enumeration solution.size (some solution.cliques.length))
      (enumerationRows wrap r places solution) := by
  have hlength : (foundBy wrap r solution).length = solution.vertexPairs.length := by
    rw [foundBy, List.length_map, Solution.vertexPairs, List.length_map]
  have hpairs : (foundBy wrap r solution).map Prod.snd = solution.vertexPairs := by
    rw [foundBy, List.map_map]
    rfl
  have hclasses := Components.classes_build solution.vertexPairs
  obtain ⟨hordered, hfirsts⟩ := Components.pairwise_build solution.vertexPairs
  refine ⟨?_, enumerationRows_eq wrap r places solution, ?_, hclasses.nonempty, hordered, hfirsts, ?_, ?_⟩
  · rw [hlength, Solution.vertexPairs, List.length_map]
    rfl
  · rw [hlength]
    exact (List.perm_ext_iff_of_nodup hclasses.nodup List.nodup_range).mpr hclasses.mem_flatten
  · intro G hG i hi j
    rw [hpairs]
    exact Components.mem_iff_linked hG hi
  · intro row hrow
    obtain ⟨z, hz⟩ := exists_cellsOf hrow
    rw [hz, cellsOf, hwrap, MixedProfile.length_render, r.sum_shape_expand hkept.1, hkept.2]

/-- An enumeration of what is left of a game that ends well has found what it reports. -/
theorem exists_find_of_run (hcliques : s.reportCliques = true)
    (hwrap : ∀ x : MixedProfile α, (wrap x).render places = x.render places)
    (hkept : r.kept.length = r.wholeCounts.length ∧ r.wholeCounts = g.counts)
    (h : (enumerate wrap enumerator s r (Renderer.recorder places)).run.run [] = (.ok report, rows)) :
    ∃ solution, Solution.find enumerator r.game = .ok solution ∧
      ListsGroups g places (foundBy wrap r solution) solution.cliques report rows := by
  cases hfind : Solution.find enumerator r.game with
  | error e =>
    rw [enumerate, Solution.findWith, hfind] at h
    cases (Prod.mk.inj h).1
  | ok solution =>
    have hrun := reports_enumerate wrap places hcliques hfind []
    rw [h, List.nil_append] at hrun
    obtain ⟨hreport, hrows⟩ := Prod.mk.inj hrun
    obtain rfl := Except.ok.inj hreport
    exact ⟨solution, rfl, hrows ▸ listsGroups_of_find hwrap hkept⟩

theorem kept_of_reduce (h : reduce s g = .ok r) :
    r.kept.length = r.wholeCounts.length ∧ r.wholeCounts = g.counts := by
  have hidentity : (Reduction.identity g).kept.length = (Reduction.identity g).wholeCounts.length ∧
      (Reduction.identity g).wholeCounts = g.counts := ⟨by simp [Reduction.identity], rfl⟩
  unfold reduce Game.eliminateDominated at h
  split at h
  · cases h
  · split at h
    · cases h
    · next hvalid =>
      rw [hvalid] at h
      split_ifs at h
      · obtain rfl := Except.ok.inj h
        exact Reduction.kept_exhaust g
      · obtain rfl := Except.ok.inj h
        exact hidentity

/-- **Every enumeration reports what it finds, and then the same by groups**: whatever the domain and
whoever lists the vertices, if the solve ends well, all that was found has been reported once as an
equilibrium and once as a member of its group. -/
theorem record_listsGroups (hmethod : Method.ofSettings s ≠ .approximation)
    (hcliques : s.reportCliques = true) (h : record ask s g places = (.ok report, rows)) :
    ∃ es groups, found ask s g = .ok es ∧ ListsGroups g places es groups report rows := by
  cases hreduce : reduce s g with
  | error e =>
    rw [record, solve] at h
    simp only [hreduce] at h
    cases (Prod.mk.inj h).1
  | ok r =>
    have hkept := kept_of_reduce hreduce
    simp only [record, solve, hreduce] at h
    simp only [found, hreduce]
    cases hchosen : Method.ofSettings s with
    | exact =>
      rw [hchosen] at h
      obtain ⟨solution, hfind, hlists⟩ := exists_find_of_run hcliques (fun _ => rfl) hkept h
      exact ⟨_, _, by rw [hfind]; rfl, hlists⟩
    | floating =>
      rw [hchosen] at h
      obtain ⟨solution, hfind, hlists⟩ := exists_find_of_run hcliques (fun _ => rfl) hkept h
      exact ⟨_, _, by rw [hfind]; rfl, hlists⟩
    | delegated =>
      rw [hchosen] at h
      obtain ⟨solution, hfind, hlists⟩ := exists_find_of_run hcliques (fun _ => rfl) hkept h
      exact ⟨_, _, by rw [hfind]; rfl, hlists⟩
    | approximation => exact absurd hchosen hmethod

theorem record_listsGroups_dilemma :
    Method.ofSettings grouping ≠ .approximation ∧ grouping.reportCliques = true ∧
      ∃ report rows, record noProgram grouping Game.dilemma 6 = (.ok report, rows) ∧
        ∃ es groups, found noProgram grouping Game.dilemma = .ok es ∧
          ListsGroups Game.dilemma 6 es groups report rows := by
  have hmethod : Method.ofSettings grouping ≠ .approximation := by decide
  obtain ⟨whole, groups, rows, hrecord, -⟩ := exists_report noProgram 6 rfl rfl
    (reduce_eq rfl Game.valid_dilemma) (sound_reduce grouping Game.valid_dilemma) Game.valid_dilemma rfl
  exact ⟨hmethod, rfl, _, rows, hrecord, record_listsGroups hmethod rfl hrecord⟩

end Solver

end Equilibria
