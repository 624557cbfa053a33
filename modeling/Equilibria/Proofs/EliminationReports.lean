import Mathlib
import Equilibria.Proofs.ExactTexts
import Equilibria.Proofs.RecordedRows
import Equilibria.Proofs.SharedMixtures

/-!
# Reports with and without elimination

An exact enumeration of a game of two players reports the same, whether dominated strategies are
removed first or not:

* `Solver.Shows` — rows that show profiles and groups of them;
* `Solver.ListsExtreme` — a report of all extreme equilibria of a game, each once and in one group;
* `Solver.exists_report` — after a sound reduction the rows show the extreme equilibria of the whole
  game, grouped by the chains that join them;
* `Solver.record_same_rows` — hence the two reports agree up to order.

The two enumerations have different polytopes and find the equilibria in different orders, so that
neither the order of the rows nor the numbers of the groups need be the same.
-/

namespace Equilibria

theorem Game.Extreme.shape {g : Game} (htwo : g.numPlayers = 2) {z : MixedProfile ℚ}
    (h : g.Extreme z) : z.shape = g.counts := by
  obtain ⟨x, y, rfl, -⟩ := h
  exact shape_pairProfile htwo x y

namespace Solver

/-- The groups of a report, each as its rows up to order. -/
def convexSets (rows : List Row) (count : ℕ) : List (Multiset (List String)) :=
  (List.range count).map fun k => Multiset.ofList (cellsUnder rows (groupLabel k))

/-- A report of the extreme equilibria of a game, with `n` of them in `c` groups. -/
structure ListsExtreme (g : Game) (places n c : ℕ) (rows : List Row) : Prop where
  labels : ∀ row ∈ rows, row.label = "NE" ∨ ∃ k < c, row.label = groupLabel k
  /-- The rows are in the strategies of the whole game. -/
  equilibria : ∀ cells, cells ∈ cellsUnder rows "NE" ↔
    ∃ z, z.shape = g.counts ∧ g.Extreme z ∧ cells = z.render places
  once : (cellsUnder rows "NE").Nodup
  length : (cellsUnder rows "NE").length = n
  nonempty : ∀ k < c, cellsUnder rows (groupLabel k) ≠ []
  /-- Every row is in one group. -/
  grouped : ((List.range c).flatMap fun k => cellsUnder rows (groupLabel k)).Perm
    (cellsUnder rows "NE")

/-! ### What rows show -/

/-- Rows that show exact profiles as equilibria, and groups of profiles. -/
structure Shows (places : ℕ) (whole : List (MixedProfile ℚ)) (groups : List (List (MixedProfile ℚ)))
    (rows : List Row) : Prop where
  labels : ∀ row ∈ rows, row.label = "NE" ∨ ∃ k < groups.length, row.label = groupLabel k
  whole : cellsUnder rows "NE" = whole.map (MixedProfile.render places)
  groups : ∀ k, cellsUnder rows (groupLabel k) =
    (groups.map (List.map (MixedProfile.render places))).getD k []

variable {places : ℕ} {whole : List (MixedProfile ℚ)} {groups : List (List (MixedProfile ℚ))}
  {rows : List Row} {g : Game}

theorem Shows.map_range (h : Shows places whole groups rows) :
    (List.range groups.length).map (fun k => cellsUnder rows (groupLabel k)) =
      groups.map (List.map (MixedProfile.render places)) := by
  have hrange := map_getD_range (groups.map (List.map (MixedProfile.render places))) []
  rw [List.length_map] at hrange
  rw [← hrange]
  exact List.map_congr_left fun k _ => h.groups k

theorem Shows.convexSets_eq (h : Shows places whole groups rows) : convexSets rows groups.length =
    (groups.map Multiset.ofList).map (Multiset.map (MixedProfile.render places)) := by
  have hrange := congrArg (List.map Multiset.ofList) h.map_range
  rw [List.map_map, List.map_map] at hrange
  rw [List.map_map]
  exact hrange

theorem Shows.listsExtreme (h : Shows places whole groups rows) (htwo : g.numPlayers = 2)
    (hnodup : whole.Nodup) (hmem : ∀ z, z ∈ whole ↔ g.Extreme z)
    (hclasses : Classes g.Joined whole groups) :
    ListsExtreme g places whole.length groups.length rows := by
  have hsame : ∀ z ∈ whole, ∀ w ∈ whole, z.render places = w.render places → z = w := by
    intro z hz w hw
    have hshape := ((hmem z).mp hz).shape htwo
    have hshape' := ((hmem w).mp hw).shape htwo
    exact (MixedProfile.render_inj (hshape.trans hshape'.symm)).mp
  refine ⟨h.labels, fun cells => ?_, ?_, ?_, fun k hk => ?_, ?_⟩
  · rw [h.whole, List.mem_map]
    constructor
    · rintro ⟨z, hz, rfl⟩
      exact ⟨z, ((hmem z).mp hz).shape htwo, (hmem z).mp hz, rfl⟩
    · rintro ⟨z, -, hz, rfl⟩
      exact ⟨z, (hmem z).mpr hz, rfl⟩
  · rw [h.whole, List.nodup_map_iff_inj_on hnodup]
    exact hsame
  · rw [h.whole, List.length_map]
  · rw [h.groups, List.getD_eq_getElem _ _ (by rwa [List.length_map]), List.getElem_map]
    exact mt List.map_eq_nil_iff.mp (hclasses.nonempty _ (List.getElem_mem hk))
  · have hflatten : groups.flatten.Perm whole :=
      (List.perm_ext_iff_of_nodup hclasses.nodup hnodup).mpr hclasses.mem_flatten
    rw [List.flatMap_def, h.map_range, h.whole, ← List.map_flatten]
    exact hflatten.map _

/-! ### One report -/

variable {s : Settings} {r : Reduction}

theorem record_of_reduce (ask : String → ProgramOutcome) (places : ℕ) {solution : Solution ℚ}
    (hexact : Method.ofSettings s = .exact) (hcliques : s.reportCliques = true)
    (hreduce : reduce s g = .ok r) (hfind : Solution.find Polytope.vertices r.game = .ok solution) :
    record ask s g places = (.ok (.enumeration solution.size (some solution.cliques.length)),
      enumerationRows .exact r places solution) := by
  have hrun := reports_enumerate .exact places hcliques hfind []
  rw [List.nil_append] at hrun
  rw [← hrun, record, solve]
  simp only [hreduce, hexact]

/-- **The report after a sound reduction** shows the extreme equilibria of the whole game, grouped by
the chains that join them. -/
theorem exists_report (ask : String → ProgramOutcome) (places : ℕ)
    (hexact : Method.ofSettings s = .exact) (hcliques : s.reportCliques = true)
    (hreduce : reduce s g = .ok r) (h : Reduction.Sound g r) (hg : g.Valid) (htwo : g.numPlayers = 2) :
    ∃ (whole : List (MixedProfile ℚ)) (groups : List (List (MixedProfile ℚ))) (rows : List Row),
      record ask s g places = (.ok (.enumeration whole.length (some groups.length)), rows) ∧
      Shows places whole groups rows ∧ whole.Nodup ∧ (∀ z, z ∈ whole ↔ g.Extreme z) ∧
      Classes g.Joined whole groups := by
  obtain ⟨solution, hfind, hnodup, hmem, hclasses⟩ := h.find_classes hg htwo
  have hn : solution.size = (solution.profiles.map r.expand).length := by
    rw [List.length_map, Solution.profiles, List.length_map, Solution.size]
  have hc : solution.cliques.length =
      (solution.cliqueProfiles.map (List.map r.expand)).length := by
    rw [List.length_map, Solution.cliqueProfiles, List.length_map]
  refine ⟨_, _, enumerationRows .exact r places solution, ?_, ⟨?_, ?_, fun k => ?_⟩, hnodup, hmem,
    hclasses⟩
  · rw [← hn, ← hc]
    exact record_of_reduce ask places hexact hcliques hreduce hfind
  · rw [← hc]
    exact fun row => label_of_mem_enumerationRows
  · rw [cellsUnder_enumerationRows, List.map_map]
    rfl
  · rw [cellsUnder_enumerationRows_group, List.map_map]
    simp only [Function.comp_def, List.map_map]
    rfl

/-! ### Both reports -/

/-- What is left of a game that may be solved: all of it, or what no round of elimination removes. -/
theorem reduce_eq (hsettings : s.validate = .ok ()) (hg : g.Valid) :
    reduce s g = .ok (if s.eliminateDominated then (Reduction.identity g).exhaust
      else Reduction.identity g) := by
  simp only [reduce, hsettings, hg.accepted, Game.eliminateDominated]
  split_ifs <;> rfl

theorem sound_reduce (s : Settings) (hg : g.Valid) :
    Reduction.Sound g (if s.eliminateDominated then (Reduction.identity g).exhaust
      else Reduction.identity g) := by
  split_ifs
  · exact (Reduction.sound_identity hg).exhaust hg
  · exact Reduction.sound_identity hg

/-- **Elimination changes no report.**  With unusable settings both solves fail alike, having reported
nothing; otherwise both report the extreme equilibria of the whole game, each once, and the same
groups of them up to order. -/
theorem record_same_rows (ask : String → ProgramOutcome) (s : Settings) (g : Game) (places : ℕ)
    (hexact : Method.ofSettings s = .exact) (hcliques : s.reportCliques = true) (hg : g.Valid)
    (htwo : g.numPlayers = 2) :
    (∃ f, s.validate = .error f ∧ ∀ b,
      record ask { s with eliminateDominated := b } g places = (.error (.setting f), [])) ∨
    (s.validate = .ok () ∧ ∃ (n c : ℕ) (rows rows' : List Row),
      record ask { s with eliminateDominated := false } g places =
        (.ok (.enumeration n (some c)), rows) ∧
      record ask { s with eliminateDominated := true } g places =
        (.ok (.enumeration n (some c)), rows') ∧
      ListsExtreme g places n c rows ∧ ListsExtreme g places n c rows' ∧
      (cellsUnder rows "NE").Perm (cellsUnder rows' "NE") ∧
      (convexSets rows c).Perm (convexSets rows' c)) := by
  cases hsettings : s.validate with
  | error f =>
    refine Or.inl ⟨f, rfl, fun b => ?_⟩
    -- validation does not look at the switch for elimination
    have hreduce : reduce { s with eliminateDominated := b } g = .error (.setting f) := by
      have hsame : Settings.validate { s with eliminateDominated := b } = .error f := hsettings
      simp only [reduce, hsame]
    simp only [record, solve, hreduce]
    rfl
  | ok u =>
    -- both reductions are sound, so either report shows the equilibria of the whole game
    have hreport := fun b => exists_report (s := { s with eliminateDominated := b }) ask places hexact
      hcliques (reduce_eq hsettings hg) (sound_reduce _ hg) hg htwo
    obtain ⟨whole, groups, rows, hrun, hshows, hnodup, hmem, hclasses⟩ := hreport false
    obtain ⟨whole', groups', rows', hrun', hshows', hnodup', hmem', hclasses'⟩ := hreport true
    have hsame : ∀ z, z ∈ whole ↔ z ∈ whole' := fun z => (hmem z).trans (hmem' z).symm
    have hwhole : whole.Perm whole' := (List.perm_ext_iff_of_nodup hnodup hnodup').mpr hsame
    have hgroups := hclasses.perm hclasses' hsame
    have hc : groups.length = groups'.length := by
      have hlength := hgroups.length_eq
      rwa [List.length_map, List.length_map] at hlength
    have hlists := hshows.listsExtreme htwo hnodup hmem hclasses
    have hlists' := hshows'.listsExtreme htwo hnodup' hmem' hclasses'
    rw [← hwhole.length_eq, ← hc] at hrun' hlists'
    refine Or.inr ⟨rfl, _, _, rows, rows', hrun, hrun', hlists, hlists', ?_, ?_⟩
    · rw [hshows.whole, hshows'.whole]
      exact hwhole.map _
    · rw [hshows.convexSets_eq, hc, hshows'.convexSets_eq]
      exact hgroups.map _

/-- The standard settings, but with components reported. -/
def grouping : Settings := { Settings.standard with reportCliques := true }

/-- There is no external program. -/
def noProgram : String → ProgramOutcome := fun _ => .notStarted "not found"

theorem record_same_rows_dilemma :
    Method.ofSettings grouping = .exact ∧ grouping.reportCliques = true ∧ Game.dilemma.Valid ∧
      Game.dilemma.numPlayers = 2 ∧
      ((∃ f, grouping.validate = .error f ∧ ∀ b,
        record noProgram { grouping with eliminateDominated := b } Game.dilemma 6 =
          (.error (.setting f), [])) ∨
      (grouping.validate = .ok () ∧ ∃ (n c : ℕ) (rows rows' : List Row),
        record noProgram { grouping with eliminateDominated := false } Game.dilemma 6 =
          (.ok (.enumeration n (some c)), rows) ∧
        record noProgram { grouping with eliminateDominated := true } Game.dilemma 6 =
          (.ok (.enumeration n (some c)), rows') ∧
        ListsExtreme Game.dilemma 6 n c rows ∧ ListsExtreme Game.dilemma 6 n c rows' ∧
        (cellsUnder rows "NE").Perm (cellsUnder rows' "NE") ∧
        (convexSets rows c).Perm (convexSets rows' c))) :=
  ⟨rfl, rfl, Game.valid_dilemma, rfl,
    record_same_rows noProgram grouping Game.dilemma 6 rfl rfl Game.valid_dilemma rfl⟩

end Solver

end Equilibria
