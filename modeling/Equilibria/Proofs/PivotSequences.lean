import Mathlib
import Equilibria.Proofs.GamePolytopes

/-!
# Sequences of pivot steps

The tableaux that pivot steps lead to from the origin, whatever entering columns they choose and
whichever of the tied rows they take.  The enumeration follows only some of these sequences, since
it drops a tableau whose basis it has seen.  Nothing is lost by that:

* `Reached.solved` — every tableau reached is the system `C x + s = 1` solved for its basis;
* `Solved.exists_step_key`, `Solved.step_key_iff` — tableaux with one basis have steps to the same
  bases;
* `Polytope.exists_reached_search` — hence the bases seen are those of all tableaux reached, and the
  points found are theirs;
* `Polytope.reached_of_pair` — all this for the two polytopes of a game.
-/

namespace Equilibria

namespace Tableau

variable {p : Polytope ℚ} {t u next : Tableau ℚ}

/-! ### Single steps -/

/-- A pivot step of a column that is not basic, by a row that the ratio test allows. -/
def Step (p : Polytope ℚ) (t next : Tableau ℚ) : Prop :=
  ∃ row col, col < p.width ∧ col ∉ t.basis ∧ row ∈ t.leavingRows col ∧ t.pivot row col = .ok next

theorem step_iff : Step p t next ↔
    ∃ row col, col < p.width ∧ col ∉ t.basis ∧ row ∈ t.leavingRows col ∧
      t.pivotRows row col = next := by
  simp only [Step, pivot_eq, Except.ok.injEq]

/-- The steps are those that the search makes. -/
theorem step_iff_moves :
    Step p t next ↔ ∃ m ∈ Search.moves p.width t, t.pivot m.1 m.2 = .ok next := by
  constructor
  · intro ⟨row, col, hcol, hbasis, hrow, hpivot⟩
    exact ⟨(row, col), Search.mem_moves.mpr ⟨hcol, hbasis, hrow⟩, hpivot⟩
  · intro ⟨⟨row, col⟩, hm, hpivot⟩
    obtain ⟨hcol, hbasis, hrow⟩ := Search.mem_moves.mp hm
    exact ⟨row, col, hcol, hbasis, hrow, hpivot⟩

theorem Solved.step (h : t.Solved p) (hstep : Step p t next) : next.Solved p := by
  obtain ⟨row, col, hcol, -, hrow, rfl⟩ := step_iff.mp hstep
  exact h.pivotRows hcol hrow

/-! ### Steps from tableaux with one basis -/

/-- The rows of a tableau are found in every other one with its basis. -/
theorem Solved.exists_row_eq (h : t.Solved p) (hu : u.Solved p) (hkey : t.key = u.key) {r : ℕ}
    (hr : r < t.length) : ∃ r' < u.length, u.row r' = t.row r := by
  have hmem : t.row r ∈ u := (h.perm_of_key hu hkey).mem_iff.mp (row_mem t hr)
  obtain ⟨r', hr', heq⟩ := (mem_iff_row u).mp hmem
  exact ⟨r', hr', heq⟩

/-- **A step to some basis is a step to it from every tableau with the same basis**, by the row that
holds the same basic column there. -/
theorem Solved.exists_step_key (h : t.Solved p) (hu : u.Solved p) (hkey : t.key = u.key)
    (hstep : Step p t next) : ∃ next', Step p u next' ∧ next'.key = next.key := by
  obtain ⟨row, col, hcol, hbasis, hleave, rfl⟩ := step_iff.mp hstep
  obtain ⟨hrow, hpos, hleast⟩ := (mem_leavingRows_iff t col row).mp hleave
  obtain ⟨row', hrow', heq⟩ := h.exists_row_eq hu hkey hrow
  have hbasis' : col ∉ u.basis := mt (mem_basis_of_key hkey col).mpr hbasis
  have hleave' : row' ∈ u.leavingRows col := by
    refine (mem_leavingRows_iff u col row').mpr ⟨hrow', by rwa [heq], fun r hr hentry => ?_⟩
    obtain ⟨s, hs, hrow⟩ := hu.exists_row_eq h hkey.symm hr
    rw [heq, ← hrow]
    exact hleast s hs (by rwa [hrow])
  refine ⟨u.pivotRows row' col, step_iff.mpr ⟨row', col, hcol, hbasis', hleave', rfl⟩, ?_⟩
  apply ascending_eq_of_perm
  rw [List.perm_ext_iff_of_nodup (hu.pivotRows hcol hleave').solves.nodup_basis
    (h.pivotRows hcol hleave).solves.nodup_basis]
  intro b
  rw [hu.solves.mem_basis_pivotRows_iff hrow' col b, h.solves.mem_basis_pivotRows_iff hrow col b,
    heq, mem_basis_of_key hkey]

theorem Solved.step_key_iff (h : t.Solved p) (hu : u.Solved p) (hkey : t.key = u.key)
    (key : List ℕ) :
    (∃ next, Step p t next ∧ next.key = key) ↔ ∃ next, Step p u next ∧ next.key = key := by
  constructor
  · intro ⟨next, hstep, hnext⟩
    rw [← hnext]
    exact h.exists_step_key hu hkey hstep
  · intro ⟨next, hstep, hnext⟩
    rw [← hnext]
    exact hu.exists_step_key h hkey.symm hstep

/-- Tableaux with one basis have one point. -/
theorem Solved.point_eq_of_key (h : t.Solved p) (hu : u.Solved p) (hkey : t.key = u.key) :
    t.point p.dimension = u.point p.dimension := by
  have hperm := h.perm_of_key hu hkey
  have hsolution : t.basicSolution = u.basicSolution := by
    refine h.solves.eq_of_off_basis h.solves.solution_basicSolution
      hu.solves.solution_basicSolution fun c hc => ?_
    rw [basicSolution, basicSolution, spread_of_notMem _ hc,
      spread_of_notMem _ (mt (mem_basis_of_key hkey c).mpr hc)]
  have hcorner : corner p t = corner p u := funext fun i => congrFun hsolution i
  rw [h.point_eq, hu.point_eq, hcorner]

/-! ### Sequences of steps -/

/-- The tableaux that sequences of steps lead to from the origin. -/
def Reached (p : Polytope ℚ) : Tableau ℚ → Prop := Relation.ReflTransGen (Step p) (origin p)

/-- **Every tableau reached is solved.** -/
theorem Reached.solved (hp : p.Positive) (h : Reached p t) : t.Solved p := by
  induction h with
  | refl => exact solved_origin hp
  | tail _ hstep ih => exact ih.step hstep

end Tableau

/-! ### The search -/

namespace Polytope

open Tableau (Step Reached)

variable {p : Polytope ℚ}

/-- **The search sees the bases of all tableaux reached and no others**, and it finds their points.
A sequence of steps is followed step by step: its tableau may have been dropped, but then one with
the same basis was taken, and that has a step to the next basis. -/
theorem exists_reached_search (hp : p.Positive) : ∃ s : Search ℚ,
    Search.explore p.width p.dimension (2 ^ p.width) (Search.start p) = .ok s ∧
      p.vertices = .ok ⟨s.found.reverse, s.visited.length⟩ ∧
      (∀ key, key ∈ s.visited ↔ ∃ t, Reached p t ∧ t.key = key) ∧
      ∀ x, x ∈ s.found ↔ ∃ t, Reached p t ∧ t.point p.dimension = x := by
  have hmoves : ∀ t, Reached p t → ∀ m ∈ Search.moves p.width t,
      ∃ next, t.pivot m.1 m.2 = .ok next ∧ Reached p next := by
    intro t ht m hm
    have hpivot := Tableau.pivot_eq t m.1 m.2
    exact ⟨_, hpivot, ht.tail (Tableau.step_iff_moves.mpr ⟨m, hm, hpivot⟩)⟩
  have hstart : Search.Tracks (Reached p) p.dimension [] (Search.start p) := by
    refine ⟨fun t ht => ?_, List.Perm.refl _, List.nodup_singleton _, rfl⟩
    obtain rfl : t = Tableau.origin p := List.mem_singleton.mp ht
    exact Relation.ReflTransGen.refl
  obtain ⟨s, S, hexplore, hempty, htracks, hclosed, hsub⟩ :=
    hstart.explore (fun t ht => (ht.solved hp).nodup_basis_and_lt) hmoves (2 ^ p.width)
      (fun t ht => absurd ht List.not_mem_nil) (by simp)
  have hreached : ∀ t ∈ S, Reached p t := fun t ht => htracks.good t (List.mem_append_left _ ht)
  have hseen : ∀ key, key ∈ s.visited ↔ ∃ t ∈ S, t.key = key := by
    intro key
    rw [← htracks.visited.mem_iff, hempty, List.append_nil, List.mem_map]
  -- the induction is on the sequence of steps, the tableaux taken being closed up to their bases
  have htaken : ∀ t, Reached p t → ∃ t' ∈ S, t'.key = t.key := by
    intro t ht
    induction ht with
    | refl => exact (hseen _).mp (hsub List.mem_cons_self)
    | @tail t next ht hstep ih =>
      obtain ⟨t', ht', hkey⟩ := ih
      obtain ⟨next', hstep', hnext⟩ :=
        (Reached.solved hp ht).exists_step_key ((hreached t' ht').solved hp) hkey.symm hstep
      obtain ⟨m, hm, hpivot⟩ := Tableau.step_iff_moves.mp hstep'
      rw [← hnext]
      exact (hseen _).mp (hclosed t' ht' m hm next' hpivot)
  refine ⟨s, hexplore, vertices_of_explore hexplore, fun key => ?_, fun x => ?_⟩
  · rw [hseen]
    constructor
    · intro ⟨t, ht, hkey⟩
      exact ⟨t, hreached t ht, hkey⟩
    · intro ⟨t, ht, hkey⟩
      rw [← hkey]
      exact htaken t ht
  · rw [htracks.found, Search.mem_notes]
    constructor
    · intro ⟨t, ht, hpoint⟩
      exact ⟨t, hreached t ht, hpoint⟩
    · intro ⟨t, ht, hpoint⟩
      obtain ⟨t', ht', hkey⟩ := htaken t ht
      rw [← hpoint]
      exact ⟨t', ht', ((hreached t' ht').solved hp).point_eq_of_key (ht.solved hp) hkey⟩

/-- **Sequences of pivot steps on the polytopes of a game**, of any length.  What they reach is the
system of the polytope, solved for a basis whose solution is a point of the polytope, and any other
column can enter.  Tableaux with one basis differ in the order of their rows only, so that the search,
which keeps one of them, sees all bases and all points that can be reached. -/
theorem reached_of_pair (g : Game) (htwo : g.numPlayers = 2) (hvalid : g.validate = .ok ()) :
    ∃ p q : Polytope ℚ, pair g = .ok (p, q) ∧ ∀ r ∈ [p, q],
      (∀ t, Reached r t → t.Solved r ∧ (∃ x ∈ r.body, t.point r.dimension = List.ofFn x) ∧
        ∀ col < r.width, col ∉ t.basis → ∃ row, row ∈ t.leavingRows col) ∧
      (∀ t u, Reached r t → Reached r u → t.key = u.key →
        t.Perm u ∧ t.point r.dimension = u.point r.dimension ∧
        ∀ key, (∃ next, Step r t next ∧ next.key = key) ↔ ∃ next, Step r u next ∧ next.key = key) ∧
      ∃ s : Search ℚ,
        Search.explore r.width r.dimension (2 ^ r.width) (Search.start r) = .ok s ∧
        r.vertices = .ok ⟨s.found.reverse, s.visited.length⟩ ∧
        (∀ key, key ∈ s.visited ↔ ∃ t, Reached r t ∧ t.key = key) ∧
        ∀ x, x ∈ s.found ↔ ∃ t, Reached r t ∧ t.point r.dimension = x := by
  have h₀ : 0 < g.numStrategies 0 := Game.numStrategies_pos hvalid (by omega)
  have h₁ : 0 < g.numStrategies 1 := Game.numStrategies_pos hvalid (by omega)
  refine ⟨first g, second g, pair_eq htwo, fun r hr => ?_⟩
  have hp := positive_of_mem h₀ h₁ r hr
  refine ⟨fun t ht => ?_, fun t u ht hu hkey => ?_, exists_reached_search hp⟩
  · have hsolved := ht.solved hp
    exact ⟨hsolved, ⟨_, hsolved.corner_mem.1, hsolved.point_eq⟩,
      fun col hcol hbasis => hsolved.exists_leavingRow hp hcol hbasis⟩
  · have hsolved := ht.solved hp
    have hsolved' := hu.solved hp
    exact ⟨hsolved.perm_of_key hsolved' hkey, hsolved.point_eq_of_key hsolved' hkey,
      hsolved.step_key_iff hsolved' hkey⟩

theorem reached_of_pair_dilemma :
    Game.dilemma.numPlayers = 2 ∧ Game.dilemma.validate = .ok () ∧
      ∃ p q : Polytope ℚ, pair Game.dilemma = .ok (p, q) ∧ ∀ r ∈ [p, q],
        (∀ t, Reached r t → t.Solved r ∧ (∃ x ∈ r.body, t.point r.dimension = List.ofFn x) ∧
          ∀ col < r.width, col ∉ t.basis → ∃ row, row ∈ t.leavingRows col) ∧
        (∀ t u, Reached r t → Reached r u → t.key = u.key →
          t.Perm u ∧ t.point r.dimension = u.point r.dimension ∧
          ∀ key, (∃ next, Step r t next ∧ next.key = key) ↔
            ∃ next, Step r u next ∧ next.key = key) ∧
        ∃ s : Search ℚ,
          Search.explore r.width r.dimension (2 ^ r.width) (Search.start r) = .ok s ∧
          r.vertices = .ok ⟨s.found.reverse, s.visited.length⟩ ∧
          (∀ key, key ∈ s.visited ↔ ∃ t, Reached r t ∧ t.key = key) ∧
          ∀ x, x ∈ s.found ↔ ∃ t, Reached r t ∧ t.point r.dimension = x :=
  ⟨rfl, rfl, reached_of_pair Game.dilemma rfl rfl⟩

end Polytope

end Equilibria
