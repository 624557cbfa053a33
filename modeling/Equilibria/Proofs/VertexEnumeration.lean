import Mathlib
import Equilibria.Proofs.Capped
import Equilibria.Proofs.ObjectiveAscent
import Equilibria.Proofs.PivotSearch

/-!
# The vertices of a polytope

The enumeration lists the extreme points of `{ z ≥ 0 : C z ≤ 1 }`, each once, whenever all
coefficients are positive:

* `exists_search`, `vertices_eq` — the search succeeds, and the points it lists are those of a family
  of solved tableaux that holds the origin and is closed under the steps of the ratio test;
* `Tableau.Solved.corner_mem` — the point of a solved tableau is extreme;
* `Tableau.Explored.exists_corner_eq` — an extreme point is the point of a tableau of such a family,
  since it alone maximizes the objective that charges for every label it carries;
* `mem_vertices` — hence the points listed are the extreme points.
-/

namespace Equilibria

open Matrix
open Finset (range)

/-! ### What the search notes -/

namespace Search

theorem samePoint_iff {x y : List ℚ} (h : x.length = y.length) : samePoint x y = true ↔ x = y := by
  induction x generalizing y with
  | nil =>
    obtain rfl : y = [] := List.length_eq_zero_iff.mp h.symm
    simp [samePoint]
  | cons a x ih =>
    cases y with
    | nil => exact absurd h (Nat.succ_ne_zero _)
    | cons b y =>
      have hlen : x.length = y.length := Nat.succ.inj h
      rw [List.cons.injEq, ← ih hlen, ← Scalar.approxEq_iff]
      exact Bool.and_eq_true_iff

theorem any_samePoint_iff {points : List (List ℚ)} {x : List ℚ}
    (hlength : ∀ y ∈ points, y.length = x.length) :
    (points.any fun known => samePoint known x) = true ↔ x ∈ points := by
  rw [List.any_eq_true]
  constructor
  · rintro ⟨known, hmem, hsame⟩
    rwa [← (samePoint_iff (hlength known hmem)).mp hsame]
  · intro hmem
    exact ⟨x, hmem, (samePoint_iff rfl).mpr rfl⟩

theorem length_of_mem_notes {d : ℕ} {ts : List (Tableau ℚ)} {x : List ℚ} (hx : x ∈ notes d ts) :
    x.length = d := by
  induction ts with
  | nil => exact absurd hx List.not_mem_nil
  | cons t ts ih =>
    rw [notes] at hx
    split_ifs at hx with hknown
    · exact ih hx
    · rcases List.mem_cons.mp hx with rfl | hx
      · exact Tableau.length_point d t
      · exact ih hx

theorem any_notes_iff (d : ℕ) (t : Tableau ℚ) (ts : List (Tableau ℚ)) :
    ((notes d ts).any fun known => samePoint known (t.point d)) = true ↔ t.point d ∈ notes d ts :=
  any_samePoint_iff fun _ hy => (length_of_mem_notes hy).trans (Tableau.length_point d t).symm

theorem mem_notes {d : ℕ} {ts : List (Tableau ℚ)} {x : List ℚ} :
    x ∈ notes d ts ↔ ∃ t ∈ ts, t.point d = x := by
  induction ts with
  | nil => simp [notes]
  | cons t ts ih =>
    rw [List.exists_mem_cons_iff, ← ih, notes]
    split_ifs with hknown
    · rw [any_notes_iff] at hknown
      constructor
      · exact Or.inr
      · rintro (rfl | hx)
        · exact hknown
        · exact hx
    · rw [List.mem_cons, eq_comm]

theorem nodup_notes (d : ℕ) (ts : List (Tableau ℚ)) : (notes d ts).Nodup := by
  induction ts with
  | nil => exact List.nodup_nil
  | cons t ts ih =>
    rw [notes]
    split_ifs with hknown
    · exact ih
    · rw [any_notes_iff] at hknown
      exact List.nodup_cons.mpr ⟨hknown, ih⟩

end Search

/-! ### The set that a polytope stands for -/

namespace Polytope

variable {p : Polytope ℚ}

/-- The coefficients as a matrix. -/
def system (p : Polytope ℚ) : Matrix (Fin p.numConstraints) (Fin p.dimension) ℚ :=
  Matrix.of fun j i => p.coefficient j i

/-- The set `{ z ≥ 0 : C z ≤ 1 }`. -/
def body (p : Polytope ℚ) : Set (Fin p.dimension → ℚ) := capped p.system

/-- The values of all columns for given coordinates. -/
def columns (p : Polytope ℚ) (x : Fin p.dimension → ℚ) : ℕ → ℚ :=
  Tableau.completion p fun c => if h : c < p.dimension then x ⟨c, h⟩ else 0

theorem solution_columns (x : Fin p.dimension → ℚ) : p.Solution (p.columns x) :=
  Tableau.solution_completion p _

theorem columns_coordinate (x : Fin p.dimension → ℚ) (i : Fin p.dimension) :
    p.columns x i = x i := by
  simp [columns, Tableau.completion]

theorem columns_slack (x : Fin p.dimension → ℚ) (j : Fin p.numConstraints) :
    p.columns x (p.dimension + j) = 1 - (p.system *ᵥ x) j := by
  have hsum : ∑ i ∈ range p.dimension,
      p.coefficient j i * (if h : i < p.dimension then x ⟨i, h⟩ else 0) = (p.system *ᵥ x) j := by
    rw [Finset.sum_range]
    simp [Matrix.mulVec, dotProduct, system]
  unfold columns Tableau.completion
  rw [if_neg (by omega), Nat.add_sub_cancel_left, hsum]

/-- Columns are coordinates or slacks, or not there at all. -/
theorem forall_columns_iff {P : ℕ → Prop} :
    (∀ c < p.width, P c) ↔ (∀ i : Fin p.dimension, P i) ∧
      ∀ j : Fin p.numConstraints, P (p.dimension + j) := by
  constructor
  · intro h
    exact ⟨fun i => h i (Nat.lt_add_right _ i.isLt), fun j => h _ (Nat.add_lt_add_left j.isLt _)⟩
  · rintro ⟨hcoord, hslack⟩ c hc
    rcases Nat.lt_or_ge c p.dimension with hlt | hge
    · exact hcoord ⟨c, hlt⟩
    · have hj : c - p.dimension < p.numConstraints := by
        unfold width at hc
        omega
      have h := hslack ⟨c - p.dimension, hj⟩
      rwa [show p.dimension + (c - p.dimension) = c by omega] at h

theorem columns_of_ge (x : Fin p.dimension → ℚ) {c : ℕ} (hc : p.width ≤ c) : p.columns x c = 1 := by
  have hrow : p.constraints.getD (c - p.dimension) [] = [] := by
    apply List.getD_eq_default
    unfold width numConstraints at hc
    omega
  unfold columns Tableau.completion
  rw [if_neg (by unfold width at hc; omega), Finset.sum_eq_zero, sub_zero]
  intro i _
  rw [coefficient, hrow, List.getD_nil, zero_mul]

theorem mem_body_iff (x : Fin p.dimension → ℚ) : x ∈ p.body ↔ ∀ c, 0 ≤ p.columns x c := by
  have hwidth : (∀ c, 0 ≤ p.columns x c) ↔ ∀ c < p.width, 0 ≤ p.columns x c := by
    constructor
    · exact fun h c _ => h c
    · intro h c
      rcases Nat.lt_or_ge c p.width with hlt | hge
      · exact h c hlt
      · rw [columns_of_ge x hge]
        exact zero_le_one
  rw [hwidth, forall_columns_iff]
  simp only [columns_coordinate, columns_slack, sub_nonneg]
  exact Iff.rfl

/-- A solution is determined by its coordinates. -/
theorem Solution.eq_columns {z : ℕ → ℚ} (hz : p.Solution z) {c : ℕ} (hc : c < p.width) :
    z c = p.columns (fun i => z i) c := by
  revert c
  rw [forall_columns_iff]
  refine ⟨fun i => (columns_coordinate (fun i => z i) i).symm, fun j => ?_⟩
  have hrow := hz j j.isLt
  rw [Finset.sum_range] at hrow
  rw [columns_slack]
  show z (p.dimension + j) = 1 - ∑ i : Fin p.dimension, p.coefficient j i * z i
  linarith

end Polytope

/-! ### The points of solved tableaux -/

namespace Tableau

variable {p : Polytope ℚ} {t : Tableau ℚ}

/-- The point of a tableau as a vector. -/
def corner (p : Polytope ℚ) (t : Tableau ℚ) : Fin p.dimension → ℚ := fun i => t.basicSolution i

theorem Solved.point_eq (h : t.Solved p) : t.point p.dimension = List.ofFn (corner p t) := by
  apply List.ext_getElem
  · rw [length_point, List.length_ofFn]
  · intro i hi hi'
    have hlt : i < p.dimension := by rwa [length_point] at hi
    rw [List.getElem_ofFn, ← List.getD_eq_getElem _ 0 hi, h.getD_point hlt]
    rfl

theorem Solved.columns_corner (h : t.Solved p) {c : ℕ} (hc : c < p.width) :
    p.columns (corner p t) c = t.basicSolution c :=
  (h.solves.solution_basicSolution.eq_columns hc).symm

/-- **The point of a solved tableau is extreme.**  A direction that keeps its labels changes no
column off the basis, hence, row by row, none on it. -/
theorem Solved.corner_mem (h : t.Solved p) : corner p t ∈ p.body.extremePoints ℚ := by
  refine Capped.mem_extremePoints_iff.mpr ⟨?_, fun u hzero hone => ?_⟩
  · refine (p.mem_body_iff _).mpr fun c => ?_
    rcases Nat.lt_or_ge c p.width with hlt | hge
    · rw [h.columns_corner hlt]
      exact h.basicSolution_nonneg c
    · rw [Polytope.columns_of_ge _ hge]
      exact zero_le_one
  · have hoff : ∀ c < p.width, c ∉ t.basis → p.columns u c = p.columns 0 c := by
      rw [Polytope.forall_columns_iff]
      constructor
      · intro i hi
        rw [p.columns_coordinate, p.columns_coordinate, hzero i (spread_of_notMem _ hi)]
        rfl
      · intro j hj
        have hslack : p.columns (corner p t) (p.dimension + j) = 0 := by
          rw [h.columns_corner (Nat.add_lt_add_left j.isLt _)]
          exact spread_of_notMem _ hj
        rw [p.columns_slack] at hslack
        rw [p.columns_slack, p.columns_slack, hone j (by linarith), mulVec_zero]
        rfl
    have hall : p.columns u = p.columns 0 := by
      refine h.solves.eq_of_off_basis (p.solution_columns u) (p.solution_columns 0) fun c hc => ?_
      rcases Nat.lt_or_ge c p.width with hlt | hge
      · exact hoff c hlt hc
      · rw [p.columns_of_ge _ hge, p.columns_of_ge _ hge]
    funext i
    rw [← p.columns_coordinate u i, hall, p.columns_coordinate]

/-- An objective that charges one for every column that is zero at a point. -/
def charge (p : Polytope ℚ) (v : Fin p.dimension → ℚ) (c : ℕ) : ℚ :=
  if p.columns v c = 0 then -1 else 0

/-- **No extreme point is missed.**  It costs nothing to be at the point, so the optimal tableau
costs nothing either and has all labels of the point. -/
theorem Explored.exists_corner_eq {S : Set (Tableau ℚ)} (h : Explored p S) (hp : p.Positive)
    {v : Fin p.dimension → ℚ} (hv : v ∈ p.body.extremePoints ℚ) : ∃ t ∈ S, corner p t = v := by
  obtain ⟨t, ht, hoptimal⟩ := h.exists_optimal hp (charge p v)
  have hcost := hoptimal (p.columns v) (p.solution_columns v) ((p.mem_body_iff v).mp hv.1)
  have hfree : ∑ c ∈ range p.width, charge p v c * p.columns v c = 0 := by
    apply Finset.sum_eq_zero
    intro c _
    by_cases hc : p.columns v c = 0
    · rw [hc, mul_zero]
    · simp [charge, hc]
  have hterm : ∀ c ∈ range p.width, charge p v c * t.basicSolution c ≤ 0 := by
    intro c _
    have hnonneg := (h.solved t ht).basicSolution_nonneg c
    by_cases hc : p.columns v c = 0
    · simpa [charge, hc] using hnonneg
    · simp [charge, hc]
  rw [hfree] at hcost
  have hzero : ∀ c < p.width, p.columns v c = 0 → p.columns (corner p t) c = 0 := by
    intro c hc hvc
    have heq := (Finset.sum_eq_zero_iff_of_nonpos hterm).mp
      (le_antisymm (Finset.sum_nonpos hterm) hcost) c (Finset.mem_range.mpr hc)
    rw [(h.solved t ht).columns_corner hc]
    simpa [charge, hvc] using heq
  rw [Polytope.forall_columns_iff] at hzero
  refine ⟨t, ht, Capped.eq_of_labels hv (fun i hi => ?_) fun j hj => ?_⟩
  · have h := hzero.1 i
    rw [p.columns_coordinate, p.columns_coordinate] at h
    exact h hi
  · have h := hzero.2 j
    rw [p.columns_slack, p.columns_slack] at h
    linarith [h (by linarith)]

end Tableau

/-! ### The enumeration -/

namespace Polytope

variable {p : Polytope ℚ}

/-- The enumeration lists what the search has found. -/
theorem vertices_of_explore {s : Search ℚ} (hexplore :
    Search.explore p.width p.dimension (2 ^ p.width) (Search.start p) = .ok s) :
    p.vertices = .ok ⟨s.found.reverse, s.visited.length⟩ := by
  have hrun : Search.explore (p.dimension + p.numConstraints) p.dimension
      (Nat.pow 2 (p.dimension + p.numConstraints)) (Search.start p) = .ok s := hexplore
  simp only [vertices, hrun]

/-- **The search succeeds** with an empty stack, and has explored the tableaux it took from it. -/
theorem exists_search (hp : p.Positive) : ∃ (s : Search ℚ) (S : List (Tableau ℚ)),
    Search.explore p.width p.dimension (2 ^ p.width) (Search.start p) = .ok s ∧
      p.vertices = .ok ⟨s.found.reverse, s.visited.length⟩ ∧ s.stack = [] ∧
      Search.Tracks (Tableau.Solved p) p.dimension S s ∧ Tableau.Explored p {t | t ∈ S} := by
  have hmoves : ∀ t : Tableau ℚ, t.Solved p → ∀ m ∈ Search.moves p.width t,
      ∃ next, t.pivot m.1 m.2 = .ok next ∧ next.Solved p := by
    rintro t ht ⟨row, col⟩ hm
    obtain ⟨hcol, -, hrow⟩ := Search.mem_moves.mp hm
    exact ⟨t.pivotRows row col, Tableau.pivot_eq t row col, ht.pivotRows hcol hrow⟩
  have hstart : Search.Tracks (Tableau.Solved p) p.dimension [] (Search.start p) := by
    refine ⟨fun t ht => ?_, List.Perm.refl _, List.nodup_singleton _, rfl⟩
    obtain rfl : t = Tableau.origin p := List.mem_singleton.mp ht
    exact Tableau.solved_origin hp
  obtain ⟨s, S, hexplore, hempty, htracks, hclosed, hsub⟩ :=
    hstart.explore (fun t ht => ht.nodup_basis_and_lt) hmoves (2 ^ p.width) (fun t ht => absurd ht List.not_mem_nil) (by simp)
  have hsolved : ∀ t ∈ S, t.Solved p := fun t ht => htracks.good t (List.mem_append_left _ ht)
  have hseen : ∀ t : Tableau ℚ, t.Solved p → t.key ∈ s.visited → ∃ t' ∈ S, t'.Perm t := by
    intro t ht hkey
    rw [← htracks.visited.mem_iff, hempty, List.append_nil] at hkey
    obtain ⟨t', ht', heq⟩ := List.mem_map.mp hkey
    exact ⟨t', ht', (hsolved t' ht').perm_of_key ht heq⟩
  refine ⟨s, S, hexplore, vertices_of_explore hexplore, hempty, htracks, List.finite_toSet S, hsolved,
    ?_, ?_⟩
  · exact hseen _ (Tableau.solved_origin hp) (hsub List.mem_cons_self)
  · intro t ht col hcol hbasis' row hrow
    refine hseen _ ((hsolved t ht).pivotRows hcol hrow) ?_
    exact hclosed t ht (row, col) (Search.mem_moves.mpr ⟨hcol, hbasis', hrow⟩) _
      (Tableau.pivot_eq t row col)

/-- The points listed are those of a family of tableaux that the search has explored. -/
theorem vertices_eq (hp : p.Positive) : ∃ (vs : VertexSet ℚ) (S : List (Tableau ℚ)),
    p.vertices = .ok vs ∧ vs.points.Nodup ∧
      (∀ x, x ∈ vs.points ↔ ∃ t ∈ S, t.point p.dimension = x) ∧ Tableau.Explored p {t | t ∈ S} := by
  obtain ⟨s, S, -, hok, -, htracks, hexplored⟩ := exists_search hp
  refine ⟨_, S, hok, ?_, fun x => ?_, hexplored⟩
  · rw [List.nodup_reverse, htracks.found]
    exact Search.nodup_notes _ _
  · rw [List.mem_reverse, htracks.found]
    exact Search.mem_notes

/-- **The enumeration lists the extreme points**, each once. -/
theorem mem_vertices (hp : p.Positive) : ∃ vs : VertexSet ℚ, p.vertices = .ok vs ∧ vs.points.Nodup ∧
    ∀ x, x ∈ vs.points ↔ ∃ z ∈ p.body.extremePoints ℚ, x = List.ofFn z := by
  obtain ⟨vs, S, hok, hnodup, hmem, hexplored⟩ := vertices_eq hp
  refine ⟨vs, hok, hnodup, fun x => ?_⟩
  rw [hmem]
  constructor
  · rintro ⟨t, ht, rfl⟩
    have hsolved := hexplored.solved t ht
    exact ⟨_, hsolved.corner_mem, hsolved.point_eq⟩
  · rintro ⟨z, hz, rfl⟩
    obtain ⟨t, ht, rfl⟩ := hexplored.exists_corner_eq hp hz
    exact ⟨t, ht, (hexplored.solved t ht).point_eq⟩

end Polytope

end Equilibria
