import Mathlib
import Equilibria.Proofs.PureProfiles
import Equilibria.Proofs.VertexEnumeration

/-!
# The two polytopes of a game

A game of two players that passes `Game.validate` has two polytopes, and both satisfy what the
enumeration asks for: at least one inequality, all of one length, with positive coefficients, since
the payoffs are raised to at least one.

* `positive_first`, `positive_second` — the two polytopes are of that kind;
* `coefficient_first`, `coefficient_second` — their coefficients are the raised payoffs;
* `vertices_of_pair` — the vertices of both are listed exactly.
-/

namespace Equilibria

/-! ### The raised payoffs -/

namespace Game

variable {g : Game}

/-- What a player's payoffs are raised by in the polytopes. -/
def shift (g : Game) (k : ℕ) : ℚ := 1 - leastEntry (g.matrix k)

theorem leastEntry_le {m : List (List ℚ)} {row : List ℚ} {v : ℚ} (hrow : row ∈ m) (hv : v ∈ row) :
    leastEntry m ≤ v := by
  have hfold : ∀ (vs : List ℚ) (least : ℚ),
      vs.foldl (fun least v => if least ≤ v then least else v) least ≤ least ∧
        ∀ v ∈ vs, vs.foldl (fun least v => if least ≤ v then least else v) least ≤ v := by
    intro vs
    induction vs with
    | nil => simp
    | cons w ws ih =>
      intro least
      obtain ⟨hleast, hall⟩ := ih (if least ≤ w then least else w)
      have hmin : (if least ≤ w then least else w) ≤ least ∧
          (if least ≤ w then least else w) ≤ w := by
        split_ifs with h
        · exact ⟨le_rfl, h⟩
        · exact ⟨(not_le.mp h).le, le_rfl⟩
      refine ⟨hleast.trans hmin.1, fun v hv => ?_⟩
      rcases List.mem_cons.mp hv with rfl | hv
      · exact hleast.trans hmin.2
      · exact hall v hv
  have hmem : v ∈ m.flatten := List.mem_flatten.mpr ⟨row, hrow, hv⟩
  unfold leastEntry
  cases hflat : m.flatten with
  | nil => exact absurd (hflat ▸ hmem) List.not_mem_nil
  | cons w ws =>
    rw [hflat] at hmem
    rcases List.mem_cons.mp hmem with rfl | hmem
    · exact (hfold ws v).1
    · exact (hfold ws w).2 v hmem

theorem payoff_add_shift_pos {k i j : ℕ} (hi : i < g.numStrategies 0) (hj : j < g.numStrategies 1) :
    0 < g.payoff k [i, j] + g.shift k := by
  have hrow : (List.range (g.numStrategies 1)).map (fun c => g.payoff k [i, c]) ∈ g.matrix k :=
    List.mem_map.mpr ⟨i, List.mem_range.mpr hi, rfl⟩
  have hle := leastEntry_le hrow (List.mem_map.mpr ⟨j, List.mem_range.mpr hj, rfl⟩)
  unfold shift
  linarith

theorem getD_shifted {k i j : ℕ} (hi : i < g.numStrategies 0) (hj : j < g.numStrategies 1) :
    ((shifted (g.matrix k) : List (List ℚ)).getD i []).getD j 0 = g.payoff k [i, j] + g.shift k := by
  simp [shifted, matrix, List.getD_eq_getElem?_getD, hi, hj, Scalar.ofRational, shift]

end Game

/-! ### The polytopes -/

namespace Polytope

variable {g : Game}

theorem numConstraints_first (g : Game) :
    (first g : Polytope ℚ).numConstraints = g.numStrategies 1 := by
  simp [first, numConstraints, transposed]

theorem numConstraints_second (g : Game) :
    (second g : Polytope ℚ).numConstraints = g.numStrategies 0 := by
  simp [second, numConstraints, shifted, Game.matrix]

theorem dimension_first (h : 0 < g.numStrategies 1) :
    (first g : Polytope ℚ).dimension = g.numStrategies 0 := by
  simp [first, dimension, transposed, List.getD_eq_getElem?_getD, h]

theorem dimension_second (h : 0 < g.numStrategies 0) :
    (second g : Polytope ℚ).dimension = g.numStrategies 1 := by
  simp [second, dimension, shifted, Game.matrix, List.getD_eq_getElem?_getD, h]

/-- The first player's coefficients are the second player's payoffs. -/
theorem coefficient_first {i j : ℕ} (hi : i < g.numStrategies 0) (hj : j < g.numStrategies 1) :
    (first g : Polytope ℚ).coefficient j i = g.payoff 1 [i, j] + g.shift 1 := by
  rw [← Game.getD_shifted hi hj]
  simp [first, coefficient, transposed, List.getD_eq_getElem?_getD, hi, hj]

/-- The second player's coefficients are the first player's payoffs. -/
theorem coefficient_second {i j : ℕ} (hi : i < g.numStrategies 0) (hj : j < g.numStrategies 1) :
    (second g : Polytope ℚ).coefficient i j = g.payoff 0 [i, j] + g.shift 0 :=
  Game.getD_shifted hi hj

theorem positive_first (h₁ : 0 < g.numStrategies 1) : (first g : Polytope ℚ).Positive where
  nonempty := by rwa [numConstraints_first]
  rectangular := by
    rw [dimension_first h₁]
    intro row hrow
    obtain ⟨j, -, rfl⟩ := List.mem_map.mp hrow
    simp
  positive := by
    intro row hrow c hc
    obtain ⟨j, hj, rfl⟩ := List.mem_map.mp hrow
    obtain ⟨i, hi, rfl⟩ := List.mem_map.mp hc
    rw [Game.getD_shifted (List.mem_range.mp hi) (List.mem_range.mp hj)]
    exact Game.payoff_add_shift_pos (List.mem_range.mp hi) (List.mem_range.mp hj)

theorem positive_second (h₀ : 0 < g.numStrategies 0) : (second g : Polytope ℚ).Positive where
  nonempty := by rwa [numConstraints_second]
  rectangular := by
    rw [dimension_second h₀]
    intro row hrow
    simp only [second, shifted, Game.matrix, List.map_map, List.mem_map] at hrow
    obtain ⟨i, -, rfl⟩ := hrow
    simp
  positive := by
    intro row hrow c hc
    simp only [second, shifted, Game.matrix, List.map_map, List.mem_map, List.mem_range] at hrow
    obtain ⟨i, hi, rfl⟩ := hrow
    simp only [Function.comp_apply, List.map_map, List.mem_map, List.mem_range] at hc
    obtain ⟨j, hj, rfl⟩ := hc
    exact Game.payoff_add_shift_pos hi hj

theorem positive_of_mem (h₀ : 0 < g.numStrategies 0) (h₁ : 0 < g.numStrategies 1) :
    ∀ r ∈ ([first g, second g] : List (Polytope ℚ)), r.Positive := by
  intro r hr
  rcases List.mem_pair.mp hr with rfl | rfl
  · exact positive_first h₁
  · exact positive_second h₀

/-- Exact payoffs stay finite, so that two players always have two polytopes. -/
theorem pair_eq (h : g.numPlayers = 2) :
    (pair g : Except Failure (Polytope ℚ × Polytope ℚ)) = .ok (first g, second g) := by
  have hfinite : ∀ p : Polytope ℚ, p.isFinite = true := by
    intro p
    simp [isFinite, Scalar.isFinite]
  unfold pair
  rw [if_neg (by omega)]
  simp [hfinite]

/-- **The vertices of both polytopes are listed exactly**: the enumeration succeeds and lists the
extreme points of each, the origin among them, none twice. -/
theorem vertices_of_pair (g : Game) (htwo : g.numPlayers = 2) (hvalid : g.validate = .ok ()) :
    ∃ p q : Polytope ℚ, pair g = .ok (p, q) ∧
      ∀ r ∈ [p, q], ∃ vs : VertexSet ℚ, r.vertices = .ok vs ∧ vs.points.Nodup ∧
        (∀ x, x ∈ vs.points ↔ ∃ z ∈ r.body.extremePoints ℚ, x = List.ofFn z) ∧
        List.replicate r.dimension 0 ∈ vs.points := by
  have h₀ : 0 < g.numStrategies 0 := Game.numStrategies_pos hvalid (by omega)
  have h₁ : 0 < g.numStrategies 1 := Game.numStrategies_pos hvalid (by omega)
  refine ⟨first g, second g, pair_eq htwo, fun r hr => ?_⟩
  obtain ⟨vs, hok, hnodup, hmem⟩ := mem_vertices (positive_of_mem h₀ h₁ r hr)
  refine ⟨vs, hok, hnodup, hmem, (hmem _).mpr ⟨0, Capped.zero_mem_extremePoints _, ?_⟩⟩
  exact (List.ofFn_const _ 0).symm

theorem vertices_of_pair_dilemma :
    Game.dilemma.numPlayers = 2 ∧ Game.dilemma.validate = .ok () ∧
      ∃ p q : Polytope ℚ, pair Game.dilemma = .ok (p, q) ∧
        ∀ r ∈ [p, q], ∃ vs : VertexSet ℚ, r.vertices = .ok vs ∧ vs.points.Nodup ∧
          (∀ x, x ∈ vs.points ↔ ∃ z ∈ r.body.extremePoints ℚ, x = List.ofFn z) ∧
          List.replicate r.dimension 0 ∈ vs.points :=
  ⟨rfl, rfl, vertices_of_pair Game.dilemma rfl rfl⟩

end Polytope

end Equilibria
