import Mathlib
import Equilibria.Enumeration
import Equilibria.Proofs.GamePolytopes
import Equilibria.Proofs.TwoPlayers

/-!
# Labels

The labels of a point of a polytope, and what two vertices with all labels between them are:

* `Polytope.Represents` — a polytope with the coefficients of a matrix;
* `Polytope.Represents.mem_labels` — its labels are the zero coordinates and the tight rows;
* `Polytope.matching_iff` — two vertices make an equilibrium exactly when neither is the origin and
  every strategy of either player is a label of one of them.
-/

namespace Equilibria

open Matrix
open Finset (range)

namespace Polytope

theorem mem_placesWhere {β : Type} (P : β → Bool) (bs : List β) {i : ℕ} :
    i ∈ placesWhere P bs ↔ ∃ h : i < bs.length, P bs[i] = true := by
  unfold placesWhere
  constructor
  · intro hi
    obtain ⟨entry, hentry, rfl⟩ := List.mem_map.mp hi
    obtain ⟨hmem, hP⟩ := List.mem_filter.mp hentry
    obtain ⟨hlt, heq⟩ := List.mem_zipIdx_iff_getElem?.mp hmem |> List.getElem?_eq_some_iff.mp
    exact ⟨hlt, heq ▸ hP⟩
  · rintro ⟨hlt, hP⟩
    refine List.mem_map.mpr ⟨(bs[i], i), List.mem_filter.mpr ⟨?_, hP⟩, rfl⟩
    rw [List.mem_zipIdx_iff_getElem?]
    exact List.getElem?_eq_getElem hlt

theorem slack_eq {row point : List ℚ} (h : row.length = point.length) :
    slack row point = 1 - ∑ i ∈ range row.length, row.getD i 0 * point.getD i 0 := by
  have hfold : ∀ (vs : List ℚ) (rest : ℚ),
      vs.foldl (fun rest v => rest - v) rest = rest - vs.sum := by
    intro vs
    induction vs with
    | nil => simp
    | cons v vs ih =>
      intro rest
      rw [List.foldl_cons, ih, List.sum_cons, sub_sub]
  unfold slack
  rw [← sum_zipWith_mul h]
  exact hfold _ 1

/-! ### Polytopes of matrices -/

variable {k d : ℕ}

/-- A polytope is that of a matrix with positive entries. -/
structure Represents (r : Polytope ℚ) (M : Matrix (Fin k) (Fin d) ℚ) : Prop where
  positive : r.Positive
  numConstraints : r.numConstraints = k
  dimension : r.dimension = d
  coefficient : ∀ (j : Fin k) (i : Fin d), r.coefficient j i = M j i

variable {r : Polytope ℚ} {M : Matrix (Fin k) (Fin d) ℚ}

theorem Represents.pos (h : r.Represents M) (j : Fin k) (i : Fin d) : 0 < M j i := by
  rw [← h.coefficient]
  exact h.positive.coefficient_pos (h.numConstraints ▸ j.isLt) (h.dimension ▸ i.isLt)

/-- The vertices of a matrix's polytope are listed, each once. -/
theorem Represents.mem_vertices (h : r.Represents M) : ∃ vs : VertexSet ℚ, r.vertices = .ok vs ∧
    vs.points.Nodup ∧ ∀ x, x ∈ vs.points ↔ ∃ z ∈ (capped M).extremePoints ℚ, x = List.ofFn z := by
  obtain ⟨hpositive, rfl, rfl, hcoefficient⟩ := h
  have hsystem : r.system = M := by
    ext j i
    exact hcoefficient j i
  have hvertices := Polytope.mem_vertices hpositive
  unfold body at hvertices
  rwa [hsystem] at hvertices

theorem Represents.slack_eq_zero_iff (h : r.Represents M) (z : Fin d → ℚ) {j : ℕ}
    (hj : j < r.constraints.length) :
    Scalar.isNegligible (slack r.constraints[j] (List.ofFn z)) = true ↔
      (M *ᵥ z) ⟨j, h.numConstraints ▸ hj⟩ = 1 := by
  have hlength : r.constraints[j].length = d := by
    rw [h.positive.rectangular _ (List.getElem_mem hj), h.dimension]
  have hjk : j < k := by
    rw [← h.numConstraints]
    exact hj
  have hrow : ∑ i ∈ range d, r.constraints[j].getD i 0 * (List.ofFn z).getD i 0 =
      (M *ᵥ z) ⟨j, hjk⟩ := by
    rw [Finset.sum_range]
    refine Finset.sum_congr rfl fun i _ => ?_
    show _ = M ⟨j, hjk⟩ i * z i
    rw [← h.coefficient, Polytope.coefficient, List.getD_eq_getElem _ _ hj,
      List.getD_eq_getElem (List.ofFn z) _ (by simp), List.getElem_ofFn]
  rw [Scalar.isNegligible_iff, slack_eq (by rw [hlength, List.length_ofFn]), hlength, hrow,
    sub_eq_zero]
  exact eq_comm

/-- **The labels of a point** are its zero coordinates and its tight rows. -/
theorem Represents.mem_labels (h : r.Represents M) (z : Fin d → ℚ) {l : ℕ} :
    l ∈ r.labels (List.ofFn z) ↔ (∃ i : Fin d, z i = 0 ∧ r.ownOffset + i = l) ∨
      ∃ j : Fin k, (M *ᵥ z) j = 1 ∧ r.opponentOffset + j = l := by
  unfold labels
  rw [mem_ascending, List.mem_append, List.mem_map, List.mem_map]
  simp only [mem_placesWhere]
  refine or_congr ?_ ?_
  · constructor
    · rintro ⟨i, ⟨hlt, hzero⟩, rfl⟩
      have hi : i < d := by simpa using hlt
      rw [List.getElem_ofFn, Scalar.isNegligible_iff] at hzero
      exact ⟨⟨i, hi⟩, hzero, rfl⟩
    · rintro ⟨i, hzero, rfl⟩
      refine ⟨i, ⟨by simp, ?_⟩, rfl⟩
      rwa [List.getElem_ofFn, Scalar.isNegligible_iff]
  · constructor
    · rintro ⟨j, ⟨hlt, hslack⟩, rfl⟩
      exact ⟨⟨j, h.numConstraints ▸ hlt⟩, (h.slack_eq_zero_iff z hlt).mp hslack, rfl⟩
    · rintro ⟨j, hone, rfl⟩
      have hlt : j.val < r.constraints.length := by
        show j.val < r.numConstraints
        rw [h.numConstraints]
        exact j.isLt
      exact ⟨j, ⟨hlt, (h.slack_eq_zero_iff z hlt).mpr hone⟩, rfl⟩

end Polytope

/-! ### The polytopes of a game -/

/-- The raised payoffs of the first player, which bound the second player's polytope. -/
def Game.raisedRows (g : Game) : Matrix (Fin (g.numStrategies 0)) (Fin (g.numStrategies 1)) ℚ :=
  Bimatrix.raise g.rowPayoffs (g.shift 0)

/-- The raised payoffs of the second player, which bound the first player's polytope. -/
def Game.raisedColumns (g : Game) : Matrix (Fin (g.numStrategies 1)) (Fin (g.numStrategies 0)) ℚ :=
  Bimatrix.raise g.columnPayoffs (g.shift 1)

namespace Polytope

variable {g : Game}

theorem represents_first (h₁ : 0 < g.numStrategies 1) :
    (first g : Polytope ℚ).Represents g.raisedColumns where
  positive := positive_first h₁
  numConstraints := numConstraints_first g
  dimension := dimension_first h₁
  coefficient j i := coefficient_first i.isLt j.isLt

theorem represents_second (h₀ : 0 < g.numStrategies 0) :
    (second g : Polytope ℚ).Represents g.raisedRows where
  positive := positive_second h₀
  numConstraints := numConstraints_second g
  dimension := dimension_second h₀
  coefficient i j := coefficient_second i.isLt j.isLt

theorem allNegligible_ofFn_iff {n : ℕ} (z : Fin n → ℚ) :
    Scalar.allNegligible (List.ofFn z) = true ↔ z = 0 := by
  rw [Scalar.allNegligible_iff, List.forall_mem_ofFn_iff]
  exact funext_iff.symm

section Pair

variable (h₀ : 0 < g.numStrategies 0) (h₁ : 0 < g.numStrategies 1)
  (p : Fin (g.numStrategies 0) → ℚ) (q : Fin (g.numStrategies 1) → ℚ)

include h₁ in
theorem mem_labels_first (l : ℕ) : l ∈ (first g : Polytope ℚ).labels (List.ofFn p) ↔
    (∃ i : Fin (g.numStrategies 0), p i = 0 ∧ 0 + i.val = l) ∨
      ∃ j : Fin (g.numStrategies 1), (g.raisedColumns *ᵥ p) j = 1 ∧ g.numStrategies 0 + j = l :=
  (represents_first h₁).mem_labels p

include h₀ in
theorem mem_labels_second (l : ℕ) : l ∈ (second g : Polytope ℚ).labels (List.ofFn q) ↔
    (∃ j : Fin (g.numStrategies 1), q j = 0 ∧ g.numStrategies 0 + j = l) ∨
      ∃ i : Fin (g.numStrategies 0), (g.raisedRows *ᵥ q) i = 1 ∧ 0 + i.val = l :=
  (represents_second h₀).mem_labels q

include h₀ h₁ in
/-- **Two vertices carry all labels when every strategy is unused or a best response**: the labels
below the number of the first player's strategies are these strategies, the others the second's. -/
theorem isComplementary_iff : Vertex.isComplementary ((first g : Polytope ℚ).vertex (List.ofFn p))
    ((second g).vertex (List.ofFn q)) (first g : Polytope ℚ).numLabels = true ↔
      Bimatrix.Complementary g.raisedColumns g.raisedRows p q := by
  have hnumLabels : (first g : Polytope ℚ).numLabels = g.numStrategies 0 + g.numStrategies 1 := rfl
  rw [hnumLabels]
  simp only [Vertex.isComplementary, List.all_eq_true, Bool.or_eq_true, List.contains_iff_mem,
    List.mem_range, vertex, mem_labels_first h₁, mem_labels_second h₀]
  constructor
  · intro hall
    constructor
    · intro i
      rcases hall i (by omega) with (⟨i', hi', heq⟩ | ⟨j, -, heq⟩) | (⟨j, -, heq⟩ | ⟨i', hi', heq⟩)
      · obtain rfl : i' = i := Fin.ext (by omega)
        exact Or.inl hi'
      · omega
      · omega
      · obtain rfl : i' = i := Fin.ext (by omega)
        exact Or.inr hi'
    · intro j
      rcases hall (g.numStrategies 0 + j) (by omega) with
        (⟨i, -, heq⟩ | ⟨j', hj', heq⟩) | (⟨j', hj', heq⟩ | ⟨i, -, heq⟩)
      · omega
      · obtain rfl : j' = j := Fin.ext (by omega)
        exact Or.inr hj'
      · obtain rfl : j' = j := Fin.ext (by omega)
        exact Or.inl hj'
      · omega
  · rintro ⟨hrows, hcolumns⟩ l hl
    rcases Nat.lt_or_ge l (g.numStrategies 0) with hlt | hge
    · rcases hrows ⟨l, hlt⟩ with hi | hi
      · exact Or.inl (Or.inl ⟨⟨l, hlt⟩, hi, Nat.zero_add l⟩)
      · exact Or.inr (Or.inr ⟨⟨l, hlt⟩, hi, Nat.zero_add l⟩)
    · have hj : l - g.numStrategies 0 < g.numStrategies 1 := by omega
      rcases hcolumns ⟨l - g.numStrategies 0, hj⟩ with hc | hc
      · exact Or.inr (Or.inl ⟨⟨_, hj⟩, hc, Nat.add_sub_cancel' hge⟩)
      · exact Or.inl (Or.inr ⟨⟨_, hj⟩, hc, Nat.add_sub_cancel' hge⟩)

include h₀ h₁ in
/-- **Two vertices match when they are not the origin and carry all labels.** -/
theorem matching_iff : Solution.matching (first g : Polytope ℚ).numLabels
      ((first g).vertex (List.ofFn p)) ((second g).vertex (List.ofFn q)) = true ↔
    p ≠ 0 ∧ q ≠ 0 ∧ Bimatrix.Complementary g.raisedColumns g.raisedRows p q := by
  unfold Solution.matching
  rw [Bool.and_eq_true, Bool.and_eq_true, Bool.not_eq_true', Bool.not_eq_true', ← Bool.not_eq_true,
    ← Bool.not_eq_true, isComplementary_iff h₀ h₁, and_assoc]
  show (¬Scalar.allNegligible (List.ofFn p) = true ∧
    ¬Scalar.allNegligible (List.ofFn q) = true ∧ _) ↔ _
  rw [allNegligible_ofFn_iff, allNegligible_ofFn_iff]

end Pair

end Polytope

end Equilibria
