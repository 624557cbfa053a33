import Mathlib
import Equilibria.Proofs.ExtremeEquilibria
import Equilibria.Proofs.FeasibleBases

/-!
# Existence of equilibria

The enumeration never comes back empty.  Take a feasible basis of either polytope; together they are
complementary when no label has its column in both, so that the two vertices carry all labels.  The
slacks of both are such a pair, that of the origins, and complementary pairs are even in number:

* `Polytope.Represents.exists_vertex` — the vertex of a feasible basis, and its labels;
* `Polytope.Split`, `Polytope.Split.eq_slacks` — complementary bases, of which none or both are the
  slacks;
* `Polytope.exists_split_ne` — there is a pair beside that of the origins;
* `Polytope.exists_complementary` — hence two vertices with all labels, none of them the origin;
* `Solution.find_nonempty` — some equilibrium is always listed;
* `Solution.find_isEmpty_steep`, `Solution.find_not_isNash_nearTie` — in doubles there may be none, or
  one that is none.

Ties of degenerate games do not matter, since the bases are those of perturbed right sides.
-/

namespace Equilibria

open Matrix
open Finset (range)

namespace Polytope

variable {k d : ℕ} {r : Polytope ℚ} {M : Matrix (Fin k) (Fin d) ℚ} {t : Tableau ℚ}

/-! ### The vertex of a basis -/

theorem Represents.width_eq (h : r.Represents M) : r.width = d + k := by
  rw [width, h.dimension, h.numConstraints]

theorem Represents.nonempty (h : r.Represents M) : 0 < k := h.numConstraints ▸ h.positive.nonempty

theorem Represents.exists_corner (h : r.Represents M) (ht : t.Solved r) :
    ∃ z ∈ (capped M).extremePoints ℚ, (∀ i : Fin d, z i = t.basicSolution i) ∧
      ∀ j : Fin k, (M *ᵥ z) j = 1 - t.basicSolution (d + j) := by
  obtain ⟨-, rfl, rfl, hcoefficient⟩ := h
  obtain rfl : r.system = M := by
    ext j i
    exact hcoefficient j i
  refine ⟨Tableau.corner r t, ht.corner_mem, fun i => rfl, fun j => ?_⟩
  rw [← ht.columns_corner (Nat.add_lt_add_left j.isLt _), columns_slack, sub_sub_cancel]

/-- **The vertex of a feasible basis** has the labels of the columns that are not basic.  It is the
origin only if the slacks are basic. -/
theorem Represents.exists_vertex (h : r.Represents M) {T : Finset ℕ}
    (hT : T ∈ (Tableau.lexicographic r).bases) :
    ∃ z ∈ (capped M).extremePoints ℚ, (∀ i : Fin d, i.val ∉ T → z i = 0) ∧
      (∀ j : Fin k, d + j ∉ T → (M *ᵥ z) j = 1) ∧ (z = 0 → T = Finset.Ico d (d + k)) := by
  obtain ⟨t, ht, -, rfl⟩ := (Tableau.Perturbation.mem_bases _).mp hT
  obtain ⟨z, hz, hcoordinate, hslack⟩ := h.exists_corner ht
  have hoff : ∀ c, c ∉ t.basis.toFinset → t.basicSolution c = 0 :=
    fun c hc => Tableau.spread_of_notMem _ fun hmem => hc (List.mem_toFinset.mpr hmem)
  refine ⟨z, hz, fun i hi => ?_, fun j hj => ?_, ?_⟩
  · rw [hcoordinate, hoff _ hi]
  · rw [hslack, hoff _ hj, sub_zero]
  · rintro rfl
    refine (Finset.eq_of_subset_of_card_le (fun c hc => ?_) ?_).symm
    · obtain ⟨hge, hlt⟩ := Finset.mem_Ico.mp hc
      by_contra hmem
      have hone := hslack ⟨c - d, by omega⟩
      rw [mulVec_zero, Nat.add_sub_cancel' hge, hoff c hmem, sub_zero] at hone
      exact zero_ne_one hone
    · rw [ht.card_basis, h.numConstraints, Nat.card_Ico, Nat.add_sub_cancel_left]

/-- The slacks are a feasible basis. -/
theorem Represents.slacks_mem (h : r.Represents M) :
    Finset.Ico d (d + k) ∈ (Tableau.lexicographic r).bases := by
  have horigin := Tableau.solved_origin h.positive
  refine (Tableau.Perturbation.mem_bases _).mpr ⟨Tableau.origin r, horigin,
    Tableau.Perturbation.feasible_origin _ h.positive, ?_⟩
  refine Finset.eq_of_subset_of_card_le (fun c hc => ?_) ?_
  · obtain ⟨j, hj, rfl⟩ := (Tableau.mem_basis_iff _).mp (List.mem_toFinset.mp hc)
    rw [Tableau.length_origin] at hj
    rw [Tableau.row_origin r hj, Finset.mem_Ico, ← h.dimension, ← h.numConstraints]
    exact ⟨Nat.le_add_right _ _, Nat.add_lt_add_left hj _⟩
  · rw [horigin.card_basis, h.numConstraints, Nat.card_Ico, Nat.add_sub_cancel_left]

theorem Represents.evenWalls (h : r.Represents M) :
    EvenWalls (range (d + k)) k (Tableau.lexicographic r).bases := by
  rw [← h.width_eq, ← h.numConstraints]
  exact (Tableau.lexicographic r).evenWalls h.positive

/-! ### Complementary bases -/

variable {m n : ℕ}

/-- Whether no label has its column in both of two bases: a coordinate of one polytope has the label
of a slack of the other. -/
def Split (m n : ℕ) (T S : Finset ℕ) : Prop :=
  (∀ i < m, i ∈ T → n + i ∉ S) ∧ ∀ j < n, j ∈ S → m + j ∉ T

instance (m n : ℕ) (T S : Finset ℕ) : Decidable (Split m n T S) :=
  inferInstanceAs (Decidable ((∀ i < m, i ∈ T → n + i ∉ S) ∧ ∀ j < n, j ∈ S → m + j ∉ T))

theorem Split.swap {T S : Finset ℕ} (h : Split m n T S) : Split n m S T := ⟨h.2, h.1⟩

/-- If one basis of a pair is that of the origin, so is the other. -/
theorem Split.eq_slacks {S : Finset ℕ} (h : Split m n (Finset.Ico m (m + n)) S)
    (hsub : S ⊆ range (n + m)) (hcard : S.card = m) : S = Finset.Ico n (n + m) := by
  refine Finset.eq_of_subset_of_card_le (fun c hc => ?_) ?_
  · have hlt := Finset.mem_range.mp (hsub hc)
    have hge : n ≤ c := by
      by_contra hcoordinate
      exact h.2 c (not_le.mp hcoordinate) hc (Finset.mem_Ico.mpr (by omega))
    exact Finset.mem_Ico.mpr ⟨hge, hlt⟩
  · rw [hcard, Nat.card_Ico, Nat.add_sub_cancel_left]

theorem split_slacks (m n : ℕ) : Split m n (Finset.Ico m (m + n)) (Finset.Ico n (n + m)) := by
  constructor
  · intro i hi hmem
    exact absurd (Finset.mem_Ico.mp hmem).1 (not_le.mpr hi)
  · intro j hj hmem
    exact absurd (Finset.mem_Ico.mp hmem).1 (not_le.mpr hj)

/-- The columns of one polytope of a pair as those of the other with the same labels. -/
def relabel (m n : ℕ) : Equiv.Perm ℕ where
  toFun c := if c < n then m + c else if c < n + m then c - n else c
  invFun c := if c < m then n + c else if c < m + n then c - m else c
  left_inv c := by
    dsimp only
    split_ifs <;> omega
  right_inv c := by
    dsimp only
    split_ifs <;> omega

theorem relabel_coordinate {j : ℕ} (hj : j < n) : relabel m n j = m + j := if_pos hj

theorem relabel_slack {i : ℕ} (hi : i < m) : relabel m n (n + i) = i := by
  show (if n + i < n then m + (n + i) else if n + i < n + m then n + i - n else n + i) = i
  rw [if_neg (by omega), if_pos (by omega), Nat.add_sub_cancel_left]

theorem map_range_relabel (m n : ℕ) :
    (range (n + m)).map (relabel m n).toEmbedding = range (m + n) := by
  refine Finset.eq_of_subset_of_card_le (fun c hc => ?_) ?_
  · obtain ⟨b, hb, rfl⟩ := Finset.mem_map.mp hc
    rw [Finset.mem_range] at hb ⊢
    show (if b < n then m + b else if b < n + m then b - n else b) < m + n
    split_ifs <;> omega
  · rw [Finset.card_map, Finset.card_range, Finset.card_range, Nat.add_comm]

theorem split_iff_disjoint {T S : Finset ℕ} (hS : S ⊆ range (n + m)) :
    Split m n T S ↔ Disjoint T (S.map (relabel m n).toEmbedding) := by
  rw [Finset.disjoint_right]
  constructor
  · rintro ⟨hrows, hcolumns⟩ c hc hcT
    obtain ⟨b, hb, rfl⟩ := Finset.mem_map.mp hc
    rcases Nat.lt_or_ge b n with hlt | hge
    · refine hcolumns b hlt hb ?_
      rwa [← relabel_coordinate hlt]
    · obtain ⟨i, rfl⟩ := Nat.exists_eq_add_of_le hge
      have hi : i < m := by
        have := Finset.mem_range.mp (hS hb)
        omega
      refine hrows i hi ?_ hb
      rwa [← relabel_slack hi]
  · intro hdisjoint
    constructor
    · intro i hi hiT hiS
      refine hdisjoint (Finset.mem_map_of_mem _ hiS) ?_
      rwa [Equiv.coe_toEmbedding, relabel_slack hi]
    · intro j hj hjS hjT
      refine hdisjoint (Finset.mem_map_of_mem _ hjS) ?_
      rwa [Equiv.coe_toEmbedding, relabel_coordinate hj]

/-! ### A pair beside the origins -/

variable {P Q : Polytope ℚ} {C : Matrix (Fin n) (Fin m) ℚ} {D : Matrix (Fin m) (Fin n) ℚ}

/-- **Complementary pairs of feasible bases are even in number.** -/
theorem even_card_split (hP : P.Represents C) (hQ : Q.Represents D) :
    Even {e ∈ (Tableau.lexicographic P).bases ×ˢ (Tableau.lexicographic Q).bases |
      Split m n e.1 e.2}.card := by
  have hG := hQ.evenWalls.map (relabel m n)
  rw [map_range_relabel] at hG
  have heven := even_card_disjoint hP.evenWalls hG (by rw [Finset.card_range, Nat.add_comm])
    (Finset.mem_range.mpr (Nat.lt_add_left m hP.nonempty))
  rw [← Finset.map_refl (s := (Tableau.lexicographic P).bases), ← Finset.prodMap_map_product,
    Finset.filter_map, Finset.card_map] at heven
  refine (congrArg (fun pairs : Finset _ => Even pairs.card) (Finset.filter_congr ?_)).mpr heven
  intro e he
  exact split_iff_disjoint (hQ.evenWalls.subset _ (Finset.mem_product.mp he).2)

/-- **Some complementary pair of feasible bases is not that of the origins**, because the pairs are
even in number. -/
theorem exists_split_ne (hP : P.Represents C) (hQ : Q.Represents D) :
    ∃ T ∈ (Tableau.lexicographic P).bases, ∃ S ∈ (Tableau.lexicographic Q).bases,
      Split m n T S ∧ ¬(T = Finset.Ico m (m + n) ∧ S = Finset.Ico n (n + m)) := by
  have heven := even_card_split hP hQ
  set pairs := {e ∈ (Tableau.lexicographic P).bases ×ˢ (Tableau.lexicographic Q).bases |
    Split m n e.1 e.2}
  have horigins : (Finset.Ico m (m + n), Finset.Ico n (n + m)) ∈ pairs := by
    refine Finset.mem_filter.mpr ⟨Finset.mem_product.mpr ⟨hP.slacks_mem, hQ.slacks_mem⟩, ?_⟩
    exact split_slacks m n
  -- an even number of pairs that is not zero leaves another one
  have hmany : 1 < pairs.card := by
    have hpos := Finset.card_pos.mpr ⟨_, horigins⟩
    obtain ⟨c, hc⟩ := heven
    omega
  obtain ⟨⟨T, S⟩, hmem, hne⟩ :=
    Finset.exists_mem_ne hmany (Finset.Ico m (m + n), Finset.Ico n (n + m))
  obtain ⟨hproduct, hsplit⟩ := Finset.mem_filter.mp hmem
  obtain ⟨hT, hS⟩ := Finset.mem_product.mp hproduct
  refine ⟨T, hT, S, hS, hsplit, ?_⟩
  rintro ⟨rfl, rfl⟩
  exact hne rfl

/-- **Two vertices other than the origin carry all labels.** -/
theorem exists_complementary (hP : P.Represents C) (hQ : Q.Represents D) :
    ∃ p ∈ (capped C).extremePoints ℚ, ∃ q ∈ (capped D).extremePoints ℚ,
      p ≠ 0 ∧ q ≠ 0 ∧ Bimatrix.Complementary C D p q := by
  obtain ⟨T, hT, S, hS, hsplit, hne⟩ := exists_split_ne hP hQ
  obtain ⟨p, hp, hpzero, hpone, hpslacks⟩ := hP.exists_vertex hT
  obtain ⟨q, hq, hqzero, hqone, hqslacks⟩ := hQ.exists_vertex hS
  refine ⟨p, hp, q, hq, ?_, ?_, ?_, ?_⟩
  · intro hzero
    obtain rfl := hpslacks hzero
    exact hne ⟨rfl, hsplit.eq_slacks (hQ.evenWalls.subset S hS) (hQ.evenWalls.card S hS)⟩
  · intro hzero
    obtain rfl := hqslacks hzero
    exact hne ⟨hsplit.swap.eq_slacks (hP.evenWalls.subset T hT) (hP.evenWalls.card T hT), rfl⟩
  · intro i
    by_cases hi : i.val ∈ T
    · exact Or.inr (hqone i (hsplit.1 i i.isLt hi))
    · exact Or.inl (hpzero i hi)
  · intro j
    by_cases hj : j.val ∈ S
    · exact Or.inr (hpone j (hsplit.2 j j.isLt hj))
    · exact Or.inl (hqzero j hj)

end Polytope

namespace Solution

/-- **The enumeration always finds an equilibrium**, degenerate games and players with a single
strategy included. -/
theorem find_nonempty (g : Game) (h : g.Valid) (htwo : g.numPlayers = 2) :
    ∃ s : Solution ℚ, find Polytope.vertices g = .ok s ∧ s.isEmpty = false := by
  have h₀ : 0 < g.numStrategies 0 := Game.numStrategies_pos h.accepted (by omega)
  have h₁ : 0 < g.numStrategies 1 := Game.numStrategies_pos h.accepted (by omega)
  obtain ⟨ps, qs, hfind, -, -, hps, hqs⟩ := exists_find htwo h.accepted
  obtain ⟨p, hp, q, hq, hp0, hq0, hlabels⟩ := Polytope.exists_complementary
    (Polytope.represents_first h₁) (Polytope.represents_second h₀)
  obtain ⟨i, hi⟩ := List.getElem?_of_mem ((hps _).mpr ⟨p, hp, rfl⟩)
  obtain ⟨j, hj⟩ := List.getElem?_of_mem ((hqs _).mpr ⟨q, hq, rfl⟩)
  have hmem := (mem_equilibria_iff (e := ⟨_, (i, j)⟩) h₀ h₁ hps hqs).mpr
    ⟨p, hp, q, hq, hp0, hq0, hlabels, hi, hj, rfl⟩
  refine ⟨_, hfind, ?_⟩
  unfold isEmpty
  rw [List.isEmpty_eq_false_iff]
  exact List.ne_nil_of_mem hmem

theorem find_nonempty_dilemma :
    Game.dilemma.Valid ∧ Game.dilemma.numPlayers = 2 ∧
      ∃ s : Solution ℚ, find Polytope.vertices Game.dilemma = .ok s ∧ s.isEmpty = false :=
  ⟨Game.valid_dilemma, rfl, find_nonempty Game.dilemma Game.valid_dilemma rfl⟩

end Solution

/-! ### Doubles -/

/-- A run of which something is seen has ended well. -/
theorem exists_ok_of_map {ε α β : Type} (run : Except ε α) (seen : α → β) {b : β}
    (h : run.toOption.map seen = some b) : ∃ a, run = .ok a ∧ seen a = b := by
  cases run with
  | error e => exact absurd h (by simp [Except.toOption])
  | ok a => exact ⟨a, rfl, Option.some.inj h⟩

/-- A single strategy against two, whose payoffs are a billion apart. -/
def Game.steep : Game :=
  ⟨"Steep", [⟨"Row", ["only"]⟩, ⟨"Column", ["low", "high"]⟩], [[0, 0], [0, 1000000000]], [1, 1]⟩

theorem Game.valid_steep : Game.steep.Valid where
  built := rfl
  accepted := rfl

/-- **The search in doubles may end well without any equilibrium.**  The vertex of the first player's
only strategy is so near the origin that the tolerance takes it for that. -/
theorem Solution.find_isEmpty_steep :
    Game.steep.Valid ∧ Game.steep.numPlayers = 2 ∧
      ∃ s : Solution Double, find Polytope.vertices Game.steep = .ok s ∧ s.isEmpty = true :=
  ⟨Game.valid_steep, rfl, exists_ok_of_map _ _ (by decide +kernel)⟩

/-- Three strategies against one, of which the last is nearly the best. -/
def Game.nearTie : Game :=
  ⟨"Near tie", [⟨"Row", ["low", "best", "good"]⟩, ⟨"Column", ["only"]⟩],
    [[0, 0], [100001, 0], [100000, 0]], [1, 3]⟩

theorem Game.valid_nearTie : Game.nearTie.Valid where
  built := rfl
  accepted := rfl

/-- **The search in doubles may return what is no equilibrium.**  The inequalities of the two good
strategies bound the same variable by numbers so near to each other that the tolerance takes both for
tight. -/
theorem Solution.find_not_isNash_nearTie :
    Game.nearTie.Valid ∧ Game.nearTie.numPlayers = 2 ∧
      ∃ s : Solution Double, find Polytope.vertices Game.nearTie = .ok s ∧
        ∃ x ∈ s.profiles, x.isNash Game.nearTie = false := by
  have hseen : (find (Polytope.vertices : VertexEnumerator Double) Game.nearTie).toOption.map
      (fun s => s.profiles.any fun x => !x.isNash Game.nearTie) = some true := by decide +kernel
  obtain ⟨s, hfind, hany⟩ := exists_ok_of_map _ _ hseen
  obtain ⟨x, hx, hnash⟩ := List.any_eq_true.mp hany
  exact ⟨Game.valid_nearTie, rfl, s, hfind, x, hx, by simpa using hnash⟩

end Equilibria
