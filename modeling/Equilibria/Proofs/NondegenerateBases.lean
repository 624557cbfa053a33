import Mathlib
import Equilibria.Proofs.ComplementaryBases

/-!
# Nondegenerate polytopes

In a nondegenerate polytope no vertex carries more labels than it needs.  Then bases and vertices are
the same thing:

* `Capped.Nondegenerate` — every vertex has as many tight rows as coordinates in use;
* `Polytope.used` — the columns that are not zero at a point;
* `Polytope.Represents.length_labels` — the number of labels, counted from zeros and tight rows;
* `Polytope.Represents.mem_bases_iff` — the feasible bases are the columns used by the vertices;
* `Polytope.split_used_iff` — and complementary bases are vertices with all labels;
* `Capped.Nondegenerate.partner_unique` — a vertex has at most one partner to complete its labels.
-/

namespace Equilibria

open Matrix
open Finset (range univ)

namespace Bimatrix

variable {δ κ : Type*} [Fintype δ] [Fintype κ] {C : Matrix κ δ ℚ} {D : Matrix δ κ ℚ} {q : κ → ℚ}

theorem complementary_zero (C : Matrix κ δ ℚ) (D : Matrix δ κ ℚ) : Complementary C D 0 0 :=
  ⟨fun _ => Or.inl rfl, fun _ => Or.inl rfl⟩

/-- Only the origin completes the labels of the origin. -/
theorem Complementary.eq_zero (h : Complementary C D 0 q) : q = 0 := by
  funext j
  refine (h.2 j).resolve_right ?_
  rw [mulVec_zero]
  exact zero_ne_one

end Bimatrix

/-! ### As many tight rows as coordinates in use -/

namespace Capped

variable {δ κ : Type*} [Fintype δ] [Fintype κ]

/-- Whether every vertex has as many tight rows as coordinates that are not zero. -/
def Nondegenerate (C : Matrix κ δ ℚ) : Prop :=
  ∀ z ∈ (capped C).extremePoints ℚ,
    (univ.filter fun j => (C *ᵥ z) j = 1).card = (univ.filter fun i => z i ≠ 0).card

variable {C : Matrix κ δ ℚ} {D : Matrix δ κ ℚ} {p : δ → ℚ} {q q' : κ → ℚ}

theorem tight_of_used (h : Bimatrix.Complementary C D p q) :
    (univ.filter fun j => q j ≠ 0) ⊆ univ.filter fun j => (C *ᵥ p) j = 1 := by
  intro j hj
  rw [Finset.mem_filter_univ] at hj ⊢
  exact (h.2 j).resolve_left hj

/-- **Two vertices with all labels use equally many coordinates.** -/
theorem Nondegenerate.card_used_eq (hC : Nondegenerate C) (hD : Nondegenerate D)
    (hp : p ∈ (capped C).extremePoints ℚ) (hq : q ∈ (capped D).extremePoints ℚ)
    (h : Bimatrix.Complementary C D p q) :
    (univ.filter fun i => p i ≠ 0).card = (univ.filter fun j => q j ≠ 0).card := by
  have hfirst := Finset.card_le_card (tight_of_used h)
  have hsecond := Finset.card_le_card (tight_of_used h.swap)
  rw [hC p hp] at hfirst
  rw [hD q hq] at hsecond
  exact le_antisymm hsecond hfirst

/-- The tight rows of the one vertex are the coordinates that the other one uses. -/
theorem Nondegenerate.tight_iff_used (hC : Nondegenerate C) (hD : Nondegenerate D)
    (hp : p ∈ (capped C).extremePoints ℚ) (hq : q ∈ (capped D).extremePoints ℚ)
    (h : Bimatrix.Complementary C D p q) (j : κ) : (C *ᵥ p) j = 1 ↔ q j ≠ 0 := by
  have heq := Finset.eq_of_subset_of_card_le (tight_of_used h)
    ((hC p hp).trans (hC.card_used_eq hD hp hq h)).le
  have hmem := Finset.ext_iff.mp heq j
  rw [Finset.mem_filter_univ, Finset.mem_filter_univ] at hmem
  exact hmem.symm

/-- **The other vertex is determined** by the one and all labels. -/
theorem Nondegenerate.partner_unique (hC : Nondegenerate C) (hD : Nondegenerate D)
    (hp : p ∈ (capped C).extremePoints ℚ) (hq : q ∈ (capped D).extremePoints ℚ)
    (hq' : q' ∈ (capped D).extremePoints ℚ) (h : Bimatrix.Complementary C D p q)
    (h' : Bimatrix.Complementary C D p q') : q = q' := by
  have hused := hC.tight_iff_used hD hp hq h
  have hused' := hC.tight_iff_used hD hp hq' h'
  have htight := hD.tight_iff_used hC hq hp h.swap
  have htight' := hD.tight_iff_used hC hq' hp h'.swap
  refine eq_of_labels hq' (fun j hj => ?_) fun i hi => ?_
  · by_contra hne
    exact (hused' j).mp ((hused j).mpr hne) hj
  · exact (htight i).mpr ((htight' i).mp hi)

end Capped

namespace Polytope

/-! ### The number of labels -/

section Places

variable {β : Type} {P : β → Bool} {bs : List β}

theorem nodup_placesWhere (P : β → Bool) (bs : List β) : (placesWhere P bs).Nodup :=
  (List.nodup_zipIdx_map_snd bs).sublist (List.filter_sublist.map _)

theorem length_placesWhere {n : ℕ} {Q : Fin n → Prop} [DecidablePred Q]
    (hlength : bs.length = n) (hQ : ∀ i : Fin n, i.val ∈ placesWhere P bs ↔ Q i) :
    (placesWhere P bs).length = (univ.filter Q).card := by
  rw [← List.toFinset_card_of_nodup (nodup_placesWhere P bs), ← Finset.card_map Fin.valEmbedding]
  congr 1
  ext i
  rw [List.mem_toFinset, Finset.mem_map]
  constructor
  · intro hi
    obtain ⟨hlt, -⟩ := (mem_placesWhere P bs).mp hi
    exact ⟨⟨i, hlength ▸ hlt⟩, (Finset.mem_filter_univ _).mpr ((hQ _).mp hi), rfl⟩
  · rintro ⟨i, hi, rfl⟩
    exact (hQ i).mpr ((Finset.mem_filter_univ _).mp hi)

end Places

variable {k d : ℕ} {r : Polytope ℚ} {M : Matrix (Fin k) (Fin d) ℚ} {z z' : Fin d → ℚ}

/-- **A point has a label for every zero and for every tight row.** -/
theorem Represents.length_labels (h : r.Represents M) (z : Fin d → ℚ) :
    (r.labels (List.ofFn z)).length =
      (univ.filter fun i => z i = 0).card + (univ.filter fun j => (M *ᵥ z) j = 1).card := by
  have hzeros : (placesWhere Scalar.isNegligible (List.ofFn z)).length =
      (univ.filter fun i => z i = 0).card := by
    refine length_placesWhere List.length_ofFn fun i => ?_
    rw [mem_placesWhere]
    simp only [List.length_ofFn, List.getElem_ofFn, Scalar.isNegligible_iff, i.isLt, exists_true_left]
  have htight : (placesWhere (fun row => Scalar.isNegligible (slack row (List.ofFn z)))
      r.constraints).length = (univ.filter fun j => (M *ᵥ z) j = 1).card := by
    refine length_placesWhere h.numConstraints fun j => ?_
    have hj : j.val < r.constraints.length := h.numConstraints.symm ▸ j.isLt
    rw [mem_placesWhere, exists_prop_of_true hj]
    exact h.slack_eq_zero_iff z hj
  unfold labels
  rw [(perm_ascending _).length_eq, List.length_append, List.length_map, List.length_map, hzeros,
    htight]

/-- With as many labels on every vertex as there are coordinates, the polytope is nondegenerate. -/
theorem Represents.nondegenerate (h : r.Represents M)
    (hlabels : ∀ z ∈ (capped M).extremePoints ℚ, (r.labels (List.ofFn z)).length = d) :
    Capped.Nondegenerate M := by
  intro z hz
  have hcount := hlabels z hz
  have hall : (univ.filter fun i => z i = 0).card + (univ.filter fun i => z i ≠ 0).card =
      (univ : Finset (Fin d)).card := Finset.card_filter_add_card_filter_not _
  rw [h.length_labels] at hcount
  rw [Finset.card_univ, Fintype.card_fin] at hall
  omega

/-! ### Columns in use -/

/-- The columns that are not zero at a point: coordinates, and slacks of rows. -/
def used (M : Matrix (Fin k) (Fin d) ℚ) (z : Fin d → ℚ) : Finset ℕ :=
  (univ.filter fun i => z i ≠ 0).map Fin.valEmbedding ∪
    (univ.filter fun j => (M *ᵥ z) j ≠ 1).map (Fin.valEmbedding.trans (addLeftEmbedding d))

theorem mem_used {c : ℕ} : c ∈ used M z ↔
    (∃ i : Fin d, z i ≠ 0 ∧ i.val = c) ∨ ∃ j : Fin k, (M *ᵥ z) j ≠ 1 ∧ d + j = c := by
  simp [used]

theorem coordinate_mem_used (i : Fin d) : i.val ∈ used M z ↔ z i ≠ 0 := by
  rw [mem_used]
  constructor
  · rintro (⟨i', hi', heq⟩ | ⟨j, -, heq⟩)
    · rwa [← Fin.ext heq]
    · omega
  · exact fun hi => Or.inl ⟨i, hi, rfl⟩

theorem slack_mem_used (j : Fin k) : d + j ∈ used M z ↔ (M *ᵥ z) j ≠ 1 := by
  rw [mem_used]
  constructor
  · rintro (⟨i, -, heq⟩ | ⟨j', hj', heq⟩)
    · omega
    · rwa [← Fin.ext (Nat.add_left_cancel heq)]
  · exact fun hj => Or.inr ⟨j, hj, rfl⟩

theorem card_used (h : Capped.Nondegenerate M) (hz : z ∈ (capped M).extremePoints ℚ) :
    (used M z).card = k := by
  have hdisjoint : Disjoint ((univ.filter fun i => z i ≠ 0).map Fin.valEmbedding)
      ((univ.filter fun j => (M *ᵥ z) j ≠ 1).map (Fin.valEmbedding.trans (addLeftEmbedding d))) := by
    rw [Finset.disjoint_left]
    intro c hc hc'
    obtain ⟨i, -, rfl⟩ := Finset.mem_map.mp hc
    obtain ⟨j, -, heq⟩ := Finset.mem_map.mp hc'
    have hge : d + j.val = i.val := heq
    omega
  have hall : (univ.filter fun j => (M *ᵥ z) j = 1).card + (univ.filter fun j => (M *ᵥ z) j ≠ 1).card =
      (univ : Finset (Fin k)).card := Finset.card_filter_add_card_filter_not _
  rw [used, Finset.card_union_of_disjoint hdisjoint, Finset.card_map, Finset.card_map, ← h z hz, hall,
    Finset.card_univ, Fintype.card_fin]

/-- A vertex is known by the columns that it uses. -/
theorem eq_of_used_eq (hz : z ∈ (capped M).extremePoints ℚ) (hsame : used M z = used M z') :
    z' = z := by
  refine Capped.eq_of_labels hz (fun i hi => ?_) fun j hj => ?_
  · by_contra hne
    rw [← Ne, ← coordinate_mem_used (M := M), ← hsame, coordinate_mem_used] at hne
    exact hne hi
  · by_contra hne
    rw [← Ne, ← slack_mem_used, ← hsame, slack_mem_used] at hne
    exact hne hj

/-- **Complementary columns are all labels.** -/
theorem split_used_iff {m n : ℕ} {C : Matrix (Fin n) (Fin m) ℚ} {D : Matrix (Fin m) (Fin n) ℚ}
    {p : Fin m → ℚ} {q : Fin n → ℚ} :
    Split m n (used C p) (used D q) ↔ Bimatrix.Complementary C D p q := by
  constructor
  · rintro ⟨hrows, hcolumns⟩
    refine ⟨fun i => ?_, fun j => ?_⟩
    · rw [or_iff_not_imp_left, ← Ne, ← coordinate_mem_used (M := C)]
      intro hi
      have hnot := hrows i i.isLt hi
      rwa [slack_mem_used, not_not] at hnot
    · rw [or_iff_not_imp_left, ← Ne, ← coordinate_mem_used (M := D)]
      intro hj
      have hnot := hcolumns j j.isLt hj
      rwa [slack_mem_used, not_not] at hnot
  · rintro ⟨hrows, hcolumns⟩
    refine ⟨fun i hi hmem => ?_, fun j hj hmem => ?_⟩
    · rw [coordinate_mem_used (M := C) ⟨i, hi⟩] at hmem
      rw [slack_mem_used (M := D) ⟨i, hi⟩, not_not]
      exact (hrows ⟨i, hi⟩).resolve_left hmem
    · rw [coordinate_mem_used (M := D) ⟨j, hj⟩] at hmem
      rw [slack_mem_used (M := C) ⟨j, hj⟩, not_not]
      exact (hcolumns ⟨j, hj⟩).resolve_left hmem

/-! ### Bases and vertices -/

/-- The point of a tableau, by all its columns. -/
structure IsCorner (t : Tableau ℚ) (M : Matrix (Fin k) (Fin d) ℚ) (z : Fin d → ℚ) : Prop where
  coordinate : ∀ i : Fin d, z i = t.basicSolution i
  slack : ∀ j : Fin k, (M *ᵥ z) j = 1 - t.basicSolution (d + j)

theorem IsCorner.ne_zero_of_used {t : Tableau ℚ} (h : IsCorner t M z) {c : ℕ} (hc : c ∈ used M z) :
    t.basicSolution c ≠ 0 := by
  rcases mem_used.mp hc with ⟨i, hi, rfl⟩ | ⟨j, hj, rfl⟩
  · rwa [← h.coordinate]
  · intro hzero
    rw [h.slack, hzero, sub_zero] at hj
    exact hj rfl

/-- Every vertex is the point of a solved tableau. -/
theorem Represents.exists_tableau (h : r.Represents M) (hz : z ∈ (capped M).extremePoints ℚ) :
    ∃ t : Tableau ℚ, t.Solved r ∧ IsCorner t M z := by
  obtain ⟨t, ht, hcorner⟩ : ∃ t : Tableau ℚ, t.Solved r ∧ ∀ i : Fin d, z i = t.basicSolution i := by
    obtain ⟨hpositive, rfl, rfl, hcoefficient⟩ := h
    obtain rfl : r.system = M := by
      ext j i
      exact hcoefficient j i
    obtain ⟨-, S, -, -, -, hexplored⟩ := vertices_eq hpositive
    obtain ⟨t, ht, rfl⟩ := hexplored.exists_corner_eq hpositive hz
    exact ⟨t, hexplored.solved t ht, fun i => rfl⟩
  obtain ⟨z', -, hcoordinate, hslack⟩ := h.exists_corner ht
  obtain rfl : z = z' := funext fun i => (hcorner i).trans (hcoordinate i).symm
  exact ⟨t, ht, hcoordinate, hslack⟩

variable {t : Tableau ℚ}

/-- In a nondegenerate polytope the basis is what the vertex uses. -/
theorem Represents.basis_eq_used (h : r.Represents M) (hM : Capped.Nondegenerate M)
    (hz : z ∈ (capped M).extremePoints ℚ) (ht : t.Solved r) (hcorner : IsCorner t M z) :
    t.basis.toFinset = used M z := by
  refine (Finset.eq_of_subset_of_card_le (fun c hc => ?_) ?_).symm
  · rw [List.mem_toFinset]
    by_contra hnot
    exact hcorner.ne_zero_of_used hc (Tableau.spread_of_notMem _ hnot)
  · rw [ht.card_basis, h.numConstraints, card_used hM hz]

/-- Without ties the right sides are positive, and stay so when they are perturbed. -/
theorem Represents.feasible (h : r.Represents M) (hM : Capped.Nondegenerate M)
    (hz : z ∈ (capped M).extremePoints ℚ) (ht : t.Solved r) (hcorner : IsCorner t M z) :
    (Tableau.lexicographic r).Feasible t := by
  intro e he
  obtain ⟨s, hs, rfl⟩ := (Tableau.mem_iff_row t).mp he
  have hused : (t.row s).basic ∈ used M z := by
    rw [← h.basis_eq_used hM hz ht hcorner, List.mem_toFinset]
    exact (Tableau.mem_basis_iff t).mpr ⟨s, hs, rfl⟩
  have hne := hcorner.ne_zero_of_used hused
  rw [Tableau.basicSolution, ht.solves.spread_basic _ hs] at hne
  apply (Tableau.lexicographic r).pos_of_sum_pos
  rw [← ht.rhs_eq_sum hs]
  exact lt_of_le_of_ne (ht.rhs_nonneg s hs) hne.symm

/-- **The feasible bases of a nondegenerate polytope are the columns that its vertices use.** -/
theorem Represents.mem_bases_iff (h : r.Represents M) (hM : Capped.Nondegenerate M) {T : Finset ℕ} :
    T ∈ (Tableau.lexicographic r).bases ↔ ∃ z ∈ (capped M).extremePoints ℚ, used M z = T := by
  rw [Tableau.Perturbation.mem_bases]
  constructor
  · rintro ⟨t, ht, -, rfl⟩
    obtain ⟨z, hz, hcoordinate, hslack⟩ := h.exists_corner ht
    exact ⟨z, hz, (h.basis_eq_used hM hz ht ⟨hcoordinate, hslack⟩).symm⟩
  · rintro ⟨z, hz, rfl⟩
    obtain ⟨t, ht, hcorner⟩ := h.exists_tableau hz
    exact ⟨t, ht, h.feasible hM hz ht hcorner, h.basis_eq_used hM hz ht hcorner⟩

end Polytope

end Equilibria
