import Mathlib

/-!
# Families with even walls

A family of sets of one size has even walls when every set with one element more holds an even
number of its members.  The bases of a polytope without ties are such a family: a set of columns
with one column too many is an edge, and an edge has two ends or is none.

* `EvenWalls` — the families;
* `EvenWalls.map` — renaming the elements keeps the walls even;
* `even_card_disjoint` — two such families whose sizes add up to all elements have an even number of
  complementary members.

The count is the parity argument for complementary pivoting, without a path: fix an element and
count, in two ways, the pairs that miss being complementary there at most.
-/

namespace Equilibria

open Finset

variable {α β : Type*} [DecidableEq α] [DecidableEq β] {L : Finset α} {n m : ℕ}
  {F G : Finset (Finset α)} {v : α}

/-- A family of sets of `n` elements such that every set of one element more holds an even number
of them. -/
structure EvenWalls (L : Finset α) (n : ℕ) (F : Finset (Finset α)) : Prop where
  subset : ∀ T ∈ F, T ⊆ L
  card : ∀ T ∈ F, #T = n
  even : ∀ U ⊆ L, #U = n + 1 → Even #{T ∈ F | T ⊆ U}

/-- Renaming the elements keeps the walls even. -/
theorem EvenWalls.map (h : EvenWalls L n F) (e : α ≃ β) :
    EvenWalls (L.map e.toEmbedding) n (F.map (mapEmbedding e.toEmbedding).toEmbedding) where
  subset := by
    intro T' hT'
    obtain ⟨T, hT, rfl⟩ := mem_map.mp hT'
    exact map_subset_map.mpr (h.subset T hT)
  card := by
    intro T' hT'
    obtain ⟨T, hT, rfl⟩ := mem_map.mp hT'
    exact (card_map _).trans (h.card T hT)
  even := by
    intro U hU hcard
    obtain ⟨U, rfl⟩ : ∃ V : Finset α, U = V.map e.toEmbedding := by
      refine ⟨U.map e.symm.toEmbedding, ?_⟩
      ext x
      simp
    rw [card_map] at hcard
    rw [filter_map, card_map]
    convert h.even U (map_subset_map.mp hU) hcard using 3
    exact map_subset_map

/-! ### Counting pairs -/

/-- The pairs that have an element in common at most, and it in the first set, are even in number:
for a first set, the second lies in the complement and that element. -/
theorem even_card_touching (hF : EvenWalls L n F) (hG : EvenWalls L m G) (hcard : #L = n + m) :
    Even (∑ T ∈ F, ∑ S ∈ G, if v ∈ T ∧ T ∩ S ⊆ {v} then 1 else 0) := by
  refine even_sum _ fun T hT => ?_
  by_cases hv : v ∈ T
  · have hwall : ∀ S ∈ G, T ∩ S ⊆ {v} ↔ S ⊆ insert v (L \ T) := by
      intro S hS
      constructor
      · intro h x hx
        by_cases hxT : x ∈ T
        · rw [mem_singleton.mp (h (mem_inter.mpr ⟨hxT, hx⟩))]
          exact mem_insert_self _ _
        · exact mem_insert_of_mem (mem_sdiff.mpr ⟨hG.subset S hS hx, hxT⟩)
      · intro h x hx
        obtain ⟨hxT, hxS⟩ := mem_inter.mp hx
        rcases mem_insert.mp (h hxS) with rfl | hx
        · exact mem_singleton_self _
        · exact absurd hxT (mem_sdiff.mp hx).2
    have hsize : #(insert v (L \ T)) = m + 1 := by
      rw [card_insert_of_notMem fun h => (mem_sdiff.mp h).2 hv,
        card_sdiff_of_subset (hF.subset T hT), hF.card T hT, hcard]
      omega
    have hinside : insert v (L \ T) ⊆ L := insert_subset (hF.subset T hT hv) sdiff_subset
    rw [← card_filter, filter_congr fun S hS => (and_iff_right hv).trans (hwall S hS)]
    exact hG.even _ hinside hsize
  · simp [hv]

/-- **Complementary pairs are even in number.**  Count the pairs that meet in `v` at most with `v` in
the first set, and those with `v` in the second: a complementary pair is counted once, any other pair
twice or not at all. -/
theorem even_card_disjoint (hF : EvenWalls L n F) (hG : EvenWalls L m G) (hcard : #L = n + m)
    (hv : v ∈ L) : Even #{e ∈ F ×ˢ G | Disjoint e.1 e.2} := by
  have hcover : ∀ T ∈ F, ∀ S ∈ G, Disjoint T S → v ∈ T ∨ v ∈ S := by
    intro T hT S hS hdisjoint
    have hunion : T ∪ S = L := by
      refine eq_of_subset_of_card_le (union_subset (hF.subset T hT) (hG.subset S hS)) ?_
      rw [card_union_of_disjoint hdisjoint, hF.card T hT, hG.card S hS, hcard]
    rwa [← mem_union, hunion]
  have hpair : ∀ T ∈ F, ∀ S ∈ G,
      (if v ∈ T ∧ T ∩ S ⊆ {v} then 1 else 0) + (if v ∈ S ∧ S ∩ T ⊆ {v} then 1 else 0) =
        (if Disjoint T S then 1 else 0) + 2 * if T ∩ S = {v} then 1 else 0 := by
    intro T hT S hS
    have hmem : v ∈ T ∩ S ↔ v ∈ T ∧ v ∈ S := mem_inter
    rw [inter_comm S T]
    by_cases hdisjoint : Disjoint T S
    · -- a complementary pair covers `v` once
      have hempty : T ∩ S = ∅ := disjoint_iff_inter_eq_empty.mp hdisjoint
      have hboth : ¬(v ∈ T ∧ v ∈ S) := by rw [← hmem, hempty]; exact notMem_empty v
      have hone : (if v ∈ T then 1 else 0) + (if v ∈ S then 1 else 0) = 1 := by
        rcases hcover T hT S hS hdisjoint with hv | hv
        · rw [if_pos hv, if_neg fun h => hboth ⟨hv, h⟩]
        · rw [if_pos hv, if_neg fun h => hboth ⟨h, hv⟩]
      simpa [hdisjoint, hempty, (singleton_ne_empty v).symm] using hone
    · -- any other pair is counted on both sides or on neither
      have hne : T ∩ S ≠ ∅ := mt disjoint_iff_inter_eq_empty.mpr hdisjoint
      simp only [subset_singleton_iff, hne, false_or, if_neg hdisjoint, zero_add]
      by_cases hsingle : T ∩ S = {v}
      · obtain ⟨hvT, hvS⟩ := hmem.mp (hsingle ▸ mem_singleton_self v)
        simp [hsingle, hvT, hvS]
      · simp [hsingle]
  have htotal : (∑ T ∈ F, ∑ S ∈ G, if v ∈ T ∧ T ∩ S ⊆ {v} then 1 else 0) +
      (∑ S ∈ G, ∑ T ∈ F, if v ∈ S ∧ S ∩ T ⊆ {v} then 1 else 0) =
        #{e ∈ F ×ˢ G | Disjoint e.1 e.2} + 2 * ∑ T ∈ F, ∑ S ∈ G, if T ∩ S = {v} then 1 else 0 := by
    rw [sum_comm (s := G), card_filter, sum_product, mul_sum, ← sum_add_distrib, ← sum_add_distrib]
    refine sum_congr rfl fun T hT => ?_
    rw [mul_sum, ← sum_add_distrib, ← sum_add_distrib]
    exact sum_congr rfl fun S hS => hpair T hT S hS
  have heven := (even_card_touching (v := v) hF hG hcard).add
    (even_card_touching (v := v) hG hF (hcard.trans (Nat.add_comm n m)))
  rw [htotal] at heven
  exact (Nat.even_add.mp heven).mpr (even_two_mul _)

end Equilibria
