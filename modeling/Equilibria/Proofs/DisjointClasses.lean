import Mathlib
import Equilibria.Components

/-!
# Disjoint sets

A forest in which no parent is larger than its child has in every tree a root that is the least
member.  What the two operations do to such a forest is said by its roots:

* `DisjointSets.root` — the root of a number's tree;
* `Descending.find` — finding returns the root, and the shortcuts it makes move no number to another
  tree;
* `Descending.root_union`, `Descending.root_union_eq_iff` — joining gives the members of the one tree
  the root of the other, and moves nothing else.
-/

namespace Equilibria

namespace DisjointSets

/-- Whether no parent is larger than its child. -/
def Descending (s : DisjointSets) : Prop := ∀ x, s.parent x ≤ x

/-- The root of a number's tree. -/
def root (s : DisjointSets) (x : ℕ) : ℕ :=
  if _h : s.parent x < x then root s (s.parent x) else x
termination_by x

variable {s : DisjointSets} {a b g x : ℕ}

/-! ### Roots -/

theorem root_of_fixed (h : s.parent x = x) : s.root x = x := by
  rw [root, dif_neg (by omega)]

theorem Descending.root_parent (h : s.Descending) (x : ℕ) : s.root (s.parent x) = s.root x := by
  rcases (h x).lt_or_eq with hlt | heq
  · conv_rhs => rw [root]
    rw [dif_pos hlt]
  · rw [heq]

theorem root_le (s : DisjointSets) (x : ℕ) : s.root x ≤ x := by
  induction x using Nat.strong_induction_on with
  | _ x ih =>
    rw [root]
    split_ifs with hlt
    · exact (ih _ hlt).trans hlt.le
    · exact le_rfl

theorem Descending.parent_root (h : s.Descending) (x : ℕ) : s.parent (s.root x) = s.root x := by
  induction x using Nat.strong_induction_on with
  | _ x ih =>
    rcases (h x).lt_or_eq with hlt | heq
    · rw [← h.root_parent]
      exact ih _ hlt
    · rw [root_of_fixed heq, heq]

theorem Descending.root_root (h : s.Descending) (x : ℕ) : s.root (s.root x) = s.root x :=
  root_of_fixed (h.parent_root x)

theorem parent_singletons (n x : ℕ) : (singletons n).parent x = x := by
  unfold parent singletons
  rcases Nat.lt_or_ge x n with hlt | hge
  · simp [List.getD_eq_getElem?_getD, hlt]
  · exact List.getD_eq_default _ _ (by simpa using hge)

theorem descending_singletons (n : ℕ) : (singletons n).Descending :=
  fun x => (parent_singletons n x).le

/-! ### Changing a parent -/

/-- The forest with another parent for one number. -/
def hang (s : DisjointSets) (x g : ℕ) : DisjointSets := ⟨s.parents.set x g⟩

theorem length_hang (s : DisjointSets) (x g : ℕ) :
    (s.hang x g).parents.length = s.parents.length := List.length_set

theorem parent_hang (hx : x < s.parents.length) (g y : ℕ) :
    (s.hang x g).parent y = if y = x then g else s.parent y := by
  unfold parent hang
  rw [List.getD_eq_getElem?_getD, List.getD_eq_getElem?_getD, List.getElem?_set]
  split_ifs with h₁ h₂ h₂
  · rfl
  · exact absurd h₁.symm h₂
  · exact absurd h₂.symm h₁
  · rfl

theorem lt_length_of_parent_lt (h : s.parent x < x) : x < s.parents.length := by
  by_contra hge
  unfold parent at h
  rw [List.getD_eq_default _ _ (not_lt.mp hge)] at h
  exact lt_irrefl x h

theorem Descending.hang (h : s.Descending) (hx : x < s.parents.length) (hg : g ≤ x) :
    (s.hang x g).Descending := by
  intro y
  rw [parent_hang hx]
  split_ifs with heq
  · rwa [heq]
  · exact h y

/-- A parent closer to the root moves no number to another tree. -/
theorem Descending.root_hang_grandparent (h : s.Descending) (hlt : s.parent x < x) (y : ℕ) :
    (s.hang x (s.parent (s.parent x))).root y = s.root y := by
  have hx := lt_length_of_parent_lt hlt
  have hg : s.parent (s.parent x) < x := (h _).trans_lt hlt
  have h' := h.hang hx hg.le
  induction y using Nat.strong_induction_on with
  | _ y ih =>
    by_cases hyx : y = x
    · subst hyx
      rw [← h'.root_parent, parent_hang hx, if_pos rfl, ih _ hg, h.root_parent, h.root_parent]
    · have hparent : (s.hang x (s.parent (s.parent x))).parent y = s.parent y := by
        rw [parent_hang hx, if_neg hyx]
      rcases (h y).lt_or_eq with hlt' | heq
      · rw [← h'.root_parent, hparent, ih _ hlt', h.root_parent]
      · rw [root_of_fixed heq, root_of_fixed (hparent.trans heq)]

/-- A smaller root becomes the root of all members of a tree. -/
theorem Descending.root_hang_root (h : s.Descending) (ha : s.parent a = a) (hb : s.parent b = b)
    (hab : a < b) (hlen : b < s.parents.length) (y : ℕ) :
    (s.hang b a).root y = if s.root y = b then a else s.root y := by
  have h' := h.hang hlen hab.le
  have hroot : (s.hang b a).root a = a := by
    apply root_of_fixed
    rw [parent_hang hlen, if_neg hab.ne, ha]
  induction y using Nat.strong_induction_on with
  | _ y ih =>
    by_cases hyb : y = b
    · subst hyb
      rw [← h'.root_parent, parent_hang hlen, if_pos rfl, hroot, root_of_fixed hb, if_pos rfl]
    · have hparent : (s.hang b a).parent y = s.parent y := by rw [parent_hang hlen, if_neg hyb]
      rcases (h y).lt_or_eq with hlt | heq
      · rw [← h'.root_parent, hparent, ih _ hlt, h.root_parent]
      · rw [root_of_fixed heq, root_of_fixed (hparent.trans heq), if_neg hyb]

/-! ### The operations -/

/-- A forest with the same trees, in which only parents changed. -/
structure Compressed (s s' : DisjointSets) : Prop where
  descending : s'.Descending
  length : s'.parents.length = s.parents.length
  root : ∀ y, s'.root y = s.root y

theorem find_of_fixed (h : s.parent x = x) : s.find x = (x, s) := by
  rw [DisjointSets.find]
  exact if_neg fun hcon => absurd hcon.1 (by omega)

/-- Path halving: the search goes on at the grandparent. -/
theorem Descending.find_of_lt (h : s.Descending) (hlt : s.parent x < x) :
    s.find x = (s.hang x (s.parent (s.parent x))).find (s.parent (s.parent x)) := by
  rw [DisjointSets.find]
  exact if_pos ⟨hlt, (h _).trans_lt hlt⟩

/-- **Finding returns the root** and keeps the trees. -/
theorem Descending.find (h : s.Descending) (x : ℕ) :
    (s.find x).1 = s.root x ∧ Compressed s (s.find x).2 := by
  induction x using Nat.strong_induction_on generalizing s with
  | _ x ih =>
    rcases (h x).lt_or_eq with hlt | heq
    · -- the search goes on at the grandparent, in a forest with the same trees
      have hg : s.parent (s.parent x) < x := (h _).trans_lt hlt
      obtain ⟨hfound, hcompressed⟩ := ih _ hg (h.hang (lt_length_of_parent_lt hlt) hg.le)
      rw [h.find_of_lt hlt]
      refine ⟨?_, hcompressed.descending, hcompressed.length.trans (length_hang _ _ _), fun y => ?_⟩
      · rw [hfound, h.root_hang_grandparent hlt, h.root_parent, h.root_parent]
      · rw [hcompressed.root, h.root_hang_grandparent hlt]
    · rw [find_of_fixed heq]
      exact ⟨(root_of_fixed heq).symm, h, rfl, fun y => rfl⟩

/-- Joining two trees gives the members of the one the root of the other, the smaller one. -/
theorem Descending.union (h : s.Descending) (ha : a < s.parents.length) (hb : b < s.parents.length) :
    (s.union a b).Descending ∧ (s.union a b).parents.length = s.parents.length ∧
      ∀ y, (s.union a b).root y = if s.root y = max (s.root a) (s.root b)
        then min (s.root a) (s.root b) else s.root y := by
  obtain ⟨hra, hone⟩ := h.find a
  obtain ⟨hrb, htwo⟩ := hone.descending.find b
  rw [hone.root] at hrb
  have hlength := htwo.length.trans hone.length
  have hroot : ∀ y, ((s.find a).2.find b).2.root y = s.root y :=
    fun y => (htwo.root y).trans (hone.root y)
  have hfixed : ∀ y, ((s.find a).2.find b).2.parent (s.root y) = s.root y := by
    intro y
    rw [← hroot y]
    exact htwo.descending.parent_root y
  have hla : s.root a < ((s.find a).2.find b).2.parents.length := by
    rw [hlength]
    exact (root_le s a).trans_lt ha
  have hlb : s.root b < ((s.find a).2.find b).2.parents.length := by
    rw [hlength]
    exact (root_le s b).trans_lt hb
  unfold DisjointSets.union
  simp only [hra, hrb]
  rcases lt_trichotomy (s.root a) (s.root b) with hlt | heq | hgt
  · rw [if_pos hlt, max_eq_right hlt.le, min_eq_left hlt.le]
    refine ⟨htwo.descending.hang hlb hlt.le, (length_hang _ _ _).trans hlength, fun y => ?_⟩
    rw [← hroot y]
    exact htwo.descending.root_hang_root (hfixed a) (hfixed b) hlt hlb y
  · rw [if_neg heq.not_lt, if_neg heq.not_gt, heq, max_self, min_self]
    refine ⟨htwo.descending, hlength, fun y => ?_⟩
    rw [hroot]
    split_ifs with hy
    · exact hy
    · rfl
  · rw [if_neg hgt.asymm, if_pos hgt, max_eq_left hgt.le, min_eq_right hgt.le]
    refine ⟨htwo.descending.hang hla hgt.le, (length_hang _ _ _).trans hlength, fun y => ?_⟩
    rw [← hroot y]
    exact htwo.descending.root_hang_root (hfixed b) (hfixed a) hgt hla y

/-- **Joining links exactly two trees.** -/
theorem Descending.root_union_eq_iff (h : s.Descending) (ha : a < s.parents.length)
    (hb : b < s.parents.length) (y z : ℕ) : (s.union a b).root y = (s.union a b).root z ↔
      s.root y = s.root z ∨ (s.root y = s.root a ∧ s.root z = s.root b) ∨
        (s.root y = s.root b ∧ s.root z = s.root a) := by
  obtain ⟨-, -, hroot⟩ := h.union ha hb
  rw [hroot, hroot]
  rcases le_total (s.root a) (s.root b) with hle | hle
  · rw [max_eq_right hle, min_eq_left hle]
    split_ifs <;> omega
  · rw [max_eq_left hle, min_eq_right hle]
    split_ifs <;> omega

end DisjointSets

end Equilibria
