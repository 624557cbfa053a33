import Mathlib
import Equilibria.Ascending

/-!
# Ascending lists as sets

An ascending list is determined by its members.  `ascending` sorts, so that two lists with the same
entries are sorted to the same list, and a list of keys that are all different counts sets
(`length_le_two_pow_card`).
-/

namespace Equilibria

theorem pairwise_insertAscending (n : ℕ) {ms : List ℕ} (h : ms.Pairwise (· ≤ ·)) :
    (insertAscending n ms).Pairwise (· ≤ ·) := by
  induction ms with
  | nil => exact List.pairwise_singleton _ _
  | cons m ms ih =>
    obtain ⟨hm, hms⟩ := List.pairwise_cons.mp h
    by_cases hle : n ≤ m
    · rw [insertAscending, if_pos hle]
      refine List.pairwise_cons.mpr ⟨fun k hk => ?_, h⟩
      rcases List.mem_cons.mp hk with rfl | hk
      · exact hle
      · exact hle.trans (hm k hk)
    · rw [insertAscending, if_neg hle]
      refine List.pairwise_cons.mpr ⟨fun k hk => ?_, ih hms⟩
      rcases List.mem_cons.mp ((perm_insertAscending n ms).mem_iff.mp hk) with rfl | hk
      · omega
      · exact hm k hk

theorem pairwise_ascending (ns : List ℕ) : (ascending ns).Pairwise (· ≤ ·) := by
  induction ns with
  | nil => exact List.Pairwise.nil
  | cons n ns ih => exact pairwise_insertAscending n ih

theorem mem_ascending {k : ℕ} {ns : List ℕ} : k ∈ ascending ns ↔ k ∈ ns :=
  (perm_ascending ns).mem_iff

/-- Lists with the same entries are sorted to the same list. -/
theorem ascending_eq_of_perm {ms ns : List ℕ} (h : ms.Perm ns) : ascending ms = ascending ns := by
  refine List.Perm.eq_of_pairwise (fun a b _ _ hab hba => le_antisymm hab hba)
    (pairwise_ascending ms) (pairwise_ascending ns) ?_
  exact ((perm_ascending ms).trans h).trans (perm_ascending ns).symm

/-- Sets are sorted to different lists. -/
theorem ascending_eq_of_toFinset_eq {ms ns : List ℕ} (hms : ms.Nodup) (hns : ns.Nodup)
    (h : (ascending ms).toFinset = (ascending ns).toFinset) : ascending ms = ascending ns := by
  refine ascending_eq_of_perm ((List.perm_ext_iff_of_nodup hms hns).mpr fun n => ?_)
  have hn := congrArg (n ∈ ·) h
  simpa only [List.mem_toFinset, mem_ascending, eq_iff_iff] using hn

/-! ### Lists with every member once -/

theorem pairwise_insertMember (n : ℕ) {ms : List ℕ} (h : ms.Pairwise (· < ·)) :
    (insertMember n ms).Pairwise (· < ·) := by
  induction ms with
  | nil => exact List.pairwise_singleton _ _
  | cons m ms ih =>
    obtain ⟨hm, hms⟩ := List.pairwise_cons.mp h
    rw [insertMember]
    split_ifs with hlt heq
    · refine List.pairwise_cons.mpr ⟨fun k hk => ?_, h⟩
      rcases List.mem_cons.mp hk with rfl | hk
      · exact hlt
      · exact hlt.trans (hm k hk)
    · exact h
    · refine List.pairwise_cons.mpr ⟨fun k hk => ?_, ih hms⟩
      rcases mem_insertMember.mp hk with rfl | hk
      · omega
      · exact hm k hk

theorem mem_members {k : ℕ} {ns : List ℕ} : k ∈ members ns ↔ k ∈ ns := by
  have hfold : ∀ set : List ℕ,
      k ∈ ns.foldl (fun set n => insertMember n set) set ↔ k ∈ set ∨ k ∈ ns := by
    induction ns with
    | nil => simp
    | cons n ns ih =>
      intro set
      rw [List.foldl_cons, ih, mem_insertMember, List.mem_cons, or_assoc, or_left_comm]
  rw [members, hfold]
  simp

/-! ### Counting sets -/

/-- Lists that are different as sets are no more than there are sets. -/
theorem length_le_two_pow_card {U : Finset ℕ} {keys : List (List ℕ)} (hnodup : keys.Nodup)
    (hsub : ∀ key ∈ keys, key.toFinset ⊆ U)
    (hinj : ∀ a ∈ keys, ∀ b ∈ keys, a.toFinset = b.toFinset → a = b) :
    keys.length ≤ 2 ^ U.card := by
  have himage : (keys.toFinset.image List.toFinset) ⊆ U.powerset := by
    intro s hs
    obtain ⟨a, ha, rfl⟩ := Finset.mem_image.mp hs
    exact Finset.mem_powerset.mpr (hsub a (List.mem_toFinset.mp ha))
  calc keys.length = keys.toFinset.card := (List.toFinset_card_of_nodup hnodup).symm
    _ = (keys.toFinset.image List.toFinset).card :=
      (Finset.card_image_of_injOn fun a ha b hb =>
        hinj a (List.mem_toFinset.mp ha) b (List.mem_toFinset.mp hb)).symm
    _ ≤ U.powerset.card := Finset.card_le_card himage
    _ = 2 ^ U.card := Finset.card_powerset U

/-- A list of different sets of numbers below `w`, each sorted, has at most `2 ^ w` entries. -/
theorem length_le_two_pow {w : ℕ} {keys : List (List ℕ)} (hnodup : keys.Nodup)
    (hkeys : ∀ key ∈ keys, ∃ ns : List ℕ, ns.Nodup ∧ (∀ n ∈ ns, n < w) ∧ key = ascending ns) :
    keys.length ≤ 2 ^ w := by
  rw [← Finset.card_range w]
  refine length_le_two_pow_card hnodup (fun key hkey n hn => ?_) fun a ha b hb hab => ?_
  · obtain ⟨ns, -, hlt, rfl⟩ := hkeys key hkey
    exact Finset.mem_range.mpr (hlt n (mem_ascending.mp (List.mem_toFinset.mp hn)))
  · obtain ⟨ns, hns, -, rfl⟩ := hkeys a ha
    obtain ⟨ms, hms, -, rfl⟩ := hkeys b hb
    exact ascending_eq_of_toFinset_eq hns hms hab

end Equilibria
