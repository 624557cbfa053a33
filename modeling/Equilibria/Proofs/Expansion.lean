import Mathlib
import Equilibria.Proofs.BestResponses
import Equilibria.Proofs.Restriction

/-!
# Expanded profiles

A profile of what is left of a game gives the strategies that are gone probability zero:

* `getD_expandRow` — one player's numbers in the whole game;
* `sum_expandRow` — an average over them is one over what is left;
* `expectation_expandRows` — so is the expectation over all players;
* `expandRow_of_support` — numbers that are zero elsewhere come from what is left.
-/

namespace Equilibria

open Finset (range)

namespace Reduction

/-! ### One player -/

/-- Every number that is left goes to its place, which no number before has taken. -/
theorem getD_foldl_place (K : List ℕ) (row : List ℚ) (j : ℕ) (full : List ℚ) (hnodup : K.Nodup)
    (hlt : ∀ a ∈ K, a < full.length) {d : ℕ} (hfree : d ∈ K → full.getD d 0 = 0) :
    ((K.zipIdx j).foldl (fun full place => full.set place.1 (row.getD place.2 0)) full).getD d 0 =
      full.getD d 0 + ∑ i ∈ range K.length, if K.getD i 0 = d then row.getD (j + i) 0 else 0 := by
  induction K generalizing j full with
  | nil => simp
  | cons a K ih =>
    obtain ⟨hnotMem, hnodup'⟩ := List.nodup_cons.mp hnodup
    have hset : (full.set a (row.getD j 0)).getD d 0 =
        if a = d then row.getD j 0 else full.getD d 0 := by
      rw [getD_set 0 (hlt a List.mem_cons_self)]
      exact if_congr eq_comm rfl rfl
    have hfree' : d ∈ K → (full.set a (row.getD j 0)).getD d 0 = 0 := by
      intro hd
      have had : ¬a = d := fun had => hnotMem (had ▸ hd)
      rw [hset, if_neg had]
      exact hfree (List.mem_cons_of_mem _ hd)
    rw [List.zipIdx_cons, List.foldl_cons, ih (j + 1) _ hnodup'
      (fun b hb => by simpa using hlt b (List.mem_cons_of_mem _ hb)) hfree', hset, List.length_cons,
      Finset.sum_range_succ', List.getD_cons_zero]
    have htail : ∀ i, (if (a :: K).getD (i + 1) 0 = d then row.getD (j + (i + 1)) 0 else 0) =
        if K.getD i 0 = d then row.getD (j + 1 + i) 0 else 0 := by
      intro i
      rw [List.getD_cons_succ, show j + (i + 1) = j + 1 + i by omega]
    rw [Finset.sum_congr rfl fun i _ => htail i]
    split_ifs with had
    · subst had
      rw [hfree List.mem_cons_self, zero_add, add_comm]
      rfl
    · rw [add_zero]

variable {K : List ℕ} {n : ℕ} {row : List ℚ}

theorem length_expandRow {α : Type} [Scalar α] (K : List ℕ) (n : ℕ) (row : List α) :
    (expandRow K n row).length = n := by
  have hfold : ∀ (places : List (ℕ × ℕ)) (full : List α),
      (places.foldl (fun full place => full.set place.1 (row.getD place.2 0)) full).length =
        full.length := by
    intro places
    induction places with
    | nil => exact fun full => rfl
    | cons place places ih =>
      intro full
      rw [List.foldl_cons, ih, List.length_set]
  exact (hfold _ _).trans List.length_replicate

/-- **The numbers of one player in the whole game.** -/
theorem getD_expandRow (hnodup : K.Nodup) (hlt : ∀ a ∈ K, a < n) (row : List ℚ) (d : ℕ) :
    (expandRow K n row).getD d 0 =
      ∑ i ∈ range K.length, if K.getD i 0 = d then row.getD i 0 else 0 := by
  have hzero : (List.replicate n (0 : ℚ)).getD d 0 = 0 := by
    rcases Nat.lt_or_ge d n with hd | hd
    · simp [List.getD_eq_getElem?_getD, hd]
    · rw [List.getD_eq_default _ _ (by simpa using hd)]
  have hfold := getD_foldl_place K row 0 (List.replicate n 0) hnodup
    (fun a ha => by simpa using hlt a ha) (d := d) fun _ => hzero
  rw [hzero, zero_add] at hfold
  simp only [Nat.zero_add] at hfold
  exact hfold

/-- **An average over the whole game is one over what is left.** -/
theorem sum_expandRow (hnodup : K.Nodup) (hlt : ∀ a ∈ K, a < n) (row : List ℚ) (h : ℕ → ℚ) :
    ∑ d ∈ range n, (expandRow K n row).getD d 0 * h d =
      ∑ i ∈ range K.length, row.getD i 0 * h (K.getD i 0) := by
  simp only [getD_expandRow hnodup hlt, Finset.sum_mul]
  rw [Finset.sum_comm]
  refine Finset.sum_congr rfl fun i hi => ?_
  have hi' := Finset.mem_range.mp hi
  have hKi : K.getD i 0 < n := by
    rw [List.getD_eq_getElem _ _ hi']
    exact hlt _ (List.getElem_mem _)
  rw [Finset.sum_eq_single_of_mem _ (Finset.mem_range.mpr hKi), if_pos rfl]
  intro d _ hd
  rw [if_neg (Ne.symm hd), zero_mul]

theorem getD_expandRow_of_notMem (hnodup : K.Nodup) (hlt : ∀ a ∈ K, a < n) (row : List ℚ) {d : ℕ}
    (hd : d ∉ K) : (expandRow K n row).getD d 0 = 0 := by
  rw [getD_expandRow hnodup hlt]
  apply Finset.sum_eq_zero
  intro i hi
  have hi' := Finset.mem_range.mp hi
  rw [if_neg]
  intro heq
  rw [List.getD_eq_getElem _ _ hi'] at heq
  exact hd (heq ▸ List.getElem_mem _)

theorem getD_expandRow_getD (hnodup : K.Nodup) (hlt : ∀ a ∈ K, a < n) (row : List ℚ) {i : ℕ}
    (hi : i < K.length) : (expandRow K n row).getD (K.getD i 0) 0 = row.getD i 0 := by
  rw [getD_expandRow hnodup hlt, Finset.sum_eq_single_of_mem i (Finset.mem_range.mpr hi), if_pos rfl]
  intro j hj hne
  have hj' := Finset.mem_range.mp hj
  rw [if_neg]
  intro heq
  rw [List.getD_eq_getElem _ _ hi, List.getD_eq_getElem _ _ hj'] at heq
  exact hne ((List.Nodup.getElem_inj_iff hnodup).mp heq)

theorem isDistribution_expandRow (hnodup : K.Nodup) (hlt : ∀ a ∈ K, a < n)
    (hlength : row.length = K.length) (h : IsDistribution row) :
    IsDistribution (expandRow K n row) := by
  constructor
  · intro v hv
    obtain ⟨d, hd, rfl⟩ := List.getElem_of_mem hv
    rw [← List.getD_eq_getElem _ 0 hd, getD_expandRow hnodup hlt]
    apply Finset.sum_nonneg
    intro i _
    split_ifs
    · exact h.getD_nonneg i
    · exact le_rfl
  · have hsum := sum_expandRow hnodup hlt row fun _ => 1
    simp only [mul_one] at hsum
    rw [sum_eq_sum_range, length_expandRow, hsum, ← hlength, ← sum_eq_sum_range, h.2]

/-- Numbers that are zero elsewhere come from what is left. -/
theorem expandRow_of_support (hnodup : K.Nodup) (hlt : ∀ a ∈ K, a < n) {full : List ℚ}
    (hlength : full.length = n) (hsupport : ∀ a < n, a ∉ K → full.getD a 0 = 0) :
    expandRow K n (K.map fun a => full.getD a 0) = full := by
  apply List.ext_getElem
  · rw [length_expandRow, hlength]
  · intro d hd hd'
    rw [← List.getD_eq_getElem _ 0 hd, ← List.getD_eq_getElem _ 0 hd']
    by_cases hmem : d ∈ K
    · obtain ⟨i, hi, rfl⟩ := List.getElem_of_mem hmem
      rw [← List.getD_eq_getElem _ 0 hi, getD_expandRow_getD hnodup hlt _ hi]
      simp [List.getD_eq_getElem?_getD, hi]
    · rw [getD_expandRow_of_notMem hnodup hlt _ hmem, hsupport d (by rwa [← hlength]) hmem]

/-! ### All players -/

/-- The numbers of all players in the whole game. -/
def expandRows (kept : List (List ℕ)) (counts : List ℕ) (rows : List (List ℚ)) : List (List ℚ) :=
  List.zipWith (fun kn row => expandRow kn.1 kn.2 row) (kept.zip counts) rows

variable {kept : List (List ℕ)} {counts : List ℕ} {rows : List (List ℚ)}

/-- **The expectation over the whole game is the one over what is left.** -/
theorem expectation_expandRows (hkept : Selection counts kept)
    (hrows : rows.map List.length = kept.map List.length) (f : List ℕ → ℚ) :
    expectation (expandRows kept counts rows) f =
      expectation rows fun s => f (Game.inWhole kept s) := by
  induction rows generalizing kept counts f with
  | nil =>
    obtain rfl : kept = [] := by simpa using hrows.symm
    rfl
  | cons row rows ih =>
    match kept, counts, hkept, hrows with
    | K :: kept, n :: counts, hkept, hrows =>
      have hlengths : row.length = K.length ∧ rows.map List.length = kept.map List.length := by
        simpa using hrows
      have hnodup : K.Nodup := hkept.nodup 0 (Nat.succ_pos _)
      have hlt : ∀ a ∈ K, a < n := hkept.lt 0 (Nat.succ_pos _)
      have htail : Selection counts kept :=
        ⟨Nat.succ.inj hkept.length, fun q hq => hkept.nonempty (q + 1) (Nat.succ_lt_succ hq),
          fun q hq => hkept.nodup (q + 1) (Nat.succ_lt_succ hq),
          fun q hq => hkept.lt (q + 1) (Nat.succ_lt_succ hq)⟩
      show ∑ d ∈ range (expandRow K n row).length, (expandRow K n row).getD d 0 *
        expectation (expandRows kept counts rows) (fun s => f (d :: s)) = _
      rw [length_expandRow, sum_expandRow hnodup hlt, ← hlengths.1]
      refine Finset.sum_congr rfl fun i _ => ?_
      rw [ih htail hlengths.2]
      rfl
    | [], _, _, hrows => exact absurd hrows (by simp)

end Reduction

end Equilibria
