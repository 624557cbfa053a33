import Mathlib
import Equilibria.Proofs.AlmostComplementary
import Equilibria.Proofs.PolymatrixProblem

/-!
# What a response is made of

In any domain, whatever its operations do:

* `Lcp.solve_nonneg` — a solution of a complementarity problem holds zeros and positive values;
* `Polymatrix.shape_response` — the response to a profile has a row for every player, with an entry for
  every strategy.
-/

namespace Equilibria

/-! ### Solutions -/

namespace Lcp

variable {α : Type} [Scalar α]

/-- Entries of a solution that is read off a tableau are zero or positive. -/
theorem mem_solution {n : ℕ} {t : Tableau α} {v : α} (hv : v ∈ solution n t) : v = 0 ∨ 0 < v := by
  have hall : ∀ v ∈ solution n t, v = 0 ∨ 0 < v := by
    unfold solution
    refine List.foldlRecOn t _ (motive := fun z : List α => ∀ v ∈ z, v = 0 ∨ 0 < v)
      (fun v hv => Or.inl (List.eq_of_mem_replicate hv)) fun z hz row _ => ?_
    split_ifs
    · intro v hv
      rcases List.mem_or_eq_of_mem_set hv with hold | rfl
      · exact hz v hold
      · unfold positivePart
        split_ifs with hpos
        · exact Or.inr hpos
        · exact Or.inl rfl
    · exact hz
  exact hall v hv

/-- **Whatever the numbers, a solution holds zeros and positive values.** -/
theorem solve_nonneg {p : Lcp α} {rules : PivotRules α} {z : List α} (h : p.solve rules = .ok z) :
    z.length = p.size ∧ ∀ v ∈ z, v = 0 ∨ 0 < v := by
  unfold solve at h
  dsimp only at h
  split_ifs at h
  · cases h
    exact ⟨List.length_replicate, fun v hv => Or.inl (List.eq_of_mem_replicate hv)⟩
  · obtain ⟨-, s, -, -, hlast⟩ := exists_met_of_walk (Walk.start : p.Met rules.tolerance 0 _) h
    obtain ⟨row, -, rfl⟩ := Stage.step_eq_solved hlast
    exact ⟨length_solution _ _, fun v hv => mem_solution hv⟩

end Lcp

/-! ### Responses -/

namespace MixedProfile

variable {α : Type} [Scalar α]

theorem shape_ofWeights (rows : List (List α)) : (ofWeights rows).shape = rows.map List.length := by
  rw [shape, ofWeights, List.map_map]
  exact List.map_congr_left fun row _ => length_normalize row

end MixedProfile

namespace Polymatrix

theorem shape_bestResponse {α : Type} [Scalar α] (t : Payoffs α) (x : MixedProfile α) :
    (bestResponse t x).shape = t.counts := by
  rw [MixedProfile.shape, bestResponse, List.map_map]
  refine Eq.trans ?_ (map_count_players t)
  refine List.map_congr_left fun p _ => ?_
  exact (length_unitRow _ _).trans (Payoffs.length_strategyValues t x p)

/-- **A response has the shape of the game.** -/
theorem shape_response {α : Type} [Scalar α] (rules : PivotRules α) (t : Payoffs α) (x : MixedProfile α) :
    (response rules t x).shape = t.counts := by
  unfold response
  split_ifs with hfew
  · exact shape_bestResponse t x
  · cases hsolve : (lcp t x).solve rules with
    | error e => exact shape_bestResponse t x
    | ok z =>
      refine (MixedProfile.shape_ofWeights _).trans (map_length_portions ?_)
      rw [(Lcp.solve_nonneg hsolve).1, size_lcp]
      exact Nat.le_add_right _ _

end Polymatrix

end Equilibria
