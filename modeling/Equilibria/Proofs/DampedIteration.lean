import Mathlib
import Equilibria.Proofs.IteratedRuns
import Equilibria.Proofs.LinearizedTwoPlayers

/-!
# The damped iteration of two players

With two players every step of the iteration goes towards the same equilibrium, in exact arithmetic.
So the iterates come closer to it by the damping each time:

* `MixedProfile.get_blend`, `MixedProfile.maxDistance_blend` — where a damped step leads and how far it
  leaves the profile from its aim;
* `Iteration.iterate_sub`, `Iteration.stepSize_succ` — the iterates and the sizes of the steps while
  the aim stays the same;
* `Iteration.run_two_players` — a run of a game of two players and when it ends.
-/

namespace Equilibria

/-! ### Damped steps -/

namespace MixedProfile

open Iteration (blend)

variable {x z : MixedProfile ℚ}

/-- **Where a damped step leads.** -/
theorem get_blend (h : x.shape = z.shape) (w : ℚ) (q a : ℕ) :
    (blend w x z).get q a = w * x.get q a + (1 - w) * z.get q a := by
  rw [get, player_blend h.symm]
  exact getD_zipWith _ (by ring) (length_player h q) a

theorem foldl_larger_mul {w : ℚ} (hw : 0 ≤ w) (values : List ℚ) (found : ℚ) :
    (values.map fun v => w * v).foldl larger (w * found) = w * values.foldl larger found := by
  have hlarger : ∀ a b : ℚ, larger a b = max a b := by
    intro a b
    unfold larger
    split_ifs with hlt
    · exact (max_eq_right hlt.le).symm
    · exact (max_eq_left (not_lt.mp hlt)).symm
  induction values generalizing found with
  | nil => rfl
  | cons v values ih =>
    rw [List.map_cons, List.foldl_cons, List.foldl_cons, ← ih, hlarger, hlarger, mul_max_of_nonneg _ _ hw]

/-- **A damped step leaves the damping of the distance.** -/
theorem maxDistance_blend (h : x.shape = z.shape) {w : ℚ} (hw : 0 ≤ w) :
    z.maxDistance (blend w x z) = w * z.maxDistance x := by
  have hlength : x.flatten.length = z.flatten.length := by
    rw [flatten, flatten, List.length_flatten, List.length_flatten,
      show x.probs.map List.length = z.probs.map List.length from h]
  have hdistance : ∀ a b : ℚ, Scalar.abs (b - (w * a + (1 - w) * b)) = w * Scalar.abs (b - a) := by
    intro a b
    rw [Scalar.abs_eq, Scalar.abs_eq, show b - (w * a + (1 - w) * b) = w * (b - a) by ring, abs_mul,
      abs_of_nonneg hw]
  have hlist : List.zipWith (fun b c => Scalar.abs (b - c)) z.flatten (blend w x z).flatten =
      (List.zipWith (fun b a => Scalar.abs (b - a)) z.flatten x.flatten).map fun v => w * v := by
    rw [show (blend w x z).flatten = _ from flatten_zipWith _ h]
    apply List.ext_getElem
    · simp only [List.length_zipWith, List.length_map, flatten] at hlength ⊢
      rw [hlength, min_self, min_self]
    · intro i hi hi'
      rw [List.getElem_zipWith, List.getElem_map, List.getElem_zipWith, List.getElem_zipWith]
      exact hdistance _ _
  rw [maxDistance, maxDistance, hlist, ← foldl_larger_mul hw, mul_zero]

end MixedProfile

/-! ### The iterates -/

namespace Iteration

section

variable {p : Parameters ℚ} {t : Payoffs ℚ} {x z : MixedProfile ℚ}

/-- A step goes towards the response. -/
theorem iterate_succ (hresponse : ∀ y, Polymatrix.response p.rules t y = z) (k : ℕ) :
    iterate p t x (k + 1) = blend p.damping (iterate p t x k) z := by
  rw [← hresponse (iterate p t x k)]
  rfl

theorem shape_iterate_eq (hresponse : ∀ y, Polymatrix.response p.rules t y = z)
    (hx : x.shape = t.counts) (k : ℕ) : (iterate p t x k).shape = z.shape := by
  rw [← hresponse (iterate p t x k)]
  exact (shape_response_iterate hx k).symm

/-- **The iterates come closer by the damping each time.** -/
theorem iterate_sub (hresponse : ∀ y, Polymatrix.response p.rules t y = z) (hx : x.shape = t.counts)
    (k q a : ℕ) : (iterate p t x k).get q a - z.get q a = p.damping ^ k * (x.get q a - z.get q a) := by
  induction k with
  | zero => rw [pow_zero, one_mul, iterate]
  | succ k ih =>
    rw [iterate_succ hresponse, MixedProfile.get_blend (shape_iterate_eq hresponse hx k), pow_succ', mul_assoc,
      ← ih]
    ring

theorem maxDistance_iterate (hresponse : ∀ y, Polymatrix.response p.rules t y = z)
    (hx : x.shape = t.counts) (hdamping : 0 ≤ p.damping) (k : ℕ) :
    z.maxDistance (iterate p t x k) = p.damping ^ k * z.maxDistance x := by
  induction k with
  | zero => rw [pow_zero, one_mul, iterate]
  | succ k ih =>
    rw [iterate_succ hresponse, MixedProfile.maxDistance_blend (shape_iterate_eq hresponse hx k) hdamping, ih,
      pow_succ', mul_assoc]

/-- **So do the steps become smaller.** -/
theorem stepSize_succ (hresponse : ∀ y, Polymatrix.response p.rules t y = z) (hx : x.shape = t.counts)
    (hdamping : 0 ≤ p.damping) (k : ℕ) :
    stepSize p t x (k + 1) = p.damping ^ k * z.maxDistance x := by
  rw [← maxDistance_iterate hresponse hx hdamping k, ← hresponse (iterate p t x k)]
  rfl

end

/-! ### Runs of two players -/

/-- **A run of a game of two players** in exact arithmetic, if pivots enough are allowed.  There is one
equilibrium towards which every step goes, whatever the start, and after `k` iterations the damping to
the power `k` is left of the way to it.  So the run is over at the first iteration whose step, known from
the distance of the start, is small, if there is one among those allowed. -/
theorem run_two_players {g : Game} (h : g.Valid) (htwo : g.numPlayers = 2) {p : Parameters ℚ}
    (htolerance : p.rules.tolerance = 0) (hlimit : Polymatrix.stepBound g.counts ≤ p.rules.limit)
    (hdamping : 0 ≤ p.damping) :
    ∃ z : MixedProfile ℚ, z.shape = g.counts ∧ z.isNormalized = true ∧ z.isNash g = true ∧
      ∀ x : MixedProfile ℚ, x.shape = g.counts →
        let t : Payoffs ℚ := Payoffs.ofGame g
        (∀ k, Polymatrix.response p.rules t (iterate p t x k) = z) ∧
        (∀ k, (iterate p t x k).shape = g.counts ∧ ∀ q a,
          (iterate p t x k).get q a - z.get q a = p.damping ^ k * (x.get q a - z.get q a)) ∧
        stepSize p t x 1 = z.maxDistance x ∧
        (∀ k, stepSize p t x (k + 1) = p.damping ^ k * stepSize p t x 1) ∧
        ∀ {m : Type → Type} [Monad m] [LawfulMonad m] (tell : ℕ → MixedProfile ℚ → m Unit),
          (∀ k, IsLeast
              {k | 1 ≤ k ∧ k ≤ p.cap ∧ p.damping ^ (k - 1) * z.maxDistance x < p.tolerance} k →
            runFrom p t x tell = do
              (List.range' 1 k).forM fun i => tell i (iterate p t x i)
              pure (convergedAt p t x k)) ∧
          ((∀ k, 1 ≤ k → k ≤ p.cap → ¬p.damping ^ (k - 1) * z.maxDistance x < p.tolerance) →
            runFrom p t x tell = do
              (List.range' 1 p.cap).forM fun i => tell i (iterate p t x i)
              pure (limitedAt p t x p.cap (kept p t x (rank t x) 0 p.cap))) := by
  obtain ⟨z, hshape, hnormal, hnash, hresponse⟩ :=
    Polymatrix.exists_response_two h htwo htolerance hlimit
  refine ⟨z, hshape, hnormal, hnash, fun x hx => ?_⟩
  intro t
  have hstep : ∀ k, stepSize p t x (k + 1) = p.damping ^ k * z.maxDistance x :=
    stepSize_succ hresponse hx hdamping
  have hfirst : stepSize p t x 1 = z.maxDistance x := by
    rw [hstep 0, pow_zero, one_mul]
  -- the size of every step but the one before the first is known from the distance of the start
  have hsmall : ∀ k, 1 ≤ k →
      (p.damping ^ (k - 1) * z.maxDistance x < p.tolerance ↔ stepSize p t x k < p.tolerance) := by
    intro k hk
    obtain ⟨n, rfl⟩ := Nat.exists_eq_add_of_le' hk
    rw [hstep n, Nat.add_sub_cancel]
  refine ⟨fun k => hresponse _,
    fun k => ⟨shape_iterate hx k, iterate_sub hresponse hx k⟩, hfirst,
    fun k => by rw [hstep k, hfirst], fun tell => ⟨fun k hk => ?_, fun hlarge => ?_⟩⟩
  · refine runFrom_converged tell ?_
    have hsets : {k | 1 ≤ k ∧ k ≤ p.cap ∧ stepSize p t x k < p.tolerance} =
        {k | 1 ≤ k ∧ k ≤ p.cap ∧ p.damping ^ (k - 1) * z.maxDistance x < p.tolerance} := by
      ext k
      exact and_congr_right fun hpos => and_congr_right fun _ => (hsmall k hpos).symm
    rwa [hsets]
  · refine runFrom_limited tell fun k hpos hcap => ?_
    rw [← hsmall k hpos]
    exact hlarge k hpos hcap

/-- Each iteration leaves a fifth of the way, and a step below a hundredth is small. -/
def fifths : Parameters ℚ := ⟨10, 1 / 100, 1 / 5, ⟨0, 100000⟩⟩

theorem run_two_players_dilemma : Polymatrix.stepBound Game.dilemma.counts ≤ fifths.rules.limit ∧
    (runFrom (m := Id) fifths (Payoffs.ofGame Game.dilemma)
      (MixedProfile.uniform Game.dilemma.counts) fun _ _ => ()).status = .converged ∧
    (runFrom (m := Id) fifths (Payoffs.ofGame Game.dilemma)
      (MixedProfile.uniform Game.dilemma.counts) fun _ _ => ()).iterations = 4 := by
  have hlimit : Polymatrix.stepBound Game.dilemma.counts ≤ fifths.rules.limit := by decide +kernel
  obtain ⟨z, -, -, -, hruns⟩ :=
    run_two_players Game.valid_dilemma rfl rfl hlimit (show (0 : ℚ) ≤ 1 / 5 by norm_num)
  obtain ⟨hresponse, -, -, -, hends⟩ := hruns (MixedProfile.uniform Game.dilemma.counts) (by decide +kernel)
  have hz : z = ⟨[[0, 1], [0, 1]]⟩ := (hresponse 0).symm.trans (by decide +kernel)
  have hdistance : z.maxDistance (MixedProfile.uniform Game.dilemma.counts) = 1 / 2 := by
    rw [hz]
    decide +kernel
  have hleast : IsLeast {k | 1 ≤ k ∧ k ≤ fifths.cap ∧ fifths.damping ^ (k - 1) *
      z.maxDistance (MixedProfile.uniform Game.dilemma.counts) < fifths.tolerance} 4 := by
    rw [hdistance]
    show IsLeast {k | 1 ≤ k ∧ k ≤ 10 ∧ (1 / 5 : ℚ) ^ (k - 1) * (1 / 2) < 1 / 100} 4
    refine ⟨⟨by norm_num, by norm_num, by norm_num⟩, fun k hk => ?_⟩
    by_contra hlt
    obtain ⟨hpos, -, hsmall⟩ := hk
    have hk3 : k ≤ 3 := by omega
    interval_cases k <;> norm_num at hsmall
  have hrun := (hends (m := Id) fun _ _ => ()).1 4 hleast
  refine ⟨hlimit, ?_, ?_⟩
  · rw [hrun]
    rfl
  · rw [hrun]
    rfl

end Iteration

end Equilibria
