import Mathlib
import Equilibria.Approximation.Iteration
import Equilibria.Proofs.DoubleOrder
import Equilibria.Proofs.PureProfiles
import Equilibria.Proofs.Responses

/-!
# Runs of the iteration

The profiles that a run goes through do not depend on when it ends.  They are named once, and a run
is read off them:

* `Iteration.iterate`, `Iteration.stepSize` — the profile and the size of the step after `k`
  iterations, were there no end;
* `Iteration.get_iterate_succ`, `Iteration.stepSize_succ_spec` — entry by entry an iterate is the blend of
  the one before and the response to it, and the step is the distance of these two;
* `Iteration.runFrom_converged`, `Iteration.runFrom_limited` — in any monad a run tells the iterates one
  after another and ends with the first small step, or with none;
* `Iteration.exists_least_regret` — the profile kept for the end is the earliest one whose regret no
  other undercuts;
* `ApproximateEquilibrium.findFrom_outcome` — hence what a run in doubles ends with, for every start
  and every caller that never fails.
-/

namespace Equilibria

/-! ### Lists side by side -/

section

variable {α β γ : Type}

theorem getD_zipWith (f : α → β → γ) {d : α} {e : β} {c : γ} (hf : f d e = c) {as : List α} {bs : List β}
    (h : as.length = bs.length) (i : ℕ) :
    (List.zipWith f as bs).getD i c = f (as.getD i d) (bs.getD i e) := by
  cases Nat.lt_or_ge i as.length with
  | inl hi =>
    have hi' : i < bs.length := h ▸ hi
    rw [List.getD_eq_getElem _ _ (by simpa using ⟨hi, hi'⟩), List.getElem_zipWith,
      List.getD_eq_getElem _ _ hi, List.getD_eq_getElem _ _ hi']
  | inr hi =>
    rw [List.getD_eq_default _ _ (by simp [hi]), List.getD_eq_default _ _ hi,
      List.getD_eq_default _ _ (h ▸ hi), hf]

/-- Lists of the same shape may be put one after another before they are combined. -/
theorem flatten_zipWith (f : α → β → γ) {as : List (List α)} {bs : List (List β)}
    (h : as.map List.length = bs.map List.length) :
    (List.zipWith (List.zipWith f) as bs).flatten = List.zipWith f as.flatten bs.flatten := by
  induction as generalizing bs with
  | nil =>
    cases bs with
    | nil => rfl
    | cons b bs => cases h
  | cons a as ih =>
    cases bs with
    | nil => cases h
    | cons b bs =>
      obtain ⟨hab, hrest⟩ := List.cons.inj h
      rw [List.zipWith_cons_cons, List.flatten_cons, List.flatten_cons, List.flatten_cons, ih hrest,
        List.zipWith_append hab]

theorem map_length_zipWith (f : α → β → γ) {as : List (List α)} {bs : List (List β)}
    (h : as.map List.length = bs.map List.length) :
    (List.zipWith (List.zipWith f) as bs).map List.length = bs.map List.length := by
  induction as generalizing bs with
  | nil =>
    cases bs with
    | nil => rfl
    | cons b bs => cases h
  | cons a as ih =>
    cases bs with
    | nil => cases h
    | cons b bs =>
      obtain ⟨hab, hrest⟩ := List.cons.inj h
      rw [List.zipWith_cons_cons, List.map_cons, List.map_cons, ih hrest, List.length_zipWith, hab,
        min_self]

end

namespace MixedProfile

variable {α β : Type} {x z : MixedProfile α} {q a : ℕ}

/-- Only a player has strategies. -/
theorem lt_length_of_lt_player (h : a < (x.player q).length) : q < x.probs.length := by
  by_contra hle
  rw [player, List.getD_eq_default _ _ (not_lt.mp hle)] at h
  exact Nat.not_lt_zero a h

theorem length_probs_of_shape (h : z.shape = x.shape) : z.probs.length = x.probs.length := by
  simpa [shape] using congrArg List.length h

/-- Profiles of one shape have rows of the same lengths. -/
theorem length_player (h : z.shape = x.shape) (q : ℕ) : (z.player q).length = (x.player q).length := by
  rw [player, player, ← getD_map_length, ← getD_map_length,
    show z.probs.map List.length = x.probs.map List.length from h]

variable [Scalar α]

theorem shape_blend (h : x.shape = z.shape) (w : α) : (Iteration.blend w x z).shape = z.shape :=
  map_length_zipWith _ h

/-- The rows of a profile that a damped step leads to. -/
theorem player_blend (h : z.shape = x.shape) (w : α) (q : ℕ) : (Iteration.blend w x z).player q =
    List.zipWith (fun a b => w * a + (1 - w) * b) (x.player q) (z.player q) :=
  getD_zipWith (d := []) (e := []) _ rfl (length_probs_of_shape h).symm q

/-- Profiles of one shape that are combined entry by entry. -/
theorem mem_zipWith_flatten {f : α → α → β} (h : z.shape = x.shape) {d : β} :
    d ∈ List.zipWith f z.flatten x.flatten ↔
      ∃ q a, a < (z.player q).length ∧ d = f (z.get q a) (x.get q a) := by
  have hrows := length_probs_of_shape h
  rw [flatten, flatten, ← flatten_zipWith f h, List.mem_flatten]
  constructor
  · rintro ⟨row, hmem, hd⟩
    obtain ⟨q, hq, rfl⟩ := List.getElem_of_mem hmem
    obtain ⟨a, ha, rfl⟩ := List.getElem_of_mem hd
    obtain ⟨hzq, hxq⟩ : q < z.probs.length ∧ q < x.probs.length := by simpa using hq
    obtain ⟨hza, hxa⟩ : a < z.probs[q].length ∧ a < x.probs[q].length := by simpa using ha
    refine ⟨q, a, by rwa [player, List.getD_eq_getElem _ _ hzq], ?_⟩
    simp only [List.getElem_zipWith, get, player, List.getD_eq_getElem _ _ hzq,
      List.getD_eq_getElem _ _ hxq, List.getD_eq_getElem _ _ hza, List.getD_eq_getElem _ _ hxa]
  · rintro ⟨q, a, ha, rfl⟩
    have hzq := lt_length_of_lt_player ha
    have hxq : q < x.probs.length := hrows ▸ hzq
    have hxa : a < (x.player q).length := length_player h q ▸ ha
    have hz : z.player q = z.probs[q] := List.getD_eq_getElem _ _ hzq
    have hx : x.player q = x.probs[q] := List.getD_eq_getElem _ _ hxq
    refine ⟨List.zipWith f (z.player q) (x.player q), List.mem_iff_getElem.mpr ⟨q, ?_, ?_⟩,
      List.mem_iff_getElem.mpr ⟨a, ?_, ?_⟩⟩
    · simpa using ⟨hzq, hxq⟩
    · rw [List.getElem_zipWith, hz, hx]
    · simpa using ⟨ha, hxa⟩
    · rw [List.getElem_zipWith, get, get, List.getD_eq_getElem _ _ ha, List.getD_eq_getElem _ _ hxa]

end MixedProfile

namespace Iteration

variable {α : Type} [Scalar α] (p : Parameters α) (t : Payoffs α) (x : MixedProfile α)

/-- The profile after a number of iterations. -/
def iterate : ℕ → MixedProfile α
  | 0 => x
  | k + 1 => (next p t (iterate k)).2

/-- The size of the step made by iteration `k`, zero before the first one. -/
def stepSize : ℕ → α
  | 0 => 0
  | k + 1 => (next p t (iterate p t x k)).1

/-- The outcome of a run whose iteration `k` is the last and makes a small step. -/
def convergedAt (k : ℕ) : ApproximateEquilibrium α :=
  ⟨iterate p t x k, .converged, k, stepSize p t x k, t.regret (iterate p t x k)⟩

/-- The outcome of a run that makes `k` iterations without a small step and has kept `best`. -/
def limitedAt (k : ℕ) (best : Ranked α) : ApproximateEquilibrium α :=
  ⟨best.profile, .iterationLimit, k, stepSize p t x k, best.regret⟩

/-- What is kept of the iterates `made + 1, …, made + n`. -/
def kept (best : Ranked α) (made n : ℕ) : Ranked α :=
  (List.range' (made + 1) n).foldl (fun best k => best.lesser (rank t (iterate p t x k))) best

variable {p t x}

/-! ### What an iterate and a step are -/

/-- The iterates keep the shape of the game. -/
theorem shape_iterate (hx : x.shape = t.counts) (k : ℕ) : (iterate p t x k).shape = t.counts := by
  have hresponse := Polymatrix.shape_response p.rules t
  induction k with
  | zero => exact hx
  | succ k ih => exact (MixedProfile.shape_blend (ih.trans (hresponse _).symm) _).trans (hresponse _)

theorem shape_response_iterate (hx : x.shape = t.counts) (k : ℕ) :
    (Polymatrix.response p.rules t (iterate p t x k)).shape = (iterate p t x k).shape :=
  (Polymatrix.shape_response _ _ _).trans (shape_iterate hx k).symm

/-- **An iterate lies between the one before and the response to it**, entry by entry: with the damping
`w` it is `w` times the former and `1 - w` times the latter. -/
theorem get_iterate_succ (hx : x.shape = t.counts) {k q a : ℕ}
    (ha : a < ((iterate p t x k).player q).length) :
    (iterate p t x (k + 1)).get q a = p.damping * (iterate p t x k).get q a +
      (1 - p.damping) * (Polymatrix.response p.rules t (iterate p t x k)).get q a := by
  have hshape := shape_response_iterate (p := p) hx k
  have hrow : (iterate p t x (k + 1)).player q = _ := MixedProfile.player_blend hshape p.damping q
  have hz : a < ((Polymatrix.response p.rules t (iterate p t x k)).player q).length := by
    rwa [MixedProfile.length_player hshape]
  rw [MixedProfile.get, hrow, List.getD_eq_getElem _ _ (by simpa using ⟨ha, hz⟩), List.getElem_zipWith,
    MixedProfile.get, MixedProfile.get, List.getD_eq_getElem _ _ ha, List.getD_eq_getElem _ _ hz]

/-- **A step is the distance of the response from the iterate**: the largest difference of two entries,
or zero if none compares as larger. -/
theorem stepSize_succ_spec {K : Type} [LinearOrder K] (ρ : Ranking α K) (hx : x.shape = t.counts) (k : ℕ) :
    let z := Polymatrix.response p.rules t (iterate p t x k)
    let differences : Set α := {d | ∃ q a, a < (z.player q).length ∧
      d = Scalar.abs (z.get q a - (iterate p t x k).get q a)}
    (stepSize p t x (k + 1) = 0 ∨ stepSize p t x (k + 1) ∈ differences) ∧
      ∀ d ∈ differences, ¬stepSize p t x (k + 1) < d := by
  intro z differences
  have hmem : ∀ d, d ∈ List.zipWith (fun a b => Scalar.abs (a - b)) z.flatten (iterate p t x k).flatten ↔
      d ∈ differences := fun d => MixedProfile.mem_zipWith_flatten (shape_response_iterate hx k)
  obtain ⟨hfound, -, hlargest⟩ := ρ.foldl_larger_spec ρ.zero
    (List.zipWith (fun a b => Scalar.abs (a - b)) z.flatten (iterate p t x k).flatten)
  exact ⟨hfound.imp_right fun h => (hmem _).mp h, fun d hd => hlargest d ((hmem d).mpr hd)⟩

/-! ### Runs in any monad -/

section

variable {m : Type → Type} [Monad m] [LawfulMonad m] (tell : ℕ → MixedProfile α → m Unit)

/-- **A run with a small step** tells the iterates up to the first one and ends with it. -/
theorem run_converged {left n : ℕ} (hn : n < left) (made : ℕ)
    (hsmall : stepSize p t x (made + n + 1) < p.tolerance)
    (hfirst : ∀ j < n, ¬stepSize p t x (made + j + 1) < p.tolerance) (best : Ranked α) (step : α) :
    run p t tell left made (iterate p t x made) best step = (do
      (List.range' (made + 1) (n + 1)).forM fun k => tell k (iterate p t x k)
      pure (convergedAt p t x (made + n + 1))) := by
  induction left generalizing n made best step with
  | zero => exact absurd hn (Nat.not_lt_zero n)
  | succ left ih =>
    rw [run, List.range'_succ, List.forM_eq_forM, List.forM_cons, bind_assoc]
    congr 1
    funext _
    cases n with
    | zero =>
      have hsmall : (next p t (iterate p t x made)).1 < p.tolerance := hsmall
      rw [if_pos hsmall, List.range'_zero, List.forM_nil, pure_bind]
      rfl
    | succ n =>
      have hlarge : ¬(next p t (iterate p t x made)).1 < p.tolerance := hfirst 0 n.succ_pos
      rw [if_neg hlarge]
      have hshift : ∀ j, made + 1 + j + 1 = made + (j + 1) + 1 := fun j => by omega
      have hrest := ih (Nat.lt_of_succ_lt_succ hn) (made + 1) (by rwa [hshift])
        (fun j hj => by rw [hshift]; exact hfirst (j + 1) (Nat.succ_lt_succ hj))
        (best.lesser (rank t (iterate p t x (made + 1)))) (next p t (iterate p t x made)).1
      rw [hshift] at hrest
      exact hrest

/-- **A run without a small step** tells all iterates and ends with the one that was kept. -/
theorem run_limited (left made : ℕ)
    (hlarge : ∀ j < left, ¬stepSize p t x (made + j + 1) < p.tolerance) (best : Ranked α) :
    run p t tell left made (iterate p t x made) best (stepSize p t x made) = (do
      (List.range' (made + 1) left).forM fun k => tell k (iterate p t x k)
      pure (limitedAt p t x (made + left) (kept p t x best made left))) := by
  induction left generalizing made best with
  | zero =>
    rw [run, List.range'_zero, List.forM_eq_forM, List.forM_nil, pure_bind]
    rfl
  | succ left ih =>
    have hnot : ¬(next p t (iterate p t x made)).1 < p.tolerance := hlarge 0 left.succ_pos
    rw [run, List.range'_succ, List.forM_eq_forM, List.forM_cons, bind_assoc]
    congr 1
    funext _
    rw [if_neg hnot]
    have hrest := ih (made + 1)
      (fun j hj => by
        rw [Nat.succ_add_eq_add_succ made j]
        exact hlarge (j + 1) (Nat.succ_lt_succ hj))
      (best.lesser (rank t (iterate p t x (made + 1))))
    rw [Nat.succ_add_eq_add_succ made left] at hrest
    exact hrest

/-- **A whole run with a small step** ends with the first one. -/
theorem runFrom_converged {k : ℕ}
    (hk : IsLeast {k | 1 ≤ k ∧ k ≤ p.cap ∧ stepSize p t x k < p.tolerance} k) :
    runFrom p t x tell = (do
      (List.range' 1 k).forM fun i => tell i (iterate p t x i)
      pure (convergedAt p t x k)) := by
  obtain ⟨⟨hpos, hcap, hsmall⟩, hleast⟩ := hk
  obtain ⟨n, rfl⟩ := Nat.exists_eq_add_of_le' hpos
  have hfirst : ∀ j < n, ¬stepSize p t x (0 + j + 1) < p.tolerance := by
    intro j hj hlt
    rw [Nat.zero_add] at hlt
    have := hleast ⟨Nat.le_add_left 1 j, by omega, hlt⟩
    omega
  have hrun := run_converged tell hcap 0 (by rwa [Nat.zero_add]) hfirst (rank t x) 0
  rw [Nat.zero_add n] at hrun
  exact hrun

/-- **A whole run without a small step** makes all iterations. -/
theorem runFrom_limited (hlarge : ∀ k, 1 ≤ k → k ≤ p.cap → ¬stepSize p t x k < p.tolerance) :
    runFrom p t x tell = (do
      (List.range' 1 p.cap).forM fun i => tell i (iterate p t x i)
      pure (limitedAt p t x p.cap (kept p t x (rank t x) 0 p.cap))) := by
  have hrun := run_limited tell p.cap 0
    (fun j hj => hlarge (0 + j + 1) (Nat.le_add_left 1 _) (by omega)) (rank t x)
  rw [Nat.zero_add p.cap] at hrun
  exact hrun

end

/-! ### The profile that is kept -/

variable {K : Type} [LinearOrder K]

/-- **The earliest profile of a regret that no other undercuts** is kept. -/
theorem exists_least_regret (ρ : Ranking α K) (n : ℕ) :
    ∃ i, kept p t x (rank t x) 0 n = rank t (iterate p t x i) ∧
      IsLeast {i | i ≤ n ∧ ∀ j ≤ n, ¬t.regret (iterate p t x j) < t.regret (iterate p t x i)} i := by
  -- what was kept has been undercut by none, and it undercuts all before it
  have hkept : ∃ i ≤ n, kept p t x (rank t x) 0 n = rank t (iterate p t x i) ∧
      (∀ j ≤ n, ¬t.regret (iterate p t x j) < t.regret (iterate p t x i)) ∧
      ∀ j < i, t.regret (iterate p t x i) < t.regret (iterate p t x j) := by
    induction n with
    | zero =>
      refine ⟨0, le_rfl, rfl, fun j hj => ?_, fun j hj => absurd hj j.not_lt_zero⟩
      rw [Nat.le_zero.mp hj]
      exact ρ.lt_irrefl _
    | succ n ih =>
      obtain ⟨i, hi, hfold, hleast, hearlier⟩ := ih
      have hnext : kept p t x (rank t x) 0 (n + 1) =
          (rank t (iterate p t x i)).lesser (rank t (iterate p t x (n + 1))) := by
        rw [← hfold, kept, List.range'_concat, List.foldl_concat, Nat.one_mul,
          show 0 + 1 + n = n + 1 by omega]
        rfl
      by_cases hlt : t.regret (iterate p t x (n + 1)) < t.regret (iterate p t x i)
      · have hbelow : ∀ j ≤ n, t.regret (iterate p t x (n + 1)) < t.regret (iterate p t x j) :=
          fun j hj => ρ.undercuts (ρ.isSome_regret t _) hlt (hleast j hj)
        refine ⟨n + 1, le_rfl, hnext.trans (if_pos hlt), fun j hj => ?_,
          fun j hj => hbelow j (Nat.le_of_lt_succ hj)⟩
        cases Nat.le_succ_iff.mp hj with
        | inl hj => exact ρ.lt_asymm (hbelow j hj)
        | inr hj =>
          rw [hj]
          exact ρ.lt_irrefl _
      · refine ⟨i, Nat.le_succ_of_le hi, hnext.trans (if_neg hlt), fun j hj => ?_, hearlier⟩
        cases Nat.le_succ_iff.mp hj with
        | inl hj => exact hleast j hj
        | inr hj => rwa [hj]
  obtain ⟨i, hi, hfold, hleast, hearlier⟩ := hkept
  refine ⟨i, hfold, ⟨hi, hleast⟩, fun j hj => ?_⟩
  exact le_of_not_gt fun hji => hj.2 i hi (hearlier j hji)

end Iteration

/-! ### Runs in doubles -/

namespace ApproximateEquilibrium

open Iteration

variable {σ : Type} {s : ApproximationSettings} {g : Game} {start : MixedProfile Double}
  {note : ℕ → MixedProfile Double → σ → σ}

/-- How a run ends whose caller never fails, and what the caller then knows, who notes everything
that is told. -/
def watchFrom (s : ApproximationSettings) (g : Game) (start : MixedProfile Double)
    (note : ℕ → MixedProfile Double → σ → σ) (before : σ) :
    Except Failure (ApproximateEquilibrium Double) × σ :=
  (findFrom (m := ExceptT Failure (StateM σ)) s g start fun k x => modify (note k x)).run.run before

/-- What a caller knows after being told a list. -/
def noted (note : ℕ → MixedProfile Double → σ → σ) (before : σ)
    (list : List (ℕ × MixedProfile Double)) : σ :=
  list.foldl (fun known e => note e.1 e.2 known) before

theorem run_forM_note (x : ℕ → MixedProfile Double) (ks : List ℕ)
    (a : ApproximateEquilibrium Double) (before : σ) :
    ((do
        ks.forM fun k => modify (note k (x k))
        pure a : ExceptT Failure (StateM σ) (ApproximateEquilibrium Double))).run.run before =
      (.ok a, noted note before (ks.map fun k => (k, x k))) := by
  induction ks generalizing before with
  | nil => rfl
  | cons k ks ih => exact ih (note k (x k) before)

/-- A run that ends well met no obstacle. -/
theorem watchFrom_eq {before after : σ} {a : ApproximateEquilibrium Double}
    (h : watchFrom s g start note before = (.ok a, after)) :
    watchFrom s g start note before =
      (runFrom (m := ExceptT Failure (StateM σ)) (parameters s) (Payoffs.ofGame g) start
        fun k x => modify (note k x)).run.run before := by
  unfold watchFrom findFrom at h ⊢
  cases hobstacle : obstacle s g start with
  | ok _ => rfl
  | error e =>
    rw [hobstacle] at h
    cases (Prod.mk.inj h).1

/-- **What a run ends with.**  The first small step ends it, the profile after this step being the
outcome.  Without one the iterations allowed are all made, and the outcome is the earliest profile
whose regret no other one undercuts.  In both cases the caller has been told the iterates up to the
last one in order. -/
theorem findFrom_outcome {before after : σ} {a : ApproximateEquilibrium Double}
    (h : watchFrom s g start note before = (.ok a, after)) :
    let p := parameters s
    let t : Payoffs Double := Payoffs.ofGame g
    let x := iterate p t start
    (∀ k, IsLeast {k | 1 ≤ k ∧ k ≤ p.cap ∧ stepSize p t start k < p.tolerance} k →
      a = ⟨x k, .converged, k, stepSize p t start k, t.regret (x k)⟩ ∧
        after = noted note before ((List.range' 1 k).map fun i => (i, x i))) ∧
    ((∀ k, 1 ≤ k → k ≤ p.cap → ¬stepSize p t start k < p.tolerance) →
      after = noted note before ((List.range' 1 p.cap).map fun i => (i, x i)) ∧
        ∃ i, IsLeast {i | i ≤ p.cap ∧ ∀ j ≤ p.cap, ¬t.regret (x j) < t.regret (x i)} i ∧
          a = ⟨x i, .iterationLimit, p.cap, stepSize p t start p.cap, t.regret (x i)⟩) := by
  intro p t x
  rw [watchFrom_eq h] at h
  constructor
  · intro k hk
    rw [runFrom_converged _ hk, run_forM_note] at h
    have hend := Prod.mk.inj h
    exact ⟨(Except.ok.inj hend.1).symm, hend.2.symm⟩
  · intro hlarge
    rw [runFrom_limited _ hlarge, run_forM_note] at h
    have hend := Prod.mk.inj h
    obtain ⟨i, hkept, hleast⟩ := exists_least_regret (p := p) (t := t) (x := start) Double.ranking p.cap
    refine ⟨hend.2.symm, i, hleast, ?_⟩
    rw [← Except.ok.inj hend.1]
    show limitedAt p t start p.cap (kept p t start (rank t start) 0 p.cap) = _
    rw [hkept]
    rfl

/-- Steps of half the size of the one before, until one is below three tenths. -/
def halving : ApproximationSettings := ⟨3, 0.3, 0.5, none⟩

theorem findFrom_outcome_dilemma :
    ∃ a after, watchFrom halving Game.dilemma (MixedProfile.uniform Game.dilemma.counts)
        (fun k _ seen => seen ++ [k]) [] = (.ok a, after) ∧
      a.status = .converged ∧ a.iterations = 2 ∧ after = [1, 2] := by
  have hends : (watchFrom halving Game.dilemma (MixedProfile.uniform Game.dilemma.counts)
      (fun k _ seen => seen ++ [k]) []).1.toBool = true := by decide +kernel
  have hleast : IsLeast {k | 1 ≤ k ∧ k ≤ halving.iterationCap ∧
      stepSize (parameters halving) (Payoffs.ofGame Game.dilemma)
        (MixedProfile.uniform Game.dilemma.counts) k < .number halving.tolerance} 2 := by
    have hfirst : ¬stepSize (parameters halving) (Payoffs.ofGame Game.dilemma)
        (MixedProfile.uniform Game.dilemma.counts) 1 < .number halving.tolerance := by decide +kernel
    refine ⟨⟨by decide, by decide, by decide +kernel⟩, fun k hk => ?_⟩
    by_contra hlt
    have hone : k = 1 := by have := hk.1; omega
    exact hfirst (hone ▸ hk.2.2)
  cases hrun : watchFrom halving Game.dilemma (MixedProfile.uniform Game.dilemma.counts)
      (fun k _ seen => seen ++ [k]) [] with
  | mk outcome after =>
    cases outcome with
    | error e =>
      rw [hrun] at hends
      cases hends
    | ok a =>
      obtain ⟨ha, hafter⟩ := (findFrom_outcome hrun).1 2 hleast
      refine ⟨a, after, rfl, by rw [ha], by rw [ha], ?_⟩
      rw [hafter]
      rfl

end ApproximateEquilibrium

end Equilibria
