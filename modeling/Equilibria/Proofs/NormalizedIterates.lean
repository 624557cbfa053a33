import Mathlib
import Equilibria.Proofs.DampedIteration
import Equilibria.Proofs.IteratedRuns
import Equilibria.Proofs.Responses
import Equilibria.Proofs.StartingProfiles

/-!
# Iterates stay normalized

A damped step leads from a profile towards weights divided by their sums.  So an iteration that starts
near to a normalized profile stays there, up to the errors of rounding:

* `Polymatrix.near_response` — the rows of a response are nearly distributions, if no sum of weights
  leaves the range of doubles;
* `Iteration.near_iterate` — an iterate is as near as the start is, but for the errors of the steps
  before it, which the damping makes fade;
* `ApproximateEquilibrium.findFrom_normalized` — all that a run tells and what it ends with passes the
  test for a normalized profile.

The start is not tested for being normalized.  Nor are sums of weights tested for being finite: in
`ApproximateEquilibrium.watchFrom_unnormalized` a run ends with what is not a number.
-/

namespace Equilibria

/-! ### Responses -/

namespace Polymatrix

open Double (near_unitRow)
open MixedProfile (NearRows nearRows_ofWeights)

variable {t : Payoffs Double} {x : MixedProfile Double} {rules : PivotRules Double}

/-- The place of the first largest value is one of the places. -/
theorem firstBest_lt {α : Type} [Scalar α] {values : List α} (h : values ≠ []) :
    firstBest values < values.length := by
  obtain ⟨v, vs, rfl⟩ := List.exists_cons_of_ne_nil h
  refine List.foldlRecOn vs.zipIdx _ (motive := fun best : ℕ × α => best.1 < (v :: vs).length)
    (Nat.succ_pos _) fun best hbest e he => ?_
  split_ifs
  · exact Nat.succ_lt_succ (List.snd_lt_of_mem_zipIdx he)
  · exact hbest

/-- Whether the sum of each player's weights in the solution of the linearized game is of finite
size. -/
def sumsFinite (rules : PivotRules Double) (t : Payoffs Double) (x : MixedProfile Double) : Bool :=
  match (lcp t x).solve rules with
  | .ok z => (Seed.portions t.counts z).all fun row => (Scalar.sum row).isFinite
  | .error _ => true

theorem nearRows_bestResponse (hcounts : ∀ n ∈ t.counts, 0 < n) :
    NearRows (fun n => n / 2 ^ 50) (bestResponse t x) := by
  intro row hrow
  obtain ⟨p, hp, rfl⟩ := List.mem_map.mp hrow
  refine near_unitRow (firstBest_lt ?_) (by positivity)
  have hcount : t.count p ∈ t.counts := by
    rw [← map_count_players t]
    exact List.mem_map_of_mem hp
  rw [← List.length_pos_iff, Payoffs.length_strategyValues]
  exact hcounts _ hcount

/-- A number that is zero or positive has a value that is not negative. -/
theorem value_nonneg {a : Double} (h : a = 0 ∨ 0 < a) (ha : a.isFinite = true) : 0 ≤ a.value := by
  rcases h with rfl | hpos
  · exact Double.value_zero.ge
  · have hlt := (Double.lt_iff Double.finite_zero ha).mp hpos
    rw [Double.value_zero] at hlt
    exact hlt.le

/-- **The rows of a response are nearly distributions**, as long as the sums of weights are finite. -/
theorem near_response (hcounts : ∀ n ∈ t.counts, 0 < n ∧ n ≤ 2 ^ 20)
    (hfinite : 2 ≤ t.numPlayers → sumsFinite rules t x = true) :
    NearRows (fun n => n / 2 ^ 50) (response rules t x) := by
  have hbest := nearRows_bestResponse (x := x) fun n hn => (hcounts n hn).1
  unfold response
  split_ifs with hfew
  · exact hbest
  · have hfinite := hfinite (by omega)
    unfold sumsFinite at hfinite
    cases hsolve : (lcp t x).solve rules with
    | error e => exact hbest
    | ok z =>
      rw [hsolve] at hfinite
      obtain ⟨hlength, hentries⟩ := Lcp.solve_nonneg hsolve
      have hshape : (Seed.portions t.counts z).map List.length = t.counts := by
        refine map_length_portions ?_
        rw [hlength, size_lcp]
        exact Nat.le_add_right _ _
      have hsums : ∀ row ∈ Seed.portions t.counts z, (Scalar.sum row).isFinite = true :=
        List.all_eq_true.mp hfinite
      have hlengths : ∀ row ∈ Seed.portions t.counts z, 0 < row.length ∧ row.length ≤ 2 ^ 20 := by
        intro row hrow
        refine hcounts _ ?_
        rw [← hshape]
        exact List.mem_map_of_mem hrow
      refine nearRows_ofWeights hlengths (fun row hrow a ha => ?_) hsums
      have hmem : a ∈ z := by
        have hflat : a ∈ (Seed.portions t.counts z).flatten := List.mem_flatten.mpr ⟨row, hrow, ha⟩
        rw [flatten_portions] at hflat
        exact List.mem_of_mem_take hflat
      obtain ⟨-, hle⟩ := hlengths row hrow
      have hrow_finite := (Double.abs_sum_sub_le (by omega) (hsums row hrow)).1
      exact value_nonneg (hentries a hmem) (hrow_finite a ha)

end Polymatrix

/-! ### Iterates -/

namespace Iteration

open Double (near_blend)
open MixedProfile (NearRows)
open Polymatrix (near_response sumsFinite)

variable {p : Parameters Double} {t : Payoffs Double} {x z : MixedProfile Double} {ε ε' : ℕ → ℚ}

/-- **A damped step keeps the rows of a profile near to distributions.** -/
theorem nearRows_blend {w : Double} (hw : w.isFinite = true) (hzero : 0 ≤ w.value) (hone : w.value ≤ 1)
    (hshape : x.shape = z.shape) (hx : NearRows ε x) (hz : NearRows ε' z)
    (hsmall : ∀ n ∈ x.shape, n ≤ 2 ^ 20 ∧ ε n ≤ 1 / 10 ^ 9 ∧ ε' n ≤ 1 / 10 ^ 9) :
    NearRows (fun n => w.value * ε n + (1 - w.value) * ε' n + 1 / 2 ^ 49) (blend w x z) := by
  intro row hrow
  obtain ⟨i, hi, rfl⟩ := List.getElem_of_mem hrow
  have hrows : (blend w x z).probs =
      List.zipWith (List.zipWith fun a b => w * a + (1 - w) * b) x.probs z.probs := rfl
  obtain ⟨hxi, hzi⟩ : i < x.probs.length ∧ i < z.probs.length := by
    rwa [hrows, List.length_zipWith, lt_min_iff] at hi
  have hsame : x.probs[i].length = z.probs[i].length := by
    have hlength := congrArg (fun counts : List ℕ => counts.getD i 0) hshape
    simpa [MixedProfile.shape, hxi, hzi] using hlength
  obtain ⟨hle, hε, hε'⟩ := hsmall _ (List.mem_map_of_mem (List.getElem_mem hxi))
  have hnear := near_blend hw hzero hone (hx _ (List.getElem_mem hxi)) (hz _ (List.getElem_mem hzi))
    hsame hle hε (hsame ▸ hε')
  have hrow : (blend w x z).probs[i] =
      List.zipWith (fun a b => w * a + (1 - w) * b) x.probs[i] z.probs[i] := by
    simp only [hrows, List.getElem_zipWith]
  rw [hrow, List.length_zipWith, ← hsame, min_self]
  rwa [← hsame] at hnear

/-- How many steps' errors of rounding a profile carries at most.  The error of a step fades by the
damping at every later step. -/
def carriedSteps (cap : ℕ) (damping : ℚ) : ℚ := min cap (1 - damping)⁻¹

theorem sum_pow_le_carriedSteps {w : ℚ} {k cap : ℕ} (hzero : 0 ≤ w) (hone : w < 1) (hk : k ≤ cap) :
    ∑ j ∈ Finset.range k, w ^ j ≤ carriedSteps cap w := by
  have hrest : 0 < 1 - w := sub_pos.mpr hone
  refine le_min ?_ ?_
  · calc ∑ j ∈ Finset.range k, w ^ j ≤ ∑ _j ∈ Finset.range k, (1 : ℚ) :=
          Finset.sum_le_sum fun j _ => pow_le_one₀ hzero hone.le
      _ = k := by simp
      _ ≤ cap := Nat.cast_le.mpr hk
  · rw [← one_div, le_div_iff₀ hrest, mul_comm, mul_neg_geom_sum]
    exact sub_le_self 1 (pow_nonneg hzero k)

section

variable {cap k : ℕ}

/-- What the bound on all errors together says about a row and about the errors so far. -/
theorem bound_row (hzero : 0 ≤ p.damping.value) (hone : p.damping.value < 1) (hshape : x.shape = t.counts)
    (hx : NearRows ε x)
    (hbound : ∀ n ∈ t.counts, ε n + (carriedSteps cap p.damping.value + n) / 2 ^ 49 ≤ 1 / 10 ^ 9)
    (hk : k ≤ cap) {n : ℕ} (hn : n ∈ t.counts) : 0 ≤ ε n ∧ n ≤ 2 ^ 20 ∧
      ε n + n / 2 ^ 50 + (∑ j ∈ Finset.range k, p.damping.value ^ j) / 2 ^ 49 + n / 2 ^ 50 ≤
        1 / 10 ^ 9 := by
  have hε : 0 ≤ ε n := hx.nonneg (hshape ▸ hn)
  have hsum := sum_pow_le_carriedSteps hzero hone hk
  have hsum_nonneg : 0 ≤ ∑ j ∈ Finset.range k, p.damping.value ^ j :=
    Finset.sum_nonneg fun j _ => pow_nonneg hzero j
  have hall := hbound n hn
  have hle : (n : ℚ) ≤ 2 ^ 20 := by linarith
  exact ⟨hε, by exact_mod_cast hle, by linarith⟩

/-- **An iterate is as near to a normalized profile as the start**, but for the errors of the response
and those of the steps before it. -/
theorem near_iterate (hw : p.damping.isFinite = true) (hzero : 0 ≤ p.damping.value)
    (hone : p.damping.value < 1) (hcounts : ∀ n ∈ t.counts, 0 < n) (hshape : x.shape = t.counts)
    (hx : NearRows ε x)
    (hbound : ∀ n ∈ t.counts, ε n + (carriedSteps cap p.damping.value + n) / 2 ^ 49 ≤ 1 / 10 ^ 9)
    (hk : k ≤ cap)
    (hfinite : ∀ j < k, 2 ≤ t.numPlayers → sumsFinite p.rules t (iterate p t x j) = true) :
    NearRows (fun n => ε n + n / 2 ^ 50 + (∑ j ∈ Finset.range k, p.damping.value ^ j) / 2 ^ 49)
      (iterate p t x k) := by
  induction k with
  | zero =>
    refine fun row hmem => (hx row hmem).mono ?_
    show ε row.length ≤ ε row.length + row.length / 2 ^ 50 +
      (∑ j ∈ Finset.range 0, p.damping.value ^ j) / 2 ^ 49
    rw [Finset.range_zero, Finset.sum_empty, zero_div, add_zero]
    exact le_add_of_nonneg_right (by positivity)
  | succ k ih =>
    have hrow : ∀ n ∈ t.counts, 0 ≤ ε n ∧ n ≤ 2 ^ 20 ∧ ε n + n / 2 ^ 50 +
        (∑ j ∈ Finset.range k, p.damping.value ^ j) / 2 ^ 49 + n / 2 ^ 50 ≤ 1 / 10 ^ 9 :=
      fun n hn => bound_row hzero hone hshape hx hbound (Nat.le_of_succ_le hk) hn
    have hsum_nonneg : 0 ≤ ∑ j ∈ Finset.range k, p.damping.value ^ j :=
      Finset.sum_nonneg fun j _ => pow_nonneg hzero j
    have hnear := ih (Nat.le_of_succ_le hk) fun j hj => hfinite j (Nat.lt_succ_of_lt hj)
    have hresponse := near_response (x := iterate p t x k)
      (fun n hn => ⟨hcounts n hn, (hrow n hn).2.1⟩) (hfinite k (Nat.lt_succ_self k))
    have hsame := (shape_response_iterate (p := p) hshape k).symm
    have hblend := nearRows_blend hw hzero hone.le hsame hnear hresponse fun n hn => by
      obtain ⟨hε, hle, hall⟩ := hrow n (shape_iterate hshape k ▸ hn)
      have hn : (0 : ℚ) ≤ n := Nat.cast_nonneg n
      exact ⟨hle, by linarith, by linarith⟩
    refine fun row hmem => (hblend row hmem).mono ?_
    -- the errors before are damped by the step, and it adds its own
    have hmem' : row.length ∈ (iterate p t x (k + 1)).shape := List.mem_map_of_mem hmem
    rw [shape_iterate hshape] at hmem'
    have hε : 0 ≤ ε row.length := (hrow row.length hmem').1
    have hfade := mul_nonneg (sub_nonneg.mpr hone.le) hε
    dsimp only
    rw [geom_sum_succ]
    linarith

/-- **An iterate passes the test for a normalized profile**, if all errors together are small. -/
theorem isNormalized_iterate (hw : p.damping.isFinite = true) (hzero : 0 ≤ p.damping.value)
    (hone : p.damping.value < 1) (hcounts : ∀ n ∈ t.counts, 0 < n) (hshape : x.shape = t.counts)
    (hx : NearRows ε x)
    (hbound : ∀ n ∈ t.counts, ε n + (carriedSteps cap p.damping.value + n) / 2 ^ 49 ≤ 1 / 10 ^ 9)
    (hk : k ≤ cap)
    (hfinite : ∀ j < k, 2 ≤ t.numPlayers → sumsFinite p.rules t (iterate p t x j) = true) :
    (iterate p t x k).isNormalized = true := by
  refine (near_iterate hw hzero hone hcounts hshape hx hbound hk hfinite).isNormalized fun n hn => ?_
  rw [shape_iterate hshape] at hn
  exact ⟨hcounts n hn, (bound_row hzero hone hshape hx hbound hk hn).2⟩

end

end Iteration

/-! ### Runs in doubles -/

namespace ApproximateEquilibrium

open Iteration
open Polymatrix (sumsFinite)

/-- Whether a run makes another step after `k` iterations: none so far was small. -/
def GoesOn (p : Parameters Double) (t : Payoffs Double) (start : MixedProfile Double) (k : ℕ) : Prop :=
  ∀ j, 1 ≤ j → j ≤ k → ¬stepSize p t start j < p.tolerance

/-- What a run tells and what it ends with, in any monad: the iterates up to the last one made, and one
of them or the start. -/
theorem exists_runFrom {m : Type → Type} [Monad m] [LawfulMonad m] (p : Parameters Double)
    (t : Payoffs Double) (start : MixedProfile Double) (tell : ℕ → MixedProfile Double → m Unit) :
    ∃ n a i, n ≤ p.cap ∧ i ≤ n ∧ (∀ k < n, GoesOn p t start k) ∧ a.profile = iterate p t start i ∧
      runFrom p t start tell = (do
        (List.range' 1 n).forM fun k => tell k (iterate p t start k)
        pure a) := by
  classical
  by_cases hsmall : ∃ k, 1 ≤ k ∧ k ≤ p.cap ∧ stepSize p t start k < p.tolerance
  · have hleast : IsLeast {k | 1 ≤ k ∧ k ≤ p.cap ∧ stepSize p t start k < p.tolerance}
        (Nat.find hsmall) := ⟨Nat.find_spec hsmall, fun j hj => Nat.find_min' hsmall hj⟩
    refine ⟨Nat.find hsmall, _, Nat.find hsmall, hleast.1.2.1, le_rfl, fun k hk j hj hjk hlt => ?_, rfl,
      runFrom_converged tell hleast⟩
    have hle := hleast.2 ⟨hj, by have := hleast.1.2.1; omega, hlt⟩
    omega
  · have hlarge : ∀ k, 1 ≤ k → k ≤ p.cap → ¬stepSize p t start k < p.tolerance :=
      fun k hk hcap hlt => hsmall ⟨k, hk, hcap, hlt⟩
    obtain ⟨i, hkept, hleast⟩ := exists_least_regret (p := p) (t := t) (x := start) Double.ranking p.cap
    refine ⟨p.cap, _, i, le_rfl, hleast.1.1, fun k hk j hj hjk => hlarge j hj (by omega), ?_,
      runFrom_limited tell hlarge⟩
    show (kept p t start (rank t start) 0 p.cap).profile = _
    rw [hkept]
    rfl

theorem eq_ok_of_toBool {ε : Type} {check : Except ε Unit} (h : check.toBool = true) :
    check = .ok () := by
  cases check with
  | error e => cases h
  | ok => rfl

/-- What is known when nothing keeps a run from beginning. -/
theorem of_obstacle {s : ApproximationSettings} {g : Game} {start : MixedProfile Double}
    (hok : obstacle s g start = .ok ()) :
    isDamping s.damping = true ∧ (∀ n ∈ g.counts, 0 < n) ∧ start.shape = g.counts := by
  unfold obstacle at hok
  split at hok
  · cases hok
  · next hsettings =>
    split at hok
    · cases hok
    · next hgame =>
      split_ifs at hok with hshape
      refine ⟨?_, fun n hn => ?_, not_not.mp hshape⟩
      · unfold ApproximationSettings.validate at hsettings
        split_ifs at hsettings with hcap htolerance hdamping
        simpa using hdamping
      · obtain ⟨p, hp, rfl⟩ := List.mem_map.mp hn
        exact List.length_pos_iff.mpr ((Game.validate_eq_ok_iff.mp hgame).2 p hp)

/-- The damping of a run that begins, as a rational. -/
theorem damping_parameters {s : ApproximationSettings} {g : Game} {start : MixedProfile Double} {w : ℚ}
    (hok : obstacle s g start = .ok ()) (hw : Binary64.toRational? s.damping = some w) :
    (parameters s).damping.isFinite = true ∧ (parameters s).damping.value = w ∧ 0 ≤ w ∧ w < 1 := by
  obtain ⟨w', hw', hzero, hone⟩ := toRational?_of_isDamping (of_obstacle hok).1
  obtain rfl : w = w' := Option.some.inj (hw.symm.trans hw')
  refine ⟨?_, ?_, hzero, hone⟩
  · rw [Double.isFinite_eq]
    show (Binary64.toRational? s.damping).isSome = true
    rw [hw]
    rfl
  · show (Binary64.toRational? s.damping).getD 0 = w
    rw [hw]
    rfl

/-- **All that a run tells is normalized, and so is what it ends with**, when the start is near enough to
a normalized profile: the distance of the start, the errors of the steps and those of the sums have to
stay below the tolerance together.  The starts that settings name are near enough by `nearRows_start`.
Left out are runs in which the sum of some player's weights is too large for a double.  With two players
and moderate payoffs that is settled at the start. -/
theorem findFrom_normalized {m : Type → Type} [Monad m] [LawfulMonad m] [MonadExceptOf Failure m]
    {s : ApproximationSettings} {g : Game} {start : MixedProfile Double}
    (tell : ℕ → MixedProfile Double → m Unit) {ε : ℕ → ℚ} {w : ℚ} (hok : obstacle s g start = .ok ())
    (hstart : start.NearRows ε) (hw : Binary64.toRational? s.damping = some w)
    (hbound : ∀ n ∈ g.counts, ε n + (carriedSteps s.iterationCap w + n) / 2 ^ 49 ≤ 1 / 10 ^ 9)
    (hfinite : ∀ k < s.iterationCap, GoesOn (parameters s) (Payoffs.ofGame g) start k →
      2 ≤ g.numPlayers → sumsFinite (parameters s).rules (Payoffs.ofGame g)
        (iterate (parameters s) (Payoffs.ofGame g) start k) = true) :
    ∃ n a, n ≤ s.iterationCap ∧
      findFrom s g start tell = (do
        (List.range' 1 n).forM fun k =>
          tell k (iterate (parameters s) (Payoffs.ofGame g) start k)
        pure a) ∧
      (∀ k, 1 ≤ k → k ≤ n →
        (iterate (parameters s) (Payoffs.ofGame g) start k).isNormalized = true) ∧
      a.profile.isNormalized = true := by
  obtain ⟨-, hcounts, hshape⟩ := of_obstacle hok
  obtain ⟨hfinite', hvalue, hzero, hone⟩ := damping_parameters hok hw
  obtain ⟨n, a, i, hn, hi, hgoes, hprofile, hrun⟩ :=
    exists_runFrom (parameters s) (Payoffs.ofGame g) start tell
  have hnormal : ∀ k ≤ n, (iterate (parameters s) (Payoffs.ofGame g) start k).isNormalized = true := by
    intro k hk
    exact isNormalized_iterate hfinite' (hvalue ▸ hzero) (hvalue ▸ hone) hcounts hshape hstart
      (hvalue ▸ hbound) (hk.trans hn) fun j hj htwo =>
        hfinite j (hj.trans_le (hk.trans hn)) (hgoes j (hj.trans_le hk))
          (htwo.trans_eq (Game.length_counts g))
  refine ⟨n, a, hn, ?_, fun k _ hk => hnormal k hk, hprofile ▸ hnormal i hi⟩
  unfold findFrom
  rw [hok]
  exact hrun

/-- A run from the uniform profile of the dilemma keeps to normalized profiles. -/
theorem findFrom_normalized_dilemma :
    ∃ n a, n ≤ halving.iterationCap ∧
      findFrom (m := Except Failure) halving Game.dilemma (MixedProfile.uniform Game.dilemma.counts)
        (fun _ _ => .ok ()) = .ok a ∧
      (∀ k, 1 ≤ k → k ≤ n → (iterate (parameters halving) (Payoffs.ofGame Game.dilemma)
        (MixedProfile.uniform Game.dilemma.counts) k).isNormalized = true) ∧
      a.profile.isNormalized = true := by
  have hok : obstacle halving Game.dilemma (MixedProfile.uniform Game.dilemma.counts) = .ok () :=
    eq_ok_of_toBool (by decide +kernel)
  have hstart : MixedProfile.NearRows (fun n => n / 2 ^ 50) (MixedProfile.uniform Game.dilemma.counts) :=
    nearRows_start (by decide) rfl halving
  have hw : Binary64.toRational? halving.damping = some (1 / 2) := by decide +kernel
  have hbound : ∀ n ∈ Game.dilemma.counts,
      (n / 2 ^ 50 : ℚ) + (carriedSteps halving.iterationCap (1 / 2) + n) / 2 ^ 49 ≤ 1 / 10 ^ 9 := by
    decide +kernel
  have hfinite : ∀ k < halving.iterationCap,
      sumsFinite (parameters halving).rules (Payoffs.ofGame Game.dilemma)
        (iterate (parameters halving) (Payoffs.ofGame Game.dilemma)
          (MixedProfile.uniform Game.dilemma.counts) k) = true := by decide +kernel
  obtain ⟨n, a, hn, hrun, hnormal, hlast⟩ := findFrom_normalized (m := Except Failure)
    (fun _ _ => .ok ()) hok hstart hw hbound fun k hk _ _ => hfinite k hk
  refine ⟨n, a, hn, hrun.trans ?_, hnormal, hlast⟩
  have htold : ∀ ks : List ℕ, (ks.forM fun _ => (.ok () : Except Failure PUnit)) = .ok () := by
    intro ks
    induction ks with
    | nil => rfl
    | cons k ks ih => exact ih
  rw [htold]
  rfl

/-- Two players of one strategy each. -/
def choiceless : Game :=
  ⟨"Choiceless", [⟨"Row", ["only"]⟩, ⟨"Column", ["only"]⟩], [[1, 1]], [1, 1]⟩

/-- Three players with payoffs far below zero. -/
def chasm : Game :=
  ⟨"Chasm", [⟨"First", ["low", "middle", "high"]⟩, ⟨"Second", ["only"]⟩, ⟨"Third", ["low", "high"]⟩],
    [[0, -10 ^ 292, -10 ^ 292], [0, -10 ^ 292, -10 ^ 292], [0, 0, 0], [-10 ^ 292, 0, 0],
      [0, 0, -10 ^ 292], [0, -10 ^ 292, 0]], [1, 3, 3]⟩

/-- One iteration, half of the way to the response. -/
def halfStep : ApproximationSettings := ⟨1, 0.3, 0.5, none⟩

/-- A caller who only notes which of the profiles told are normalized. -/
def noteNormal (_ : ℕ) (x : MixedProfile Double) (seen : List Bool) : List Bool := seen ++ [x.isNormalized]

/-- The start is tested for its shape only.  From the profile that gives two to the one strategy of each
player, what a run tells exceeds one. -/
example : (watchFrom halfStep choiceless ⟨[[.number 2], [.number 2]]⟩ noteNormal []).2 = [false] := by
  decide +kernel

/-- **A run may leave the normalized profiles from the uniform start.**  When payoffs are so large that
the weights of a response have no finite sum, the response is not a number, and the run goes on. -/
theorem watchFrom_unnormalized :
    halfStep.validate = .ok () ∧ chasm.Valid ∧
      ∃ a, watchFrom halfStep chasm (MixedProfile.uniform chasm.counts) noteNormal [] =
        (.ok a, [false]) ∧ a.profile.isNormalized = false := by
  have hended : ∀ {run : Except Failure (ApproximateEquilibrium Double) × List Bool} {told : List Bool},
      run.map (fun ending => ending.toOption.map fun a => a.profile.isNormalized) id =
          (some false, told) →
        ∃ a, run = (.ok a, told) ∧ a.profile.isNormalized = false := by
    rintro ⟨_ | a, _⟩ told h
    · cases h
    · obtain ⟨hends, rfl⟩ := Prod.mk.inj h
      exact ⟨a, rfl, Option.some.inj hends⟩
  exact ⟨eq_ok_of_toBool (by decide +kernel), ⟨rfl, rfl⟩, hended (by decide +kernel)⟩

end ApproximateEquilibrium

end Equilibria
