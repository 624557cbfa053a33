import Mathlib
import Equilibria.Proofs.LinearizedTwoPlayers
import Equilibria.Proofs.ModerateDoubles
import Equilibria.Proofs.NormalizedIterates
import Equilibria.Proofs.SignedZeros

/-!
# Two players in doubles

A game of two players is its own linearization in doubles too.  Zero times a player's own values is
taken off the payoffs for each pair, which changes no bit as long as the values are finite and none of
the payoffs is a negative zero:

* `Payoffs.notNegativeZero_pairValues`, `Payoffs.isFinite_strategyValues` — this is so near to a
  distribution, if the payoffs are moderate;
* `Polymatrix.lcp_two_congr` — hence the problem is the same at all such profiles, bit for bit;
* `Iteration.sumsFinite_iterate`, `ApproximateEquilibrium.sumsFinite_of_payoffs` — so one look at its
  solution tells whether all iterates of a run stay normalized.

A bound on the payoffs alone does not tell that.  A pivot may be as small as the tolerance, and then
the next table holds squares of the entries before, however many pivots are made.  With more players
the problem is another one at every iterate.
-/

namespace Equilibria

/-! ### Terms -/

theorem forall_mem_modify {β : Type} {P Q : β → Prop} {f : β → β} {l : List β} (i : ℕ)
    (hl : ∀ a ∈ l, P a) (hkeep : ∀ a, P a → Q a) (hf : ∀ a, P a → Q (f a)) :
    ∀ a ∈ l.modify i f, Q a := by
  intro a ha
  obtain ⟨k, hk, rfl⟩ := List.getElem_of_mem ha
  rw [List.length_modify] at hk
  rw [List.getElem_modify]
  split_ifs
  · exact hf _ (hl _ (List.getElem_mem hk))
  · exact hkeep _ (hl _ (List.getElem_mem hk))

namespace Payoffs

open Double (NotNegativeZero)

variable {t : Payoffs Double} {x : MixedProfile Double} {p q : ℕ}

/-- The values for pairs of strategies are added up from zero, so none of them is a negative zero. -/
theorem notNegativeZero_pairValues {row : List Double} (hrow : row ∈ t.pairValues x p q) {v : Double}
    (hv : v ∈ row) : NotNegativeZero v := by
  have hall : ∀ row ∈ t.pairValues x p q, ∀ v ∈ row, NotNegativeZero v := by
    rw [pairValues_eq]
    refine List.foldlRecOn _ _ (motive := fun values : List (List Double) =>
      ∀ row ∈ values, ∀ v ∈ row, NotNegativeZero v) ?_ fun values hvalues c _ => ?_
    · intro row hrow v hv
      rw [List.eq_of_mem_replicate hrow] at hv
      rw [List.eq_of_mem_replicate hv]
      exact Double.notNegativeZero_zero
    · unfold addPair
      split_ifs
      · exact hvalues
      · exact forall_mem_modify _ hvalues (fun _ => id) fun row hrow =>
          forall_mem_modify _ hrow (fun _ => id) fun v hv => hv.add _
  exact hall row hrow v hv

end Payoffs

/-! ### Values of strategies -/

namespace MixedProfile

open Double (Within)

/-- The entries of a profile that is near to distributions are moderate. -/
theorem NearRows.within_get {x : MixedProfile Double} {ε : ℕ → ℚ} (h : NearRows ε x)
    (hsmall : ∀ n ∈ x.shape, n ≤ 2 ^ 20 ∧ ε n ≤ 1 / 10 ^ 9) (q a : ℕ) : Within 2 (x.get q a) := by
  rw [get]
  rcases lt_or_ge a (x.player q).length with ha | ha
  · have hq := lt_length_of_lt_player ha
    have hrow : x.player q ∈ x.probs := by
      rw [player, List.getD_eq_getElem _ _ hq]
      exact List.getElem_mem hq
    obtain ⟨hlength, hε⟩ := hsmall _ (List.mem_map_of_mem hrow)
    rw [List.getD_eq_getElem _ _ ha]
    exact ⟨(h _ hrow).finite _ (List.getElem_mem ha),
      (h _ hrow).abs_value_le_two hlength hε (List.getElem_mem ha)⟩
  · rw [List.getD_eq_default _ _ ha]
    exact Double.within_zero two_pos.le

end MixedProfile

namespace Payoffs

open Double (Within)

variable {t : Payoffs Double} {x : MixedProfile Double} {p : ℕ}

/-- With two players, the probability of the other one's strategy is the weight of a row. -/
theorem within_weight (hx : ∀ q a, Within 2 (x.get q a)) {s : List ℕ} (hlength : s.length = 2) (hp : p < 2) :
    Within 5 (weight x [p] s) := by
  obtain ⟨a, b, rfl⟩ := List.length_eq_two.mp hlength
  have hfactor : ∀ q a, Within 5 (1 * x.get q a) := fun q a =>
    (Double.within_one.mul (hx q a) (by norm_num)).mono (by norm_num)
  obtain rfl | rfl : p = 0 ∨ p = 1 := by omega
  · exact hfactor 1 b
  · exact hfactor 0 a

/-- Every row adds to a value no more than a moderate amount. -/
theorem within_foldl_addAt {rows : List (List Double × List ℕ)} {values : List Double} {c : ℚ}
    (hrows : ∀ r ∈ rows, Within (2 ^ 105) (weight x [p] r.2 * r.1.getD p 0))
    (hvalues : ∀ v ∈ values, Within c v) (hc : c + rows.length * 2 ^ 106 ≤ 2 ^ 149) :
    ∀ v ∈ rows.foldl (fun values r =>
        if Scalar.isZero (weight x [p] r.2) then values
        else addAt values (r.2.getD p 0) (weight x [p] r.2 * r.1.getD p 0)) values,
      Within (c + rows.length * 2 ^ 106) v := by
  induction rows generalizing values c with
  | nil => simpa using hvalues
  | cons r rows ih =>
    have hstep : ∀ v ∈ (if Scalar.isZero (weight x [p] r.2) then values
        else addAt values (r.2.getD p 0) (weight x [p] r.2 * r.1.getD p 0)),
        Within (c + 2 ^ 106) v := by
      rw [List.length_cons] at hc
      push_cast at hc
      split_ifs
      · exact fun v hv => (hvalues v hv).mono (by norm_num)
      · have hterm := hrows r List.mem_cons_self
        have hnonneg : (0 : ℚ) ≤ rows.length * 2 ^ 106 := by positivity
        refine forall_mem_modify _ hvalues (fun v hv => hv.mono (by norm_num)) fun v hv => ?_
        exact (hv.add hterm (by norm_num at hc hnonneg ⊢; linarith)).mono (by norm_num; linarith)
    rw [List.length_cons] at hc ⊢
    push_cast at hc ⊢
    rw [List.foldl_cons, add_mul, one_mul, add_comm (_ * _), ← add_assoc]
    exact ih (fun r' hr' => hrows r' (List.mem_cons_of_mem _ hr')) hstep (by linarith)

variable {g : Game}

/-- The payoffs in a row of the table are moderate if those of the game are. -/
theorem within_payoff (hpayoffs : ∀ row ∈ g.payoffs, ∀ v ∈ row, |v| ≤ 2 ^ 100) {r : List Double × List ℕ}
    (hr : r ∈ (ofGame g : Payoffs Double).rows) (p : ℕ) : Within (2 ^ 101) (r.1.getD p 0) := by
  obtain ⟨row, hrow, hmap⟩ := List.mem_map.mp (List.of_mem_zip hr).1
  rw [← hmap]
  rcases lt_or_ge p row.length with hlt | hge
  · rw [List.getD_eq_getElem _ _ (by simpa using hlt), List.getElem_map]
    exact Double.within_ofRational (hpayoffs row hrow _ (List.getElem_mem hlt))
  · rw [List.getD_eq_default _ _ (by simpa using hge)]
    exact Double.within_zero (by norm_num)

theorem length_rows_two_le (h : g.Valid) (htwo : g.numPlayers = 2) (hcounts : ∀ n ∈ g.counts, n ≤ 2 ^ 20) :
    (ofGame g : Payoffs Double).rows.length ≤ 2 ^ 20 * 2 ^ 20 := by
  obtain ⟨m, n, hmn⟩ := List.length_eq_two.mp ((Game.length_counts g).trans htwo)
  have htable : (ofGame g : Payoffs Double).table.length = m * n := by
    rw [ofGame, List.length_map, h.complete, hmn, List.prod_pair]
  calc (ofGame g : Payoffs Double).rows.length
      ≤ (ofGame g : Payoffs Double).table.length := List.length_zip.trans_le (min_le_left _ _)
    _ = m * n := htable
    _ ≤ 2 ^ 20 * 2 ^ 20 := Nat.mul_le_mul (hcounts m (by simp [hmn])) (hcounts n (by simp [hmn]))

/-- **The values of the strategies of two players are of finite size**, if the payoffs are moderate. -/
theorem isFinite_strategyValues (h : g.Valid) (htwo : g.numPlayers = 2)
    (hcounts : ∀ n ∈ g.counts, n ≤ 2 ^ 20) (hpayoffs : ∀ row ∈ g.payoffs, ∀ v ∈ row, |v| ≤ 2 ^ 100)
    (hx : ∀ q a, Within 2 (x.get q a)) (hp : p < 2) :
    ∀ v ∈ (ofGame g).strategyValues x p, v.isFinite = true := by
  have hrows : ∀ r ∈ (ofGame g : Payoffs Double).rows,
      Within (2 ^ 105) (weight x [p] r.2 * r.1.getD p 0) := by
    intro r hr
    have hlength : r.2.length = 2 := by
      rw [length_of_mem_profiles (h.mem_profiles_of_mem_rows hr), Game.length_counts, htwo]
    exact ((within_weight hx hlength hp).mul (within_payoff hpayoffs hr p) (by norm_num)).mono
      (by norm_num)
  have hlength : ((ofGame g : Payoffs Double).rows.length : ℚ) ≤ 2 ^ 20 * 2 ^ 20 := by
    exact_mod_cast length_rows_two_le h htwo hcounts
  have hsum : (0 : ℚ) + (ofGame g : Payoffs Double).rows.length * 2 ^ 106 ≤ 2 ^ 149 := by
    have hscaled := mul_le_mul_of_nonneg_right hlength (show (0 : ℚ) ≤ 2 ^ 106 by positivity)
    exact (zero_add _).trans_le (hscaled.trans (by norm_num))
  intro v hv
  refine (within_foldl_addAt hrows (fun v hv => ?_) hsum v hv).finite
  rw [List.eq_of_mem_replicate hv]
  exact Double.within_zero le_rfl

end Payoffs

/-! ### The problem -/

namespace Polymatrix

open Double (Within)

variable {g : Game} {x x' : MixedProfile Double} {p q : ℕ}

/-- With two players zero times a player's own values is taken off. -/
theorem toRational?_scale_two {t : Payoffs Double} (htwo : t.numPlayers = 2) :
    (scale t).toRational? = some 0 := by
  rw [scale, htwo]
  decide +kernel

theorem block_two_congr {t : Payoffs Double} (htwo : t.numPlayers = 2)
    (hpairs : t.pairValues x p q = t.pairValues x' p q)
    (hfinite : ∀ v ∈ t.strategyValues x p, v.isFinite = true)
    (hfinite' : ∀ v ∈ t.strategyValues x' p, v.isFinite = true) : block t x p q = block t x' p q := by
  have hscale := toRational?_scale_two htwo
  unfold block
  dsimp only
  rw [hpairs]
  apply List.ext_getElem
  · simp [Payoffs.length_strategyValues]
  · intro i hi hi'
    rw [List.getElem_zipWith, List.getElem_zipWith]
    refine List.map_congr_left fun v hv => ?_
    -- a player's own values are finite, so what is taken off is a zero of some sign
    exact (Payoffs.notNegativeZero_pairValues (List.getElem_mem _) hv).sub_congr
      (Double.toRational?_zero_mul hscale (hfinite _ (List.getElem_mem _)))
      (Double.toRational?_zero_mul hscale (hfinite' _ (List.getElem_mem _)))

/-- **In doubles too the problem of two players is the same at all profiles near to distributions**, if
the payoffs are moderate. -/
theorem lcp_two_congr (h : g.Valid) (htwo : g.numPlayers = 2) (hcounts : ∀ n ∈ g.counts, n ≤ 2 ^ 20)
    (hpayoffs : ∀ row ∈ g.payoffs, ∀ v ∈ row, |v| ≤ 2 ^ 100) (hx : ∀ q a, Within 2 (x.get q a))
    (hx' : ∀ q a, Within 2 (x'.get q a)) : lcp (Payoffs.ofGame g) x = lcp (Payoffs.ofGame g) x' := by
  have hplayers : (Payoffs.ofGame g : Payoffs Double).numPlayers = 2 := (Game.length_counts g).trans htwo
  refine lcp_congr_of_block fun p q hp hq hqp => ?_
  rw [hplayers] at hp hq
  exact block_two_congr hplayers (pairValues_two h htwo hp hq hqp x x')
    (Payoffs.isFinite_strategyValues h htwo hcounts hpayoffs hx hp)
    (Payoffs.isFinite_strategyValues h htwo hcounts hpayoffs hx' hp)

end Polymatrix

/-! ### Runs -/

namespace Iteration

open MixedProfile (NearRows)
open Polymatrix (sumsFinite)

variable {p : Parameters Double} {g : Game} {x : MixedProfile Double} {ε : ℕ → ℚ} {cap k : ℕ}

/-- **With two players and moderate payoffs one look at the sums of weights is enough**: if they are
finite at the start, they are so at every iterate. -/
theorem sumsFinite_iterate (h : g.Valid) (htwo : g.numPlayers = 2)
    (hpayoffs : ∀ row ∈ g.payoffs, ∀ v ∈ row, |v| ≤ 2 ^ 100) (hw : p.damping.isFinite = true)
    (hzero : 0 ≤ p.damping.value) (hone : p.damping.value < 1) (hshape : x.shape = g.counts)
    (hx : NearRows ε x)
    (hbound : ∀ n ∈ g.counts, ε n + (carriedSteps cap p.damping.value + n) / 2 ^ 49 ≤ 1 / 10 ^ 9)
    (hfirst : sumsFinite p.rules (Payoffs.ofGame g) x = true) (hk : k ≤ cap) :
    sumsFinite p.rules (Payoffs.ofGame g) (iterate p (Payoffs.ofGame g) x k) = true := by
  have hcounts : ∀ n ∈ g.counts, 0 < n := by
    intro n hn
    obtain ⟨player, hplayer, rfl⟩ := List.mem_map.mp hn
    exact List.length_pos_iff.mpr ((Game.validate_eq_ok_iff.mp h.accepted).2 player hplayer)
  induction k using Nat.strong_induction_on with
  | _ k ih =>
    -- the iterates before keep this one near to distributions, so it has the problem of the start
    have hnear := near_iterate hw hzero hone hcounts hshape hx hbound hk
      fun j hj _ => ih j hj (hj.le.trans hk)
    have hrow := fun n (hn : n ∈ g.counts) =>
      bound_row (t := Payoffs.ofGame g) hzero hone hshape hx hbound hk hn
    have hsum : 0 ≤ ∑ j ∈ Finset.range k, p.damping.value ^ j :=
      Finset.sum_nonneg fun j _ => pow_nonneg hzero j
    have hget := hnear.within_get fun n hn => by
      rw [shape_iterate (t := Payoffs.ofGame g) hshape] at hn
      obtain ⟨hε, hle, hall⟩ := hrow n hn
      have hn : (0 : ℚ) ≤ n := Nat.cast_nonneg n
      exact ⟨hle, by linarith⟩
    have hget' := hx.within_get fun n hn => by
      obtain ⟨hε, hle, hall⟩ := hrow n (hshape ▸ hn)
      have hn : (0 : ℚ) ≤ n := Nat.cast_nonneg n
      exact ⟨hle, by linarith⟩
    have hsame := Polymatrix.lcp_two_congr h htwo (fun n hn => (hrow n hn).2.1) hpayoffs hget hget'
    rw [sumsFinite, hsame]
    exact hfirst

end Iteration

namespace ApproximateEquilibrium

open Iteration
open Polymatrix (sumsFinite)

/-- **When two players' payoffs are moderate**, no iterate of a run has weights without a finite sum
unless the start has: all linearized games are the same. -/
theorem sumsFinite_of_payoffs {s : ApproximationSettings} {g : Game} {start : MixedProfile Double}
    {ε : ℕ → ℚ} {w : ℚ} (h : g.Valid) (htwo : g.numPlayers = 2)
    (hpayoffs : ∀ row ∈ g.payoffs, ∀ v ∈ row, |v| ≤ 2 ^ 100) (hok : obstacle s g start = .ok ())
    (hstart : start.NearRows ε) (hw : Binary64.toRational? s.damping = some w)
    (hbound : ∀ n ∈ g.counts, ε n + (carriedSteps s.iterationCap w + n) / 2 ^ 49 ≤ 1 / 10 ^ 9)
    (hfirst : sumsFinite (parameters s).rules (Payoffs.ofGame g) start = true) {k : ℕ}
    (hk : k ≤ s.iterationCap) : sumsFinite (parameters s).rules (Payoffs.ofGame g)
      (iterate (parameters s) (Payoffs.ofGame g) start k) = true := by
  obtain ⟨-, -, hshape⟩ := of_obstacle hok
  obtain ⟨hfinite, rfl, hzero, hone⟩ := damping_parameters hok hw
  exact sumsFinite_iterate h htwo hpayoffs hfinite hzero hone hshape hstart hbound hfirst hk

/-- Every iterate of the dilemma under the standard settings, after one look at its problem. -/
example (k : ℕ) (hk : k ≤ ApproximationSettings.standard.iterationCap) :
    sumsFinite (parameters .standard).rules (Payoffs.ofGame Game.dilemma)
      (iterate (parameters .standard) (Payoffs.ofGame Game.dilemma)
        (MixedProfile.uniform Game.dilemma.counts) k) = true :=
  sumsFinite_of_payoffs (w := 3602879701896397 / 2 ^ 54) Game.valid_dilemma rfl (by decide +kernel)
    (eq_ok_of_toBool (by decide +kernel)) (nearRows_start (by decide) rfl .standard)
    (by decide +kernel) (by decide +kernel) (by decide +kernel) hk

end ApproximateEquilibrium

end Equilibria
