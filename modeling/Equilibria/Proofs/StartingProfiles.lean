import Mathlib
import Equilibria.Approximation.Iteration
import Equilibria.Proofs.NearDistributions
import Equilibria.Proofs.PolymatrixProblem

/-!
# Where runs start

A run starts from the uniform profile or from the weights of a seed.  Whatever the seed, its keystream
is long enough and its weights are moderate:

* `Keystream.length_words`, `Seed.length_weights` — how many words and how many weights there are;
* `Seed.weight_spec` — a weight is finite and lies between zero and two;
* `ApproximateEquilibrium.nearRows_start` — so either start is near to a normalized profile.
-/

namespace Equilibria

/-! ### Lengths -/

namespace Keystream

theorem length_mix (a b d : ℕ) (n : UInt32) (s : State) : (mix a b d n s).length = s.length := by
  simp only [mix, List.length_set]

theorem length_doubleRound (s : State) : (doubleRound s).length = s.length := by
  simp only [doubleRound, quarterRound, length_mix]

theorem length_rounds (n : ℕ) (s : State) : (rounds n s).length = s.length := by
  induction n generalizing s with
  | zero => rfl
  | succ n ih => rw [rounds, ih, length_doubleRound]

theorem length_block {key : List UInt32} (hkey : key.length = 8) (counter : ℕ) :
    (block key counter).length = 16 := by
  have hinitial : (initial key counter).length = 16 := by
    simp only [initial, List.length_append, hkey, List.length_cons, List.length_nil]
  simp only [block, List.length_zipWith, length_rounds, hinitial, min_self]

/-- The keystream comes in blocks of sixteen words. -/
theorem length_words {key : List UInt32} (hkey : key.length = 8) (count : ℕ) :
    (words key count).length = 16 * (count / 16 + 1) := by
  rw [words, List.length_flatMap, List.map_congr_left fun counter _ => length_block hkey counter,
    List.map_const', List.sum_replicate, List.length_range, smul_eq_mul, mul_comm]

end Keystream

namespace Seed

theorem length_keyFrom (n : ℕ) (s : UInt64) : (keyFrom n s).length = n := by
  induction n generalizing s with
  | zero => rfl
  | succ n ih => exact congrArg Nat.succ (ih _)

theorem length_key (seed : ℕ) : (key seed).length = 8 := length_keyFrom 8 _

theorem length_weights : ∀ ws : List UInt32, (weights ws).length = ws.length / 2
  | [] => rfl
  | [_] => by simp [weights]
  | _ :: _ :: rest => by
    rw [weights, List.length_cons, length_weights rest, List.length_cons, List.length_cons]
    omega

/-! ### Weights -/

open Binary64 (toRational? HasParts halfLeast halfLeast_le halfLeast_pos ofSignWord infinityWord)

/-- The word of a draw: the exponent of one and the upper bits of the draw. -/
theorem toNat_unitWord (bits : UInt64) :
    (((1023 : UInt64) <<< 52) ||| (bits >>> 12)).toNat = 1023 * 2 ^ 52 + bits.toNat / 2 ^ 12 := by
  have hbits : bits.toNat / 2 ^ 12 < 2 ^ 52 := by
    have hlt : bits.toNat < 2 ^ 64 := bits.toNat_lt
    omega
  have hone : ((1023 : UInt64) <<< 52).toNat = 1023 <<< 52 := rfl
  have hshift : (bits >>> 12).toNat = bits.toNat / 2 ^ 12 := by
    rw [UInt64.toNat_shiftRight, Nat.shiftRight_eq_div_pow]
    rfl
  rw [UInt64.toNat_or, hone, hshift, ← Nat.shiftLeft_add_eq_or_of_lt hbits, Nat.shiftLeft_eq]

/-- A draw is first a float between one and two. -/
theorem exists_unitValue (bits : UInt64) :
    ∃ x ∈ toRational? (Float.ofBits (((1023 : UInt64) <<< 52) ||| (bits >>> 12))), 1 ≤ x ∧ x < 2 := by
  obtain ⟨w, hw⟩ : ∃ w, ((1023 : UInt64) <<< 52) ||| (bits >>> 12) = w := ⟨_, rfl⟩
  have hnat := toNat_unitWord bits
  have hbits : bits.toNat < 2 ^ 64 := bits.toNat_lt
  rw [hw] at hnat ⊢
  have hinfinity : infinityWord = 2047 * 2 ^ 52 := rfl
  have hparts := HasParts.ofSignWord (w := w.toNat) (by omega) (by omega)
  have hsame : ofSignWord false w.toNat = Float.ofBits w := congrArg Float.ofBits UInt64.ofNat_toNat
  obtain ⟨m, hm⟩ : ∃ m, 2 ^ 52 + w.toNat % 2 ^ 52 = m := ⟨_, rfl⟩
  have hexponent : ((w.toNat / 2 ^ 52 : ℕ) : ℤ) - 1075 = -52 := by omega
  rw [hsame, hm, hexponent] at hparts
  obtain ⟨hpos, hunpack⟩ := hparts.unpack_eq
  have hlower : (2 : ℚ) ^ 52 ≤ m := by exact_mod_cast (by omega : 2 ^ 52 ≤ m)
  have hupper : (m : ℚ) < 2 ^ 53 := by exact_mod_cast (by omega : m < 2 ^ 53)
  refine ⟨m / 2 ^ 52, ?_, by rw [le_div_iff₀ (by positivity)]; linarith, by
    rw [div_lt_iff₀ (by positivity)]; linarith⟩
  rw [Binary64.toRational?_eq, hunpack]
  refine congrArg some ?_
  rw [Binary64.factor, one_mul, zpow_neg, ← div_eq_mul_inv]
  rfl

/-- **A weight is finite and lies between zero and two**, whatever the draw. -/
theorem weight_spec (low high : UInt32) : ∃ v ∈ toRational? (weight low high), 0 ≤ v ∧ v ≤ 2 := by
  have hleast := halfLeast_le
  have hleast_pos := halfLeast_pos
  obtain ⟨x, hx, hone, htwo⟩ := exists_unitValue (low.toUInt64 ||| (high.toUInt64 <<< 32))
  have hunit : (1 : ℚ) ∈ toRational? 1.0 := by decide +kernel
  obtain ⟨scale, hscale, hscale'⟩ : ∃ c ∈ toRational? (1.0 - 0.05), 0 ≤ c ∧ c ≤ 1 :=
    ⟨(toRational? (1.0 - 0.05)).getD 0, by decide +kernel, by decide +kernel, by decide +kernel⟩
  obtain ⟨base, hbase, hbase'⟩ : ∃ c ∈ toRational? 0.05, 1 / 100 ≤ c ∧ c ≤ 1 / 10 :=
    ⟨(toRational? 0.05).getD 0, by decide +kernel, by decide +kernel, by decide +kernel⟩
  obtain ⟨u, hu, hu'⟩ := (Binary64.computes_sub hx hunit).exists_close (c := 1)
    (abs_le.mpr ⟨by linarith, by linarith⟩) (by norm_num)
  obtain ⟨hlow, hhigh⟩ := abs_le.mp hu'
  have hscaled : -(1 / 2 ^ 50) ≤ u * scale ∧ u * scale ≤ 1 + 1 / 2 ^ 50 := by
    have hlower : -(1 / 2 ^ 50) ≤ u := by linarith
    have hupper : u ≤ 1 + 1 / 2 ^ 50 := by linarith
    constructor <;> nlinarith
  obtain ⟨y, hy, hy'⟩ := (Binary64.computes_mul hu hscale).exists_close (c := 2)
    (abs_le.mpr ⟨by linarith, by linarith⟩) (by norm_num)
  obtain ⟨hlow', hhigh'⟩ := abs_le.mp hy'
  obtain ⟨v, hv, hv'⟩ := (Binary64.computes_add hy hbase).exists_close (c := 2)
    (abs_le.mpr ⟨by linarith, by linarith⟩) (by norm_num)
  obtain ⟨hlow'', hhigh''⟩ := abs_le.mp hv'
  exact ⟨v, hv, by linarith, by linarith⟩

theorem mem_weights {ws : List UInt32} {a : Double} (ha : a ∈ weights ws) :
    a.isFinite = true ∧ 0 ≤ a.value ∧ a.value ≤ 2 := by
  induction ws using weights.induct with
  | case1 low high rest ih =>
    rw [weights] at ha
    rcases List.mem_cons.mp ha with rfl | hrest
    · obtain ⟨v, hv, hbounds⟩ := weight_spec low high
      have hvalue : (Double.number (weight low high)).toRational? = some v := hv
      rw [Double.isFinite_eq, Double.value, hvalue]
      exact ⟨rfl, hbounds⟩
    · exact ih hrest
  | case2 ws hshort =>
    rw [weights] at ha
    · cases ha
    · exact hshort

end Seed

/-! ### Starts -/

open Double (absSum finite_sum)
open MixedProfile (NearRows nearRows_ofWeights)

/-- Moderate weights have a finite sum. -/
theorem finite_sum_of_le_two {row : List Double} (hlength : row.length ≤ 2 ^ 20)
    (hrow : ∀ a ∈ row, a.isFinite = true ∧ 0 ≤ a.value ∧ a.value ≤ 2) :
    (Scalar.sum row).isFinite = true := by
  refine finite_sum (by omega) (fun a ha => (hrow a ha).1) ?_
  have hsum : absSum row ≤ (row.map fun _ => (2 : ℚ)).sum :=
    List.sum_le_sum fun a ha => by
      obtain ⟨-, hnonneg, hle⟩ := hrow a ha
      rwa [abs_of_nonneg hnonneg]
  have hcast : (row.length : ℚ) ≤ 2 ^ 20 := by exact_mod_cast hlength
  rw [List.map_const', List.sum_replicate, nsmul_eq_mul] at hsum
  linarith

/-- Moderate weights make nearly distributions. -/
theorem nearRows_of_le_two {rows : List (List Double)}
    (hlength : ∀ row ∈ rows, 0 < row.length ∧ row.length ≤ 2 ^ 20)
    (hrows : ∀ row ∈ rows, ∀ a ∈ row, a.isFinite = true ∧ 0 ≤ a.value ∧ a.value ≤ 2) :
    NearRows (fun n => n / 2 ^ 50) (MixedProfile.ofWeights rows) :=
  nearRows_ofWeights hlength (fun row hrow a ha => (hrows row hrow a ha).2.1)
    fun row hrow => finite_sum_of_le_two (hlength row hrow).2 (hrows row hrow)

section

variable {counts : List ℕ} (hcounts : ∀ n ∈ counts, 0 < n ∧ n ≤ 2 ^ 20)
include hcounts

theorem nearRows_uniform : NearRows (fun n => n / 2 ^ 50) (MixedProfile.uniform counts) := by
  refine nearRows_of_le_two (fun row hrow => ?_) fun row hrow a ha => ?_
  · obtain ⟨n, hn, rfl⟩ := List.mem_map.mp hrow
    rw [List.length_replicate]
    exact hcounts n hn
  · obtain ⟨n, -, rfl⟩ := List.mem_map.mp hrow
    rw [List.eq_of_mem_replicate ha, Double.value_zero]
    exact ⟨Double.finite_zero, le_rfl, two_pos.le⟩

theorem nearRows_seed (seed : ℕ) : NearRows (fun n => n / 2 ^ 50) (Seed.profile seed counts) := by
  have hdraws : counts.foldl (fun total n => total + n) 0 = counts.sum := List.sum_eq_foldl.symm
  have henough : counts.sum ≤
      (Seed.weights (Keystream.words (Seed.key seed) (2 * counts.sum))).length := by
    rw [Seed.length_weights, Keystream.length_words (Seed.length_key seed)]
    omega
  have hshape := map_length_portions henough
  unfold Seed.profile
  dsimp only
  rw [hdraws]
  refine nearRows_of_le_two (fun row hrow => ?_) fun row hrow a ha => ?_
  · refine hcounts _ ?_
    rw [← hshape]
    exact List.mem_map_of_mem hrow
  · have hflat := List.mem_flatten.mpr ⟨row, hrow, ha⟩
    rw [flatten_portions] at hflat
    exact Seed.mem_weights (List.mem_of_mem_take hflat)

/-- **Runs start near to a normalized profile**, whether a seed is set or not. -/
theorem ApproximateEquilibrium.nearRows_start {g : Game} (hg : g.counts = counts)
    (s : ApproximationSettings) : NearRows (fun n => n / 2 ^ 50) (start s g) := by
  subst hg
  unfold start
  cases s.seed with
  | none => exact nearRows_uniform hcounts
  | some seed => exact nearRows_seed hcounts seed

end

end Equilibria
