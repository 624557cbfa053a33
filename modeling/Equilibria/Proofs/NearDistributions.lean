import Mathlib
import Equilibria.Profile
import Equilibria.Proofs.Deviations
import Equilibria.Proofs.DoubleValues

/-!
# Rows of doubles that are nearly distributions

The doubles of a player need not sum to one, since every operation rounds.  How far they are from a
distribution is carried from operation to operation:

* `Double.abs_sum_sub_le`, `Double.finite_sum` — a sum of doubles and the exact sum;
* `Double.Near` — a row whose entries are hardly below zero and sum up to nearly one;
* `Double.near_normalize` — weights divided by their sum, whatever the weights are;
* `Double.near_blend` — a damped step from one row to another;
* `Double.Near.isNormalized` — a row near enough passes the test for a distribution;
* `MixedProfile.nearRows_ofWeights` — the rows of a profile that is made of weights.

An error is counted in multiples of `2 ^ (-53)`, the relative error of one operation.  Sums and
quotients contribute one for each entry of the row, a damped step a fixed number.
-/

namespace Equilibria

namespace Double

open Binary64 (halfLeast halfLeast_pos halfLeast_le roundingError_le)

variable {a b : Double} {row : List Double} {x ε : ℚ}

/-! ### Sums -/

/-- What is known when an operation stays in the range. -/
theorem Computes.spec {c : ℚ} (h : Computes a x) (hx : |x| ≤ c) (hc : c ≤ 2 ^ 200) :
    a.isFinite = true ∧ |a.value - x| ≤ c / 2 ^ 53 + halfLeast := by
  have hfinite := h.finite (hx.trans hc)
  exact ⟨hfinite, (h.close hfinite).trans (roundingError_le hx)⟩

/-- The sum of the values of a row, taken exactly. -/
def exactSum (row : List Double) : ℚ := (row.map value).sum

/-- The sum of the absolute values of a row, taken exactly. -/
def absSum (row : List Double) : ℚ := (row.map fun a => |a.value|).sum

@[simp] theorem exactSum_nil : exactSum [] = 0 := rfl

@[simp] theorem absSum_nil : absSum [] = 0 := rfl

@[simp] theorem exactSum_concat (row : List Double) (a : Double) :
    exactSum (row ++ [a]) = exactSum row + a.value := by
  simp [exactSum]

@[simp] theorem absSum_concat (row : List Double) (a : Double) :
    absSum (row ++ [a]) = absSum row + |a.value| := by
  simp [absSum]

theorem sum_concat (row : List Double) (a : Double) :
    Scalar.sum (row ++ [a]) = Scalar.sum row + a := by
  rw [Scalar.sum, List.foldl_concat]
  rfl

theorem absSum_nonneg (row : List Double) : 0 ≤ absSum row :=
  List.sum_nonneg fun _ hx => by
    obtain ⟨a, -, rfl⟩ := List.mem_map.mp hx
    exact abs_nonneg a.value

theorem abs_exactSum_le (row : List Double) : |exactSum row| ≤ absSum row := by
  induction row using List.reverseRecOn with
  | nil => simp
  | append_singleton row a ih =>
    rw [exactSum_concat, absSum_concat]
    exact (abs_add_le _ _).trans (add_le_add_left ih _)

/-- How far the sum of a row is from the exact one at most. -/
def sumError (row : List Double) : ℚ := row.length * (absSum row / 2 ^ 52 + 2 * halfLeast)

theorem sumError_le {n : ℕ} (hlength : row.length ≤ n) :
    sumError row ≤ n * (absSum row / 2 ^ 52 + 2 * halfLeast) := by
  have hnonneg := absSum_nonneg row
  have hpos := halfLeast_pos
  have hcast : (row.length : ℚ) ≤ n := Nat.cast_le.mpr hlength
  unfold sumError
  gcongr

/-- An addition adds its own error, and a little to the errors before it. -/
theorem sumError_concat (hlength : row.length ≤ 2 ^ 52) (a : Double) :
    sumError row + (sumError row + absSum (row ++ [a])) / 2 ^ 53 + halfLeast ≤
      sumError (row ++ [a]) := by
  have hmore : sumError row ≤ row.length * (absSum (row ++ [a]) / 2 ^ 52 + 2 * halfLeast) := by
    have habs := abs_nonneg a.value
    rw [absSum_concat]
    unfold sumError
    gcongr
    linarith
  have hcount : (row.length : ℚ) * (absSum (row ++ [a]) / 2 ^ 52 + 2 * halfLeast) ≤
      2 ^ 52 * (absSum (row ++ [a]) / 2 ^ 52 + 2 * halfLeast) := by
    have hnonneg := absSum_nonneg (row ++ [a])
    have hpos := halfLeast_pos
    have hcast : (row.length : ℚ) ≤ 2 ^ 52 := by exact_mod_cast hlength
    gcongr
  have htotal : sumError (row ++ [a]) =
      row.length * (absSum (row ++ [a]) / 2 ^ 52 + 2 * halfLeast) +
        (absSum (row ++ [a]) / 2 ^ 52 + 2 * halfLeast) := by
    rw [sumError, List.length_append, List.length_singleton]
    push_cast
    ring
  linarith

/-- **A finite sum of doubles** is a sum of finite ones, and it is close to the exact sum. -/
theorem abs_sum_sub_le (hlength : row.length ≤ 2 ^ 52) (h : (Scalar.sum row).isFinite = true) :
    (∀ a ∈ row, a.isFinite = true) ∧ |(Scalar.sum row).value - exactSum row| ≤ sumError row := by
  induction row using List.reverseRecOn with
  | nil =>
    have hzero : (Scalar.sum ([] : List Double)).value = 0 := value_zero
    refine ⟨fun a ha => absurd ha List.not_mem_nil, ?_⟩
    rw [hzero]
    simp [sumError]
  | append_singleton row a ih =>
    rw [sum_concat] at h ⊢
    rw [List.length_append, List.length_singleton] at hlength
    obtain ⟨hrow, ha⟩ := finite_of_add h
    obtain ⟨hfinite, hclose⟩ := ih (by omega) hrow
    refine ⟨fun b hb => ?_, ?_⟩
    · rcases List.mem_append.mp hb with hb | hb
      · exact hfinite b hb
      · rwa [List.mem_singleton.mp hb]
    · have hsize : |(Scalar.sum row).value + a.value| ≤ sumError row + absSum (row ++ [a]) := by
        have hsplit : (Scalar.sum row).value + a.value =
            (Scalar.sum row).value - exactSum row + exactSum (row ++ [a]) := by
          rw [exactSum_concat]
          ring
        rw [hsplit]
        exact (abs_add_le _ _).trans (add_le_add hclose (abs_exactSum_le _))
      have hstep := ((computes_add hrow ha).close h).trans (roundingError_le hsize)
      have hconcat := sumError_concat (by omega : row.length ≤ 2 ^ 52) a
      calc |(Scalar.sum row + a).value - exactSum (row ++ [a])|
          = |(Scalar.sum row + a).value - ((Scalar.sum row).value + a.value) +
              ((Scalar.sum row).value - exactSum row)| := by rw [exactSum_concat]; ring_nf
        _ ≤ (sumError row + absSum (row ++ [a])) / 2 ^ 53 + halfLeast + sumError row :=
            (abs_add_le _ _).trans (add_le_add hstep hclose)
        _ ≤ sumError (row ++ [a]) := by linarith

/-- A sum of moderate doubles is finite. -/
theorem finite_sum (hlength : row.length ≤ 2 ^ 52) (hfinite : ∀ a ∈ row, a.isFinite = true)
    (hsize : absSum row ≤ 2 ^ 100) : (Scalar.sum row).isFinite = true := by
  induction row using List.reverseRecOn with
  | nil => exact finite_zero
  | append_singleton row a ih =>
    rw [List.length_append, List.length_singleton] at hlength
    rw [absSum_concat] at hsize
    have habs := abs_nonneg a.value
    have hrow := ih (by omega) (fun b hb => hfinite b (List.mem_append_left _ hb)) (by linarith)
    have ha : a.isFinite = true := hfinite a (by simp)
    obtain ⟨-, hclose⟩ := abs_sum_sub_le (by omega) hrow
    have herror := sumError_le (by omega : row.length ≤ 2 ^ 52)
    have hexact := abs_exactSum_le row
    have hleast := halfLeast_le
    rw [sum_concat]
    refine (computes_add hrow ha).finite ?_
    have hsplit : (Scalar.sum row).value + a.value =
        (Scalar.sum row).value - exactSum row + (exactSum row + a.value) := by ring
    have htriangle := abs_add_le ((Scalar.sum row).value - exactSum row) (exactSum row + a.value)
    have htriangle' := abs_add_le (exactSum row) a.value
    rw [← hsplit] at htriangle
    push_cast at herror
    linarith

/-! ### Rows that are nearly distributions -/

/-- The entries are finite and not below zero by more than `ε`, and their sum differs from one by no
more than `ε`. -/
structure Near (ε : ℚ) (row : List Double) : Prop where
  finite : ∀ a ∈ row, a.isFinite = true
  lower : ∀ a ∈ row, -ε ≤ a.value
  sum : |exactSum row - 1| ≤ ε

theorem Near.mono {ε' : ℚ} (h : Near ε row) (hle : ε ≤ ε') : Near ε' row where
  finite := h.finite
  lower a ha := (neg_le_neg hle).trans (h.lower a ha)
  sum := h.sum.trans hle

theorem Near.nonneg (h : Near ε row) : 0 ≤ ε := (abs_nonneg _).trans h.sum

theorem absSum_le (hlower : ∀ a ∈ row, -ε ≤ a.value) (hε : 0 ≤ ε) :
    absSum row ≤ exactSum row + row.length * (2 * ε) := by
  induction row using List.reverseRecOn with
  | nil => simp
  | append_singleton row a ih =>
    have hrow := ih fun b hb => hlower b (List.mem_append_left _ hb)
    have ha : |a.value| ≤ a.value + 2 * ε := by
      have hlow := hlower a (by simp)
      exact abs_le.mpr ⟨by linarith, by linarith⟩
    rw [absSum_concat, exactSum_concat, List.length_append, List.length_singleton]
    push_cast
    linarith

/-- Near enough to a distribution, the entries are moderate. -/
theorem Near.absSum_le_two (h : Near ε row) (hlength : row.length ≤ 2 ^ 20) (hε : ε ≤ 1 / 10 ^ 9) :
    absSum row ≤ 2 := by
  have hbound := absSum_le h.lower h.nonneg
  have hsum := (abs_le.mp h.sum).2
  have hcount : (row.length : ℚ) * (2 * ε) ≤ 2 ^ 20 * (2 * (1 / 10 ^ 9)) := by
    have hcast : (row.length : ℚ) ≤ 2 ^ 20 := by exact_mod_cast hlength
    have hnonneg := h.nonneg
    gcongr
  linarith

/-- **A row near a distribution passes the test for one.** -/
theorem Near.isNormalized (h : Near ε row) (hpos : 0 < row.length) (hlength : row.length ≤ 2 ^ 20)
    (hε : ε + row.length / 2 ^ 50 ≤ 1 / 10 ^ 9) :
    (row.all (fun a => !Scalar.isStrictlyNegative a) && Scalar.approxEq (Scalar.sum row) 1) = true := by
  have htolerance := le_tolerance
  have hleast := halfLeast_le
  have hone : (1 : ℚ) ≤ row.length := by exact_mod_cast hpos
  have hcast : (row.length : ℚ) ≤ 2 ^ 20 := by exact_mod_cast hlength
  have hsmall : ε ≤ 1 / 10 ^ 9 := by linarith
  have htwo := h.absSum_le_two hlength hsmall
  rw [Bool.and_eq_true, List.all_eq_true]
  constructor
  · intro a ha
    have hlow := h.lower a ha
    rw [isStrictlyNegative_eq_false (h.finite a ha) (by linarith)]
    rfl
  · have hfinite := finite_sum (by omega) h.finite (htwo.trans (by norm_num))
    obtain ⟨-, hclose⟩ := abs_sum_sub_le (by omega) hfinite
    have herror : sumError row ≤ row.length / 2 ^ 51 + row.length * (2 * halfLeast) := by
      rw [sumError]
      have hscaled : (row.length : ℚ) * absSum row ≤ row.length * 2 := by gcongr
      linarith
    have hnearby : |(Scalar.sum row).value - 1| ≤ ε + sumError row := by
      have htriangle := abs_add_le ((Scalar.sum row).value - exactSum row) (exactSum row - 1)
      rw [sub_add_sub_cancel] at htriangle
      linarith [h.sum]
    have hleast' : (row.length : ℚ) * (2 * halfLeast) ≤ 2 ^ 20 * (2 * (1 / 2 ^ 200)) := by
      have hpos := halfLeast_pos
      gcongr
    have hdifference := computes_sub hfinite finite_one
    rw [value_one] at hdifference
    obtain ⟨hfinite', hclose'⟩ := hdifference.spec hnearby (by linarith)
    rw [Scalar.approxEq, isNegligible_iff hfinite']
    have htriangle := abs_add_le ((Scalar.sum row - 1).value - ((Scalar.sum row).value - 1))
      ((Scalar.sum row).value - 1)
    rw [sub_add_cancel] at htriangle
    linarith

/-! ### Normalized weights -/

/-- Sums of values that are close entry by entry. -/
theorem abs_exactSum_map_sub_le {β : Type} {l : List β} {f : β → Double} {g e : β → ℚ}
    (h : ∀ b ∈ l, |(f b).value - g b| ≤ e b) :
    |exactSum (l.map f) - (l.map g).sum| ≤ (l.map e).sum := by
  induction l with
  | nil => simp
  | cons b l ih =>
    have hrest := ih fun c hc => h c (List.mem_cons_of_mem _ hc)
    have hfirst := h b List.mem_cons_self
    have hsplit : exactSum ((b :: l).map f) - ((b :: l).map g).sum =
        ((f b).value - g b) + (exactSum (l.map f) - (l.map g).sum) := by
      simp only [exactSum, List.map_cons, List.sum_cons]
      ring
    rw [hsplit, List.map_cons, List.sum_cons]
    exact (abs_add_le _ _).trans (add_le_add hfirst hrest)

/-- The row of equal entries. -/
theorem near_equal {n : ℕ} (hpos : 0 < n) (hlt : n < 2 ^ 53) :
    Near (n / 2 ^ 50) (List.replicate n (1 / Double.ofRational n)) := by
  have hn : (1 : ℚ) ≤ n := by exact_mod_cast hpos
  have hleast := halfLeast_le
  have hleast_pos := halfLeast_pos
  obtain ⟨hfinite, hvalue⟩ := ofRational_nat hpos hlt
  have hquotient := computes_div finite_one hfinite (by rw [hvalue]; positivity)
  rw [value_one, hvalue] at hquotient
  have hsize : |1 / (n : ℚ)| ≤ 1 / n := (abs_of_pos (by positivity)).le
  have hle : 1 / (n : ℚ) ≤ 1 := (div_le_one (by linarith)).mpr hn
  obtain ⟨hentry, hclose⟩ := hquotient.spec hsize (by linarith)
  have hnonneg : 0 ≤ 1 / (n : ℚ) := by positivity
  refine ⟨fun a ha => by rwa [List.eq_of_mem_replicate ha], fun a ha => ?_, ?_⟩
  · rw [List.eq_of_mem_replicate ha]
    have hlow := (abs_le.mp hclose).1
    linarith
  · have hsum : exactSum (List.replicate n (1 / Double.ofRational n)) - 1 =
        n * ((1 / Double.ofRational n).value - 1 / n) := by
      rw [exactSum, List.map_replicate, List.sum_replicate, nsmul_eq_mul]
      field_simp
    have hcast : (n : ℚ) ≤ 2 ^ 53 := by exact_mod_cast hlt.le
    rw [hsum, abs_mul, abs_of_nonneg (by linarith : (0 : ℚ) ≤ n)]
    calc (n : ℚ) * |(1 / Double.ofRational n).value - 1 / n|
        ≤ n * (1 / n / 2 ^ 53 + halfLeast) := by gcongr
      _ = 1 / 2 ^ 53 + n * halfLeast := by field_simp
      _ ≤ 1 / 2 ^ 53 + n * (1 / 2 ^ 200) := by gcongr
      _ ≤ n / 2 ^ 50 := by linarith

/-- A sum of weights that does not count as zero is near to the exact sum, as a ratio. -/
theorem abs_ratio_sub_le (hlength : row.length ≤ 2 ^ 20) (hnonneg : ∀ a ∈ row, 0 ≤ a.value)
    (hfinite : (Scalar.sum row).isFinite = true)
    (hlarge : ¬Scalar.isNegligible (Scalar.sum row) = true) :
    1 / 10 ^ 9 ≤ (Scalar.sum row).value ∧ exactSum row / (Scalar.sum row).value ≤ 2 ∧
      |exactSum row / (Scalar.sum row).value - 1| ≤ row.length / 2 ^ 51 + 1 / 2 ^ 100 := by
  obtain ⟨-, hclose⟩ := abs_sum_sub_le (by omega) hfinite
  have hleast := halfLeast_le
  have hleast_pos := halfLeast_pos
  have htolerance := le_tolerance
  have hcast : (row.length : ℚ) ≤ 2 ^ 20 := by exact_mod_cast hlength
  have habs : absSum row = exactSum row := by
    have hmap : row.map (fun a => |a.value|) = row.map value :=
      List.map_congr_left fun a ha => abs_of_nonneg (hnonneg a ha)
    rw [absSum, hmap, exactSum]
  have hexact : 0 ≤ exactSum row := habs ▸ absSum_nonneg row
  rw [isNegligible_iff hfinite, not_lt] at hlarge
  rw [sumError, habs] at hclose
  obtain ⟨hlow, hhigh⟩ := abs_le.mp hclose
  have hcount : (row.length : ℚ) * exactSum row ≤ 2 ^ 20 * exactSum row := by gcongr
  have htiny : (row.length : ℚ) * halfLeast ≤ 2 ^ 20 * (1 / 2 ^ 200) := by gcongr
  have hsum : 1 / 10 ^ 9 ≤ (Scalar.sum row).value := by
    rcases le_abs.mp (htolerance.trans hlarge) with hpos | hneg
    · exact hpos
    · exfalso
      linarith
  have hpos : 0 < (Scalar.sum row).value := by linarith
  have htwo : exactSum row ≤ 2 * (Scalar.sum row).value := by linarith
  have hscaled : (row.length : ℚ) * exactSum row ≤ row.length * (2 * (Scalar.sum row).value) := by
    gcongr
  refine ⟨hsum, (div_le_iff₀ hpos).mpr htwo, ?_⟩
  rw [div_sub_one hpos.ne', abs_div, abs_of_pos hpos, div_le_iff₀ hpos, abs_sub_comm]
  linarith

/-- Weights divided by their sum. -/
theorem near_quotients (hpos : 0 < row.length) (hlength : row.length ≤ 2 ^ 20)
    (hnonneg : ∀ a ∈ row, 0 ≤ a.value) (hfinite : (Scalar.sum row).isFinite = true)
    (hlarge : ¬Scalar.isNegligible (Scalar.sum row) = true) :
    Near (row.length / 2 ^ 50) (row.map fun a => a / Scalar.sum row) := by
  obtain ⟨hsum, htwo, hratio⟩ := abs_ratio_sub_le hlength hnonneg hfinite hlarge
  obtain ⟨hentries, -⟩ := abs_sum_sub_le (by omega) hfinite
  have hsum_pos : 0 < (Scalar.sum row).value := by linarith
  have hleast := halfLeast_le
  have hleast_pos := halfLeast_pos
  have hone : (1 : ℚ) ≤ row.length := by exact_mod_cast hpos
  have hcast : (row.length : ℚ) ≤ 2 ^ 20 := by exact_mod_cast hlength
  have hentry : ∀ a ∈ row, (a / Scalar.sum row).isFinite = true ∧
      |(a / Scalar.sum row).value - a.value / (Scalar.sum row).value| ≤
        a.value / (Scalar.sum row).value / 2 ^ 53 + halfLeast := by
    intro a ha
    have hquotient : 0 ≤ a.value / (Scalar.sum row).value := div_nonneg (hnonneg a ha) hsum_pos.le
    have hle : a.value / (Scalar.sum row).value ≤ exactSum row / (Scalar.sum row).value := by
      have hmem : a.value ≤ exactSum row := by
        refine List.single_le_sum (fun x hx => ?_) _ (List.mem_map_of_mem ha)
        obtain ⟨b, hb, rfl⟩ := List.mem_map.mp hx
        exact hnonneg b hb
      gcongr
    exact (computes_div (hentries a ha) hfinite hsum_pos.ne').spec (abs_of_nonneg hquotient).le
      (by linarith)
  refine ⟨fun b hb => ?_, fun b hb => ?_, ?_⟩
  · obtain ⟨a, ha, rfl⟩ := List.mem_map.mp hb
    exact (hentry a ha).1
  · obtain ⟨a, ha, rfl⟩ := List.mem_map.mp hb
    have hlow := (abs_le.mp (hentry a ha).2).1
    have hquotient : 0 ≤ a.value / (Scalar.sum row).value := div_nonneg (hnonneg a ha) hsum_pos.le
    linarith
  · have hclose := abs_exactSum_map_sub_le fun a ha => (hentry a ha).2
    have hexact : (row.map fun a => a.value / (Scalar.sum row).value).sum =
        exactSum row / (Scalar.sum row).value := by
      simp only [div_eq_mul_inv, List.sum_map_mul_right, exactSum]
    have herror : (row.map fun a => a.value / (Scalar.sum row).value / 2 ^ 53 + halfLeast).sum =
        exactSum row / (Scalar.sum row).value / 2 ^ 53 + row.length * halfLeast := by
      simp only [List.sum_map_add, div_eq_mul_inv, List.sum_map_mul_right, exactSum, List.map_const',
        List.sum_replicate, nsmul_eq_mul]
    rw [hexact, herror] at hclose
    have htiny : (row.length : ℚ) * halfLeast ≤ 2 ^ 20 * (1 / 2 ^ 200) := by gcongr
    have htriangle := abs_add_le (exactSum (row.map fun a => a / Scalar.sum row) -
      exactSum row / (Scalar.sum row).value) (exactSum row / (Scalar.sum row).value - 1)
    rw [sub_add_sub_cancel] at htriangle
    linarith

/-- **Normalized weights are nearly a distribution**, whatever weights there are, as long as their sum
is finite. -/
theorem near_normalize (hpos : 0 < row.length) (hlength : row.length ≤ 2 ^ 20)
    (hnonneg : ∀ a ∈ row, 0 ≤ a.value) (hfinite : (Scalar.sum row).isFinite = true) :
    Near (row.length / 2 ^ 50) (MixedProfile.normalize row) := by
  unfold MixedProfile.normalize
  dsimp only
  split_ifs with hzero
  · have hcount : Rational.ofInt (row.length : ℤ) = row.length := by simp [Rational.ofInt, Rat.mkRat_one]
    rw [List.map_const', hcount]
    exact near_equal hpos (by omega)
  · exact near_quotients hpos hlength hnonneg hfinite hzero

/-- A unit row is a distribution. -/
theorem near_unitRow {n i : ℕ} (hi : i < n) (hε : 0 ≤ ε) : Near ε (Tableau.unitRow n i) := by
  have hentry : ∀ a ∈ (Tableau.unitRow n i : List Double), a = 0 ∨ a = 1 := by
    intro a ha
    obtain ⟨k, -, rfl⟩ := List.mem_map.mp ha
    split_ifs
    · exact Or.inr rfl
    · exact Or.inl rfl
  have hvalues : (Tableau.unitRow n i : List Double).map value = Tableau.unitRow n i := by
    unfold Tableau.unitRow
    rw [List.map_map]
    refine List.map_congr_left fun k _ => ?_
    rw [Function.comp_apply]
    split_ifs
    · exact value_one
    · exact value_zero
  refine ⟨fun a ha => ?_, fun a ha => ?_, ?_⟩
  · rcases hentry a ha with rfl | rfl
    · exact finite_zero
    · exact finite_one
  · rcases hentry a ha with rfl | rfl
    · rw [value_zero]
      linarith
    · rw [value_one]
      linarith
  · rw [exactSum, hvalues, (isDistribution_unitRow hi).2, sub_self, abs_zero]
    exact hε

/-! ### Damped steps -/

/-- The second weight of a damped step is itself a rounded difference. -/
theorem close_complement {w : Double} (hw : w.isFinite = true) (hzero : 0 ≤ w.value)
    (hone : w.value ≤ 1) (hb : b.isFinite = true) (hb' : |b.value| ≤ 2) :
    ((1 - w) * b).isFinite = true ∧ |((1 - w) * b).value - (1 - w.value) * b.value| ≤
      (1 - w.value) * |b.value| * (1 / 2 ^ 52 + 1 / 2 ^ 100) + 4 * halfLeast := by
  have hleast := halfLeast_le
  have hleast_pos := halfLeast_pos
  have hrest : 0 ≤ 1 - w.value := sub_nonneg.mpr hone
  obtain ⟨Q, hQ⟩ : ∃ Q, (1 - w.value) * |b.value| = Q := ⟨_, rfl⟩
  have hQ' : 0 ≤ Q ∧ Q ≤ 2 := hQ ▸ ⟨by positivity, by nlinarith [abs_nonneg b.value]⟩
  rw [hQ]
  have hweight := computes_sub finite_one hw
  rw [value_one] at hweight
  obtain ⟨hv, hv'⟩ := hweight.spec (abs_of_nonneg hrest).le (by linarith)
  have hdiff : |(1 - w).value * b.value - (1 - w.value) * b.value| ≤ Q / 2 ^ 53 + 2 * halfLeast := by
    rw [← sub_mul, abs_mul]
    calc |(1 - w).value - (1 - w.value)| * |b.value|
        ≤ ((1 - w.value) / 2 ^ 53 + halfLeast) * |b.value| := by gcongr
      _ = Q / 2 ^ 53 + halfLeast * |b.value| := by rw [← hQ]; ring
      _ ≤ Q / 2 ^ 53 + 2 * halfLeast := by nlinarith
  have hproduct : |(1 - w).value * b.value| ≤ Q + (Q / 2 ^ 53 + 2 * halfLeast) := by
    have htriangle := abs_add_le ((1 - w).value * b.value - (1 - w.value) * b.value)
      ((1 - w.value) * b.value)
    rw [sub_add_cancel, abs_mul (1 - w.value), abs_of_nonneg hrest, hQ] at htriangle
    linarith
  obtain ⟨hy, hy'⟩ := (computes_mul hv hb).spec hproduct (by linarith)
  refine ⟨hy, ?_⟩
  have htriangle := abs_add_le (((1 - w) * b).value - (1 - w).value * b.value)
    ((1 - w).value * b.value - (1 - w.value) * b.value)
  rw [sub_add_sub_cancel] at htriangle
  linarith

/-- An entry of a damped step, computed by two products, a difference and a sum. -/
theorem close_blend {w : Double} (hw : w.isFinite = true) (hzero : 0 ≤ w.value) (hone : w.value ≤ 1)
    (ha : a.isFinite = true) (hb : b.isFinite = true) (ha' : |a.value| ≤ 2) (hb' : |b.value| ≤ 2) :
    (w * a + (1 - w) * b).isFinite = true ∧
      |(w * a + (1 - w) * b).value - (w.value * a.value + (1 - w.value) * b.value)| ≤
        (w.value * |a.value| + (1 - w.value) * |b.value|) / 2 ^ 51 + 8 * halfLeast := by
  have hleast := halfLeast_le
  have hleast_pos := halfLeast_pos
  have hrest : 0 ≤ 1 - w.value := sub_nonneg.mpr hone
  obtain ⟨hy, hy'⟩ := close_complement hw hzero hone hb hb'
  have hexact := abs_mul (1 - w.value) b.value
  have hexact' := abs_mul w.value a.value
  rw [abs_of_nonneg hrest] at hexact
  rw [abs_of_nonneg hzero] at hexact'
  obtain ⟨P, hP⟩ : ∃ P, w.value * |a.value| = P := ⟨_, rfl⟩
  obtain ⟨Q, hQ⟩ : ∃ Q, (1 - w.value) * |b.value| = Q := ⟨_, rfl⟩
  have hP' : 0 ≤ P ∧ P ≤ 2 := hP ▸ ⟨by positivity, by nlinarith [abs_nonneg a.value]⟩
  have hQ' : 0 ≤ Q ∧ Q ≤ 2 := hQ ▸ ⟨by positivity, by nlinarith [abs_nonneg b.value]⟩
  rw [hP] at hexact'
  rw [hQ] at hexact hy'
  rw [hP, hQ]
  obtain ⟨hx, hx'⟩ := (computes_mul hw ha).spec hexact'.le (by linarith)
  have hsize : |(w * a).value + ((1 - w) * b).value| ≤
      (P + Q) + (P + Q) / 2 ^ 51 + 8 * halfLeast := by
    have hsum := abs_add_le (w * a).value ((1 - w) * b).value
    have hfirst := abs_add_le ((w * a).value - w.value * a.value) (w.value * a.value)
    have hsecond := abs_add_le (((1 - w) * b).value - (1 - w.value) * b.value)
      ((1 - w.value) * b.value)
    rw [sub_add_cancel] at hfirst hsecond
    linarith
  obtain ⟨hz, hz'⟩ := (computes_add hx hy).spec hsize (by linarith)
  refine ⟨hz, ?_⟩
  have hsplit : (w * a + (1 - w) * b).value - (w.value * a.value + (1 - w.value) * b.value) =
      ((w * a + (1 - w) * b).value - ((w * a).value + ((1 - w) * b).value)) +
        (((w * a).value - w.value * a.value) +
          (((1 - w) * b).value - (1 - w.value) * b.value)) := by ring
  have hproducts := abs_add_le ((w * a).value - w.value * a.value)
    (((1 - w) * b).value - (1 - w.value) * b.value)
  rw [hsplit]
  exact (abs_add_le _ _).trans (by linarith)

theorem Near.abs_value_le_two (h : Near ε row) (hlength : row.length ≤ 2 ^ 20) (hε : ε ≤ 1 / 10 ^ 9)
    (ha : a ∈ row) : |a.value| ≤ 2 := by
  refine le_trans ?_ (h.absSum_le_two hlength hε)
  refine List.single_le_sum (fun x hx => ?_) _ (List.mem_map_of_mem ha)
  obtain ⟨b, -, rfl⟩ := List.mem_map.mp hx
  exact abs_nonneg b.value

/-- A mixture of two rows of one length, summed up. -/
theorem sum_zip {as bs : List Double} (hsame : as.length = bs.length) (f : Double → ℚ) (u v : ℚ) :
    ((as.zip bs).map fun c => u * f c.1 + v * f c.2).sum = u * (as.map f).sum + v * (bs.map f).sum := by
  have hfirst : (as.zip bs).map (fun c => f c.1) = as.map f :=
    List.map_map.symm.trans (congrArg (List.map f) (List.map_fst_zip hsame.le))
  have hsecond : (as.zip bs).map (fun c => f c.2) = bs.map f :=
    List.map_map.symm.trans (congrArg (List.map f) (List.map_snd_zip hsame.ge))
  rw [List.sum_map_add, List.sum_map_mul_left, List.sum_map_mul_left, hfirst, hsecond]

/-- **A damped step keeps rows near to distributions**: the distances mix as the rows do, and one
step adds a fixed error. -/
theorem near_blend {w : Double} {as bs : List Double} {ε₁ ε₂ : ℚ} (hw : w.isFinite = true)
    (hzero : 0 ≤ w.value) (hone : w.value ≤ 1) (has : Near ε₁ as) (hbs : Near ε₂ bs)
    (hsame : as.length = bs.length) (hlength : as.length ≤ 2 ^ 20) (hε₁ : ε₁ ≤ 1 / 10 ^ 9)
    (hε₂ : ε₂ ≤ 1 / 10 ^ 9) :
    Near (w.value * ε₁ + (1 - w.value) * ε₂ + 1 / 2 ^ 49)
      (List.zipWith (fun a b => w * a + (1 - w) * b) as bs) := by
  have hleast := halfLeast_le
  have hleast_pos := halfLeast_pos
  have hrest : 0 ≤ 1 - w.value := sub_nonneg.mpr hone
  have hentry : ∀ c ∈ as.zip bs, (w * c.1 + (1 - w) * c.2).isFinite = true ∧
      |(w * c.1 + (1 - w) * c.2).value - (w.value * c.1.value + (1 - w.value) * c.2.value)| ≤
        (w.value * |c.1.value| + (1 - w.value) * |c.2.value|) / 2 ^ 51 + 8 * halfLeast := by
    intro c hc
    obtain ⟨ha, hb⟩ := List.of_mem_zip hc
    exact close_blend hw hzero hone (has.finite _ ha) (hbs.finite _ hb)
      (has.abs_value_le_two hlength hε₁ ha) (hbs.abs_value_le_two (hsame ▸ hlength) hε₂ hb)
  have hzip : List.zipWith (fun a b => w * a + (1 - w) * b) as bs =
      (as.zip bs).map fun c => w * c.1 + (1 - w) * c.2 := List.map_uncurry_zip_eq_zipWith.symm
  rw [hzip]
  refine ⟨fun z hz => ?_, fun z hz => ?_, ?_⟩
  · obtain ⟨c, hc, rfl⟩ := List.mem_map.mp hz
    exact (hentry c hc).1
  · obtain ⟨c, hc, rfl⟩ := List.mem_map.mp hz
    obtain ⟨ha, hb⟩ := List.of_mem_zip hc
    have hlow := (abs_le.mp (hentry c hc).2).1
    have ha' := mul_le_mul_of_nonneg_left (has.lower _ ha) hzero
    have hb' := mul_le_mul_of_nonneg_left (hbs.lower _ hb) hrest
    have ha'' := mul_le_mul_of_nonneg_left (has.abs_value_le_two hlength hε₁ ha) hzero
    have hb'' := mul_le_mul_of_nonneg_left (hbs.abs_value_le_two (hsame ▸ hlength) hε₂ hb) hrest
    linarith
  · have hclose := abs_exactSum_map_sub_le fun c hc => (hentry c hc).2
    have herror : ((as.zip bs).map fun c =>
        (w.value * |c.1.value| + (1 - w.value) * |c.2.value|) / 2 ^ 51 + 8 * halfLeast).sum =
        (w.value * absSum as + (1 - w.value) * absSum bs) / 2 ^ 51 + as.length * (8 * halfLeast) := by
      simp only [List.sum_map_add, div_eq_mul_inv, List.sum_map_mul_right, ← sum_zip hsame, absSum,
        List.map_const', List.sum_replicate, nsmul_eq_mul, List.length_zip, hsame, min_self]
    have hcast : (as.length : ℚ) ≤ 2 ^ 20 := by exact_mod_cast hlength
    have htiny : (as.length : ℚ) * (8 * halfLeast) ≤ 2 ^ 20 * (8 * (1 / 2 ^ 200)) := by gcongr
    have ha := mul_le_mul_of_nonneg_left (has.absSum_le_two hlength hε₁) hzero
    have hb := mul_le_mul_of_nonneg_left (hbs.absSum_le_two (hsame ▸ hlength) hε₂) hrest
    have hmix : |w.value * exactSum as + (1 - w.value) * exactSum bs - 1| ≤
        w.value * ε₁ + (1 - w.value) * ε₂ := by
      have hsplit : w.value * exactSum as + (1 - w.value) * exactSum bs - 1 =
          w.value * (exactSum as - 1) + (1 - w.value) * (exactSum bs - 1) := by ring
      rw [hsplit]
      refine (abs_add_le _ _).trans ?_
      rw [abs_mul, abs_mul, abs_of_nonneg hzero, abs_of_nonneg hrest]
      exact add_le_add (mul_le_mul_of_nonneg_left has.sum hzero) (mul_le_mul_of_nonneg_left hbs.sum hrest)
    rw [sum_zip hsame, herror] at hclose
    change |_ - (w.value * exactSum as + (1 - w.value) * exactSum bs)| ≤ _ at hclose
    have htriangle := abs_add_le (exactSum ((as.zip bs).map fun c => w * c.1 + (1 - w) * c.2) -
      (w.value * exactSum as + (1 - w.value) * exactSum bs))
      (w.value * exactSum as + (1 - w.value) * exactSum bs - 1)
    rw [sub_add_sub_cancel] at htriangle
    linarith

end Double

/-! ### Profiles -/

namespace MixedProfile

open Double (Near near_normalize)

variable {x : MixedProfile Double} {ε : ℕ → ℚ}

/-- Every row of a profile is near to a distribution, the distance depending on its length. -/
def NearRows (ε : ℕ → ℚ) (x : MixedProfile Double) : Prop := ∀ row ∈ x.probs, Near (ε row.length) row

theorem NearRows.nonneg (h : NearRows ε x) {n : ℕ} (hn : n ∈ x.shape) : 0 ≤ ε n := by
  obtain ⟨row, hrow, rfl⟩ := List.mem_map.mp hn
  exact (h row hrow).nonneg

/-- A profile near enough to distributions passes the test for a normalized one. -/
theorem NearRows.isNormalized (h : NearRows ε x)
    (hsmall : ∀ n ∈ x.shape, 0 < n ∧ n ≤ 2 ^ 20 ∧ ε n + n / 2 ^ 50 ≤ 1 / 10 ^ 9) :
    x.isNormalized = true := by
  refine List.all_eq_true.mpr fun row hrow => ?_
  obtain ⟨hpos, hle, hε⟩ := hsmall _ (List.mem_map_of_mem hrow)
  exact (h row hrow).isNormalized hpos hle hε

/-- Weights that are not negative make nearly distributions, if their sums are finite. -/
theorem nearRows_ofWeights {rows : List (List Double)}
    (hlength : ∀ row ∈ rows, 0 < row.length ∧ row.length ≤ 2 ^ 20)
    (hnonneg : ∀ row ∈ rows, ∀ a ∈ row, 0 ≤ a.value)
    (hfinite : ∀ row ∈ rows, (Scalar.sum row).isFinite = true) :
    NearRows (fun n => n / 2 ^ 50) (MixedProfile.ofWeights rows) := by
  intro row hrow
  obtain ⟨weights, hweights, rfl⟩ := List.mem_map.mp hrow
  obtain ⟨hpos, hle⟩ := hlength _ hweights
  rw [MixedProfile.length_normalize]
  exact near_normalize hpos hle (hnonneg _ hweights) (hfinite _ hweights)

end MixedProfile

end Equilibria
