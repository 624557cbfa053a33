import Mathlib
import Equilibria.Number.Decimal
import Equilibria.Proofs.BinaryQuotients

/-!
# The shortest decimal of a double

A number of at most 15 digits is found again as the shortest decimal of the double nearest to it:

* `scaleQuotient_eq`, `floorLog10_spec` — quotients, powers and leading digits;
* `Decimal.Interval.contains_iff`, `holds_around`, `abs_le_of_holds` — the interval of a double;
* `holds_of_onGrid?`, `exists_onGrid?` — what is found on a grid, and when something is found;
* `exists_mul_zpow` — the number lies on the grid of the 15 leading digits of the double;
* `Decimal.shortest_spec` — the search ends at that grid at the latest, with the number itself.

The interval is narrower than the step of the grid of 15 digits.  So it holds no other point of that
grid, nor of a coarser one, and the order in which the grids are searched does not matter.
-/

namespace Equilibria

variable {b n d : ℕ} {e : ℤ}

/-! ### Quotients -/

theorem scaleQuotient_pos (hb : 0 < b) (hd : 0 < d) (n : ℕ) (e : ℤ) :
    0 < (scaleQuotient b n d e).2 := by
  cases e with
  | ofNat k => exact hd
  | negSucc k => exact Nat.mul_pos hd (Nat.pow_pos hb)

theorem scaleQuotient_eq (hb : 0 < b) (n d : ℕ) (e : ℤ) :
    ((scaleQuotient b n d e).1 : ℚ) / (scaleQuotient b n d e).2 = n / d * b ^ e := by
  have hb' : (b : ℚ) ≠ 0 := by positivity
  cases e with
  | ofNat k =>
    show ((n * b ^ k : ℕ) : ℚ) / d = n / d * b ^ ((k : ℕ) : ℤ)
    rw [zpow_natCast]
    push_cast
    ring
  | negSucc k =>
    show (n : ℚ) / ((d * b ^ (k + 1) : ℕ) : ℚ) = n / d * b ^ (Int.negSucc k)
    rw [zpow_negSucc]
    push_cast
    rw [← div_div, div_eq_mul_inv _ ((b : ℚ) ^ (k + 1))]

theorem powLeQuotient_iff (hb : 0 < b) (hd : 0 < d) :
    powLeQuotient b n d e = true ↔ (b : ℚ) ^ e ≤ n / d := by
  have hpos : (0 : ℚ) < (scaleQuotient b n d (-e)).2 :=
    Nat.cast_pos.mpr (scaleQuotient_pos hb hd n (-e))
  have hb' : (0 : ℚ) < b ^ e := by positivity
  rw [powLeQuotient, decide_eq_true_iff, ← Nat.cast_le (α := ℚ), ← one_le_div hpos,
    scaleQuotient_eq hb, zpow_neg, ← div_eq_mul_inv, one_le_div hb']

/-! ### Leading digits -/

theorem digitCount_pos (n : ℕ) : 0 < digitCount n := Nat.length_toDigits_pos

theorem lt_pow_digitCount (n : ℕ) : n < 10 ^ digitCount n :=
  (Nat.length_toDigits_le_iff (by norm_num) (digitCount_pos n)).mp le_rfl

theorem pow_digitCount_le (hn : 0 < n) : 10 ^ (digitCount n - 1) ≤ n := by
  rcases Nat.eq_zero_or_pos (digitCount n - 1) with hzero | hpos
  · rw [hzero]
    exact hn
  · by_contra hlt
    have hle := (Nat.length_toDigits_le_iff (by norm_num) hpos).mpr (not_le.mp hlt)
    have hlength : (Nat.toDigits 10 n).length = digitCount n := rfl
    omega

/-- The length of a number between its powers of ten. -/
theorem zpow_digitCount (hn : 0 < n) :
    (10 : ℚ) ^ ((digitCount n : ℤ) - 1) ≤ n ∧ (n : ℚ) < 10 ^ (digitCount n : ℤ) := by
  have hcount : (digitCount n : ℤ) - 1 = ((digitCount n - 1 : ℕ) : ℤ) := by
    have := digitCount_pos n
    omega
  rw [hcount, zpow_natCast, zpow_natCast]
  exact ⟨by exact_mod_cast pow_digitCount_le hn, by exact_mod_cast lt_pow_digitCount n⟩

/-- **The exponent of the leading digit of a quotient** is the difference of the lengths or one less. -/
theorem leadingExponent_spec (hb : 0 < b) (hd : 0 < d) {k l : ℤ}
    (hn : (b : ℚ) ^ (k - 1) ≤ n ∧ (n : ℚ) < b ^ k) (hl : (b : ℚ) ^ (l - 1) ≤ d ∧ (d : ℚ) < b ^ l) :
    let e := if powLeQuotient b n d (k - l) then k - l else k - l - 1
    (b : ℚ) ^ e ≤ n / d ∧ (n : ℚ) / d < b ^ (e + 1) := by
  obtain ⟨hn₁, hn₂⟩ := hn
  obtain ⟨hd₁, hd₂⟩ := hl
  have hb' : (b : ℚ) ≠ 0 := by positivity
  have hd' : (0 : ℚ) < d := Nat.cast_pos.mpr hd
  have hlower : (b : ℚ) ^ (k - l - 1) ≤ n / d := by
    rw [le_div_iff₀ hd']
    calc (b : ℚ) ^ (k - l - 1) * d ≤ b ^ (k - l - 1) * b ^ l := by gcongr
      _ = b ^ (k - 1) := by
        rw [← zpow_add₀ hb']
        congr 1
        ring
      _ ≤ n := hn₁
  have hupper : (n : ℚ) / d < b ^ (k - l + 1) := by
    rw [div_lt_iff₀ hd']
    calc (n : ℚ) < b ^ k := hn₂
      _ = b ^ (k - l + 1) * b ^ (l - 1) := by
        rw [← zpow_add₀ hb']
        congr 1
        ring
      _ ≤ b ^ (k - l + 1) * d := by gcongr
  have hiff := powLeQuotient_iff (n := n) (e := k - l) hb hd
  dsimp only
  split_ifs with h
  · exact ⟨hiff.mp h, hupper⟩
  · rw [sub_add_cancel]
    exact ⟨hlower, not_le.mp (mt hiff.mpr h)⟩

theorem floorLog10_spec (hn : 0 < n) (hd : 0 < d) :
    (10 : ℚ) ^ floorLog10 n d ≤ n / d ∧ (n : ℚ) / d < 10 ^ (floorLog10 n d + 1) :=
  leadingExponent_spec (b := 10) (by norm_num) hd (zpow_digitCount hn) (zpow_digitCount hd)

theorem zpow_log2 (hn : 0 < n) :
    (2 : ℚ) ^ ((n.log2 + 1 : ℤ) - 1) ≤ n ∧ (n : ℚ) < 2 ^ (n.log2 + 1 : ℤ) := by
  constructor
  · rw [add_sub_cancel_right, zpow_natCast]
    exact_mod_cast Nat.log2_self_le hn.ne'
  · exact_mod_cast Nat.lt_log2_self (n := n)

theorem floorLog2_spec (hn : 0 < n) (hd : 0 < d) :
    (2 : ℚ) ^ floorLog2 n d ≤ n / d ∧ (n : ℚ) / d < 2 ^ (floorLog2 n d + 1) := by
  have hspec := leadingExponent_spec two_pos hd (zpow_log2 hn) (zpow_log2 hd)
  rwa [add_sub_add_right_eq_sub] at hspec

/-! ### The interval of a double -/

namespace Decimal

open Binary64 (Nearest IsNormal RoundsTo)

variable {i : Interval} {m c : ℕ} {q g : ℤ} {t x : ℚ} {tie : Tie}

/-- Whether a number lies in the interval. -/
def Interval.Holds (i : Interval) (x : ℚ) : Prop :=
  (i.low / i.denominator : ℚ) ≤ x ∧ x ≤ i.high / i.denominator ∧
    (i.closed = false → (i.low / i.denominator : ℚ) < x ∧ x < i.high / i.denominator)

theorem Interval.contains_iff (hi : 0 < i.denominator) (hd : 0 < d) :
    i.contains n d = true ↔ i.Holds (n / d) := by
  have hi' : (0 : ℚ) < i.denominator := Nat.cast_pos.mpr hi
  have hd' : (0 : ℚ) < d := Nat.cast_pos.mpr hd
  simp only [contains, Holds, div_le_div_iff₀ hi' hd', div_le_div_iff₀ hd' hi',
    div_lt_div_iff₀ hi' hd', div_lt_div_iff₀ hd' hi']
  norm_cast
  cases i.closed with
  | true => simp
  | false =>
    simp only [Bool.false_eq_true, if_false, Bool.and_eq_true, decide_eq_true_eq, true_implies]
    omega

/-- Where the interval of a double begins and ends. -/
theorem Interval.around_ends (hm : 0 < m) (q : ℤ) :
    0 < (around m q).denominator ∧
      ((around m q).value : ℚ) / (around m q).denominator = m * 2 ^ q ∧
      ((around m q).high : ℚ) / (around m q).denominator = (m + 1 / 2) * 2 ^ q ∧
      ((around m q).low : ℚ) / (around m q).denominator =
        (m - if m = 2 ^ 52 ∧ -1074 < q then 1 / 4 else 1 / 2) * 2 ^ q := by
  have hunit := scaleQuotient_eq (b := 2) (by norm_num) 1 4 q
  have hpos := scaleQuotient_pos (b := 2) (d := 4) (by norm_num) (by norm_num) 1 q
  refine ⟨hpos, ?_, ?_, ?_⟩
  · simp only [around]
    push_cast at hunit ⊢
    rw [mul_div_assoc, hunit]
    ring
  · simp only [around]
    push_cast at hunit ⊢
    rw [mul_div_assoc, hunit]
    ring
  · have hpow : Nat.pow 2 52 = 2 ^ 52 := rfl
    simp only [around, hpow]
    split_ifs
    · rw [Nat.cast_mul, Nat.cast_sub (by omega), mul_div_assoc, hunit]
      push_cast
      ring
    · rw [Nat.cast_mul, Nat.cast_sub (by omega), mul_div_assoc, hunit]
      push_cast
      ring

/-- A number belongs to the interval of the double that is nearest to it. -/
theorem holds_around (h : Nearest t m q) : (Interval.around m q).Holds t := by
  have hpow : (0 : ℚ) < 2 ^ q := by positivity
  have hm : 0 < m := by
    have := h.lower
    omega
  obtain ⟨-, -, hhigh, hlow⟩ := Interval.around_ends hm q
  have hbelow : ((m : ℚ) - 1 / 2) * 2 ^ q ≤ t := (le_div_iff₀ hpow).mp h.rounds.below
  have habove : t ≤ ((m : ℚ) + 1 / 2) * 2 ^ q := (div_le_iff₀ hpow).mp h.rounds.above
  have hclosed : (Interval.around m q).closed = false → m % 2 ≠ 0 := of_decide_eq_false
  rw [Interval.Holds, hhigh, hlow]
  by_cases hedge : m = 2 ^ 52
  · have hquarter : ((m : ℚ) - 1 / 4) * 2 ^ q ≤ t := (le_div_iff₀ hpow).mp (h.edge hedge)
    refine ⟨?_, habove, fun hodd => absurd (by rw [hedge]; rfl) (hclosed hodd)⟩
    split_ifs
    · exact hquarter
    · exact hbelow
  · rw [if_neg fun h => hedge h.1]
    refine ⟨hbelow, habove, fun hodd => ⟨hbelow.lt_of_ne ?_, habove.lt_of_ne ?_⟩⟩
    · exact fun heq => hclosed hodd (h.rounds.even (Or.inl ((div_eq_iff hpow.ne').mpr heq.symm)))
    · exact fun heq => hclosed hodd (h.rounds.even (Or.inr ((div_eq_iff hpow.ne').mpr heq)))

/-- What belongs to the interval of a double is not further away than half a unit. -/
theorem abs_le_of_holds (hm : 0 < m) (h : (Interval.around m q).Holds x) :
    |x - m * 2 ^ q| ≤ 2 ^ q / 2 := by
  have hpow : (0 : ℚ) < 2 ^ q := by positivity
  obtain ⟨-, -, hhigh, hlow⟩ := Interval.around_ends hm q
  obtain ⟨hlow', hhigh', -⟩ := h
  rw [hlow] at hlow'
  rw [hhigh] at hhigh'
  rw [abs_le]
  split_ifs at hlow' <;> constructor <;> linarith

/-! ### Grids -/

theorem onGrid_point (i : Interval) (hi : 0 < i.denominator) (g : ℤ) (c : ℕ) :
    i.contains (c * (scaleQuotient 10 1 1 g).1) (scaleQuotient 10 1 1 g).2 = true ↔
      i.Holds (c * 10 ^ g) := by
  have hgrid := scaleQuotient_eq (b := 10) (by norm_num) 1 1 g
  have hpos := scaleQuotient_pos (b := 10) (d := 1) (by norm_num) (by norm_num) 1 g
  rw [Interval.contains_iff hi hpos, Nat.cast_mul, mul_div_assoc, hgrid]
  norm_num

/-- The two neighbours on a grid. -/
theorem onGrid_floor (i : Interval) (hi : 0 < i.denominator) (g : ℤ) :
    let scaled := scaleQuotient 10 i.value i.denominator (-g)
    ((scaled.1 / scaled.2 : ℕ) : ℚ) * 10 ^ g ≤ i.value / i.denominator ∧
      (i.value / i.denominator : ℚ) < ((scaled.1 / scaled.2 : ℕ) + 1) * 10 ^ g := by
  have hscaled := scaleQuotient_eq (b := 10) (by norm_num) i.value i.denominator (-g)
  have hpos := scaleQuotient_pos (b := 10) (by norm_num) hi i.value (-g)
  have hpow : (0 : ℚ) < 10 ^ g := by positivity
  have hvalue : (i.value / i.denominator : ℚ) =
      ((scaleQuotient 10 i.value i.denominator (-g)).1 : ℚ) /
        (scaleQuotient 10 i.value i.denominator (-g)).2 * 10 ^ g := by
    rw [hscaled, zpow_neg]
    push_cast
    field_simp
  intro scaled
  have hpos' : (0 : ℚ) < scaled.2 := Nat.cast_pos.mpr hpos
  rw [hvalue]
  constructor
  · refine mul_le_mul_of_nonneg_right ?_ hpow.le
    exact Nat.cast_div_le
  · refine mul_lt_mul_of_pos_right ?_ hpow
    rw [div_lt_iff₀ hpos']
    exact_mod_cast Nat.lt_mul_of_div_lt (Nat.lt_succ_self _) hpos

/-- What is found on a grid, given the choice that is made if both neighbours lie in the interval. -/
def Interval.found (i : Interval) (g : ℤ) (both : Option ℕ) : Option ℕ :=
  let scaled := scaleQuotient 10 i.value i.denominator (-g)
  let unit := scaleQuotient 10 1 1 g
  if (i.contains (scaled.1 / scaled.2 * unit.1) unit.2 &&
    i.contains ((scaled.1 / scaled.2 + 1) * unit.1) unit.2) = true then both
  else if i.contains (scaled.1 / scaled.2 * unit.1) unit.2 = true then some (scaled.1 / scaled.2)
  else if i.contains ((scaled.1 / scaled.2 + 1) * unit.1) unit.2 = true then
    some (scaled.1 / scaled.2 + 1)
  else none

/-- The choice is one of the neighbours. -/
theorem exists_onGrid?_eq (i : Interval) (tie : Tie) (g : ℤ) :
    let scaled := scaleQuotient 10 i.value i.denominator (-g)
    ∃ c, (c = scaled.1 / scaled.2 ∨ c = scaled.1 / scaled.2 + 1) ∧
      i.onGrid? tie g = i.found g (some c) := by
  intro scaled
  by_cases hless : 2 * (scaled.1 % scaled.2) < scaled.2
  · exact ⟨_, Or.inl rfl, congrArg (i.found g) (if_pos hless)⟩
  by_cases hmore : scaled.2 < 2 * (scaled.1 % scaled.2)
  · exact ⟨_, Or.inr rfl, congrArg (i.found g) ((if_neg hless).trans (if_pos hmore))⟩
  cases tie with
  | up => exact ⟨_, Or.inr rfl, congrArg (i.found g) ((if_neg hless).trans (if_neg hmore))⟩
  | toEven =>
    have heven : ∀ f : ℕ, f + f % 2 = f ∨ f + f % 2 = f + 1 := fun f => by omega
    exact ⟨_, heven _, congrArg (i.found g) ((if_neg hless).trans (if_neg hmore))⟩

/-- One of the two neighbours is found if one of them lies in the interval. -/
theorem onGrid?_spec (i : Interval) (tie : Tie) (g : ℤ) :
    let scaled := scaleQuotient 10 i.value i.denominator (-g)
    let unit := scaleQuotient 10 1 1 g
    (i.onGrid? tie g = none → ∀ c, c = scaled.1 / scaled.2 ∨ c = scaled.1 / scaled.2 + 1 →
      i.contains (c * unit.1) unit.2 = false) ∧
    ∀ c, i.onGrid? tie g = some c → i.contains (c * unit.1) unit.2 = true := by
  intro scaled unit
  obtain ⟨c, hc, hfound⟩ := exists_onGrid?_eq i tie g
  rw [hfound]
  simp only [Interval.found, scaled, unit]
  generalize (scaleQuotient 10 i.value i.denominator (-g)).1 /
    (scaleQuotient 10 i.value i.denominator (-g)).2 = f at hc
  generalize scaleQuotient 10 1 1 g = unit
  cases hl : i.contains (f * unit.1) unit.2 <;> cases hu : i.contains ((f + 1) * unit.1) unit.2 <;>
    simp only [Bool.and_true, Bool.and_false, Bool.false_eq_true, if_true, if_false]
  · refine ⟨?_, fun c h => absurd h (by simp)⟩
    rintro - c (rfl | rfl)
    · exact hl
    · exact hu
  · exact ⟨fun h => absurd h (by simp), fun c h => Option.some.inj h ▸ hu⟩
  · exact ⟨fun h => absurd h (by simp), fun c h => Option.some.inj h ▸ hl⟩
  · refine ⟨fun h => absurd h (by simp), fun c' h => ?_⟩
    obtain rfl := Option.some.inj h
    rcases hc with rfl | rfl
    · exact hl
    · exact hu

/-- What is found on a grid lies in the interval. -/
theorem holds_of_onGrid? (hi : 0 < i.denominator) (h : i.onGrid? tie g = some c) :
    i.Holds (c * 10 ^ g) :=
  (onGrid_point i hi g c).mp ((onGrid?_spec i tie g).2 c h)

/-- A point of a grid in the interval is found if it is near to the double. -/
theorem exists_onGrid? (hi : 0 < i.denominator) (h : i.Holds (c * 10 ^ g))
    (hnear : |c * 10 ^ g - (i.value / i.denominator : ℚ)| < 10 ^ g) (tie : Tie) :
    ∃ c', i.onGrid? tie g = some c' := by
  obtain ⟨hfloor, hceil⟩ := onGrid_floor i hi g
  obtain ⟨hnone, -⟩ := onGrid?_spec i tie g
  generalize (scaleQuotient 10 i.value i.denominator (-g)).1 /
    (scaleQuotient 10 i.value i.denominator (-g)).2 = f at hfloor hceil hnone
  have hpow : (0 : ℚ) < 10 ^ g := by positivity
  have hc : c = f ∨ c = f + 1 := by
    rw [abs_lt] at hnear
    have hlower : (f : ℚ) < c + 1 := lt_of_mul_lt_mul_right (by linarith) hpow.le
    have hupper : (c : ℚ) < f + 2 := lt_of_mul_lt_mul_right (by linarith) hpow.le
    have hlower' : f < c + 1 := by exact_mod_cast hlower
    have hupper' : c < f + 2 := by exact_mod_cast hupper
    omega
  refine Option.ne_none_iff_exists'.mp fun hmissing => ?_
  rw [← onGrid_point i hi, hnone hmissing c hc] at h
  exact Bool.false_ne_true h

/-! ### Stripped decimals -/

/-- Moving factors of ten does not change the number. -/
theorem strip_spec (c : ℕ) (g : ℤ) (hc : 0 < c) :
    0 < (strip c g).coefficient ∧
      ((strip c g).coefficient : ℚ) * 10 ^ (strip c g).exponent = c * 10 ^ g := by
  induction c, g using strip.induct with
  | case1 c g h ih =>
    obtain ⟨-, hmod⟩ := h
    obtain ⟨k, rfl⟩ := Nat.dvd_of_mod_eq_zero hmod
    rw [strip, dif_pos ⟨hc, hmod⟩]
    obtain ⟨hpos, hvalue⟩ := ih (by omega)
    refine ⟨hpos, hvalue.trans ?_⟩
    rw [Nat.mul_div_cancel_left k (by norm_num), zpow_add_one₀ (by norm_num)]
    push_cast
    ring
  | case2 c g h =>
    rw [strip, dif_neg h]
    exact ⟨hc, rfl⟩

/-! ### Decimals of at most 15 digits -/

/-- A number of at most 15 digits lies on the grid of the 15 leading digits of its double. -/
theorem exists_mul_zpow {s : ℕ} {p lead : ℤ} {v unit : ℚ} (hs : s < 10 ^ 15) (ht : t = s * 10 ^ p)
    (hunit : 2 ^ 52 * unit ≤ v) (hnear : |t - v| ≤ unit / 2) (hpos : 0 < unit)
    (hlead : (10 : ℚ) ^ lead ≤ v) : ∃ c : ℕ, t = c * 10 ^ (lead - 14) := by
  have hp : lead - 14 ≤ p := by
    -- otherwise the double is a unit of the last digit above all numbers of 15 digits
    by_contra hlt
    have hstep : (10 : ℚ) ^ p * 10 ^ 15 ≤ 10 ^ lead := by
      rw [← zpow_natCast, ← zpow_add₀ (by norm_num)]
      exact zpow_le_zpow_right₀ (by norm_num) (by push_cast; omega)
    have hs' : (s : ℚ) ≤ 10 ^ 15 - 1 := by
      have : s + 1 ≤ 10 ^ 15 := hs
      have hcast : (s : ℚ) + 1 ≤ 10 ^ 15 := by exact_mod_cast this
      linarith
    have hten : (0 : ℚ) < 10 ^ p := by positivity
    have htop : t ≤ (10 ^ 15 - 1) * 10 ^ p := by
      rw [ht]
      exact mul_le_mul_of_nonneg_right hs' hten.le
    rw [abs_le] at hnear
    norm_num at *
    linarith
  refine ⟨s * 10 ^ (p - (lead - 14)).toNat, ?_⟩
  have hsplit : (10 : ℚ) ^ p = 10 ^ (p - (lead - 14)).toNat * 10 ^ (lead - 14) := by
    rw [← zpow_natCast, ← zpow_add₀ (by norm_num)]
    congr 1
    omega
  rw [ht, hsplit]
  push_cast
  ring

/-- Points of a grid that are near to one number are the same. -/
theorem eq_of_near {a b : ℕ} {step unit v : ℚ} (hstep : 0 < step) (hunit : unit < step)
    (ha : |a * step - v| ≤ unit / 2) (hb : |b * step - v| ≤ unit / 2) : a = b := by
  rw [abs_le] at ha hb
  have hle : (a : ℚ) < b + 1 := lt_of_mul_lt_mul_right (by linarith) hstep.le
  have hge : (b : ℚ) < a + 1 := lt_of_mul_lt_mul_right (by linarith) hstep.le
  have hle' : a < b + 1 := by exact_mod_cast hle
  have hge' : b < a + 1 := by exact_mod_cast hge
  omega

/-- All points in the interval of the coarser grids are the number itself. -/
theorem eq_of_onGrid? (h : Nearest t m q) {lead : ℤ} (hfine : (2 : ℚ) ^ q < 10 ^ (lead - 14) / 4)
    (hc : t = c * 10 ^ (lead - 14)) {k c' : ℕ} (hk : k ≤ 14)
    (hfound : (Interval.around m q).onGrid? tie (lead - (k : ℕ)) = some c') :
    (c' : ℚ) * 10 ^ (lead - (k : ℕ)) = t := by
  have hlower := h.lower
  have hm : 0 < m := by omega
  obtain ⟨hi, -, -, -⟩ := Interval.around_ends hm q
  have hgrid : (0 : ℚ) < 10 ^ (lead - 14) := by positivity
  have hunit : (0 : ℚ) < 2 ^ q := by positivity
  have hsplit : (c' : ℚ) * 10 ^ (lead - (k : ℕ)) =
      (c' * 10 ^ (14 - k) : ℕ) * 10 ^ (lead - 14) := by
    push_cast
    rw [mul_assoc, ← zpow_natCast, ← zpow_add₀ (by norm_num)]
    congr 2
    omega
  have hnear := abs_le_of_holds hm (holds_around h)
  have hnear' := abs_le_of_holds hm (holds_of_onGrid? hi hfound)
  rw [hsplit] at hnear' ⊢
  rw [hc] at hnear ⊢
  rw [eq_of_near hgrid (by linarith) hnear' hnear]

/-- The search ends at the fifteenth grid at the latest, if something is found there. -/
theorem exists_shortest {lead : ℤ}
    (hlead : floorLog10 (Interval.around m q).value (Interval.around m q).denominator = lead)
    (h : (Interval.around m q).onGrid? tie (lead - (14 : ℕ)) = some c) :
    ∃ k ≤ 14, ∃ c', (Interval.around m q).onGrid? tie (lead - (k : ℕ)) = some c' ∧
      shortest tie m q = strip c' (lead - (k : ℕ)) := by
  obtain ⟨x, hx⟩ : ∃ x, ((List.range 15).findSome? fun (k : ℕ) =>
      ((Interval.around m q).onGrid? tie (lead - (k : ℤ))).map fun c => strip c (lead - (k : ℤ))) =
        some x := by
    refine Option.isSome_iff_exists.mp (List.findSome?_isSome_iff.mpr ⟨14, by simp, ?_⟩)
    rw [h]
    rfl
  obtain ⟨k, hk, hfound⟩ := List.exists_of_findSome?_eq_some hx
  obtain ⟨c', hc', rfl⟩ := Option.map_eq_some_iff.mp hfound
  refine ⟨k, Nat.le_of_lt_succ (List.mem_range.mp hk), c', hc', ?_⟩
  have hrange : List.range 17 = List.range 15 ++ [15, 16] := rfl
  simp only [shortest, hlead, hrange, List.findSome?_append, hx]
  rfl

/-- **The shortest decimal of a double is the number of at most 15 digits that it is nearest to.** -/
theorem shortest_spec (h : Nearest t m q) {s : ℕ} {p : ℤ} (hs : s < 10 ^ 15)
    (ht : t = s * 10 ^ p) (tie : Tie) : 0 < (shortest tie m q).coefficient ∧
      ((shortest tie m q).coefficient : ℚ) * 10 ^ (shortest tie m q).exponent = t := by
  have hlower := h.lower
  have hm : 0 < m := by omega
  obtain ⟨hi, hvalue, -, -⟩ := Interval.around_ends hm q
  have hunit : (0 : ℚ) < 2 ^ q := by positivity
  have hlength : (2 : ℚ) ^ 52 * 2 ^ q ≤ m * 2 ^ q := by
    refine mul_le_mul_of_nonneg_right ?_ hunit.le
    exact_mod_cast hlower
  have hnear := abs_le_of_holds hm (holds_around h)
  have hpositive : 0 < (Interval.around m q).value := by
    refine Nat.pos_of_ne_zero fun hzero => ?_
    rw [hzero, Nat.cast_zero, zero_div] at hvalue
    have : (0 : ℚ) < m * 2 ^ q := by positivity
    linarith
  obtain ⟨hlead, hlead'⟩ := floorLog10_spec hpositive hi
  rw [hvalue] at hlead hlead'
  generalize hk : floorLog10 (Interval.around m q).value (Interval.around m q).denominator =
    lead at *
  obtain ⟨c, hc⟩ := exists_mul_zpow hs ht hlength hnear hunit hlead
  -- 15 digits fit into 50 bits, so the unit of the double is finer than their grid
  have hfine : (2 : ℚ) ^ q < 10 ^ (lead - 14) / 4 := by
    have htop : (10 : ℚ) ^ (lead + 1) = 10 ^ 15 * 10 ^ (lead - 14) := by
      rw [← zpow_natCast, ← zpow_add₀ (by norm_num)]
      congr 1
      push_cast
      ring
    rw [htop] at hlead'
    norm_num at *
    linarith
  obtain ⟨c₀, hc₀⟩ : ∃ c₀, (Interval.around m q).onGrid? tie (lead - (14 : ℕ)) = some c₀ := by
    refine exists_onGrid? hi (c := c) (hc ▸ holds_around h) ?_ tie
    rw [Nat.cast_ofNat, ← hc, hvalue]
    exact hnear.trans_lt (by linarith)
  obtain ⟨k, hk', c', hc', hshortest⟩ := exists_shortest hk hc₀
  have hvalue' := eq_of_onGrid? h hfine hc hk' hc'
  have hc'pos : 0 < c' := by
    refine Nat.pos_of_ne_zero fun hzero => ?_
    rw [hzero, Nat.cast_zero, zero_mul] at hvalue'
    exact absurd hvalue' h.pos.ne
  rw [hshortest, ← hvalue']
  exact strip_spec c' _ hc'pos

/-- The exponent of the leading digit of a decimal. -/
theorem leading_spec {x : Decimal} (hx : 0 < x.coefficient) :
    (10 : ℚ) ^ x.leading ≤ x.coefficient * 10 ^ x.exponent ∧
      (x.coefficient : ℚ) * 10 ^ x.exponent < 10 ^ (x.leading + 1) := by
  obtain ⟨hlower, hupper⟩ := zpow_digitCount hx
  have hpow : (0 : ℚ) < 10 ^ x.exponent := by positivity
  have hlow : (10 : ℚ) ^ x.leading =
      10 ^ ((digitCount x.coefficient : ℤ) - 1) * 10 ^ x.exponent := by
    rw [← zpow_add₀ (by norm_num), leading]
    congr 1
    ring
  have hhigh : (10 : ℚ) ^ (x.leading + 1) =
      10 ^ (digitCount x.coefficient : ℤ) * 10 ^ x.exponent := by
    rw [← zpow_add₀ (by norm_num), leading]
    congr 1
    ring
  rw [hlow, hhigh]
  exact ⟨mul_le_mul_of_nonneg_right hlower hpow.le, mul_lt_mul_of_pos_right hupper hpow⟩

/-- Decimals of this size are written in positions. -/
theorem leading_mem_range {x : Decimal} (hx : 0 < x.coefficient)
    (hleast : 1 / 10 ^ 5 ≤ (x.coefficient : ℚ) * 10 ^ x.exponent)
    (hgreatest : (x.coefficient : ℚ) * 10 ^ x.exponent < 10 ^ 15) :
    -5 ≤ x.leading ∧ x.leading ≤ 15 := by
  obtain ⟨hlower, hupper⟩ := leading_spec hx
  have hten : (1 : ℚ) < 10 := by norm_num
  have hbelow : (10 : ℚ) ^ (-5 : ℤ) < 10 ^ (x.leading + 1) :=
    lt_of_le_of_lt (by norm_num at hleast ⊢; exact hleast) hupper
  have habove : (10 : ℚ) ^ x.leading < 10 ^ (15 : ℤ) := hlower.trans_lt (by exact_mod_cast hgreatest)
  have := (zpow_lt_zpow_iff_right₀ hten).mp hbelow
  have := (zpow_lt_zpow_iff_right₀ hten).mp habove
  omega

end Decimal

end Equilibria
