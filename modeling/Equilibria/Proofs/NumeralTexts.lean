import Mathlib
import Equilibria.Json.Number
import Equilibria.Proofs.DecimalTexts

/-!
# Numbers of a document and their texts

* `naturalOfDigits_lt` — the size of a number from the digits behind its leading zeros;
* `Json.Numeral.value` — the number that digits around a point denote;
* `Json.Numeral.read?_chars` — the text of a number without a power of ten is read as that number;
* `Json.Numeral.isPlain_of_read?` — such a number is written as the digits that were read;
* `Json.Numeral.denotes_positionalDigits`, `read?_chars_ofDecimal` — so is a decimal that is written in
  positions.
-/

namespace Equilibria

variable {cs : List Char}

/-! ### Runs of digits -/

theorem naturalOfDigits_cons (c : Char) (cs : List Char) :
    naturalOfDigits (c :: cs) = digitValue c * 10 ^ cs.length + naturalOfDigits cs := by
  have hsingle : naturalOfDigits [c] = digitValue c := by simp [naturalOfDigits]
  rw [← List.singleton_append, naturalOfDigits_append, hsingle]

theorem naturalOfDigits_replicate_zero (k : ℕ) : naturalOfDigits (List.replicate k '0') = 0 := by
  induction k with
  | zero => rfl
  | succ k ih =>
    rw [List.replicate_succ, naturalOfDigits_cons, ih]
    exact Nat.zero_mul _

theorem digitValue_lt {c : Char} (hc : c.isDigit = true) : digitValue c < 10 := by
  simp only [Char.isDigit, Bool.and_eq_true, decide_eq_true_eq] at hc
  have hupper : c.toNat ≤ 57 := hc.2
  have hzero : '0'.toNat = 48 := rfl
  rw [digitValue, hzero]
  omega

theorem naturalOfDigits_lt_pow (h : ∀ c ∈ cs, c.isDigit = true) :
    naturalOfDigits cs < 10 ^ cs.length := by
  induction cs with
  | nil => exact Nat.one_pos
  | cons c cs ih =>
    obtain ⟨hc, hcs⟩ := List.forall_mem_cons.mp h
    have hdigit := digitValue_lt hc
    have hrest := ih hcs
    rw [naturalOfDigits_cons, List.length_cons, pow_succ']
    nlinarith

theorem naturalOfDigits_dropWhile (cs : List Char) :
    naturalOfDigits (cs.dropWhile (· = '0')) = naturalOfDigits cs := by
  induction cs with
  | nil => rfl
  | cons c cs ih =>
    rw [List.dropWhile_cons]
    split_ifs with hc
    · obtain rfl : c = '0' := of_decide_eq_true hc
      rw [ih, naturalOfDigits_cons]
      exact (Nat.zero_add _).symm.trans (congrArg (· + _) (Nat.zero_mul _).symm)
    · rfl

/-- The size of a number from the digits behind its leading zeros. -/
theorem naturalOfDigits_lt (h : ∀ c ∈ cs, c.isDigit = true) :
    naturalOfDigits cs < 10 ^ (cs.dropWhile (· = '0')).length := by
  rw [← naturalOfDigits_dropWhile]
  exact naturalOfDigits_lt_pow fun c hc => h c ((List.dropWhile_sublist _).subset hc)

namespace Rational

/-- The value of a decimal from its digits as one number. -/
theorem decimalValue_eq (signs whole fraction : List Char) : decimalValue signs whole fraction =
    (if signs.head? = some '-' then -1 else 1) *
      (naturalOfDigits (whole ++ fraction) / 10 ^ fraction.length) := by
  have hpow : (10 : ℚ) ^ fraction.length ≠ 0 := by positivity
  rw [naturalOfDigits_append, decimalValue]
  push_cast
  field_simp

end Rational

namespace Json.Numeral

variable {n : Numeral}

/-! ### Values -/

/-- The digits of a number, before and behind its point. -/
def digits (n : Numeral) : List Char := n.whole ++ n.fraction

/-- The number that is written. -/
def value (n : Numeral) : ℚ :=
  Rational.decimalValue (Binary64.signChars n.negative) n.whole n.fraction

theorem signChars_head? (negative : Bool) :
    (Binary64.signChars negative).head? = some '-' ↔ negative = true := by
  cases negative <;> decide

theorem value_eq (n : Numeral) : n.value = (if n.negative then -1 else 1) *
    (naturalOfDigits n.digits / 10 ^ n.fraction.length) := by
  rw [value, Rational.decimalValue_eq, digits]
  simp only [signChars_head?]

theorem abs_value (n : Numeral) : |n.value| = naturalOfDigits n.digits / 10 ^ n.fraction.length := by
  have hnonneg : (0 : ℚ) ≤ naturalOfDigits n.digits / 10 ^ n.fraction.length := by positivity
  rw [value_eq, abs_mul, abs_of_nonneg hnonneg]
  split_ifs <;> simp

/-! ### The text of a number -/

/-- A number without a power of ten, made of digits. -/
structure IsPlain (n : Numeral) : Prop where
  power : n.power = none
  digits : ∀ c ∈ n.digits, c.isDigit = true
  whole : n.whole ≠ []

theorem chars_eq (hpower : n.power = none) : n.chars = Binary64.signChars n.negative ++ n.whole ++
    if n.fraction.isEmpty then [] else '.' :: n.fraction := by
  rw [chars, hpower]
  exact List.append_nil _

theorem mem_signChars {c : Char} {negative : Bool} (hc : c ∈ Binary64.signChars negative) :
    c = '-' := by
  cases negative with
  | false => exact absurd hc List.not_mem_nil
  | true => exact List.mem_singleton.mp hc

theorem isDecimal_chars (h : n.IsPlain) (hfraction : n.fraction ≠ []) :
    Rational.IsDecimal (Binary64.signChars n.negative) n.whole n.fraction n.chars where
  eq := by
    rw [chars_eq h.power, if_neg (by simpa using hfraction)]
  signs := fun c hc => mem_signChars hc ▸ rfl
  digits := h.digits
  nonempty := List.append_ne_nil_of_left_ne_nil h.whole _

/-- **The text of a number is read as the number.** -/
theorem read?_chars (h : n.IsPlain) : Rational.read? n.chars = some n.value := by
  by_cases hfraction : n.fraction = []
  -- without a point the reader takes another branch, the one for integers
  · have hwhole : ∀ c ∈ n.whole, c.isDigit = true :=
      fun c hc => h.digits c (List.mem_append_left _ hc)
    have hchars : n.chars = Binary64.signChars n.negative ++ n.whole := by
      rw [chars_eq h.power, hfraction]
      exact List.append_nil _
    have hplain : ∀ c ∈ n.chars, c = '-' ∨ c.isDigit = true := by
      rw [hchars]
      intro c hc
      rcases List.mem_append.mp hc with hc | hc
      · exact Or.inl (mem_signChars hc)
      · exact Or.inr (hwhole c hc)
    have hblank : ∀ c ∈ n.chars, isBlank c = false := by
      intro c hc
      rcases hplain c hc with rfl | hdigit
      · rfl
      · exact isBlank_of_isDigit hdigit
    have hne : n.chars ≠ [] := hchars ▸ List.append_ne_nil_of_right_ne_nil _ h.whole
    rw [Rational.read?, trim_eq_self hblank, Rational.ofTrimmed?_of_plain hne hplain, hchars, value,
      Rational.decimalValue, hfraction]
    cases n.negative with
    | false =>
      rw [Binary64.signChars, if_neg Bool.false_ne_true, List.nil_append,
        Literal.integer?_of_digits h.whole hwhole]
      simp [Rational.ofInt, Rat.mkRat_one, naturalOfDigits]
    | true =>
      rw [Binary64.signChars, if_pos rfl, List.singleton_append,
        Literal.integer?_minus_digits h.whole hwhole]
      simp [Rational.ofInt, Rat.mkRat_one, naturalOfDigits]
  · exact (isDecimal_chars h hfraction).read?_eq

/-! ### Numbers as they are written -/

theorem readPower?_eq_none_iff : readPower? cs = some none ↔ cs = [] := by
  cases cs with
  | nil => simp [readPower?]
  | cons c cs =>
    simp only [readPower?, reduceCtorEq, iff_false]
    split_ifs <;> simp

theorem whole_ne_nil (h : isWhole cs = true) : cs ≠ [] := by
  rintro rfl
  exact Bool.false_ne_true h

/-- **A number without a power of ten is written as its digits.** -/
theorem isPlain_of_read? (h : read? cs = some n) (hpower : n.power = none) :
    n.IsPlain ∧ n.chars = cs := by
  have hbody : ∃ body, Binary64.signChars (cs.head? == some '-') ++ body = cs ∧
      body = if (cs.head? == some '-') = true then cs.drop 1 else cs := by
    refine ⟨_, ?_, rfl⟩
    cases hsign : cs.head? == some '-' with
    | false => rfl
    | true =>
      obtain ⟨rest, rfl⟩ := List.head?_eq_some_iff.mp (beq_iff_eq.mp hsign)
      rfl
  obtain ⟨body, hcs, hbody⟩ := hbody
  simp only [read?, ← hbody] at h
  generalize (cs.head? == some '-') = negative at *
  have hdigits : ∀ {ds : List Char}, ∀ c ∈ ds.takeWhile Char.isDigit, c.isDigit = true :=
    fun c hc => List.mem_takeWhile_imp hc
  have hsplit := List.takeWhile_append_dropWhile (p := Char.isDigit) (l := body)
  split_ifs at h with hwhole
  split at h
  · next rest hrest =>
    split_ifs at h with hfraction
    obtain ⟨p, hp, rfl⟩ := Option.map_eq_some_iff.mp h
    obtain rfl : p = none := hpower
    have hend := readPower?_eq_none_iff.mp hp
    have hall := List.takeWhile_append_dropWhile (p := Char.isDigit) (l := rest)
    rw [hend, List.append_nil] at hall
    refine ⟨⟨rfl, List.forall_mem_append.mpr ⟨hdigits, hdigits⟩, whole_ne_nil hwhole⟩, ?_⟩
    rw [chars_eq rfl, if_neg hfraction, hall, List.append_assoc, ← hrest, hsplit, hcs]
  · next rest hpoint =>
    obtain ⟨p, hp, rfl⟩ := Option.map_eq_some_iff.mp h
    obtain rfl : p = none := hpower
    have hend := readPower?_eq_none_iff.mp hp
    rw [hend, List.append_nil] at hsplit
    refine ⟨⟨rfl, ?_, whole_ne_nil hwhole⟩, ?_⟩
    · rw [digits, List.append_nil]
      exact hdigits
    · rw [chars_eq rfl, List.isEmpty_nil, if_pos rfl, List.append_nil, hsplit, hcs]

/-! ### The written form of a decimal -/

/-- Digits before and behind a point denote a number. -/
structure Denotes (parts : List Char × List Char) (v : ℚ) : Prop where
  digits : ∀ c ∈ parts.1 ++ parts.2, c.isDigit = true
  whole : parts.1 ≠ []
  value : (naturalOfDigits (parts.1 ++ parts.2) : ℚ) / 10 ^ parts.2.length = v

theorem isDigit_of_mem_zeros {c : Char} {k : ℕ} (hc : c ∈ List.replicate k '0') :
    c.isDigit = true := by
  rw [List.eq_of_mem_replicate hc]
  rfl

/-- Factors of ten are zeros before the point. -/
theorem denotes_append_zeros (c k : ℕ) :
    Denotes (digitsOf c ++ List.replicate k '0', ['0']) (c * 10 ^ k) where
  digits := List.forall_mem_append.mpr ⟨List.forall_mem_append.mpr
    ⟨fun _ hc => isDigit_of_mem_digitsOf hc, fun _ hc => isDigit_of_mem_zeros hc⟩,
    fun _ hc => isDigit_of_mem_zeros (k := 1) hc⟩
  whole := List.append_ne_nil_of_left_ne_nil (digitsOf_ne_nil c) _
  value := by
    have hzero : naturalOfDigits ['0'] = 0 := rfl
    rw [naturalOfDigits_append, naturalOfDigits_append, naturalOfDigits_digitsOf,
      naturalOfDigits_replicate_zero, hzero, List.length_replicate, List.length_singleton]
    push_cast
    ring

/-- Enough digits are cut where the point belongs. -/
theorem denotes_cut {ds : List Char} {k : ℕ} (h : ∀ d ∈ ds, d.isDigit = true)
    (hk : k < ds.length) :
    Denotes (ds.take (ds.length - k), ds.drop (ds.length - k)) (naturalOfDigits ds / 10 ^ k) where
  digits := by rwa [List.take_append_drop]
  whole := by
    refine List.ne_nil_of_length_pos ?_
    rw [List.length_take]
    omega
  value := by
    rw [List.take_append_drop, List.length_drop, Nat.sub_sub_self hk.le]

/-- **The positions of a decimal hold its digits.** -/
theorem denotes_positionalDigits (x : Decimal) :
    Denotes (positionalDigits x) (x.coefficient * 10 ^ x.exponent) := by
  obtain ⟨c, e⟩ := x
  cases e with
  | ofNat k =>
    have hpow : (10 : ℚ) ^ Int.ofNat k = 10 ^ k := zpow_natCast _ _
    rw [hpow]
    exact denotes_append_zeros c k
  | negSucc k =>
    have hlength : k + 1 < (paddedDigits (k + 2) c).length := by
      rw [paddedDigits, List.length_append, List.length_replicate]
      omega
    have hvalue : naturalOfDigits (paddedDigits (k + 2) c) = c := by
      rw [paddedDigits, naturalOfDigits_append, naturalOfDigits_replicate_zero,
        naturalOfDigits_digitsOf, Nat.zero_mul, Nat.zero_add]
    have hdigits : ∀ d ∈ paddedDigits (k + 2) c, d.isDigit = true :=
      List.forall_mem_append.mpr
        ⟨fun _ hc => isDigit_of_mem_zeros hc, fun _ hc => isDigit_of_mem_digitsOf hc⟩
    have hdenotes := denotes_cut hdigits hlength
    rw [hvalue] at hdenotes
    rw [zpow_negSucc, ← div_eq_mul_inv]
    exact hdenotes

/-- **A decimal in positional range is written with its value.** -/
theorem read?_chars_ofDecimal {x : Decimal} (hleast : -5 ≤ x.leading) (hgreatest : x.leading ≤ 15)
    (negative : Bool) : Rational.read? (ofDecimal negative x).chars =
      some ((if negative then -1 else 1) * ((x.coefficient : ℚ) * 10 ^ x.exponent)) := by
  obtain ⟨hdigits, hwhole, hvalue⟩ := denotes_positionalDigits x
  have hwritten : ofDecimal negative x =
      ⟨negative, (positionalDigits x).1, (positionalDigits x).2, none⟩ :=
    if_pos ⟨hleast, hgreatest⟩
  rw [read?_chars (hwritten ▸ ⟨rfl, hdigits, hwhole⟩), value_eq, hwritten]
  exact congrArg some (congrArg _ hvalue)

end Json.Numeral

end Equilibria
