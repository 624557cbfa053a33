import Mathlib
import Equilibria.Proofs.ReadRationals

/-!
# Which texts with a point are numbers

A text with a point, and without the characters that make a fraction or a floating literal, is read
digit by digit:

* `Rational.IsDecimal`, `Rational.decimalValue` — signs and digits around a point, and their number;
* `Rational.ofDecimal?_eq_some_iff`, `Rational.read?_decimal_iff` — exactly these texts are read;
* `IsDecimal.read?_eq` — the number of a text that is known to be one of them;
* `read?_decimal_of_one_sign` — behind at most one sign, these are the decimals of at most one sign;
* `read?_two_signs` — a text of two signs is read as well, as if one of them were not there.

The reader asks only whether the first character is a minus, and passes over all signs.  Integers
and fractions are read with one sign at most, so `--1.5` is a number where `--1` is none.
-/

namespace Equilibria

variable {cs rest before after signs whole fraction : List Char} {v : ℚ}

theorem naturalOfDigits_append (xs ys : List Char) :
    naturalOfDigits (xs ++ ys) = naturalOfDigits xs * 10 ^ ys.length + naturalOfDigits ys := by
  induction ys using List.reverseRecOn with
  | nil => simp [naturalOfDigits]
  | append_singleton ys c ih =>
    have hsnoc : ∀ zs : List Char, naturalOfDigits (zs ++ [c]) =
        10 * naturalOfDigits zs + digitValue c := fun zs => by
      simp [naturalOfDigits]
    rw [← List.append_assoc, hsnoc, hsnoc, ih, List.length_append, List.length_singleton, pow_succ]
    ring

namespace Rational

/-- A text of signs, digits before the point and digits after it, at least one digit in all. -/
structure IsDecimal (signs whole fraction cs : List Char) : Prop where
  eq : cs = signs ++ whole ++ '.' :: fraction
  signs : ∀ c ∈ signs, isSign c = true
  digits : ∀ c ∈ whole ++ fraction, c.isDigit = true
  nonempty : whole ++ fraction ≠ []

/-- The number that digits before and after the point denote, negative behind a minus. -/
def decimalValue (signs whole fraction : List Char) : ℚ :=
  (if signs.head? = some '-' then -1 else 1) *
    (naturalOfDigits whole + naturalOfDigits fraction / 10 ^ fraction.length)

theorem isSign_iff {c : Char} : isSign c = true ↔ c = '-' ∨ c = '+' := by
  rw [isSign, Bool.or_eq_true, beq_iff_eq, beq_iff_eq]

theorem isSign_of_isDigit {c : Char} (hc : c.isDigit = true) : isSign c = false := by
  rw [Bool.eq_false_iff, ne_eq, isSign_iff]
  rintro (rfl | rfl)
  · exact absurd hc (by decide)
  · exact absurd hc (by decide)

/-- The digits read as one number over a power of ten are the number that is written. -/
theorem mkRat_digits (signs whole fraction : List Char) :
    mkRat (if signs.head? = some '-' then -(naturalOfDigits (whole ++ fraction) : ℤ)
      else (naturalOfDigits (whole ++ fraction) : ℤ)) (10 ^ fraction.length) =
      decimalValue signs whole fraction := by
  have hpow : (10 : ℚ) ^ fraction.length ≠ 0 := by positivity
  rw [Rat.mkRat_eq_div, naturalOfDigits_append, decimalValue]
  split_ifs <;> push_cast <;> field_simp

/-- The signs at the beginning of a text end where something else begins. -/
theorem takeWhile_isSign_append (hsigns : ∀ c ∈ signs, isSign c = true)
    (hrest : ∀ c ∈ rest.head?, isSign c = false) :
    (signs ++ rest).takeWhile isSign = signs ∧ (signs ++ rest).dropWhile isSign = rest := by
  have hnone : rest.takeWhile isSign = [] ∧ rest.dropWhile isSign = rest := by
    cases rest with
    | nil => exact ⟨rfl, rfl⟩
    | cons c rest => simp [hrest c rfl]
  rw [List.takeWhile_append_of_pos hsigns, List.dropWhile_append_of_pos hsigns, hnone.1, hnone.2,
    List.append_nil]
  exact ⟨rfl, rfl⟩

/-- Only a sign can be a minus at the beginning. -/
theorem head?_takeWhile_isSign (cs : List Char) :
    (cs.takeWhile isSign).head? = some '-' ↔ cs.head? = some '-' := by
  cases cs with
  | nil => rfl
  | cons c cs =>
    by_cases hc : isSign c = true
    · rw [List.takeWhile_cons_of_pos hc]
      rfl
    · rw [List.takeWhile_cons_of_neg hc]
      simp only [List.head?_nil, List.head?_cons, Option.some.injEq, reduceCtorEq, false_iff]
      rintro rfl
      exact hc rfl

theorem ofDecimal?_eq (before after : List Char) : ofDecimal? before after =
    if before.dropWhile isSign ++ after ≠ [] ∧
        ∀ c ∈ before.dropWhile isSign ++ after, c.isDigit = true then
      some (decimalValue (before.takeWhile isSign) (before.dropWhile isSign) after)
    else none := by
  have hrefused : ((before.dropWhile isSign ++ after).isEmpty ||
      !(before.dropWhile isSign ++ after).all Char.isDigit) = true ↔
        ¬(before.dropWhile isSign ++ after ≠ [] ∧
          ∀ c ∈ before.dropWhile isSign ++ after, c.isDigit = true) := by
    rw [Bool.or_eq_true, List.isEmpty_iff, Bool.not_eq_true', ← Bool.not_eq_true,
      List.all_eq_true, not_and_or, ne_eq, not_not]
  rw [← mkRat_digits, ← ite_not]
  simp only [ofDecimal?, head?_takeWhile_isSign]
  exact if_congr hrefused rfl rfl

/-- **What is read as a decimal**: any signs, then digits around the point. -/
theorem ofDecimal?_eq_some_iff : ofDecimal? before after = some v ↔
    ∃ signs whole, IsDecimal signs whole after (before ++ '.' :: after) ∧
      v = decimalValue signs whole after := by
  rw [ofDecimal?_eq, Option.ite_none_right_eq_some, Option.some_inj]
  constructor
  · rintro ⟨⟨hne, hdigits⟩, rfl⟩
    refine ⟨before.takeWhile isSign, before.dropWhile isSign, ⟨?_, ?_, hdigits, hne⟩, rfl⟩
    · rw [List.takeWhile_append_dropWhile]
    · exact fun c hc => List.mem_takeWhile_imp hc
  · rintro ⟨signs, whole, ⟨heq, hsigns, hdigits, hne⟩, rfl⟩
    obtain rfl : before = signs ++ whole := List.append_cancel_right heq
    obtain ⟨htake, hdrop⟩ := takeWhile_isSign_append hsigns fun c hc =>
      isSign_of_isDigit (hdigits c (List.mem_append_left after (List.mem_of_mem_head? hc)))
    rw [htake, hdrop]
    exact ⟨⟨hne, hdigits⟩, rfl⟩

/-- The point of a decimal is its only one. -/
theorem IsDecimal.point_notMem (h : IsDecimal signs whole fraction cs) : '.' ∉ signs ++ whole := by
  intro hmem
  rcases List.mem_append.mp hmem with hmem | hmem
  · exact absurd (h.signs _ hmem) (by decide)
  · exact absurd (h.digits _ (List.mem_append_left _ hmem)) (by decide)

/-- **Reading a text with a point**: it is a number exactly if it is a decimal, that is any signs and
then digits around the point, and a minus counts only if it comes first. -/
theorem read?_decimal_iff (hpoint : '.' ∈ trim cs) (hslash : '/' ∉ trim cs)
    (hletter : ∀ c ∈ trim cs, c ≠ 'e' ∧ c ≠ 'E') : read? cs = some v ↔
      ∃ signs whole fraction, IsDecimal signs whole fraction (trim cs) ∧
        v = decimalValue signs whole fraction := by
  have hne : (trim cs).isEmpty = false :=
    List.isEmpty_eq_false_iff.mpr (List.ne_nil_of_mem hpoint)
  have hletters : ((trim cs).any fun c => c == 'e' || c == 'E') = false := by
    refine List.any_eq_false.mpr fun c hc => ?_
    rw [Bool.or_eq_true, beq_iff_eq, beq_iff_eq, not_or]
    exact hletter c hc
  obtain ⟨before, after, heq, hbefore⟩ := List.eq_append_cons_of_mem hpoint
  have hread : read? cs = ofDecimal? before after := by
    have hsplit : splitOnce '.' (trim cs) = some (before, after) := by
      rw [heq, splitOnce_append hbefore]
    simp only [read?, ofTrimmed?, hne, splitOnce_eq_none hslash, hletters, hsplit,
      Bool.false_eq_true, if_false]
  rw [hread, ofDecimal?_eq_some_iff, heq]
  constructor
  · rintro ⟨signs, whole, hdecimal, rfl⟩
    exact ⟨signs, whole, after, hdecimal, rfl⟩
  · rintro ⟨signs, whole, fraction, hdecimal, rfl⟩
    have hsame : some (before, after) = some (signs ++ whole, fraction) := by
      rw [← splitOnce_append hbefore, hdecimal.eq, splitOnce_append hdecimal.point_notMem]
    obtain ⟨-, rfl⟩ := Prod.mk.inj (Option.some.inj hsame)
    exact ⟨signs, whole, hdecimal, rfl⟩

/-- A decimal is made of signs, digits and points. -/
theorem IsDecimal.char (h : IsDecimal signs whole fraction cs) :
    ∀ c ∈ cs, isSign c = true ∨ c.isDigit = true ∨ c = '.' := by
  intro c hc
  rw [h.eq, List.append_assoc] at hc
  rcases List.mem_append.mp hc with hc | hc
  · exact Or.inl (h.signs c hc)
  · rcases List.mem_append.mp hc with hc | hc
    · exact Or.inr (Or.inl (h.digits c (List.mem_append_left _ hc)))
    · rcases List.mem_cons.mp hc with rfl | hc
      · exact Or.inr (Or.inr rfl)
      · exact Or.inr (Or.inl (h.digits c (List.mem_append_right _ hc)))

theorem IsDecimal.isBlank_eq_false (h : IsDecimal signs whole fraction cs) :
    ∀ c ∈ cs, isBlank c = false := by
  intro c hc
  rcases h.char c hc with hsign | hdigit | rfl
  · rcases isSign_iff.mp hsign with rfl | rfl <;> rfl
  · exact isBlank_of_isDigit hdigit
  · rfl

/-- **The number of a decimal.** -/
theorem IsDecimal.read?_eq (h : IsDecimal signs whole fraction cs) :
    read? cs = some (decimalValue signs whole fraction) := by
  have htrim : trim cs = cs := trim_eq_self h.isBlank_eq_false
  have hpoint : '.' ∈ cs := by
    rw [h.eq]
    exact List.mem_append_right _ List.mem_cons_self
  have hother : ∀ c, ¬(isSign c = true ∨ c.isDigit = true ∨ c = '.') → c ∉ cs :=
    fun c hc hmem => hc (h.char c hmem)
  refine (read?_decimal_iff (htrim.symm ▸ hpoint) ?_ fun c hc => ?_).mpr
    ⟨signs, whole, fraction, htrim.symm ▸ h, rfl⟩
  · rw [htrim]
    exact hother _ (by decide)
  · rw [htrim] at hc
    exact ⟨ne_of_mem_of_not_mem hc (hother 'e' (by decide)),
      ne_of_mem_of_not_mem hc (hother 'E' (by decide))⟩

/-- The signs of a decimal are those that its text begins with. -/
theorem IsDecimal.takeWhile_eq (h : IsDecimal signs whole fraction cs) :
    cs.takeWhile isSign = signs := by
  rw [h.eq, List.append_assoc]
  refine (takeWhile_isSign_append h.signs fun c hc => ?_).1
  cases whole with
  | nil =>
    obtain rfl : '.' = c := Option.some.inj hc
    rfl
  | cons d whole =>
    obtain rfl : d = c := Option.some.inj hc
    exact isSign_of_isDigit (h.digits d List.mem_cons_self)

/-- **Behind at most one sign, exactly the decimals of at most one sign are read.** -/
theorem read?_decimal_of_one_sign (hpoint : '.' ∈ trim cs) (hslash : '/' ∉ trim cs)
    (hletter : ∀ c ∈ trim cs, c ≠ 'e' ∧ c ≠ 'E') (hsign : ((trim cs).takeWhile isSign).length ≤ 1) :
    read? cs = some v ↔
      ∃ sign whole fraction, sign.length ≤ 1 ∧ IsDecimal sign whole fraction (trim cs) ∧
        v = decimalValue sign whole fraction := by
  rw [read?_decimal_iff hpoint hslash hletter]
  constructor
  · rintro ⟨sign, whole, fraction, hdecimal, hv⟩
    exact ⟨sign, whole, fraction, hdecimal.takeWhile_eq ▸ hsign, hdecimal, hv⟩
  · rintro ⟨sign, whole, fraction, -, hdecimal, hv⟩
    exact ⟨sign, whole, fraction, hdecimal, hv⟩

/-- A text with two signs is no decimal of one sign, but it is read as if the second were not
there. -/
theorem read?_two_signs : read? "--1.5".toList = some (-3 / 2) ∧
    ¬∃ sign whole fraction, sign.length ≤ 1 ∧
      IsDecimal sign whole fraction (trim "--1.5".toList) := by
  refine ⟨by decide +kernel, ?_⟩
  rintro ⟨sign, whole, fraction, hlength, hdecimal⟩
  have hsigns : (trim "--1.5".toList).takeWhile isSign = ['-', '-'] := by decide +kernel
  rw [hdecimal.takeWhile_eq] at hsigns
  rw [hsigns] at hlength
  exact absurd hlength (by decide)

end Rational

end Equilibria
