import Mathlib
import Equilibria.Proofs.ExactTexts

/-!
# Reading what was written

The text of a rational is read back as that rational, although the reader chooses among four forms by
the characters that occur:

* `splitOnce_append`, `splitOnce_eq_none`, `trim_eq_self` — cutting and trimming a text whose
  characters are known;
* `naturalOfDigits_digitsOf`, `Literal.integer?_integerDigits` — digits and integers;
* `Rational.read?_chars` — integers and fractions in lowest terms.

A text of digits with a sign and a slash has no blank, so trimming leaves it as it is, and none of
the characters that make a decimal or a floating literal.
-/

namespace Equilibria

variable {c sep : Char} {cs before after : List Char}

/-! ### Cutting and trimming -/

theorem splitOnce_append (h : sep ∉ before) :
    splitOnce sep (before ++ sep :: after) = some (before, after) := by
  induction before with
  | nil => exact if_pos rfl
  | cons c before ih =>
    rw [List.mem_cons, not_or] at h
    obtain ⟨hc, hbefore⟩ := h
    rw [List.cons_append, splitOnce, if_neg (Ne.symm hc), ih hbefore]
    rfl

theorem splitOnce_eq_none (h : sep ∉ cs) : splitOnce sep cs = none := by
  induction cs with
  | nil => rfl
  | cons c cs ih =>
    rw [List.mem_cons, not_or] at h
    obtain ⟨hc, hcs⟩ := h
    rw [splitOnce, if_neg (Ne.symm hc), ih hcs]
    rfl

theorem trim_eq_self (h : ∀ c ∈ cs, isBlank c = false) : trim cs = cs := by
  have hleft : ∀ ds : List Char, (∀ c ∈ ds, isBlank c = false) → ds.dropWhile isBlank = ds := by
    intro ds hds
    cases ds with
    | nil => rfl
    | cons d ds => simp [hds d List.mem_cons_self]
  have hright : cs.reverse.dropWhile isBlank = cs.reverse :=
    hleft _ fun c hc => h c (List.mem_reverse.mp hc)
  rw [trim, trimLeft, hleft cs h, trimRight, hright, List.reverse_reverse]

/-! ### Digits and integers -/

theorem isDigit_of_mem_digitsOf {n : ℕ} (hc : c ∈ digitsOf n) : c.isDigit = true :=
  Nat.isDigit_of_mem_toDigits (by omega) le_rfl hc

theorem digitsOf_ne_nil (n : ℕ) : digitsOf n ≠ [] := Nat.toDigits_ne_nil

theorem isBlank_of_isDigit (hc : c.isDigit = true) : isBlank c = false := by
  simp only [Char.isDigit, Bool.and_eq_true, decide_eq_true_eq] at hc
  have hlower : 48 ≤ c.toNat := hc.1
  have hupper : c.toNat ≤ 57 := hc.2
  simp only [isBlank, Bool.or_eq_false_iff, Bool.and_eq_false_iff, decide_eq_false_iff_not,
    beq_eq_false_iff_ne]
  omega

theorem naturalOfDigits_digitsOf (n : ℕ) : naturalOfDigits (digitsOf n) = n :=
  Nat.ofDigitChars_ten_toDigits

namespace Literal

theorem natural?_of_digits (hne : cs ≠ []) (h : ∀ c ∈ cs, c.isDigit = true) :
    natural? cs = some (naturalOfDigits cs) := by
  have hunderscore : '_' ∉ cs := fun hmem => absurd (h _ hmem) (by decide)
  have hplain : cs.filter (· ≠ '_') = cs :=
    List.filter_eq_self.mpr fun c hc => decide_eq_true (ne_of_mem_of_not_mem hc hunderscore)
  unfold natural?
  split
  · exact absurd rfl hne
  · exact absurd List.mem_cons_self hunderscore
  · rw [hplain]
    exact if_pos (List.all_eq_true.mpr h)

theorem integer?_of_digits (hne : cs ≠ []) (h : ∀ c ∈ cs, c.isDigit = true) :
    integer? cs = some (naturalOfDigits cs : ℤ) := by
  unfold integer?
  split
  · exact absurd (h _ List.mem_cons_self) (by decide)
  · exact absurd (h _ List.mem_cons_self) (by decide)
  · rw [natural?_of_digits hne h]
    rfl

theorem integer?_minus_digits (hne : cs ≠ []) (h : ∀ c ∈ cs, c.isDigit = true) :
    integer? ('-' :: cs) = some (-(naturalOfDigits cs : ℤ)) := by
  simp only [integer?, natural?_of_digits hne h]
  rfl

theorem integer?_integerDigits (i : ℤ) : integer? (integerDigits i) = some i := by
  have hdigits : ∀ c ∈ digitsOf i.natAbs, c.isDigit = true := fun c hc => isDigit_of_mem_digitsOf hc
  unfold integerDigits
  split_ifs with hi
  · rw [integer?_minus_digits (digitsOf_ne_nil _) hdigits, naturalOfDigits_digitsOf, Option.some_inj]
    omega
  · rw [integer?_of_digits (digitsOf_ne_nil _) hdigits, naturalOfDigits_digitsOf, Option.some_inj]
    omega

end Literal

/-- The characters of an integer are a sign and digits. -/
theorem mem_integerDigits {i : ℤ} (hc : c ∈ integerDigits i) : c = '-' ∨ c.isDigit = true := by
  unfold integerDigits at hc
  split_ifs at hc
  · exact (List.mem_cons.mp hc).imp_right isDigit_of_mem_digitsOf
  · exact Or.inr (isDigit_of_mem_digitsOf hc)

theorem isBlank_of_mem_integerDigits {i : ℤ} (hc : c ∈ integerDigits i) : isBlank c = false := by
  rcases mem_integerDigits hc with rfl | hdigit
  · rfl
  · exact isBlank_of_isDigit hdigit

theorem integerDigits_ne_nil (i : ℤ) : integerDigits i ≠ [] := by
  unfold integerDigits
  split_ifs
  · exact List.cons_ne_nil _ _
  · exact digitsOf_ne_nil _

/-! ### Rationals -/

namespace Rational

theorem isBlank_of_mem_chars {r : ℚ} (hc : c ∈ chars r) : isBlank c = false := by
  unfold chars at hc
  split_ifs at hc
  · exact isBlank_of_mem_integerDigits hc
  · rcases List.mem_append.mp hc with hc | hc
    · exact isBlank_of_mem_integerDigits hc
    · rcases List.mem_cons.mp hc with rfl | hc
      · rfl
      · exact isBlank_of_isDigit (isDigit_of_mem_digitsOf hc)

/-- A text of digits and minus signs is read as an integer. -/
theorem ofTrimmed?_of_plain (hne : cs ≠ []) (h : ∀ c ∈ cs, c = '-' ∨ c.isDigit = true) :
    ofTrimmed? cs = (Literal.integer? cs).map ofInt := by
  have hother : ∀ c, ¬(c = '-' ∨ c.isDigit = true) → c ∉ cs := fun c hc hmem => hc (h c hmem)
  have hletters : (cs.any fun c => c == 'e' || c == 'E') = false := by
    refine List.any_eq_false.mpr fun c hc => ?_
    rw [Bool.or_eq_true, beq_iff_eq, beq_iff_eq, not_or]
    exact ⟨ne_of_mem_of_not_mem hc (hother 'e' (by decide)),
      ne_of_mem_of_not_mem hc (hother 'E' (by decide))⟩
  have hempty : cs.isEmpty = false := List.isEmpty_eq_false_iff.mpr hne
  simp only [ofTrimmed?, hempty, splitOnce_eq_none (hother '/' (by decide)), hletters,
    splitOnce_eq_none (hother '.' (by decide)), Bool.false_eq_true, if_false]

theorem ofTrimmed?_integerDigits (i : ℤ) : ofTrimmed? (integerDigits i) = some (i : ℚ) := by
  rw [ofTrimmed?_of_plain (integerDigits_ne_nil i) fun c hc => mem_integerDigits hc,
    Literal.integer?_integerDigits, Option.map_some, ofInt, Rat.mkRat_one]

theorem ofFraction?_digits (r : ℚ) :
    ofFraction? (integerDigits r.num) (digitsOf r.den) = some r := by
  have hnum : trim (integerDigits r.num) = integerDigits r.num :=
    trim_eq_self fun c => isBlank_of_mem_integerDigits
  have hden : trim (digitsOf r.den) = digitsOf r.den :=
    trim_eq_self fun c hc => isBlank_of_isDigit (isDigit_of_mem_digitsOf hc)
  have hread : Literal.integer? (digitsOf r.den) = some (r.den : ℤ) :=
    Literal.integer?_integerDigits r.den
  have hne : (r.den : ℤ) ≠ 0 := Int.natCast_ne_zero.mpr r.den_nz
  rw [ofFraction?, hnum, hden, Literal.integer?_integerDigits, hread]
  show (if (r.den : ℤ) = 0 then none else some (Rat.divInt r.num r.den)) = some r
  rw [if_neg hne, Rat.num_divInt_den]

/-- **A rational is read back from its text.** -/
theorem read?_chars (r : ℚ) : read? (chars r) = some r := by
  rw [read?, trim_eq_self fun c => isBlank_of_mem_chars]
  unfold chars
  split_ifs with hden
  · rw [ofTrimmed?_integerDigits, Rat.coe_int_num_of_den_eq_one hden]
  · have hne : (integerDigits r.num ++ '/' :: digitsOf r.den).isEmpty = false := by
      rw [List.isEmpty_eq_false_iff]
      exact List.append_ne_nil_of_left_ne_nil (integerDigits_ne_nil _) _
    simp only [ofTrimmed?, hne, Bool.false_eq_true, if_false,
      splitOnce_append (slash_notMem_integerDigits _)]
    exact ofFraction?_digits r

end Rational

end Equilibria
