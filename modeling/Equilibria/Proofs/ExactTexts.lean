import Mathlib
import Equilibria.Profile

/-!
# The texts of exact profiles

A rational is written in full, so no two of them look the same, and neither do two exact profiles of
the same shape in a table:

* `digitsOf_injective`, `integerDigits_injective` — integers are known by their digits and their sign;
* `Rational.text_injective` — rationals are known by their texts, since a slash ends the numerator;
* `MixedProfile.render_inj` — exact profiles of one shape are known by the texts of their numbers.
-/

namespace Equilibria

/-! ### Integers -/

theorem digitsOf_injective : Function.Injective digitsOf := by
  intro m n h
  have hread := congrArg (fun digits => Nat.ofDigitChars 10 digits 0) h
  simpa only [digitsOf, Nat.ofDigitChars_ten_toDigits] using hread

theorem notMem_digitsOf {c : Char} (hc : c.isDigit = false) (n : ℕ) : c ∉ digitsOf n := by
  intro hmem
  have hdigit : c.isDigit = true := Nat.isDigit_of_mem_toDigits (by omega) le_rfl hmem
  rw [hc] at hdigit
  exact Bool.false_ne_true hdigit

theorem integerDigits_injective : Function.Injective integerDigits := by
  have hsign : ∀ m n : ℕ, '-' :: digitsOf m ≠ digitsOf n :=
    fun m n h => notMem_digitsOf rfl n (h ▸ List.mem_cons_self)
  intro i j h
  unfold integerDigits at h
  split_ifs at h with hi hj hj
  · have habs := digitsOf_injective (List.cons_injective h)
    omega
  · exact absurd h (hsign _ _)
  · exact absurd h.symm (hsign _ _)
  · have habs := digitsOf_injective h
    omega

theorem slash_notMem_integerDigits (i : ℤ) : '/' ∉ integerDigits i := by
  unfold integerDigits
  split_ifs
  · rw [List.mem_cons, not_or]
    exact ⟨by decide, notMem_digitsOf rfl _⟩
  · exact notMem_digitsOf rfl _

/-! ### Rationals -/

namespace Rational

theorem chars_injective : Function.Injective chars := by
  have hslash : ∀ r s : ℚ, integerDigits r.num ≠ integerDigits s.num ++ '/' :: digitsOf s.den := by
    intro r s h
    refine slash_notMem_integerDigits r.num (h ▸ ?_)
    exact List.mem_append_right _ List.mem_cons_self
  intro r s h
  unfold chars at h
  split_ifs at h with hr hs hs
  · exact Rat.ext (integerDigits_injective h) (hr.trans hs.symm)
  · exact absurd h (hslash r s)
  · exact absurd h.symm (hslash s r)
  · obtain ⟨hnum, -, hden⟩ := (List.append_cons_inj_of_notMem (slash_notMem_integerDigits _)
      (notMem_digitsOf rfl _)).mp h
    exact Rat.ext (integerDigits_injective hnum) (digitsOf_injective hden)

/-- **Rationals are known by their texts.** -/
theorem text_injective : Function.Injective text :=
  fun _ _ h => chars_injective (String.ofList_injective h)

end Rational

/-! ### Profiles -/

/-- **Exact profiles of one shape are known by the texts of their numbers.** -/
theorem MixedProfile.render_inj {places : ℕ} {x y : MixedProfile ℚ} (hshape : x.shape = y.shape) :
    x.render places = y.render places ↔ x = y := by
  constructor
  · intro h
    have hflat : x.probs.flatten = y.probs.flatten :=
      List.map_injective_iff.mpr Rational.text_injective h
    have hprobs : x.probs = y.probs := List.eq_iff_flatten_eq.mpr ⟨hflat, hshape⟩
    exact congrArg MixedProfile.mk hprobs
  · rintro rfl
    rfl

end Equilibria
