import Mathlib
import Equilibria.Game.Document
import Equilibria.Proofs.GameDocuments
import Equilibria.Proofs.NumeralTexts
import Equilibria.Proofs.ShortestDecimals

/-!
# Payoffs as numbers and as texts

A payoff that is a number goes through a double and the text of the double, a payoff that is a text
is read as it stands.  For decimals of at most 15 digits both give the number that is written, as
long as the double is written in positions:

* `Json.Numeral.gather_eq` — digits that fit into 64 bits are gathered without loss;
* `exists_hasParts_powerOfTen`, `exists_toDouble?` — the double is the one nearest to the number;
* `toDouble?_of_zero` — zeros stay zeros, whatever their length and their sign;
* `Json.Numeral.toRational?_eq_value` — the number is read back from the text of the double;
* `Game.ofJson_spellings` — two documents that differ in the spelling of payoffs give one game;
* `Game.ofDocument_millionth` — a millionth is too small for that.

Integers of 64 bits are exact in any case, see `toRational?_of_toInteger?`.
-/

namespace Equilibria

open Binary64 (HasParts Nearest)

variable {cs : List Char} {k : ℕ}

namespace Json.Numeral

/-! ### Gathering digits -/

theorem gather_step (a : ℕ) (c : Char) (cs : List Char) :
    (10 * a + digitValue c) * 10 ^ cs.length + naturalOfDigits cs =
      a * 10 ^ (c :: cs).length + naturalOfDigits (c :: cs) := by
  rw [naturalOfDigits_cons, List.length_cons]
  ring

theorem gather_room {a : ℕ} {c : Char} {cs : List Char}
    (h : a * 10 ^ (c :: cs).length + naturalOfDigits (c :: cs) < naturalBound) :
    10 * a + digitValue c < naturalBound := by
  rw [← gather_step] at h
  have := Nat.le_mul_of_pos_right (10 * a + digitValue c) (by positivity : 0 < 10 ^ cs.length)
  omega

theorem gatherWhole_eq (g : Gathered)
    (h : g.significand * 10 ^ cs.length + naturalOfDigits cs < naturalBound) :
    gatherWhole g cs = ⟨g.significand * 10 ^ cs.length + naturalOfDigits cs, g.exponent⟩ := by
  induction cs generalizing g with
  | nil => simp [gatherWhole, naturalOfDigits]
  | cons c cs ih =>
    rw [gatherWhole]
    simp only [if_pos (gather_room h)]
    rw [ih _ (by rwa [gather_step]), gather_step]

theorem gatherFraction_eq (g : Gathered)
    (h : g.significand * 10 ^ cs.length + naturalOfDigits cs < naturalBound) :
    gatherFraction g cs =
      ⟨g.significand * 10 ^ cs.length + naturalOfDigits cs, g.exponent - cs.length⟩ := by
  induction cs generalizing g with
  | nil => simp [gatherFraction, naturalOfDigits]
  | cons c cs ih =>
    rw [gatherFraction]
    simp only [if_pos (gather_room h)]
    rw [ih _ (by rwa [gather_step]), gather_step, Gathered.mk.injEq, List.length_cons]
    exact ⟨rfl, by push_cast; ring⟩

/-- **Digits that fit into 64 bits are gathered without loss.** -/
theorem gather_eq (whole fraction : List Char)
    (h : naturalOfDigits (whole ++ fraction) < naturalBound) :
    gatherFraction (gatherWhole ⟨0, 0⟩ whole) fraction =
      ⟨naturalOfDigits (whole ++ fraction), -fraction.length⟩ := by
  rw [naturalOfDigits_append] at h ⊢
  have hwhole : naturalOfDigits whole < naturalBound := by
    have := Nat.le_mul_of_pos_right (naturalOfDigits whole)
      (by positivity : 0 < 10 ^ fraction.length)
    omega
  rw [gatherWhole_eq _ (by simpa using hwhole), Nat.zero_mul, Nat.zero_add,
    gatherFraction_eq _ h, zero_sub]

/-! ### Powers of ten -/

/-- Whether a power of ten is a double, with its parts. -/
def exactPower (k : ℕ) : Bool :=
  match (powerOfTen k).toModel.unpack with
  | .finite .positive m e _ =>
    decide (2 ^ 52 ≤ m ∧ m < 2 ^ 53 ∧ -52 ≤ e ∧ e ≤ 22 ∧ m * 2 ^ (e + 52).toNat = 10 ^ k * 2 ^ 52)
  | _ => false

/-- Small powers of ten are doubles. -/
theorem exists_hasParts_powerOfTen (hk : k < 23) :
    ∃ m e, HasParts (powerOfTen k) .positive m e ∧ (m : ℚ) * 2 ^ e = 10 ^ k ∧ -52 ≤ e ∧ e ≤ 22 := by
  -- `10 ^ 22` is the last power of ten whose odd part fits into 53 bits
  have hall : ∀ k < 23, exactPower k = true := by decide +kernel
  have hexact := hall k hk
  unfold exactPower at hexact
  split at hexact
  · next m e hm hunpack =>
    obtain ⟨hlower, hupper, hleast, hgreatest, hvalue⟩ := of_decide_eq_true hexact
    refine ⟨m, e, ⟨⟨hlower, hupper, by omega, by omega⟩, hm, hunpack⟩, ?_, hleast, hgreatest⟩
    have hscaled : (m : ℚ) * 2 ^ (e + 52).toNat = 10 ^ k * 2 ^ 52 := by exact_mod_cast hvalue
    have hpow : (2 : ℚ) ^ (e + 52).toNat = 2 ^ e * 2 ^ 52 := by
      rw [← zpow_natCast, Int.toNat_of_nonneg (by omega), zpow_add₀ two_ne_zero]
      norm_num
    rw [hpow, ← mul_assoc] at hscaled
    exact mul_right_cancel₀ (by norm_num) hscaled
  · exact absurd hexact Bool.false_ne_true

/-! ### The reading as a double -/

variable {n : Numeral} {s : ℕ}

/-- A negative power of ten in range divides. -/
theorem scaleDouble_neg (f : Float) (hpos : 0 < k) (hk : k ≤ 308) :
    scaleDouble f (-k) = some (f / powerOfTen k) := by
  have habs : (-(k : ℤ)).natAbs = k := by omega
  rw [scaleDouble, if_neg (by omega), if_pos (by omega), habs]

/-- **Few digits over a small power of ten are read as the nearest double.** -/
theorem exists_scaleDouble (hs : 0 < s) (hs' : s < 2 ^ 53) (hpos : 0 < k) (hk : k < 23) :
    ∃ x m q, scaleDouble (UInt64.ofNat s).toFloat (-k) = some x ∧ HasParts x .positive m q ∧
      Nearest (s / 10 ^ k) m q := by
  obtain ⟨m₁, e₁, hparts₁, hvalue₁, hleast₁, hgreatest₁⟩ := Binary64.exists_hasParts_toFloat hs hs'
  obtain ⟨m₂, e₂, hparts₂, hvalue₂, hleast₂, hgreatest₂⟩ := exists_hasParts_powerOfTen hk
  obtain ⟨m, q, hparts, hnearest⟩ := hparts₁.div hparts₂ (by omega) (by omega)
  rw [hvalue₁, hvalue₂] at hnearest
  exact ⟨_, m, q, scaleDouble_neg _ hpos (by omega), hparts, hnearest⟩

theorem powerOfTen_eq (hk : k ≤ 308) :
    powerOfTen k = Binary64.ofSignWord false (Binary64.nearestWord (1 * 10 ^ k) 1) := by
  have hone : digitCount 1 = 1 := rfl
  rw [powerOfTen, Binary64.ofDecimal, if_neg one_ne_zero, hone]
  dsimp only
  rw [if_neg (by omega), if_neg (by omega)]
  rfl

/-- A zero stays a zero, whatever the power of ten. -/
theorem exists_scaleDouble_zero (k : ℕ) : ∃ x, scaleDouble (UInt64.ofNat 0).toFloat (-k) = some x ∧
    x.toModel.unpack = .zero .positive := by
  rcases Nat.eq_zero_or_pos k with rfl | hpos
  · have hfinite : Binary64.isFinite ((UInt64.ofNat 0).toFloat * powerOfTen 0) = true := rfl
    refine ⟨(UInt64.ofNat 0).toFloat * powerOfTen 0, ?_, rfl⟩
    rw [scaleDouble, if_pos (by decide), if_pos (by decide)]
    exact if_pos hfinite
  · rcases Nat.lt_or_ge 308 k with hlt | hle
    · refine ⟨(UInt64.ofNat 0).toFloat, ?_, rfl⟩
      rw [scaleDouble, if_neg (by omega), if_neg (by omega)]
      rfl
    · refine ⟨_, scaleDouble_neg _ hpos hle, Binary64.unpack_zero_div rfl ?_⟩
      rw [powerOfTen_eq hle]
      exact Binary64.unpack_nearestWord (by positivity)

/-- The magnitude of a number that fits into 64 bits. -/
theorem magnitude?_eq (hpower : n.power = none) (h : naturalOfDigits n.digits < naturalBound) :
    n.magnitude? =
      scaleDouble (UInt64.ofNat (naturalOfDigits n.digits)).toFloat (-n.fraction.length) := by
  simp only [magnitude?, hpower, gather_eq n.whole n.fraction h, digits]

/-- The sign of a number is put on its magnitude. -/
theorem toDouble?_eq {x : Float} (h : n.magnitude? = some x) :
    n.toDouble? = some (if n.negative then -x else x) := by
  rw [toDouble?, h]
  rfl

/-- **A number of few digits is read as the nearest double.** -/
theorem exists_toDouble? (hpower : n.power = none) (hs : 0 < naturalOfDigits n.digits)
    (hs' : naturalOfDigits n.digits < 2 ^ 53) (hpos : 0 < n.fraction.length)
    (hk : n.fraction.length < 23) : ∃ x m q, n.toDouble? = some x ∧
      Binary64.ofFloat x = .finite ⟨n.negative, m, q⟩ ∧
      Nearest (naturalOfDigits n.digits / 10 ^ n.fraction.length) m q := by
  obtain ⟨x, m, q, hscale, hparts, hnearest⟩ := exists_scaleDouble hs hs' hpos hk
  rw [← magnitude?_eq hpower (hs'.trans (by decide))] at hscale
  refine ⟨_, m, q, toDouble?_eq hscale, ?_, hnearest⟩
  cases n.negative with
  | false => exact hparts.ofFloat_eq
  | true => exact hparts.neg.ofFloat_eq

/-- A number whose digits are all zero is read as a double of zero. -/
theorem toDouble?_of_zero (hpower : n.power = none) (hzero : naturalOfDigits n.digits = 0) :
    ∃ x, n.toDouble? = some x ∧ Binary64.ofFloat x = .finite ⟨n.negative, 0, -1074⟩ := by
  obtain ⟨x, hscale, hunpack⟩ := exists_scaleDouble_zero n.fraction.length
  rw [← hzero, ← magnitude?_eq hpower (hzero ▸ by decide)] at hscale
  refine ⟨_, toDouble?_eq hscale, ?_⟩
  rw [Binary64.ofFloat_eq]
  cases n.negative with
  | false => exact congrArg Binary64.datumOf hunpack
  | true => exact congrArg Binary64.datumOf (Binary64.unpack_neg_zero hunpack)

/-! ### The reading as a payoff -/

/-- Integers of 64 bits are read as they stand, whatever their length. -/
theorem toRational?_of_toInteger? {i : ℤ} (h : n.toInteger? = some i) :
    n.toRational? = some (i : ℚ) ∧ n.value = i := by
  constructor
  · rw [toRational?, h]
    show Rational.read? (integerDigits i) = _
    rw [Rational.read?, trim_eq_self fun c => isBlank_of_mem_integerDigits,
      Rational.ofTrimmed?_integerDigits]
  · simp only [toInteger?] at h
    split_ifs at h with hinteger hnegative hrange hbound
    all_goals
      obtain rfl := Option.some.inj h
      simp only [isInteger, Bool.not_eq_true', Bool.not_eq_false, Bool.and_eq_true,
        List.isEmpty_iff] at hinteger
      rw [value_eq, digits, hinteger.1]
      simp [hnegative]

/-- An integer of few digits other than the negative zero is read as an integer. -/
theorem fraction_ne_nil (h : n.IsPlain) (hinteger : n.toInteger? = none)
    (hpos : 0 < naturalOfDigits n.digits) (hlt : naturalOfDigits n.digits < 10 ^ 15) :
    n.fraction ≠ [] := by
  intro hfraction
  have hwhole : n.digits = n.whole := by rw [digits, hfraction, List.append_nil]
  rw [hwhole] at hpos hlt
  have hsigned : naturalOfDigits n.whole ≤ Nat.pow 2 63 := hlt.le.trans (by decide)
  have hunsigned : naturalOfDigits n.whole < naturalBound := hlt.trans (by decide)
  have hform : n.isInteger = true := by rw [isInteger, hfraction, h.power]; rfl
  rw [toInteger?] at hinteger
  simp only [hform, hpos, hsigned, hunsigned, Bool.not_true, Bool.false_eq_true, if_false, if_true,
    and_self] at hinteger
  split_ifs at hinteger

/-- A zero that is no integer is read as zero. -/
theorem toRational?_of_zero (hpower : n.power = none) (hinteger : n.toInteger? = none)
    (hzero : naturalOfDigits n.digits = 0) :
    n.toRational? = some n.value ∧ n.toDouble? ≠ none := by
  obtain ⟨x, hdouble, hdatum⟩ := toDouble?_of_zero hpower hzero
  have hvalue : n.value = 0 := by rw [value_eq, hzero, Nat.cast_zero, zero_div, mul_zero]
  have hread : ∀ negative, Rational.read? (chars ⟨negative, ['0'], ['0'], none⟩) = some 0 := by
    decide +kernel
  refine ⟨?_, hdouble ▸ Option.some_ne_none x⟩
  simp only [toRational?, hinteger, hdouble, Option.bind_some, ofDouble?, hdatum, if_true, hread,
    hvalue]

/-- A number that is not too small has few digits behind its point. -/
theorem length_fraction_lt (hlt : naturalOfDigits n.digits < 10 ^ 15)
    (hsize : 1 / 10 ^ 5 ≤ |n.value|) : n.fraction.length < 23 := by
  rw [abs_value, div_le_div_iff₀ (by positivity) (by positivity), one_mul] at hsize
  have hpow : 10 ^ n.fraction.length ≤ naturalOfDigits n.digits * 10 ^ 5 := by exact_mod_cast hsize
  exact (Nat.pow_lt_pow_iff_right (a := 10) (by norm_num)).mp (by omega)

/-- **A number that is no integer is read back from the shortest decimal of its double.** -/
theorem toRational?_of_size (h : n.IsPlain) (hinteger : n.toInteger? = none)
    (hlt : naturalOfDigits n.digits < 10 ^ 15) (hsize : 1 / 10 ^ 5 ≤ |n.value|) :
    n.toRational? = some n.value ∧ n.toDouble? ≠ none := by
  have hk := length_fraction_lt hlt hsize
  rw [abs_value] at hsize
  have hpos : 0 < naturalOfDigits n.digits := by
    refine Nat.pos_of_ne_zero fun hzero => ?_
    norm_num [hzero] at hsize
  have hfraction := fraction_ne_nil h hinteger hpos hlt
  obtain ⟨x, m, q, hdouble, hdatum, hnearest⟩ := exists_toDouble? h.power hpos
    (hlt.trans (by norm_num)) (List.length_pos_of_ne_nil hfraction) hk
  obtain ⟨hcoefficient, hvalue⟩ := Decimal.shortest_spec hnearest hlt (p := -n.fraction.length)
    (by rw [zpow_neg, zpow_natCast, div_eq_mul_inv]) .toEven
  have htop : (naturalOfDigits n.digits : ℚ) / 10 ^ n.fraction.length < 10 ^ 15 := by
    refine (div_le_self (by positivity) (one_le_pow₀ (by norm_num))).trans_lt ?_
    exact_mod_cast hlt
  rw [← hvalue] at hsize htop
  obtain ⟨hleast, hgreatest⟩ := Decimal.leading_mem_range hcoefficient hsize htop
  have hm : m ≠ 0 := by
    have := hnearest.lower
    omega
  refine ⟨?_, hdouble ▸ Option.some_ne_none x⟩
  simp only [toRational?, hinteger, hdouble, Option.bind_some, ofDouble?, hdatum, if_neg hm,
    read?_chars_ofDecimal hleast hgreatest, hvalue, value_eq n]

/-- **A number of at most 15 digits is read with its value**, if it is zero or not too small to be
written in positions. -/
theorem toRational?_eq_value (h : n.IsPlain)
    (hdigits : (n.digits.dropWhile (· = '0')).length ≤ 15)
    (hsize : n.value = 0 ∨ 1 / 10 ^ 5 ≤ |n.value|) :
    n.toRational? = some n.value ∧ (n.toInteger? ≠ none ∨ n.toDouble? ≠ none) := by
  have hlt : naturalOfDigits n.digits < 10 ^ 15 :=
    (naturalOfDigits_lt h.digits).trans_le (Nat.pow_le_pow_right (by norm_num) hdigits)
  cases hinteger : n.toInteger? with
  | some i =>
    obtain ⟨hread, hvalue⟩ := toRational?_of_toInteger? hinteger
    exact ⟨hvalue ▸ hread, Or.inl (Option.some_ne_none i)⟩
  | none =>
    obtain ⟨hread, hdouble⟩ : n.toRational? = some n.value ∧ n.toDouble? ≠ none := by
      rcases hsize with hvalue | hsize
      · have habs := abs_value n
        rw [hvalue, abs_zero, eq_comm, div_eq_zero_iff, Nat.cast_eq_zero] at habs
        exact toRational?_of_zero h.power hinteger (habs.resolve_right (by positivity))
      · exact toRational?_of_size h hinteger hlt hsize
    exact ⟨hread, Or.inr hdouble⟩

end Json.Numeral

/-! ### Documents -/

namespace Game

open Json (Numeral)

/-- A decimal of at most 15 digits, zero or at least a hundred-thousandth in size, as a number and as
its text. -/
structure TwoSpellings (n : Numeral) (t : List Char) : Prop where
  read : Numeral.read? t = some n
  power : n.power = none
  digits : (n.digits.dropWhile (· = '0')).length ≤ 15
  size : n.value = 0 ∨ 1 / 10 ^ 5 ≤ |n.value|

/-- **Both spellings of a payoff are the same rational**, the one that is written. -/
theorem TwoSpellings.payoffOfJson?_eq {n : Numeral} {t : List Char} (h : TwoSpellings n t) :
    payoffOfJson? (.number n) = some (some n.value) ∧
      payoffOfJson? (.string (some t)) = some (some n.value) := by
  obtain ⟨hplain, hchars⟩ := Numeral.isPlain_of_read? h.read h.power
  obtain ⟨hvalue, hreads⟩ := Numeral.toRational?_eq_value hplain h.digits h.size
  constructor
  · rw [payoffOfJson?, hvalue]
    split
    · next hinteger hdouble => exact absurd hreads (by simp [hinteger, hdouble])
    · rfl
  · show some (Rational.read? t) = _
    rw [← hchars, Numeral.read?_chars hplain]

/-- A document with given payoffs. -/
def documentWith (title players : Json) (payoffs : List (List Json)) : Json :=
  .record [("title", title), ("players", players), ("payoffs", .array (payoffs.map .array))]

theorem mapM_eq_mapM_map {β γ : Type} (f : β → Option γ) (bs : List β) :
    bs.mapM f = (bs.map f).mapM id := by
  rw [List.mapM_map]
  rfl

/-- Only the values of the payoffs matter. -/
theorem ofJson_documentWith_congr {title players : Json} {payoffs payoffs' : List (List Json)}
    (h : payoffs.map (·.map payoffOfJson?) = payoffs'.map (·.map payoffOfJson?)) :
    ofJson (documentWith title players payoffs) = ofJson (documentWith title players payoffs') := by
  have hfields : ∀ rows : List (List Json),
      Json.fieldsOf? false ["title", "players", "payoffs"] (documentWith title players rows) =
        some [some title, some players, some (.array (rows.map .array))] :=
    fun rows => Json.fieldsOf?_record rfl (by decide)
  have htable : ∀ rows : List (List Json),
      Json.toList? (Json.toList? payoffOfJson?) (.array (rows.map .array)) =
        (rows.map (·.map payoffOfJson?)).mapM (·.mapM id) := by
    intro rows
    show (rows.map Json.array).mapM (Json.toList? payoffOfJson?) = _
    rw [List.mapM_map, List.mapM_map]
    congr 1
    funext row
    exact mapM_eq_mapM_map payoffOfJson? row
  simp only [ofJson, draft?, hfields, Json.required, Option.bind_some, htable, h]

/-- **The two spellings of a document give the same game.**  Where a payoff is a decimal of at most
15 digits that is not too small, it does not matter whether it is a number or a text. -/
theorem ofJson_spellings (title players : Json) (rows : List (List (Numeral × List Char)))
    (h : ∀ row ∈ rows, ∀ p ∈ row, TwoSpellings p.1 p.2) :
    ofJson (documentWith title players (rows.map (·.map fun p => .number p.1))) =
      ofJson (documentWith title players (rows.map (·.map fun p => .string (some p.2)))) := by
  refine ofJson_documentWith_congr ?_
  simp only [List.map_map, Function.comp_def]
  refine List.map_congr_left fun row hrow => List.map_congr_left fun p hp => ?_
  obtain ⟨hnumber, htext⟩ := (h row hrow p hp).payoffOfJson?_eq
  rw [hnumber, htext]

/-- The document of a single payoff. -/
def singleton (payoff : String) : String :=
  "\x7b\"players\":[\x7b\"name\":\"A\",\"strategies\":[\"s\"]\x7d],\"payoffs\":[[" ++ payoff ++
    "]]\x7d"

/-- A millionth as a number is written with a power of ten, and read as a double for it. -/
theorem ofDocument_millionth :
    (ofDocument (singleton "0.000001")).toOption.map Game.payoffs =
        some [[4722366482869645 / 4722366482869645213696]] ∧
      (ofDocument (singleton "\"0.000001\"")).toOption.map Game.payoffs = some [[1 / 1000000]] := by
  decide +kernel

end Game

end Equilibria
