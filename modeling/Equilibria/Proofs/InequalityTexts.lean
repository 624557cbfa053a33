import Mathlib
import Equilibria.Polytope.Representation
import Equilibria.Proofs.GamePolytopes
import Equilibria.Proofs.ReadRationals
import Equilibria.Proofs.TextLines
import Equilibria.Proofs.VertexTexts

/-!
# Polytopes are read back from their inequalities

The text that is handed to a vertex enumerator says what polytope is meant, in either domain of
computation:

* `Capped.rows`, `Capped.forall_holds_iff` — the rows of the polytope `{ z ≥ 0 : C z ≤ 1 }`;
* `Representation.WritesOut`, `writesOut_of_toList` — a text that writes rows out, and its lines;
* `Polytope.HasMatrix.exists_writesOut` — coefficients with exact values can be written out;
* `Scalar.finiteExact_rat`, `Scalar.finiteExact_double` — finite coefficients have exact values;
* `Polytope.hRepresentation_of_pair` — both polytopes of a game are written out.

The rows are read word by word by the reader of rationals, so a double may have a long numerator and
a long denominator in its row, but no rounding.
-/

namespace Equilibria

open Matrix

variable {α : Type} [Scalar α] {m n : ℕ}

/-! ### Systems as rows -/

namespace Capped

/-- The rows `b, a₁, …, aₙ` of the inequalities `b + a · z ≥ 0` of a polytope: those of the matrix
first, then the signs of the coordinates. -/
def rows (C : Matrix (Fin n) (Fin m) ℚ) : List (List ℚ) :=
  List.ofFn (fun j => 1 :: List.ofFn fun i => -C j i) ++
    List.ofFn fun i : Fin m => 0 :: List.ofFn (Pi.single i 1)

/-- Whether a point satisfies the inequality of a row. -/
def Holds (row : List ℚ) (z : Fin m → ℚ) : Prop :=
  0 ≤ row.getD 0 0 + ∑ i : Fin m, row.getD (i + 1) 0 * z i

variable {C : Matrix (Fin n) (Fin m) ℚ} {row : List ℚ}

theorem holds_cons_ofFn {b : ℚ} {a z : Fin m → ℚ} :
    Holds (b :: List.ofFn a) z ↔ 0 ≤ b + a ⬝ᵥ z := by
  have hentry : ∀ i : Fin m, (b :: List.ofFn a).getD (i + 1) 0 = a i := by
    intro i
    simp [List.getD_eq_getElem?_getD]
  simp only [Holds, hentry, List.getD_cons_zero, dotProduct]

theorem length_rows : (rows C).length = n + m := by
  rw [rows, List.length_append, List.length_ofFn, List.length_ofFn]

theorem length_of_mem_rows (h : row ∈ rows C) : row.length = m + 1 := by
  rcases List.mem_append.mp h with h | h
  · obtain ⟨j, rfl⟩ := List.mem_ofFn.mp h
    rw [List.length_cons, List.length_ofFn]
  · obtain ⟨i, rfl⟩ := List.mem_ofFn.mp h
    rw [List.length_cons, List.length_ofFn]

theorem rows_constraint (j : Fin n) :
    (rows C)[(j : ℕ)]? = some (1 :: List.ofFn fun i => -C j i) := by
  rw [rows, List.getElem?_append_left (by rw [List.length_ofFn]; exact j.isLt)]
  simp

theorem rows_sign (i : Fin m) : (rows C)[n + i]? = some (0 :: List.ofFn (Pi.single i 1)) := by
  rw [rows, List.getElem?_append_right (by rw [List.length_ofFn]; exact Nat.le_add_right _ _)]
  simp

/-- **The rows describe the polytope.** -/
theorem forall_holds_iff {z : Fin m → ℚ} : (∀ row ∈ rows C, Holds row z) ↔ z ∈ capped C := by
  have hconstraint : ∀ j, (fun i => -C j i) ⬝ᵥ z = -(C *ᵥ z) j := fun j => neg_dotProduct (C j) z
  simp only [rows, List.forall_mem_append, List.forall_mem_ofFn_iff, holds_cons_ofFn, hconstraint,
    single_one_dotProduct, zero_add]
  constructor
  · rintro ⟨hrows, hsigns⟩
    exact ⟨hsigns, fun j => by linarith [hrows j, Pi.one_apply (M := fun _ => ℚ) j]⟩
  · rintro ⟨hsigns, hrows⟩
    exact ⟨fun j => by linarith [hrows j, Pi.one_apply (M := fun _ => ℚ) j], hsigns⟩

end Capped

/-! ### Lines of numbers -/

namespace Representation

variable {row : List ℚ} {rows : List (List ℚ)} {width : ℕ} {c : Char} {l : List Char}
  {ws : List (List Char)}

/-- The numbers of a line, one for each word. -/
def Numbers (l : List Char) (row : List ℚ) : Prop :=
  List.Forall₂ (fun t x => Rational.read? t = some x) (words l) row

/-- A row as it is written. -/
def rowLine (row : List ℚ) : List Char := [' '].intercalate (row.map Rational.chars)

theorem chars_ne_nil (r : ℚ) : Rational.chars r ≠ [] := by
  unfold Rational.chars
  split_ifs
  · exact integerDigits_ne_nil _
  · exact List.append_ne_nil_of_left_ne_nil (integerDigits_ne_nil _) _

theorem plain_chars (row : List ℚ) :
    ∀ w ∈ row.map Rational.chars, w ≠ [] ∧ ∀ c ∈ w, isBlank c = false := by
  intro w hw
  obtain ⟨r, -, rfl⟩ := List.mem_map.mp hw
  exact ⟨chars_ne_nil r, fun c => Rational.isBlank_of_mem_chars⟩

/-- **A written row is read back.** -/
theorem numbers_rowLine (row : List ℚ) : Numbers (rowLine row) row := by
  rw [Numbers, rowLine, words_intercalate (plain_chars row), List.forall₂_map_left_iff,
    List.forall₂_same]
  exact fun x _ => Rational.read?_chars x

/-- Words joined by single spaces hold no other blank. -/
theorem plain_or_space_of_mem (h : ∀ w ∈ ws, ∀ c ∈ w, isBlank c = false)
    (hc : c ∈ [' '].intercalate ws) : isBlank c = false ∨ c = ' ' := by
  induction ws with
  | nil => exact absurd hc List.not_mem_nil
  | cons w ws ih =>
    obtain ⟨hw, hws⟩ := List.forall_mem_cons.mp h
    cases ws with
    | nil =>
      rw [List.intercalate_singleton] at hc
      exact Or.inl (hw c hc)
    | cons w' ws =>
      rw [List.intercalate_cons_cons, List.append_assoc] at hc
      rcases List.mem_append.mp hc with hc | hc
      · exact Or.inl (hw c hc)
      · rcases List.mem_append.mp hc with hc | hc
        · exact Or.inr (List.mem_singleton.mp hc)
        · exact ih hws hc

/-! ### Texts of rows -/

/-- The words of the line that tells a size. -/
def sizeWords (rows : List (List ℚ)) (width : ℕ) : List (List Char) :=
  [digitsOf rows.length, digitsOf width, "rational".toList]

/-- The lines of a text that writes rows out. -/
def outline (player : ℕ) (rows : List (List ℚ)) (width : ℕ) : List (List Char) :=
  ("player".toList ++ digitsOf (player + 1)) :: "H-representation".toList :: beginLine ::
    [' '].intercalate (sizeWords rows width) :: (rows.map rowLine ++ [endLine])

/-- A text writes rows out: after a title, the name of the form and the line that opens the body, it
tells how many rows there are and how wide they are, then comes a line for each row, its numbers in
order, and the line that closes the body. -/
def WritesOut (text : String) (rows : List (List ℚ)) (width : ℕ) : Prop :=
  ∃ title size rowLines,
    lines text.toList =
      title :: "H-representation".toList :: beginLine :: size :: (rowLines ++ [endLine]) ∧
    words size = sizeWords rows width ∧ (∀ row ∈ rows, row.length = width) ∧
    List.Forall₂ Numbers rowLines rows

theorem plain_of_all (h : (l.all fun c => !isBlank c) = true) : ∀ c ∈ l, isBlank c = false :=
  fun c hc => (Bool.not_eq_true' _).mp (List.all_eq_true.mp h c hc)

theorem plain_sizeWords (rows : List (List ℚ)) (width : ℕ) :
    ∀ w ∈ sizeWords rows width, w ≠ [] ∧ ∀ c ∈ w, isBlank c = false := by
  have hdigits : ∀ k, digitsOf k ≠ [] ∧ ∀ c ∈ digitsOf k, isBlank c = false := fun k =>
    ⟨digitsOf_ne_nil k, fun c hc => isBlank_of_isDigit (isDigit_of_mem_digitsOf hc)⟩
  simp only [sizeWords, List.forall_mem_cons]
  exact ⟨hdigits _, hdigits _, ⟨by decide +kernel, plain_of_all (by decide +kernel)⟩,
    fun _ h => absurd h List.not_mem_nil⟩

theorem plain_or_space_of_mem_outline {player : ℕ} (hl : l ∈ outline player rows width)
    (hc : c ∈ l) : isBlank c = false ∨ c = ' ' := by
  have hplayer : ∀ c ∈ "player".toList, isBlank c = false := plain_of_all (by decide +kernel)
  have hform : ∀ c ∈ "H-representation".toList, isBlank c = false :=
    plain_of_all (by decide +kernel)
  have hbegin : ∀ c ∈ beginLine, isBlank c = false := plain_of_all (by decide +kernel)
  have hend : ∀ c ∈ endLine, isBlank c = false := plain_of_all (by decide +kernel)
  simp only [outline, List.mem_cons, List.mem_append, List.mem_map, List.not_mem_nil,
    or_false] at hl
  rcases hl with rfl | rfl | rfl | rfl | ⟨row, -, rfl⟩ | rfl
  · rcases List.mem_append.mp hc with hc | hc
    · exact Or.inl (hplayer c hc)
    · exact Or.inl (isBlank_of_isDigit (isDigit_of_mem_digitsOf hc))
  · exact Or.inl (hform c hc)
  · exact Or.inl (hbegin c hc)
  · exact plain_or_space_of_mem (fun w hw => (plain_sizeWords rows width w hw).2) hc
  · exact plain_or_space_of_mem (fun w hw => (plain_chars row w hw).2) hc
  · exact Or.inl (hend c hc)

/-- **The lines of rows write the rows out.** -/
theorem writesOut_of_toList {text : String} (player : ℕ)
    (h : text.toList = (outline player rows width).flatMap (· ++ ['\n']))
    (hwidth : ∀ row ∈ rows, row.length = width) : WritesOut text rows width := by
  have hlines : lines text.toList = outline player rows width := by
    rw [h, lines_flatMap fun l hl c => plain_or_space_of_mem_outline hl]
  refine ⟨_, _, rows.map rowLine, hlines, words_intercalate (plain_sizeWords rows width), hwidth, ?_⟩
  rw [List.forall₂_map_left_iff, List.forall₂_same]
  exact fun row _ => numbers_rowLine row

theorem toList_line (ws : List String) :
    (line ws).toList = [' '].intercalate (ws.map String.toList) ++ ['\n'] := by
  rw [line, String.toList_append, String.toList_intercalate]
  rfl

/-! ### The text of a polytope -/

theorem inequality_eq {row : List α} {cs : List ℚ} (h : row.map Scalar.toRational? = cs.map some) :
    inequality row = .ok (cs.map fun c => Rational.text (-c)) := by
  induction row generalizing cs with
  | nil =>
    obtain rfl : cs = [] := List.map_eq_nil_iff.mp h.symm
    rfl
  | cons a row ih =>
    cases cs with
    | nil => exact absurd h (List.cons_ne_nil _ _)
    | cons c cs =>
      obtain ⟨ha, hrow⟩ := List.cons.inj h
      simp only [inequality, ha, ih hrow, List.map_cons]

theorem inequalities_eq {rows : List (List α)} {css : List (List ℚ)}
    (h : rows.map (·.map Scalar.toRational?) = css.map (·.map some)) :
    inequalities rows =
      .ok (css.map fun cs => line ("1" :: cs.map fun c => Rational.text (-c))) := by
  induction rows generalizing css with
  | nil =>
    obtain rfl : css = [] := List.map_eq_nil_iff.mp h.symm
    rfl
  | cons row rows ih =>
    cases css with
    | nil => exact absurd h (List.cons_ne_nil _ _)
    | cons cs css =>
      obtain ⟨hrow, hrows⟩ := List.cons.inj h
      simp only [inequalities, inequality_eq hrow, ih hrows, List.map_cons]

theorem toList_constraintLine (cs : List ℚ) :
    (line ("1" :: cs.map fun c => Rational.text (-c))).toList =
      rowLine (1 :: cs.map (-·)) ++ ['\n'] := by
  have hone : Rational.chars 1 = "1".toList := by decide +kernel
  have hwords : (cs.map fun c => Rational.text (-c)).map String.toList =
      (cs.map (-·)).map Rational.chars := by
    rw [List.map_map, List.map_map]
    exact List.map_congr_left fun c _ => String.toList_ofList
  rw [toList_line, List.map_cons, hwords, ← hone, ← List.map_cons, rowLine]

theorem toList_signLine (i : Fin m) :
    (signLine m i).toList = rowLine (0 :: List.ofFn (Pi.single i 1)) ++ ['\n'] := by
  have hzero : Rational.chars 0 = "0".toList := by decide +kernel
  have hone : Rational.chars 1 = "1".toList := by decide +kernel
  have hwords : ((List.range m).map fun k => if k = (i : ℕ) then "1" else "0").map String.toList =
      (List.ofFn (Pi.single i (1 : ℚ))).map Rational.chars := by
    refine List.ext_getElem (by simp) fun k hk _ => ?_
    have hkm : k < m := by simpa using hk
    by_cases hki : k = i
    · simp [hki, hone]
    · have hne : (⟨k, hkm⟩ : Fin m) ≠ i := fun heq => hki (congrArg Fin.val heq)
      simp [hki, hne, hzero]
  rw [signLine, toList_line, List.map_cons, hwords, ← hzero, ← List.map_cons, rowLine]

theorem toList_join_constraintLines (css : List (List ℚ)) :
    (String.join (css.map fun cs => line ("1" :: cs.map fun c => Rational.text (-c)))).toList =
      (css.map fun cs => 1 :: cs.map (-·)).flatMap (rowLine · ++ ['\n']) := by
  rw [String.toList_join, List.flatMap_map, List.flatMap_map]
  exact List.flatMap_congr fun cs _ => toList_constraintLine cs

theorem toList_join_signLines (m : ℕ) :
    (String.join ((List.range m).map (signLine m))).toList =
      (List.ofFn fun i : Fin m => 0 :: List.ofFn (Pi.single i 1)).flatMap (rowLine · ++ ['\n']) := by
  rw [String.toList_join, ← List.map_coe_finRange_eq_range, List.ofFn_eq_map, List.flatMap_map,
    List.flatMap_map, List.flatMap_map]
  exact List.flatMap_congr fun i _ => toList_signLine i

end Representation

namespace Polytope

/-- The exact values of the coefficients, as a matrix. -/
def HasMatrix (p : Polytope α) (C : Matrix (Fin n) (Fin m) ℚ) : Prop :=
  p.constraints.map (·.map Scalar.toRational?) =
    (List.ofFn fun j => List.ofFn (C j)).map (·.map some)

variable {p : Polytope α} {C : Matrix (Fin n) (Fin m) ℚ}

theorem HasMatrix.numConstraints_eq (h : p.HasMatrix C) : p.numConstraints = n := by
  simpa [numConstraints] using congrArg List.length h

theorem HasMatrix.dimension_eq (h : p.HasMatrix C) (hn : 0 < n) : p.dimension = m := by
  obtain ⟨row, rows, hrows⟩ : ∃ row rows, p.constraints = row :: rows := by
    refine List.exists_cons_of_length_pos ?_
    rw [← numConstraints, h.numConstraints_eq]
    exact hn
  obtain ⟨k, rfl⟩ := Nat.exists_eq_add_one.mpr hn
  rw [HasMatrix, hrows, List.ofFn_succ] at h
  have hlength := congrArg List.length (List.cons.inj h).1
  simpa [dimension, hrows] using hlength

/-- **A polytope with a matrix of exact values is written out as the rows of that matrix.** -/
theorem HasMatrix.exists_writesOut (h : p.HasMatrix C) (hn : 0 < n) :
    ∃ text, p.hRepresentation = .ok text ∧
      Representation.WritesOut text (Capped.rows C) (m + 1) := by
  have hinequalities := Representation.inequalities_eq h
  have hconstraints : (List.ofFn fun j => List.ofFn (C j)).map (fun cs => 1 :: cs.map (-·)) =
      List.ofFn fun j => 1 :: List.ofFn fun i => -C j i := by
    simp only [List.map_ofFn, Function.comp_def]
  have hopening : "\nH-representation\nbegin\n".toList =
      '\n' :: ("H-representation".toList ++ '\n' :: (Representation.beginLine ++ ['\n'])) := by
    decide +kernel
  have hsize : " rational\n".toList = ' ' :: ("rational".toList ++ ['\n']) := by decide +kernel
  have hclosing : "end\n".toList = Representation.endLine ++ ['\n'] := by decide +kernel
  have hdigits : ∀ k : ℕ, (toString k).toList = digitsOf k := fun k => String.toList_ofList
  simp only [hRepresentation, hinequalities, h.numConstraints_eq, h.dimension_eq hn]
  refine ⟨_, rfl,
    Representation.writesOut_of_toList p.player ?_ fun row => Capped.length_of_mem_rows⟩
  simp only [String.toList_append, Representation.toList_join_constraintLines,
    Representation.toList_join_signLines, hconstraints, hopening, hsize, hclosing, hdigits,
    Representation.outline, Representation.sizeWords, Capped.length_rows, List.flatMap_cons,
    List.flatMap_append, List.flatMap_map, List.intercalate_cons_cons, List.intercalate_singleton,
    List.flatMap_nil]
  -- what is left is the order of brackets
  rw [Capped.rows, List.flatMap_append]
  simp only [List.append_assoc, List.cons_append, List.nil_append, List.append_nil]
  rfl

end Polytope

/-! ### The polytopes of a game -/

/-- A player's payoff, raised so that the least one is one, in a domain of computation. -/
def Game.raised (α : Type) [Scalar α] (g : Game) (k i j : ℕ) : α :=
  Scalar.ofRational (g.payoff k [i, j] + g.shift k)

/-- In a domain of computation, what is finite has an exact value. -/
def Scalar.FiniteExact (α : Type) [Scalar α] : Prop :=
  ∀ a : α, Scalar.isFinite a = true → ∃ v, Scalar.toRational? a = some v

theorem Scalar.finiteExact_rat : Scalar.FiniteExact ℚ := fun a _ => ⟨a, rfl⟩

theorem Scalar.finiteExact_double : Scalar.FiniteExact Double := by
  intro a hfinite
  cases a with
  | undefined s => exact absurd hfinite Bool.false_ne_true
  | number x =>
    replace hfinite : Binary64.isFinite x = true := hfinite
    show ∃ v, Binary64.toRational? x = some v
    unfold Binary64.isFinite at hfinite
    unfold Binary64.toRational?
    cases hdatum : Binary64.ofFloat x with
    | finite f => exact ⟨f.toRational, rfl⟩
    | infinite s => simp [hdatum] at hfinite
    | undefined => simp [hdatum] at hfinite

namespace Polytope

variable {p q : Polytope α} {g : Game} {f : Fin n → Fin m → α}

theorem shifted_matrix (g : Game) (k : ℕ) : (shifted (g.matrix k) : List (List α)) =
    List.ofFn fun i : Fin (g.numStrategies 0) => List.ofFn fun j : Fin (g.numStrategies 1) =>
      g.raised α k i j := by
  show (g.matrix k).map (fun row => row.map fun v => (Scalar.ofRational (v + g.shift k) : α)) = _
  simp only [Game.matrix, List.map_map, ← List.map_coe_finRange_eq_range, List.ofFn_eq_map,
    Function.comp_def, Game.raised]

theorem transposed_ofFn (f : Fin m → Fin n → α) :
    transposed m n (List.ofFn fun i => List.ofFn (f i)) =
      List.ofFn fun j => List.ofFn fun i => f i j := by
  have hentry : ∀ (i : Fin m) (j : Fin n),
      ((List.ofFn fun i => List.ofFn (f i)).getD i []).getD j 0 = f i j := by
    intro i j
    simp [List.getD_eq_getElem?_getD]
  simp only [transposed, ← List.map_coe_finRange_eq_range, List.map_map, Function.comp_def, hentry]
  simp only [List.ofFn_eq_map]

theorem constraints_first (g : Game) : (first g : Polytope α).constraints =
    List.ofFn fun j : Fin (g.numStrategies 1) => List.ofFn fun i : Fin (g.numStrategies 0) =>
      g.raised α 1 i j := by
  show transposed _ _ (shifted (g.matrix 1)) = _
  rw [shifted_matrix, transposed_ofFn]

theorem constraints_second (g : Game) : (second g : Polytope α).constraints =
    List.ofFn fun i : Fin (g.numStrategies 0) => List.ofFn fun j : Fin (g.numStrategies 1) =>
      g.raised α 0 i j :=
  shifted_matrix g 0

/-- What is returned as the two polytopes of a game. -/
theorem eq_of_pair (h : pair g = .ok (p, q)) :
    (p = first g ∧ p.isFinite = true) ∧ q = second g ∧ q.isFinite = true := by
  simp only [pair] at h
  split_ifs at h with htwo hfirst hsecond
  simp only [Bool.not_eq_true', Bool.not_eq_false] at hfirst hsecond
  obtain ⟨rfl, rfl⟩ := Prod.mk.inj (Except.ok.inj h)
  exact ⟨⟨rfl, hfirst⟩, rfl, hsecond⟩

/-- Finite coefficients have a matrix of exact values. -/
theorem exists_hasMatrix (hexact : Scalar.FiniteExact α) (hfinite : p.isFinite = true)
    (h : p.constraints = List.ofFn fun j => List.ofFn (f j)) :
    ∃ C : Matrix (Fin n) (Fin m) ℚ, (∀ j i, Scalar.toRational? (f j i) = some (C j i)) ∧
      p.HasMatrix C := by
  have hentry : ∀ j i, ∃ v, Scalar.toRational? (f j i) = some v := by
    intro j i
    rw [isFinite, h, List.all_eq_true] at hfinite
    have hrow := hfinite _ (List.mem_ofFn.mpr ⟨j, rfl⟩)
    exact hexact _ (List.all_eq_true.mp hrow _ (List.mem_ofFn.mpr ⟨i, rfl⟩))
  choose C hC using hentry
  refine ⟨C, hC, ?_⟩
  simp only [HasMatrix, h, List.map_ofFn, Function.comp_def, hC]

/-- The polytope with coefficient `f j i` for strategy `j` of the opponent and own strategy `i` is
written out.  There is a text; its rows are those of the polytope `{ z ≥ 0 : C z ≤ 1 }` for the exact
values `C` of the coefficients; first come the rows of the opponent's strategies, then the signs of
the coordinates. -/
def WrittenOut (p : Polytope α) (f : Fin n → Fin m → α) : Prop :=
  ∃ (text : String) (rows : List (List ℚ)) (C : Matrix (Fin n) (Fin m) ℚ),
    p.constraints = (List.ofFn fun j => List.ofFn (f j)) ∧
    (∀ j i, Scalar.toRational? (f j i) = some (C j i)) ∧
    p.hRepresentation = .ok text ∧ Representation.WritesOut text rows (m + 1) ∧
    {z : Fin m → ℚ | ∀ row ∈ rows, Capped.Holds row z} = {z | 0 ≤ z ∧ C *ᵥ z ≤ 1} ∧
    rows.length = n + m ∧
    (∀ j : Fin n, rows[(j : ℕ)]? = some (1 :: List.ofFn fun i => -C j i)) ∧
    ∀ i : Fin m, rows[n + i]? = some (0 :: List.ofFn (Pi.single i 1))

theorem writtenOut (hexact : Scalar.FiniteExact α) (hfinite : p.isFinite = true) (hn : 0 < n)
    (h : p.constraints = List.ofFn fun j => List.ofFn (f j)) : p.WrittenOut f := by
  obtain ⟨C, hvalues, hmatrix⟩ := exists_hasMatrix hexact hfinite h
  obtain ⟨text, htext, hwrites⟩ := hmatrix.exists_writesOut hn
  exact ⟨text, Capped.rows C, C, h, hvalues, htext, hwrites,
    Set.ext fun z => Capped.forall_holds_iff, Capped.length_rows, Capped.rows_constraint,
    Capped.rows_sign⟩

/-- The first player's polytope has a row for each of the second player's strategies, made of the
second player's payoffs, and the other way round. -/
theorem writtenOut_of_pair (hexact : Scalar.FiniteExact α) (htwo : g.numPlayers = 2)
    (hvalid : g.validate = .ok ()) (h : pair g = .ok (p, q)) :
    (p.WrittenOut fun (j : Fin (g.numStrategies 1)) (i : Fin (g.numStrategies 0)) =>
      g.raised α 1 i j) ∧
    q.WrittenOut fun (i : Fin (g.numStrategies 0)) (j : Fin (g.numStrategies 1)) =>
      g.raised α 0 i j := by
  have h₀ : 0 < g.numStrategies 0 := Game.numStrategies_pos hvalid (by omega)
  have h₁ : 0 < g.numStrategies 1 := Game.numStrategies_pos hvalid (by omega)
  obtain ⟨⟨rfl, hfirst⟩, rfl, hsecond⟩ := eq_of_pair h
  exact ⟨writtenOut hexact hfirst h₁ (constraints_first g),
    writtenOut hexact hsecond h₀ (constraints_second g)⟩

/-- **Both polytopes of a game are written out**, in either domain of computation.  The text is read
back as the rows of `{ z ≥ 0 : C z ≤ 1 }`, where `C` holds the exact values of the raised payoffs. -/
theorem hRepresentation_of_pair (g : Game) (htwo : g.numPlayers = 2) (hvalid : g.validate = .ok ()) :
    (∀ p q : Polytope ℚ, pair g = .ok (p, q) →
      (p.WrittenOut fun (j : Fin (g.numStrategies 1)) (i : Fin (g.numStrategies 0)) =>
        g.raised ℚ 1 i j) ∧
      q.WrittenOut fun (i : Fin (g.numStrategies 0)) (j : Fin (g.numStrategies 1)) =>
        g.raised ℚ 0 i j) ∧
    ∀ p q : Polytope Double, pair g = .ok (p, q) →
      (p.WrittenOut fun (j : Fin (g.numStrategies 1)) (i : Fin (g.numStrategies 0)) =>
        g.raised Double 1 i j) ∧
      q.WrittenOut fun (i : Fin (g.numStrategies 0)) (j : Fin (g.numStrategies 1)) =>
        g.raised Double 0 i j :=
  ⟨fun _ _ => writtenOut_of_pair Scalar.finiteExact_rat htwo hvalid,
    fun _ _ => writtenOut_of_pair Scalar.finiteExact_double htwo hvalid⟩

theorem hRepresentation_of_pair_dilemma :
    Game.dilemma.numPlayers = 2 ∧ Game.dilemma.validate = .ok () ∧
      (∃ p q : Polytope ℚ, pair Game.dilemma = .ok (p, q) ∧
        (p.WrittenOut fun (j i : Fin 2) => Game.dilemma.raised ℚ 1 i j) ∧
        q.WrittenOut fun (i j : Fin 2) => Game.dilemma.raised ℚ 0 i j) ∧
      ∃ p q : Polytope Double, pair Game.dilemma = .ok (p, q) ∧
        (p.WrittenOut fun (j i : Fin 2) => Game.dilemma.raised Double 1 i j) ∧
        q.WrittenOut fun (i j : Fin 2) => Game.dilemma.raised Double 0 i j := by
  have hfirst : (first Game.dilemma : Polytope Double).isFinite = true := by decide +kernel
  have hsecond : (second Game.dilemma : Polytope Double).isFinite = true := by decide +kernel
  have hdouble : (pair Game.dilemma : Except Failure (Polytope Double × Polytope Double)) =
      .ok (first Game.dilemma, second Game.dilemma) := by
    unfold pair
    rw [if_neg (by decide)]
    simp [hfirst, hsecond]
  obtain ⟨hrat, hdoubles⟩ := hRepresentation_of_pair Game.dilemma rfl rfl
  exact ⟨rfl, rfl, ⟨_, _, pair_eq rfl, hrat _ _ (pair_eq rfl)⟩, _, _, hdouble, hdoubles _ _ hdouble⟩

end Polytope

end Equilibria
