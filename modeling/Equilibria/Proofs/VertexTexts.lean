import Mathlib
import Equilibria.Polytope.Representation
import Equilibria.Proofs.ReadRationals
import Equilibria.Proofs.TextLines

/-!
# Vertices are read from the texts that list them

The reader of a vertex list is a machine over lines.  What it accepts is said here without it:

* `coordinates?_eq_ok`, `body_cons_eq_ok_iff` — one line is a size, which lists nothing, or a vertex;
* `body_eq_ok_iff` — a body is closed, and all its lines are of these two kinds;
* `Contains`, `parseVertices_eq_ok_iff` — a text is read exactly if its lines that matter open such a
  body, and then as the vertices in order;
* `Layout.Prints` — texts that print points, with comments, blank lines, sizes and blanks at will;
* `parseVertices_exact` — the reader accepts what lists vertices, reads back what prints them, and
  refuses bodies that are open, hold a ray or a row of another width.

A size is known by its last word.  That word is no number, so no line is both a size and a vertex.
-/

namespace Equilibria

namespace Representation

variable {n : ℕ} {l rest : List Char} {ls rows before : List (List Char)} {v : List ℚ}
  {vs : List (List ℚ)}

/-! ### Single lines -/

/-- The line that opens a body. -/
def beginLine : List Char := "begin".toList

/-- The line that closes a body. -/
def endLine : List Char := "end".toList

/-- Whether a line tells a size: its last word says so. -/
def IsSize (l : List Char) : Prop := (words l).getLast? = some "rational".toList

instance instDecidableIsSize (l : List Char) : Decidable (IsSize l) :=
  inferInstanceAs (Decidable ((words l).getLast? = some "rational".toList))

/-- A line lists a vertex: a one, and as many words as there are coordinates, each read as one. -/
def IsVertex (n : ℕ) (l : List Char) (v : List ℚ) : Prop :=
  ∃ tokens, words l = ['1'] :: tokens ∧ tokens.length = n ∧
    List.Forall₂ (fun t x => Rational.read? t = some x) tokens v

theorem mapM_eq_some_iff {α β : Type} {f : α → Option β} {l : List α} {m : List β} :
    l.mapM f = some m ↔ List.Forall₂ (fun a b => f a = some b) l m := by
  induction l generalizing m with
  | nil =>
    rw [List.mapM_nil, List.forall₂_nil_left_iff]
    exact Option.some_inj.trans eq_comm
  | cons a l ih =>
    rw [List.mapM_cons, List.forall₂_cons_left_iff]
    simp only [Option.bind_eq_bind, Option.bind_eq_some_iff, ih, Option.pure_def, Option.some_inj]
    constructor
    · rintro ⟨b, hb, bs, hbs, rfl⟩
      exact ⟨b, bs, hb, hbs, rfl⟩
    · rintro ⟨b, bs, hb, hbs, rfl⟩
      exact ⟨b, hb, bs, hbs, rfl⟩

/-- A line of a vertex tells no size, since the word for it is no number. -/
theorem IsVertex.not_isSize (h : IsVertex n l v) : ¬IsSize l := by
  obtain ⟨tokens, hwords, -, hread⟩ := h
  have hnumbers : ∀ t ∈ tokens, (Rational.read? t).isSome :=
    ((List.forall₂_and_left _ _).mp
      (hread.imp fun t x h => ⟨Option.isSome_of_eq_some h, h⟩)).1
  intro hsize
  rw [IsSize, hwords] at hsize
  rcases List.mem_cons.mp (List.mem_of_getLast? hsize) with hone | hmem
  · exact absurd hone (by decide)
  · have hnone : Rational.read? "rational".toList = none := by decide +kernel
    exact absurd (hnumbers _ hmem) (by rw [hnone]; decide)

theorem coordinates?_of_isSize (h : IsSize l) : coordinates? n l = .ok none := by
  unfold coordinates?
  exact if_pos h

theorem IsVertex.coordinates?_eq (h : IsVertex n l v) : coordinates? n l = .ok (some v) := by
  obtain ⟨tokens, hwords, hlength, hread⟩ := id h
  have hsize : ¬(['1'] :: tokens).getLast? = some "rational".toList := hwords ▸ h.not_isSize
  have hvalues : tokens.mapM Rational.read? = some v := mapM_eq_some_iff.mpr hread
  simp only [coordinates?, hwords, if_neg hsize, hlength, hvalues, ne_eq, not_true_eq_false,
    if_false]

/-- **What is read from one line**: nothing from a size, coordinates from a vertex. -/
theorem coordinates?_eq_ok {o : Option (List ℚ)} (h : coordinates? n l = .ok o) :
    IsSize l ∧ o = none ∨ ∃ v, IsVertex n l v ∧ o = some v := by
  by_cases hsize : IsSize l
  · rw [coordinates?_of_isSize hsize] at h
    exact Or.inl ⟨hsize, (Except.ok.inj h).symm⟩
  · right
    have hsize' : ¬(words l).getLast? = some "rational".toList := hsize
    simp only [coordinates?, if_neg hsize'] at h
    split at h
    · next rest hwords =>
      split_ifs at h with hlength
      split at h
      · next v hread =>
        exact ⟨v, ⟨rest, hwords, not_not.mp hlength, mapM_eq_some_iff.mp hread⟩,
          (Except.ok.inj h).symm⟩
      · exact absurd h (by simp)
    · exact absurd h (by simp)
    · exact absurd h (by simp)

/-! ### Bodies -/

/-- The lines list the vertices in order, with sizes among them. -/
def ListsVertices (n : ℕ) (rows : List (List Char)) (vs : List (List ℚ)) : Prop :=
  List.Forall₂ (IsVertex n) (rows.filter fun l => ¬IsSize l) vs

theorem listsVertices_cons_iff : ListsVertices n (l :: rows) vs ↔
    IsSize l ∧ ListsVertices n rows vs ∨
      ∃ v ws, IsVertex n l v ∧ ListsVertices n rows ws ∧ vs = v :: ws := by
  by_cases hsize : IsSize l
  · rw [ListsVertices, List.filter_cons_of_neg (by simpa using hsize)]
    constructor
    · exact fun h => Or.inl ⟨hsize, h⟩
    · rintro (⟨-, h⟩ | ⟨v, ws, hvertex, -⟩)
      · exact h
      · exact absurd hsize hvertex.not_isSize
  · rw [ListsVertices, List.filter_cons_of_pos (by simpa using hsize), List.forall₂_cons_left_iff]
    constructor
    · exact Or.inr
    · rintro (⟨h, -⟩ | h)
      · exact absurd h hsize
      · exact h

theorem body_endLine (ls : List (List Char)) : body n (endLine :: ls) = .ok [] := if_pos rfl

/-- One line of a body. -/
theorem body_cons_eq_ok_iff (hend : l ≠ endLine) : body n (l :: ls) = .ok vs ↔
    IsSize l ∧ body n ls = .ok vs ∨
      ∃ v ws, IsVertex n l v ∧ body n ls = .ok ws ∧ vs = v :: ws := by
  rw [body, if_neg (show ¬l = "end".toList from hend)]
  constructor
  · intro h
    split at h
    · exact absurd h (by simp)
    · next hread =>
      obtain ⟨hsize, -⟩ | ⟨v, -, hv⟩ := coordinates?_eq_ok hread
      · exact Or.inl ⟨hsize, h⟩
      · exact absurd hv (by simp)
    · next v hread =>
      obtain ⟨-, hv⟩ | ⟨w, hvertex, hv⟩ := coordinates?_eq_ok hread
      · exact absurd hv (by simp)
      · obtain rfl := Option.some.inj hv
        split at h
        · next ws hbody => exact Or.inr ⟨v, ws, hvertex, hbody, (Except.ok.inj h).symm⟩
        · exact absurd h (by simp)
  · rintro (⟨hsize, hbody⟩ | ⟨v, ws, hvertex, hbody, rfl⟩)
    · rw [coordinates?_of_isSize hsize]
      exact hbody
    · rw [hvertex.coordinates?_eq, hbody]

/-- **The body of a text** is read if it is closed and each line before is a size or a vertex. -/
theorem body_eq_ok_iff : body n ls = .ok vs ↔
    ∃ rows trailer, ls = rows ++ endLine :: trailer ∧ endLine ∉ rows ∧ ListsVertices n rows vs := by
  induction ls generalizing vs with
  | nil => simp [body]
  | cons l ls ih =>
    by_cases hend : l = endLine
    · subst hend
      rw [body_endLine]
      constructor
      · rintro h
        exact ⟨[], ls, rfl, List.not_mem_nil, Except.ok.inj h ▸ .nil⟩
      · rintro ⟨rows, trailer, heq, hrows, hlist⟩
        cases rows with
        | nil => cases hlist; rfl
        | cons l' rows =>
          obtain ⟨rfl, -⟩ := List.cons.inj heq
          exact absurd List.mem_cons_self hrows
    · rw [body_cons_eq_ok_iff hend]
      simp only [ih]
      constructor
      · rintro (⟨hsize, rows, trailer, rfl, hrows, hlist⟩ |
          ⟨v, ws, hvertex, ⟨rows, trailer, rfl, hrows, hlist⟩, rfl⟩)
        · exact ⟨l :: rows, trailer, rfl, List.not_mem_cons_of_ne_of_not_mem (Ne.symm hend) hrows,
            listsVertices_cons_iff.mpr (Or.inl ⟨hsize, hlist⟩)⟩
        · exact ⟨l :: rows, trailer, rfl, List.not_mem_cons_of_ne_of_not_mem (Ne.symm hend) hrows,
            listsVertices_cons_iff.mpr (Or.inr ⟨v, ws, hvertex, hlist, rfl⟩)⟩
      · rintro ⟨rows, trailer, heq, hrows, hlist⟩
        cases rows with
        | nil => exact absurd (List.cons.inj heq).1 hend
        | cons l' rows =>
          obtain ⟨rfl, rfl⟩ := List.cons.inj heq
          have hrest := List.not_mem_of_not_mem_cons hrows
          obtain ⟨hsize, hmore⟩ | ⟨v, ws, hvertex, hmore, rfl⟩ := listsVertices_cons_iff.mp hlist
          · exact Or.inl ⟨hsize, rows, trailer, rfl, hrest, hmore⟩
          · exact Or.inr ⟨v, ws, hvertex, ⟨rows, trailer, rfl, hrest, hmore⟩, rfl⟩

/-! ### Whole texts -/

/-- The lines that matter of a text that lists vertices: whatever stands before the first opening
line, the lines from there to the first closing line, and whatever stands behind that. -/
def Contains (n : ℕ) (ls : List (List Char)) (vs : List (List ℚ)) : Prop :=
  ∃ header rows trailer, ls = header ++ beginLine :: (rows ++ endLine :: trailer) ∧
    beginLine ∉ header ∧ endLine ∉ rows ∧ ListsVertices n rows vs

theorem parseVertices_eq_body {output : String} {header : List (List Char)}
    (h : content output = header ++ beginLine :: ls) (hheader : beginLine ∉ header) :
    parseVertices output n = body n ls := by
  have hdrop : (content output).dropWhile (fun l => l ≠ "begin".toList) = beginLine :: ls := by
    rw [h, List.dropWhile_append_of_pos]
    · rfl
    · rintro l hl
      refine decide_eq_true ?_
      rintro rfl
      exact hheader hl
  simp only [parseVertices, hdrop]

/-- **A text is read as vertices exactly if its lines list them.** -/
theorem parseVertices_eq_ok_iff {output : String} :
    parseVertices output n = .ok vs ↔ Contains n (content output) vs := by
  constructor
  · intro h
    have hbegin : beginLine ∈ content output := by
      by_contra hnone
      have hdrop : (content output).dropWhile (fun l => l ≠ "begin".toList) = [] := by
        refine List.dropWhile_eq_nil_iff.mpr fun l hl => decide_eq_true ?_
        rintro rfl
        exact hnone hl
      simp only [parseVertices, hdrop] at h
      exact absurd h (by simp)
    obtain ⟨header, ls, heq, hheader⟩ := List.eq_append_cons_of_mem hbegin
    rw [parseVertices_eq_body heq hheader] at h
    obtain ⟨rows, trailer, rfl, hrows, hlist⟩ := body_eq_ok_iff.mp h
    exact ⟨header, rows, trailer, heq, hheader, hrows, hlist⟩
  · rintro ⟨header, rows, trailer, heq, hheader, hrows, hlist⟩
    rw [parseVertices_eq_body heq hheader]
    exact body_eq_ok_iff.mpr ⟨rows, trailer, rfl, hrows, hlist⟩

/-! ### Printed texts -/

/-- The lines that matter among given lines. -/
def kept (ls : List (List Char)) : List (List Char) :=
  (ls.map trim).filter fun l => !l.isEmpty && l.head? != some '*'

theorem kept_append (ls ms : List (List Char)) : kept (ls ++ ms) = kept ls ++ kept ms := by
  rw [kept, List.map_append, List.filter_append]
  rfl

theorem kept_map_dropReturn (ls : List (List Char)) : kept (ls.map dropReturn) = kept ls := by
  have htrim : trim ∘ dropReturn = trim := funext trim_dropReturn
  rw [kept, List.map_map, htrim, kept]

/-- A line that does not matter: blank, or a comment. -/
def IsIdle (l : List Char) : Prop := trim l = [] ∨ (trim l).head? = some '*'

theorem kept_cons_of_isIdle (h : IsIdle l) (ls : List (List Char)) : kept (l :: ls) = kept ls := by
  refine List.filter_cons_of_neg ?_
  rcases h with h | h <;> simp [h]

theorem kept_cons_of_not_isIdle (h : ¬IsIdle l) (ls : List (List Char)) :
    kept (l :: ls) = trim l :: kept ls := by
  refine List.filter_cons_of_pos ?_
  simpa [IsIdle] using h

/-- Lines that print points in order, with blank lines, comments and sizes among them. -/
inductive PrintsRows : List (List ℚ) → List (List Char) → Prop
  /-- No line. -/
  | nil : PrintsRows [] []
  /-- One more line that lists nothing. -/
  | skip {vs : List (List ℚ)} {ls : List (List Char)} {l : List Char} (h : IsIdle l ∨ IsSize l)
    (hrows : PrintsRows vs ls) : PrintsRows vs (l :: ls)
  /-- One more point: a one and the coordinates, with blanks around them. -/
  | row {vs : List (List ℚ)} {ls : List (List Char)} {v : List ℚ} {l : List Char}
    (h : Spaced (['1'] :: v.map Rational.chars) l) (hrows : PrintsRows vs ls) :
    PrintsRows (v :: vs) (l :: ls)

theorem isSize_trim : IsSize (trim l) ↔ IsSize l := by rw [IsSize, words_trim, IsSize]

theorem not_isSize_endLine : ¬IsSize endLine := by decide +kernel

/-- A line whose first word is a one matters. -/
theorem not_isIdle_of_words {ws : List (List Char)} (h : words l = ['1'] :: ws) : ¬IsIdle l := by
  rw [← words_trim] at h
  rintro (hnil | hstar)
  · rw [hnil] at h
    exact List.cons_ne_nil _ _ h.symm
  · obtain ⟨cs, hcs⟩ : ∃ cs, trim l = '*' :: cs := List.head?_eq_some_iff.mp hstar
    obtain ⟨w, ws', hwords⟩ := exists_words_cons (c := '*') rfl cs
    rw [hcs, hwords] at h
    exact absurd (List.cons.inj (List.cons.inj h).1).1 (by decide)

/-- **Printed rows are listed vertices**, and none of them closes the body. -/
theorem PrintsRows.listsVertices (h : PrintsRows vs rows) (hlength : ∀ v ∈ vs, v.length = n) :
    endLine ∉ kept rows ∧ ListsVertices n (kept rows) vs := by
  induction h with
  | nil => exact ⟨List.not_mem_nil, .nil⟩
  | @skip vs ls l hskip hrows ih =>
    obtain ⟨hend, hlist⟩ := ih hlength
    by_cases hidle : IsIdle l
    · rw [kept_cons_of_isIdle hidle]
      exact ⟨hend, hlist⟩
    · have hsize : IsSize (trim l) := isSize_trim.mpr (hskip.resolve_left hidle)
      rw [kept_cons_of_not_isIdle hidle]
      refine ⟨List.not_mem_cons_of_ne_of_not_mem ?_ hend,
        listsVertices_cons_iff.mpr (Or.inl ⟨hsize, hlist⟩)⟩
      rintro heq
      exact not_isSize_endLine (heq ▸ hsize)
  | @row vs ls v l hline hrows ih =>
    obtain ⟨hv, hvs⟩ := List.forall_mem_cons.mp hlength
    obtain ⟨hend, hlist⟩ := ih hvs
    have hwords : words (trim l) = ['1'] :: v.map Rational.chars := by
      rw [words_trim, hline.words_eq]
    have hvertex : IsVertex n (trim l) v := by
      refine ⟨_, hwords, by rw [List.length_map, hv], ?_⟩
      rw [List.forall₂_map_left_iff, List.forall₂_same]
      exact fun x _ => Rational.read?_chars x
    rw [kept_cons_of_not_isIdle (not_isIdle_of_words hline.words_eq)]
    refine ⟨List.not_mem_cons_of_ne_of_not_mem ?_ hend,
      listsVertices_cons_iff.mpr (Or.inr ⟨v, vs, hvertex, hlist, rfl⟩)⟩
    rintro heq
    rw [← heq] at hwords
    exact absurd (List.cons.inj hwords).1 (by decide +kernel)

/-- The parts of a text that prints vertices. -/
structure Layout where
  /-- The lines before the body. -/
  header : List (List Char)
  /-- The line that opens the body. -/
  opening : List Char
  /-- The lines of the body. -/
  rows : List (List Char)
  /-- The line that closes the body. -/
  closing : List Char
  /-- All that stands behind the closing line. -/
  trailer : List Char

namespace Layout

/-- The lines up to the one that closes the body. -/
def lines (x : Layout) : List (List Char) := x.header ++ x.opening :: (x.rows ++ [x.closing])

/-- The text, each line ended by a line feed. -/
def text (x : Layout) : String := String.ofList (x.lines.flatMap (· ++ ['\n']) ++ x.trailer)

/-- The text prints the points, in any layout. -/
structure Prints (x : Layout) (vs : List (List ℚ)) : Prop where
  plain : ∀ l ∈ x.lines, '\n' ∉ l
  header : ∀ l ∈ x.header, trim l ≠ beginLine
  opening : trim x.opening = beginLine
  rows : PrintsRows vs x.rows
  closing : trim x.closing = endLine

theorem Prints.contains {x : Layout} (h : x.Prints vs) (hlength : ∀ v ∈ vs, v.length = n) :
    Contains n (content x.text) vs := by
  have hopen : kept [x.opening] = [beginLine] := by
    rw [kept, List.map_singleton, h.opening]
    rfl
  have hclose : kept [x.closing] = [endLine] := by
    rw [kept, List.map_singleton, h.closing]
    rfl
  have hcontent : content x.text = kept x.header ++
      beginLine :: (kept x.rows ++ endLine :: kept (Equilibria.lines x.trailer)) := by
    show kept (Equilibria.lines x.text.toList) = _
    rw [text, String.toList_ofList, lines_flatMap_append h.plain, kept_append,
      kept_map_dropReturn, lines, ← List.singleton_append, kept_append, kept_append, kept_append,
      hopen, hclose]
    simp only [List.append_assoc, List.cons_append, List.nil_append]
  obtain ⟨hend, hlist⟩ := h.rows.listsVertices hlength
  refine ⟨_, _, _, hcontent, ?_, hend, hlist⟩
  intro hmem
  obtain ⟨l, hl, heq⟩ := List.mem_map.mp (List.mem_of_mem_filter hmem)
  exact h.header l hl heq

end Layout

/-! ### Texts that are refused -/

/-- A line of a body that is no size and begins like a ray, or like a vertex of another width. -/
def IsOdd (n : ℕ) (l : List Char) : Prop :=
  ¬IsSize l ∧ ((words l).head? = some ['0'] ∨
    (words l).head? = some ['1'] ∧ (words l).length ≠ n + 1)

theorem IsVertex.not_isOdd (h : IsVertex n l v) : ¬IsOdd n l := by
  obtain ⟨tokens, hwords, hlength, -⟩ := h
  rintro ⟨-, hray | ⟨-, hwidth⟩⟩
  · rw [hwords] at hray
    exact absurd hray (by simp)
  · rw [hwords, List.length_cons, hlength] at hwidth
    exact hwidth rfl

/-- A text with a body that is not closed, or that holds an odd line. -/
def Defective (n : ℕ) (ls : List (List Char)) : Prop :=
  ∃ header rest, ls = header ++ beginLine :: rest ∧ beginLine ∉ header ∧
    (endLine ∉ rest ∨ ∃ l ∈ rest.takeWhile (· ≠ endLine), IsOdd n l)

theorem Defective.ne_ok {output : String} (h : Defective n (content output)) (vs : List (List ℚ)) :
    parseVertices output n ≠ .ok vs := by
  obtain ⟨header, rest, heq, hheader, hdefect⟩ := h
  rw [parseVertices_eq_body heq hheader]
  intro hok
  obtain ⟨rows, trailer, rfl, hrows, hlist⟩ := body_eq_ok_iff.mp hok
  rcases hdefect with hopen | ⟨l, hl, hodd⟩
  · exact hopen (List.mem_append_right _ List.mem_cons_self)
  · have htake : (rows ++ endLine :: trailer).takeWhile (· ≠ endLine) = rows := by
      have hrow : ∀ l ∈ rows, decide (l ≠ endLine) = true :=
        fun l hl => decide_eq_true (ne_of_mem_of_not_mem hl hrows)
      rw [List.takeWhile_append_of_pos hrow, List.takeWhile_cons_of_neg (by simp), List.append_nil]
    rw [htake] at hl
    have hvertices : ∀ m ∈ rows.filter fun l => ¬IsSize l, ∃ v, IsVertex n m v :=
      ((List.forall₂_and_left _ _).mp (hlist.imp fun m v hv => ⟨⟨v, hv⟩, hv⟩)).1
    obtain ⟨v, hv⟩ := hvertices l (List.mem_filter.mpr ⟨hl, by simpa using hodd.1⟩)
    exact hv.not_isOdd hodd

/-- **Reading vertices.**  A text is read exactly if its lines list vertices, and then as those; every
text that prints points, in any layout, is read as these points; and a body that is not closed, or
that holds a ray or a row of another width, is refused. -/
theorem parseVertices_exact (n : ℕ) :
    (∀ output vs, parseVertices output n = .ok vs ↔ Contains n (content output) vs) ∧
    (∀ (x : Layout) vs, x.Prints vs → (∀ v ∈ vs, v.length = n) → parseVertices x.text n = .ok vs) ∧
    ∀ output, Defective n (content output) → ∃ e, parseVertices output n = .error e := by
  refine ⟨fun output vs => parseVertices_eq_ok_iff, fun x vs hprints hlength => ?_,
    fun output hdefect => ?_⟩
  · exact parseVertices_eq_ok_iff.mpr (hprints.contains hlength)
  · cases hread : parseVertices output n with
    | ok vs => exact absurd hread (hdefect.ne_ok vs)
    | error e => exact ⟨e, rfl⟩

/-- A text that prints the points `(0, 1/2)` and `(-1/3, 0)`, with most of what may stand around. -/
def Layout.sample : Layout where
  header := ["*made by hand".toList, "end".toList, "V-representation".toList]
  opening := " begin".toList
  rows := ["***** 3 rational".toList, " 1  0  1/2".toList, [], "2 3 rational".toList,
    "1 -1/3 0 ".toList]
  closing := "end\r".toList
  trailer := "begin\n0 0 0".toList

theorem Layout.prints_sample : Layout.sample.Prints [[0, 1 / 2], [-1 / 3, 0]] where
  plain := by decide +kernel
  header := by decide +kernel
  opening := by decide +kernel
  rows := by
    have hfirst : words " 1  0  1/2".toList = ['1'] :: [0, 1 / 2].map Rational.chars := by
      decide +kernel
    have hsecond : words "1 -1/3 0 ".toList = ['1'] :: [-1 / 3, 0].map Rational.chars := by
      decide +kernel
    exact .skip (.inl (.inr (by decide +kernel))) (.row (words_eq_iff.mp hfirst)
      (.skip (.inl (.inl rfl)) (.skip (.inr (by decide +kernel))
        (.row (words_eq_iff.mp hsecond) .nil))))
  closing := by decide +kernel

theorem parseVertices_exact_sample :
    (parseVertices "begin\n1 2\nend" 1 = .ok [[2]] ↔ Contains 1 (content "begin\n1 2\nend") [[2]]) ∧
      (Layout.sample.Prints [[0, 1 / 2], [-1 / 3, 0]] ∧
        (∀ v ∈ ([[0, 1 / 2], [-1 / 3, 0]] : List (List ℚ)), v.length = 2) ∧
        parseVertices Layout.sample.text 2 = .ok [[0, 1 / 2], [-1 / 3, 0]]) ∧
      Defective 2 (content "begin\n1 2 3\n0 1 0\nend") ∧
        ∃ e, parseVertices "begin\n1 2 3\n0 1 0\nend" 2 = .error e := by
  have hlength : ∀ v ∈ ([[0, 1 / 2], [-1 / 3, 0]] : List (List ℚ)), v.length = 2 := by decide
  have hdefective : Defective 2 (content "begin\n1 2 3\n0 1 0\nend") := by
    have hcontent : content "begin\n1 2 3\n0 1 0\nend" =
        [] ++ beginLine :: ["1 2 3".toList, "0 1 0".toList, endLine] := by decide +kernel
    refine ⟨_, _, hcontent, List.not_mem_nil, Or.inr ⟨"0 1 0".toList, ?_, ?_, ?_⟩⟩
    · decide +kernel
    · decide +kernel
    · exact Or.inl (by decide +kernel)
  exact ⟨(parseVertices_exact 1).1 _ _,
    ⟨Layout.prints_sample, hlength, (parseVertices_exact 2).2.1 _ _ Layout.prints_sample hlength⟩,
    hdefective, (parseVertices_exact 2).2.2 _ hdefective⟩

end Representation

end Equilibria
