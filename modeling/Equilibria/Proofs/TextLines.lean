import Mathlib
import Equilibria.Text.Blank

/-!
# Lines and words of a text

* `pieces_append_cons` — the first piece of a text ends at the first character that cuts it;
* `trim_append_blank`, `exists_trim` — trimming drops the blanks at both ends and nothing else;
* `words_eq_iff` — the words of a text are the ones that it shows between blanks (`Spaced`);
* `words_intercalate` — words joined by single spaces are read back as they stand;
* `lines_flatMap_append`, `lines_flatMap` — so are lines that are each ended by a line feed.
-/

namespace Equilibria

variable {p : Char → Bool} {c : Char} {cs l w gap rest : List Char} {ws ls : List (List Char)}

/-! ### Pieces -/

theorem pieces_eq_singleton (h : ∀ c ∈ cs, p c = false) : pieces p cs = [cs] := by
  induction cs with
  | nil => rfl
  | cons c cs ih =>
    obtain ⟨hc, hcs⟩ := List.forall_mem_cons.mp h
    rw [pieces, if_neg (by rw [hc]; decide), ih hcs]
    rfl

theorem pieces_append_cons (h : ∀ c ∈ l, p c = false) (hc : p c = true) :
    pieces p (l ++ c :: rest) = l :: pieces p rest := by
  induction l with
  | nil => rw [List.nil_append, pieces, if_pos hc]
  | cons d l ih =>
    obtain ⟨hd, hl⟩ := List.forall_mem_cons.mp h
    rw [List.cons_append, pieces, if_neg (by rw [hd]; decide), ih hl]
    rfl

theorem pieces_ne_nil (p : Char → Bool) (cs : List Char) : pieces p cs ≠ [] := by
  cases cs with
  | nil => exact List.cons_ne_nil _ _
  | cons c cs =>
    rw [pieces]
    split_ifs
    · exact List.cons_ne_nil _ _
    · cases pieces p cs <;> exact List.cons_ne_nil _ _

theorem pieces_append_singleton (hc : p c = true) (cs : List Char) :
    pieces p (cs ++ [c]) = pieces p cs ++ [[]] := by
  induction cs with
  | nil => exact pieces_append_cons (l := []) (fun _ h => absurd h List.not_mem_nil) hc
  | cons d cs ih =>
    rw [List.cons_append, pieces, pieces, ih]
    split_ifs
    · rfl
    · obtain ⟨w, ws, hpieces⟩ := List.exists_cons_of_ne_nil (pieces_ne_nil p cs)
      rw [hpieces]
      rfl

/-! ### Blanks at the ends -/

theorem trimRight_append_blank (h : ∀ c ∈ gap, isBlank c = true) (cs : List Char) :
    trimRight (cs ++ gap) = trimRight cs := by
  have hgap : ∀ c ∈ gap.reverse, isBlank c = true := fun c hc => h c (List.mem_reverse.mp hc)
  rw [trimRight, List.reverse_append, List.dropWhile_append_of_pos hgap, trimRight]

theorem trim_append_blank (h : ∀ c ∈ gap, isBlank c = true) (cs : List Char) :
    trim (cs ++ gap) = trim cs := by
  rw [trim, trimLeft, List.dropWhile_append]
  split_ifs with hcs
  · have hleft : trimLeft cs = [] := List.isEmpty_iff.mp hcs
    have hgap : gap.dropWhile isBlank = [] := trimLeft_of_blank h
    rw [hgap, trim, hleft]
  · exact trimRight_append_blank h (trimLeft cs)

theorem trim_dropReturn (cs : List Char) : trim (dropReturn cs) = trim cs := by
  unfold dropReturn
  split_ifs with hlast
  · obtain ⟨ds, rfl⟩ := List.getLast?_eq_some_iff.mp hlast
    rw [List.dropLast_concat, trim_append_blank (List.forall_mem_singleton.mpr rfl)]
  · rfl

/-- A text is what trimming leaves, between blanks. -/
theorem exists_trim (cs : List Char) : ∃ left right, cs = left ++ trim cs ++ right ∧
    (∀ c ∈ left, isBlank c = true) ∧ ∀ c ∈ right, isBlank c = true := by
  refine ⟨cs.takeWhile isBlank, ((trimLeft cs).reverse.takeWhile isBlank).reverse, ?_,
    fun c hc => List.mem_takeWhile_imp hc,
    fun c hc => List.mem_takeWhile_imp (List.mem_reverse.mp hc)⟩
  rw [List.append_assoc, trim, trimRight, ← List.reverse_append, List.takeWhile_append_dropWhile,
    List.reverse_reverse, trimLeft, List.takeWhile_append_dropWhile]

/-! ### Words -/

theorem words_blank_append (h : ∀ c ∈ gap, isBlank c = true) (cs : List Char) :
    words (gap ++ cs) = words cs := by
  induction gap with
  | nil => rfl
  | cons c gap ih =>
    obtain ⟨hc, hgap⟩ := List.forall_mem_cons.mp h
    rw [← ih hgap, List.cons_append, words, pieces, if_pos hc]
    rfl

theorem words_append_blank (h : ∀ c ∈ gap, isBlank c = true) (cs : List Char) :
    words (cs ++ gap) = words cs := by
  induction gap using List.reverseRecOn with
  | nil => rw [List.append_nil]
  | append_singleton gap c ih =>
    obtain ⟨hgap, hc⟩ := List.forall_mem_append.mp h
    rw [← ih hgap, ← List.append_assoc, words,
      pieces_append_singleton (hc c (List.mem_singleton_self c)), List.filter_append]
    exact List.append_nil _

theorem words_trim (cs : List Char) : words (trim cs) = words cs := by
  obtain ⟨left, right, heq, hleft, hright⟩ := exists_trim cs
  have hwords : words (left ++ trim cs ++ right) = words (trim cs) := by
    rw [words_append_blank hright, words_blank_append hleft]
  rw [← hwords, ← heq]

theorem words_eq_singleton (hw : w ≠ []) (h : ∀ c ∈ w, isBlank c = false) : words w = [w] := by
  rw [words, pieces_eq_singleton h, List.filter_cons_of_pos (by simpa using hw), List.filter_nil]

theorem words_append (hw : w ≠ []) (h : ∀ c ∈ w, isBlank c = false)
    (hrest : ∀ c ∈ rest.head?, isBlank c = true) : words (w ++ rest) = w :: words rest := by
  cases rest with
  | nil =>
    rw [List.append_nil, words_eq_singleton hw h]
    rfl
  | cons c rest =>
    have hc : isBlank c = true := hrest c rfl
    have hgap : ∀ b ∈ [c], isBlank b = true := List.forall_mem_singleton.mpr hc
    have hskip : words (c :: rest) = words rest := words_blank_append hgap rest
    rw [hskip, words, pieces_append_cons h hc, List.filter_cons_of_pos (by simpa using hw), words]

/-- A text that does not begin with a blank begins with its first word. -/
theorem exists_words_cons (hc : isBlank c = false) (cs : List Char) :
    ∃ w ws, words (c :: cs) = (c :: w) :: ws := by
  obtain ⟨w, ws, hpieces⟩ := List.exists_cons_of_ne_nil (pieces_ne_nil isBlank cs)
  refine ⟨w, ws.filter (!·.isEmpty), ?_⟩
  rw [words, pieces, if_neg (by rw [hc]; decide), hpieces]
  rfl

/-- Words with blanks around them: any before the first and behind the last, at least one between
two. -/
inductive Spaced : List (List Char) → List Char → Prop
  /-- Nothing but blanks. -/
  | nil {gap : List Char} (hgap : ∀ c ∈ gap, isBlank c = true) : Spaced [] gap
  /-- A word behind blanks, with more words behind a blank. -/
  | cons {gap w rest : List Char} {ws : List (List Char)} (hgap : ∀ c ∈ gap, isBlank c = true)
    (hw : w ≠ []) (hplain : ∀ c ∈ w, isBlank c = false)
    (hsep : ∀ c ∈ rest.head?, isBlank c = true) (hrest : Spaced ws rest) :
    Spaced (w :: ws) (gap ++ (w ++ rest))

/-- **Words are cut at the blanks around them.** -/
theorem Spaced.words_eq (h : Spaced ws l) : words l = ws := by
  induction h with
  | nil hgap => exact words_append_blank hgap []
  | cons hgap hw hplain hsep _ ih => rw [words_blank_append hgap, words_append hw hplain hsep, ih]

theorem Spaced.cons_blank (h : Spaced ws l) (hc : isBlank c = true) : Spaced ws (c :: l) := by
  cases h with
  | nil hgap => exact .nil (List.forall_mem_cons.mpr ⟨hc, hgap⟩)
  | cons hgap hw hplain hsep hrest =>
    exact .cons (List.forall_mem_cons.mpr ⟨hc, hgap⟩) hw hplain hsep hrest

/-- A character in front begins a word, or continues the one that begins behind it. -/
theorem Spaced.exists_cons_plain (h : Spaced ws l) (hc : isBlank c = false) :
    ∃ us, Spaced us (c :: l) := by
  have hsingle : ∀ d ∈ [c], isBlank d = false := List.forall_mem_singleton.mpr hc
  have hnone : ∀ d ∈ ([] : List Char), isBlank d = true := fun _ h => absurd h List.not_mem_nil
  cases h with
  | nil hgap =>
    exact ⟨[[c]], .cons hnone (List.cons_ne_nil _ _) hsingle
      (fun d hd => hgap d (List.mem_of_mem_head? hd)) (.nil hgap)⟩
  | @cons gap w rest ws hgap hw hplain hsep hrest =>
    cases gap with
    | nil =>
      exact ⟨(c :: w) :: ws, .cons hnone (List.cons_ne_nil _ _)
        (List.forall_mem_cons.mpr ⟨hc, hplain⟩) hsep hrest⟩
    | cons g gap =>
      refine ⟨[c] :: w :: ws, .cons hnone (List.cons_ne_nil _ _) hsingle (fun d hd => ?_)
        (.cons hgap hw hplain hsep hrest)⟩
      obtain rfl : g = d := Option.some.inj hd
      exact hgap g List.mem_cons_self

/-- Every text is its words with blanks around them. -/
theorem spaced_words (l : List Char) : Spaced (words l) l := by
  induction l with
  | nil => exact .nil fun _ h => absurd h List.not_mem_nil
  | cons c l ih =>
    by_cases hc : isBlank c = true
    · rw [← List.singleton_append, words_blank_append (List.forall_mem_singleton.mpr hc)]
      exact ih.cons_blank hc
    · obtain ⟨us, hus⟩ := ih.exists_cons_plain (Bool.eq_false_iff.mpr hc)
      rwa [hus.words_eq]

/-- **A text has exactly the words that it shows between blanks.** -/
theorem words_eq_iff : words l = ws ↔ Spaced ws l :=
  ⟨fun h => h ▸ spaced_words l, Spaced.words_eq⟩

/-- Words joined by single blanks. -/
theorem words_intercalate (h : ∀ w ∈ ws, w ≠ [] ∧ ∀ c ∈ w, isBlank c = false) :
    words ([' '].intercalate ws) = ws := by
  induction ws with
  | nil => rfl
  | cons w ws ih =>
    obtain ⟨⟨hw, hplain⟩, hws⟩ := List.forall_mem_cons.mp h
    cases ws with
    | nil => rw [List.intercalate_singleton, words_eq_singleton hw hplain]
    | cons w' ws =>
      have hblank : ∀ c ∈ [' '], isBlank c = true := List.forall_mem_singleton.mpr rfl
      have hsep : ∀ c ∈ ([' '] ++ [' '].intercalate (w' :: ws)).head?, isBlank c = true :=
        fun c hc => hblank c (List.mem_singleton.mpr (Option.some.inj hc).symm)
      rw [List.intercalate_cons_cons, List.append_assoc, words_append hw hplain hsep,
        words_blank_append hblank, ih hws]

/-! ### Lines -/

theorem lines_append_newline (hl : '\n' ∉ l) (rest : List Char) :
    lines (l ++ '\n' :: rest) = dropReturn l :: lines rest := by
  have hpieces : pieces (· == '\n') (l ++ '\n' :: rest) = l :: pieces (· == '\n') rest :=
    pieces_append_cons (fun c hc => beq_eq_false_iff_ne.mpr fun heq => hl (heq ▸ hc)) rfl
  obtain ⟨m, ms, hrest⟩ := List.exists_cons_of_ne_nil (pieces_ne_nil (· == '\n') rest)
  simp only [lines, hpieces, hrest]
  rfl

/-- The lines of lines that are each ended by a line feed. -/
theorem lines_flatMap_append (hls : ∀ l ∈ ls, '\n' ∉ l) (rest : List Char) :
    lines (ls.flatMap (· ++ ['\n']) ++ rest) = ls.map dropReturn ++ lines rest := by
  induction ls with
  | nil => rfl
  | cons l ls ih =>
    obtain ⟨hl, hls⟩ := List.forall_mem_cons.mp hls
    rw [List.flatMap_cons, List.append_assoc, List.append_assoc, List.singleton_append,
      lines_append_newline hl, ih hls]
    rfl

/-- Lines of words and single spaces are read back as they stand. -/
theorem lines_flatMap (hls : ∀ l ∈ ls, ∀ c ∈ l, isBlank c = false ∨ c = ' ') :
    lines (ls.flatMap (· ++ ['\n'])) = ls := by
  have hfeed : ∀ l ∈ ls, '\n' ∉ l := fun l hl hmem =>
    (hls l hl _ hmem).elim (by decide +kernel) (by decide)
  have hreturn : ∀ l ∈ ls, dropReturn l = l := by
    intro l hl
    refine if_neg fun hlast => ?_
    exact (hls l hl _ (List.mem_of_getLast? hlast)).elim (by decide +kernel) (by decide)
  rw [← List.append_nil (ls.flatMap _), lines_flatMap_append hfeed, List.map_congr_left hreturn,
    List.map_id']
  exact List.append_nil ls

end Equilibria
