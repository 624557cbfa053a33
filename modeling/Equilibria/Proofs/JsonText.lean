import Mathlib
import Equilibria.Json.Document

/-!
# Written values are read back

A value that holds only texts is written over several lines, and the machine that takes one token at
a time builds it again:

* `Json.nextToken?_quoted` — a string of any characters is one token;
* `Json.Scans` — characters that give certain tokens wherever they stand;
* `Json.Reader.Loop`, `Json.Reader.Loop.run` — what happens between two brackets;
* `Json.Textual.exists_tokens` — every value of texts has tokens on which both halves agree;
* `Json.parse?_pretty` — the document of such a value is read as that value.

The two halves meet in the tokens.  Each is an induction on the value, and each is stated at any
place of a document: whatever follows the characters, and whatever is open around the tokens.
-/

namespace Equilibria

namespace Json

variable {c : Char} {cs ds rest s : List Char} {t : Token} {ts us : List Token} {v : Json}

/-! ### Strings -/

/-- A character that stands for itself in a string. -/
def IsPlain (c : Char) : Prop := c ≠ '"' ∧ c ≠ '\\' ∧ 32 ≤ c.toNat

/-- The two last digits of a control character. -/
theorem exists_hexDigits {n : ℕ} (hn : n < 32) :
    ∃ hi lo, hexDigits n = ['0', '0', hi, lo] ∧ codeUnit? '0' '0' hi lo = some n ∧
      IsPlain hi ∧ IsPlain lo := by
  have hall : ∀ n < 32, hexDigits n = ['0', '0', Nat.digitChar (n / 16), Nat.digitChar (n % 16)] ∧
      codeUnit? '0' '0' (Nat.digitChar (n / 16)) (Nat.digitChar (n % 16)) = some n ∧
      IsPlain (Nat.digitChar (n / 16)) ∧ IsPlain (Nat.digitChar (n % 16)) := by
    unfold IsPlain
    decide
  exact ⟨_, _, hall n hn⟩

/-- The characters that have an escape of two characters. -/
def shortEscaped : List Char := ['"', '\\', '\x08', '\x0c', '\n', '\r', '\t']

theorem exists_shortEscape (hc : c ∈ shortEscaped) :
    ∃ e, escaped c = ['\\', e] ∧ e ≠ 'u' ∧ simpleEscape? e = some c := by
  simp only [shortEscaped, List.mem_cons, List.not_mem_nil, or_false] at hc
  rcases hc with rfl | rfl | rfl | rfl | rfl | rfl | rfl
  · exact ⟨'"', rfl, by decide, rfl⟩
  · exact ⟨'\\', rfl, by decide, rfl⟩
  · exact ⟨'b', rfl, by decide, rfl⟩
  · exact ⟨'f', rfl, by decide, rfl⟩
  · exact ⟨'n', rfl, by decide, rfl⟩
  · exact ⟨'r', rfl, by decide, rfl⟩
  · exact ⟨'t', rfl, by decide, rfl⟩

theorem escaped_eq (hc : c ∉ shortEscaped) :
    escaped c = if c.toNat < 32 then '\\' :: 'u' :: hexDigits c.toNat else [c] := by
  simp only [shortEscaped, List.mem_cons, List.not_mem_nil, or_false, not_or] at hc
  obtain ⟨hquote, hback, hb, hf, hn, hr, ht⟩ := hc
  rw [escaped, if_neg hquote, if_neg hback, if_neg hb, if_neg hf, if_neg hn, if_neg hr, if_neg ht]

/-- A character is written in one of three ways. -/
theorem escaped_cases (c : Char) :
    (∃ e, escaped c = ['\\', e] ∧ e ≠ 'u' ∧ simpleEscape? e = some c) ∨
      (∃ hi lo, escaped c = ['\\', 'u', '0', '0', hi, lo] ∧
        codeUnit? '0' '0' hi lo = some c.toNat ∧ c.toNat < 32 ∧ IsPlain hi ∧ IsPlain lo) ∨
      (escaped c = [c] ∧ IsPlain c) := by
  by_cases hshort : c ∈ shortEscaped
  · exact Or.inl (exists_shortEscape hshort)
  · rw [escaped_eq hshort]
    split_ifs with hcontrol
    · obtain ⟨hi, lo, hdigits, hcode, hplain⟩ := exists_hexDigits hcontrol
      exact Or.inr (Or.inl ⟨hi, lo, by rw [hdigits], hcode, hcontrol, hplain⟩)
    · have hquote : c ≠ '"' := fun heq => hshort (heq ▸ by decide)
      have hback : c ≠ '\\' := fun heq => hshort (heq ▸ by decide)
      exact Or.inr (Or.inr ⟨rfl, hquote, hback, not_lt.mp hcontrol⟩)

theorem cutString?_plain (h : IsPlain c) (cs : List Char) :
    cutString? (c :: cs) = (cutString? cs).map fun p => (c :: p.1, p.2) := by
  obtain ⟨hquote, hback, hcontrol⟩ := h
  rw [cutString?.eq_4 c cs hquote fun _ _ h => absurd h hback]
  exact if_neg (not_lt.mpr hcontrol)

/-- A written character does not end the string. -/
theorem cutString?_escaped (c : Char) (cs : List Char) :
    cutString? (escaped c ++ cs) = (cutString? cs).map fun p => (escaped c ++ p.1, p.2) := by
  obtain ⟨e, heq, -⟩ | ⟨hi, lo, heq, -, -, hhi, hlo⟩ | ⟨heq, hplain⟩ := escaped_cases c
  · rw [heq]
    rfl
  · have hzero : IsPlain '0' := by unfold IsPlain; decide
    rw [heq]
    show (cutString? ('0' :: '0' :: hi :: lo :: cs)).map _ = _
    rw [cutString?_plain hzero, cutString?_plain hzero, cutString?_plain hhi, cutString?_plain hlo,
      Option.map_map, Option.map_map, Option.map_map, Option.map_map]
    rfl
  · rw [heq]
    exact cutString?_plain hplain cs

theorem cutString?_flatMap_escaped (s rest : List Char) :
    cutString? (s.flatMap escaped ++ '"' :: rest) = some (s.flatMap escaped, rest) := by
  induction s with
  | nil => rfl
  | cons c s ih =>
    rw [List.flatMap_cons, List.append_assoc, cutString?_escaped, ih]
    rfl

/-- A written character is one piece, and that piece has the character as its text. -/
theorem exists_piece (c : Char) :
    ∃ p : Piece, (∀ cs, unescape? (escaped c ++ cs) = (unescape? cs).map (p :: ·)) ∧
      ∀ ps, textOfUnits? (p :: ps) = (textOfUnits? ps).map (c :: ·) := by
  obtain ⟨e, heq, hu, hescape⟩ | ⟨hi, lo, heq, hcode, hcontrol, -⟩ | ⟨heq, -, hback, -⟩ :=
    escaped_cases c
  · refine ⟨.char c, fun cs => ?_, fun ps => rfl⟩
    rw [heq]
    show unescape? ('\\' :: e :: cs) = _
    rw [unescape?.eq_3 e cs fun _ _ _ _ _ h => absurd h hu, hescape]
  · refine ⟨.codeUnit c.toNat, fun cs => ?_, fun ps => ?_⟩
    · rw [heq]
      show unescape? ('\\' :: 'u' :: '0' :: '0' :: hi :: lo :: cs) = _
      rw [unescape?.eq_2, hcode]
    · have hleading : isLeading c.toNat = false := by
        simp only [isLeading, Bool.and_eq_false_iff, decide_eq_false_iff_not]
        omega
      have htrailing : isTrailing c.toNat = false := by
        simp only [isTrailing, Bool.and_eq_false_iff, decide_eq_false_iff_not]
        omega
      rw [textOfUnits?.eq_def]
      simp only [hleading, htrailing, Bool.false_eq_true, if_false, Char.ofNat_toNat]
  · refine ⟨.char c, fun cs => ?_, fun ps => rfl⟩
    rw [heq]
    exact unescape?.eq_4 c cs (fun _ _ _ _ _ h => absurd h hback) fun _ _ h => absurd h hback

theorem exists_pieces (s : List Char) :
    ∃ ps, unescape? (s.flatMap escaped) = some ps ∧ textOfUnits? ps = some s := by
  induction s with
  | nil => exact ⟨[], rfl, rfl⟩
  | cons c s ih =>
    obtain ⟨ps, hpieces, htext⟩ := ih
    obtain ⟨p, hpiece, hunit⟩ := exists_piece c
    exact ⟨p :: ps, by rw [List.flatMap_cons, hpiece, hpieces]; rfl, by rw [hunit, htext]; rfl⟩

/-- **A string of any characters is one token.** -/
theorem nextToken?_quoted (s rest : List Char) :
    nextToken? '"' (s.flatMap escaped ++ '"' :: rest) = some (.string (some s), rest) := by
  obtain ⟨ps, hpieces, htext⟩ := exists_pieces s
  have hpunctuation : punctuation? '"' = none := rfl
  simp only [nextToken?, hpunctuation, if_true, cutString?_flatMap_escaped, hpieces,
    Option.map_some, htext]

/-! ### Characters and their tokens -/

/-- The characters give the tokens, whatever stands before and after them. -/
def Scans (cs : List Char) (ts : List Token) : Prop :=
  ∀ before rest, tokensAfter? before (cs ++ rest) = tokensAfter? (ts.reverse ++ before) rest

theorem Scans.nil : Scans [] [] := fun _ _ => rfl

theorem Scans.append (hcs : Scans cs ts) (hds : Scans ds us) : Scans (cs ++ ds) (ts ++ us) := by
  intro before rest
  rw [List.append_assoc, hcs, hds, List.reverse_append, List.append_assoc]

theorem Scans.space (hc : isSpace c = true) : Scans [c] [] := by
  intro before rest
  rw [List.singleton_append, tokensAfter?, if_pos hc]
  rfl

theorem Scans.punctuation (hc : isSpace c = false) (ht : punctuation? c = some t) :
    Scans [c] [t] := by
  intro before rest
  have hnext : nextToken? c rest = some (t, rest) := by rw [nextToken?, ht]
  rw [List.singleton_append, tokensAfter?, if_neg (by rw [hc]; decide)]
  split
  · next h => exact absurd (hnext.symm.trans h) (by simp)
  · next h =>
    obtain ⟨rfl, rfl⟩ := Prod.mk.inj (Option.some.inj (hnext.symm.trans h))
    rfl

theorem Scans.quoted (s : List Char) : Scans (quoted s) [.string (some s)] := by
  intro before rest
  have hnext := nextToken?_quoted s rest
  have happend : Json.quoted s ++ rest = '"' :: (s.flatMap escaped ++ '"' :: rest) := by
    simp [Json.quoted]
  rw [happend, tokensAfter?, if_neg (by decide)]
  split
  · next h => exact absurd (hnext.symm.trans h) (by simp)
  · next h =>
    obtain ⟨rfl, rfl⟩ := Prod.mk.inj (Option.some.inj (hnext.symm.trans h))
    rfl

theorem Scans.newline (depth : ℕ) : Scans (newline depth) [] := by
  have hblanks : ∀ n, Scans (List.replicate n ' ') [] := by
    intro n
    induction n with
    | zero => exact Scans.nil
    | succ n ih => exact (Scans.space rfl).append ih
  exact (Scans.space rfl).append (hblanks _)

theorem Scans.separated {sep : List Char} (hsep : Scans sep us) {texts : List (List Char)}
    {tokens : List (List Token)} (h : List.Forall₂ Scans texts tokens) :
    Scans (separated sep texts) (us.intercalate tokens) := by
  induction h with
  | nil => exact Scans.nil
  | cons hfirst hmore ih =>
    cases hmore with
    | nil => simpa only [Json.separated, List.intercalate_singleton] using hfirst
    | cons hsecond hmore =>
      rw [List.intercalate_cons_cons]
      exact (hfirst.append hsep).append ih

/-- Between two brackets stand the tokens of the parts, with commas between them. -/
theorem Scans.bracketed {opening closing : Char} {first last : Token}
    (hopen : Scans [opening] [first]) (hclose : Scans [closing] [last]) (depth : ℕ)
    {texts : List (List Char)} {tokens : List (List Token)}
    (h : List.Forall₂ Scans texts tokens) :
    Scans (bracketed opening closing depth texts)
      (first :: ([Token.comma].intercalate tokens ++ [last])) := by
  unfold Json.bracketed
  split_ifs with hempty
  · obtain rfl := List.isEmpty_iff.mp hempty
    cases h
    exact hopen.append hclose
  · have hcomma : Scans (',' :: Json.newline (depth + 1)) [.comma] :=
      (Scans.punctuation (c := ',') rfl rfl).append (Scans.newline _)
    have hparts := ((Scans.newline (depth + 1)).append (hcomma.separated h)).append
      ((Scans.newline depth).append hclose)
    have hall := hopen.append hparts
    simpa only [List.singleton_append, List.nil_append, List.append_assoc, List.cons_append] using
      hall

/-! ### The machine -/

/-- The tokens build the value, whatever is open around it. -/
def Reads (ts : List Token) (v : Json) : Prop :=
  ∀ stack, (Reader.value stack).run ts = some (.done v stack)

namespace Reader

variable {r q : Reader}

theorem run_cons (h : r.step t = some q) : r.run (t :: ts) = q.run ts := by
  rw [run, h]

/-- What happens between two brackets: behind a part, a comma leads to the state before the next
part, and the closing bracket to the end with all parts in order. -/
structure Loop {β : Type} (closing : Token) (start : List β → Reader)
    (behind : List β → β → Reader) (final : List β → Reader) : Prop where
  comma : ∀ before b, (behind before b).step .comma = some (start (b :: before))
  closing : ∀ before b, (behind before b).step closing = some (final (b :: before).reverse)

theorem loop_array (stack : List Frame) :
    Loop .closeArray (fun before => .value (.array before :: stack))
      (fun before v => .done v (.array before :: stack)) fun items => .done (.array items) stack :=
  ⟨fun _ _ => rfl, fun _ _ => rfl⟩

theorem loop_object (stack : List Frame) :
    Loop .closeObject (fun before => .key before stack)
      (fun before f => .done f.2 (.object before f.1 :: stack))
      fun fields => .done (.object fields) stack :=
  ⟨fun _ _ => rfl, fun _ _ => rfl⟩

/-- **The run between two brackets**, when the tokens of each part lead from the state before it to
the state behind it. -/
theorem Loop.run {β : Type} {closing : Token} {start : List β → Reader}
    {behind : List β → β → Reader} {final : List β → Reader}
    (h : Loop closing start behind final) {first : List Token} {b : β} {tokens : List (List Token)}
    {bs : List β} (hfirst : ∀ before, (start before).run first = some (behind before b))
    (hmore : List.Forall₂ (fun ts b => ∀ before, (start before).run ts = some (behind before b))
      tokens bs) (before : List β) :
    (start before).run ([Token.comma].intercalate (first :: tokens) ++ [closing]) =
      some (final (before.reverse ++ b :: bs)) := by
  induction hmore generalizing first b before with
  | nil =>
    rw [List.intercalate_singleton, run_append, hfirst, Option.bind_some, run_cons (h.closing _ _),
      List.reverse_cons]
    rfl
  | cons hsecond hmore ih =>
    have hrest := ih hsecond (b :: before)
    rw [List.reverse_cons, List.append_assoc] at hrest
    rw [List.intercalate_cons_cons, List.append_assoc, List.append_assoc, run_append, hfirst,
      Option.bind_some, List.singleton_append, run_cons (h.comma _ _)]
    exact hrest

/-- What begins a value does not close a list, so the first item is read as any other. -/
theorem run_items {first : List Token} (h : Reads first v) (tokens : List (List Token))
    (us : List Token) (stack : List Frame) :
    (items stack).run ([Token.comma].intercalate (first :: tokens) ++ us) =
      (value (.array [] :: stack)).run ([Token.comma].intercalate (first :: tokens) ++ us) := by
  obtain ⟨more, hmore⟩ : ∃ more, [Token.comma].intercalate (first :: tokens) = first ++ more := by
    cases tokens with
    | nil => exact ⟨[], by rw [List.intercalate_singleton, List.append_nil]⟩
    | cons second tokens => exact ⟨_, by rw [List.intercalate_cons_cons, List.append_assoc]⟩
  rw [hmore]
  have hbegin := h []
  cases first with
  | nil => simp [run] at hbegin
  | cons t ts =>
    cases t with
    | closeArray => simp [run, step, begin?] at hbegin
    | _ => rfl

end Reader

theorem Reads.string (s : List Char) : Reads [.string (some s)] (.string (some s)) := fun _ => rfl

theorem Reads.array {tokens : List (List Token)} {items : List Json}
    (h : List.Forall₂ Reads tokens items) :
    Reads (.openArray :: ([Token.comma].intercalate tokens ++ [.closeArray])) (.array items) := by
  intro stack
  rw [Reader.run_cons (q := .items stack) rfl]
  cases h with
  | nil => rfl
  | cons hfirst hmore =>
    rw [Reader.run_items hfirst]
    exact (Reader.loop_array stack).run (fun before => hfirst _)
      (hmore.imp fun _ _ h before => h _) []

/-- The tokens build a field: a key, a colon and a value. -/
def ReadsField (ts : List Token) (f : Key × Json) : Prop :=
  ∃ us, ts = .string f.1 :: .colon :: us ∧ Reads us f.2

theorem ReadsField.run {f : Key × Json} (h : ReadsField ts f) (stack : List Frame)
    (before : List (Key × Json)) :
    (Reader.key before stack).run ts = some (.done f.2 (.object before f.1 :: stack)) := by
  obtain ⟨us, rfl, hvalue⟩ := h
  exact hvalue (.object before f.1 :: stack)

theorem Reads.object {tokens : List (List Token)} {fields : List (Key × Json)}
    (h : List.Forall₂ ReadsField tokens fields) :
    Reads (.openObject :: ([Token.comma].intercalate tokens ++ [.closeObject])) (.object fields) := by
  intro stack
  rw [Reader.run_cons (q := .fields stack) rfl]
  cases h with
  | nil => rfl
  | @cons first f tokens fields hfirst hmore =>
    have hkey : (Reader.fields stack).run ([Token.comma].intercalate (first :: tokens) ++
          [.closeObject]) =
        (Reader.key [] stack).run ([Token.comma].intercalate (first :: tokens) ++
          [.closeObject]) := by
      obtain ⟨us, rfl, -⟩ := hfirst
      cases tokens with
      | nil => rfl
      | cons second tokens => rfl
    rw [hkey]
    exact (Reader.loop_object stack).run (hfirst.run stack) (hmore.imp fun _ _ h => h.run stack) []

/-! ### Values of texts -/

/-- A value in which only texts, lists and objects occur, every key having a text. -/
inductive Textual : Json → Prop
  /-- A text. -/
  | string (s : List Char) : Textual (.string (some s))
  /-- A list of such values. -/
  | array (items : List Json) (h : ∀ v ∈ items, Textual v) : Textual (.array items)
  /-- An object of such values. -/
  | object (fields : List (List Char × Json)) (h : ∀ f ∈ fields, Textual f.2) :
    Textual (.object (fields.map fun f => (some f.1, f.2)))

theorem prettyItems_eq (depth : ℕ) (items : List Json) :
    prettyItems depth items = items.map (prettyAt depth) := by
  induction items with
  | nil => rfl
  | cons v items ih => rw [prettyItems, ih, List.map_cons]

theorem prettyFields_eq (depth : ℕ) (fields : List (Key × Json)) :
    prettyFields depth fields =
      fields.map fun f => Json.quoted (f.1.getD []) ++ ':' :: ' ' :: prettyAt depth f.2 := by
  induction fields with
  | nil => rfl
  | cons f fields ih => rw [prettyFields, ih, List.map_cons]

/-- Two relations that hold of some value for each entry hold of some list of values. -/
theorem exists_forall₂ {α β γ δ : Type} {f : α → β} {g : α → δ} {p : β → γ → Prop}
    {q : γ → δ → Prop} {l : List α} (h : ∀ a ∈ l, ∃ c, p (f a) c ∧ q c (g a)) :
    ∃ cs, List.Forall₂ p (l.map f) cs ∧ List.Forall₂ q cs (l.map g) := by
  induction l with
  | nil => exact ⟨[], .nil, .nil⟩
  | cons a l ih =>
    obtain ⟨c, hp, hq⟩ := h a List.mem_cons_self
    obtain ⟨cs, hps, hqs⟩ := ih fun b hb => h b (List.mem_cons_of_mem a hb)
    exact ⟨c :: cs, .cons hp hps, .cons hq hqs⟩

/-- **Every value of texts has tokens that are written at any depth and read at any place.** -/
theorem Textual.exists_tokens (h : Textual v) (depth : ℕ) :
    ∃ ts, Scans (prettyAt depth v) ts ∧ Reads ts v := by
  induction h generalizing depth with
  | string s => exact ⟨_, Scans.quoted s, Reads.string s⟩
  | array items _ ih =>
    obtain ⟨tokens, hscan, hread⟩ :=
      exists_forall₂ (g := id) fun v hv => ih v hv (depth + 1)
    rw [List.map_id] at hread
    rw [prettyAt, prettyItems_eq]
    exact ⟨_, (Scans.punctuation (c := '[') rfl rfl).bracketed
      (Scans.punctuation (c := ']') rfl rfl) depth hscan, Reads.array hread⟩
  | object fields _ ih =>
    have hfield : ∀ f ∈ fields, ∃ ts,
        Scans (Json.quoted f.1 ++ ':' :: ' ' :: prettyAt (depth + 1) f.2) ts ∧
          ReadsField ts (some f.1, f.2) := by
      intro f hf
      obtain ⟨ts, hscan, hread⟩ := ih f hf (depth + 1)
      have hcolon : Scans [':', ' '] [.colon] :=
        (Scans.punctuation (c := ':') rfl rfl).append (Scans.space (c := ' ') rfl)
      exact ⟨_, (Scans.quoted f.1).append (hcolon.append hscan), ts, rfl, hread⟩
    obtain ⟨tokens, hscan, hread⟩ := exists_forall₂ hfield
    rw [prettyAt, prettyFields_eq, List.map_map]
    exact ⟨_, (Scans.punctuation (c := '\x7b') rfl rfl).bracketed
      (Scans.punctuation (c := '\x7d') rfl rfl) depth hscan, Reads.object hread⟩

/-- **The document of a value of texts is read as that value.** -/
theorem parse?_pretty (h : Textual v) : parse? (String.ofList v.pretty) = some v := by
  obtain ⟨ts, hscan, hread⟩ := h.exists_tokens 0
  have htokens : tokens? v.pretty = some ts := by
    have hall := hscan [] []
    rw [List.append_nil, List.append_nil, tokensAfter?, List.reverse_reverse] at hall
    exact hall
  rw [parse?, String.toList_ofList, htokens]
  show ((Reader.value []).run ts).bind Reader.result? = some v
  rw [hread]
  rfl

end Json

end Equilibria
