import Equilibria.Json.Value

/-!
# Tokens of JSON documents

A document is cut into brackets, separators, literals, numbers and strings.  Blanks between them
are the four of RFC 8259.

Main definitions:

* `Json.Token` — the tokens;
* `Json.cutString?` — a string up to its closing quotation mark, with escapes still in it;
* `Json.unescape?`, `Json.textOfUnits?` — the escapes resolved, surrogate pairs joined;
* `Json.tokens?` — all tokens of a text.

A raw control character in a string, an unknown escape and an escape with fewer than four
hexadecimal digits are refused here; a lone surrogate is not, it leaves a string without a text.
-/

namespace Equilibria

namespace Json

/-- A token. -/
inductive Token where
  /-- The bracket that opens a list. -/
  | openArray
  /-- The bracket that closes a list. -/
  | closeArray
  /-- The brace that opens an object. -/
  | openObject
  /-- The brace that closes an object. -/
  | closeObject
  /-- The separator of items. -/
  | comma
  /-- The separator of a key and its value. -/
  | colon
  /-- The literal `null`. -/
  | null
  /-- A truth value. -/
  | bool (b : Bool)
  /-- A number. -/
  | number (n : Numeral)
  /-- A string. -/
  | string (s : Option (List Char))

/-! ### Strings -/

/-- Cuts a string behind its opening quotation mark at the closing one.  Both parts of an escape
stay in the first result. -/
def cutString? : List Char → Option (List Char × List Char)
  | [] => none
  | '"' :: rest => some ([], rest)
  | '\\' :: c :: rest => (cutString? rest).map fun p => ('\\' :: c :: p.1, p.2)
  | c :: rest =>
    if c.toNat < 32 then none else (cutString? rest).map fun p => (c :: p.1, p.2)

/-- What follows a string is shorter than the string and what follows. -/
theorem length_of_cutString? {cs body rest : List Char} (h : cutString? cs = some (body, rest)) :
    rest.length < cs.length := by
  fun_induction cutString? cs generalizing body rest with
  | case1 => simp at h
  | case2 r =>
    simp only [Option.some.injEq, Prod.mk.injEq] at h
    obtain ⟨_, rfl⟩ := h
    simp
  | case3 c r ih =>
    simp only [Option.map_eq_some_iff, Prod.mk.injEq, Prod.exists] at h
    obtain ⟨b, a, hs, _, rfl⟩ := h
    have := ih hs
    simp only [List.length_cons]
    omega
  | case4 => simp at h
  | case5 c r _ _ _ ih =>
    simp only [Option.map_eq_some_iff, Prod.mk.injEq, Prod.exists] at h
    obtain ⟨b, a, hs, _, rfl⟩ := h
    have := ih hs
    simp only [List.length_cons]
    omega

/-- A piece of a string: a character, or a code unit given by its number. -/
inductive Piece where
  /-- A character that stands for itself or has an escape of its own. -/
  | char (c : Char)
  /-- A code unit of sixteen bits. -/
  | codeUnit (n : Nat)

/-- The value of a hexadecimal digit. -/
def hexValue? (c : Char) : Option Nat :=
  if c.isDigit then some (digitValue c)
  else if 'a' ≤ c ∧ c ≤ 'f' then some (c.toNat - 'a'.toNat + 10)
  else if 'A' ≤ c ∧ c ≤ 'F' then some (c.toNat - 'A'.toNat + 10)
  else none

/-- The number of four hexadecimal digits. -/
def codeUnit? (a b c d : Char) : Option Nat :=
  match hexValue? a, hexValue? b, hexValue? c, hexValue? d with
  | some a, some b, some c, some d => some (4096 * a + 256 * b + 16 * c + d)
  | _, _, _, _ => none

/-- The character of an escape of two characters. -/
def simpleEscape? (c : Char) : Option Char :=
  if c = '"' then some '"'
  else if c = '\\' then some '\\'
  else if c = '/' then some '/'
  else if c = 'b' then some '\x08'
  else if c = 'f' then some '\x0c'
  else if c = 'n' then some '\n'
  else if c = 'r' then some '\r'
  else if c = 't' then some '\t'
  else none

/-- The pieces of a string between its quotation marks. -/
def unescape? : List Char → Option (List Piece)
  | [] => some []
  | '\\' :: 'u' :: a :: b :: c :: d :: rest =>
    match codeUnit? a b c d with
    | some n => (unescape? rest).map (Piece.codeUnit n :: ·)
    | none => none
  | '\\' :: c :: rest =>
    match simpleEscape? c with
    | some e => (unescape? rest).map (Piece.char e :: ·)
    | none => none
  | c :: rest => (unescape? rest).map (Piece.char c :: ·)

/-- Whether a code unit is the first half of a pair. -/
def isLeading (n : Nat) : Bool := 0xD800 ≤ n && n ≤ 0xDBFF

/-- Whether a code unit is the second half of a pair. -/
def isTrailing (n : Nat) : Bool := 0xDC00 ≤ n && n ≤ 0xDFFF

/-- The text of a string; none if half of a pair stands alone. -/
def textOfUnits? : List Piece → Option (List Char)
  | [] => some []
  | .char c :: rest => (textOfUnits? rest).map (c :: ·)
  | .codeUnit n :: rest =>
    if isLeading n then
      match rest with
      | .codeUnit m :: more =>
        if isTrailing m then
          (textOfUnits? more).map
            (Char.ofNat (0x10000 + 0x400 * (n - 0xD800) + (m - 0xDC00)) :: ·)
        else none
      | _ => none
    else if isTrailing n then none
    else (textOfUnits? rest).map (Char.ofNat n :: ·)

/-! ### The next token -/

/-- The blanks that may stand between tokens. -/
def isSpace (c : Char) : Bool := c == ' ' || c == '\t' || c == '\n' || c == '\r'

/-- The characters that a number may hold. -/
def isNumeric (c : Char) : Bool := c.isDigit || c == '-' || c == '+' || c == '.' || c == 'e' || c == 'E'

/-- The literal with the given letters. -/
def literal? (cs : List Char) : Option Token :=
  if cs = "null".toList then some .null
  else if cs = "true".toList then some (.bool true)
  else if cs = "false".toList then some (.bool false)
  else none

/-- The token of a bracket or separator. -/
def punctuation? (c : Char) : Option Token :=
  if c = '[' then some .openArray
  else if c = ']' then some .closeArray
  else if c = '\x7b' then some .openObject
  else if c = '\x7d' then some .closeObject
  else if c = ',' then some .comma
  else if c = ':' then some .colon
  else none

/-- The token that begins with `c` and continues in `rest`, and what follows it. -/
def nextToken? (c : Char) (rest : List Char) : Option (Token × List Char) :=
  match punctuation? c with
  | some t => some (t, rest)
  | none =>
    if c = '"' then
      match cutString? rest with
      | some (body, after) =>
        (unescape? body).map fun pieces => (.string (textOfUnits? pieces), after)
      | none => none
    else if c.isDigit || c == '-' then
      (Numeral.read? (c :: rest.takeWhile isNumeric)).map fun n =>
        (.number n, rest.dropWhile isNumeric)
    else if c.isAlpha then
      (literal? (c :: rest.takeWhile Char.isAlpha)).map fun t => (t, rest.dropWhile Char.isAlpha)
    else none

/-- What `dropWhile` leaves is no longer than the list. -/
theorem length_dropWhile_le (p : Char → Bool) (cs : List Char) :
    (cs.dropWhile p).length ≤ cs.length := (List.dropWhile_suffix p).length_le

/-- A token takes at least its first character. -/
theorem length_of_nextToken? {c : Char} {rest after : List Char} {t : Token}
    (h : nextToken? c rest = some (t, after)) : after.length < rest.length + 1 := by
  unfold nextToken? at h
  split at h
  · simp only [Option.some.injEq, Prod.mk.injEq] at h
    obtain ⟨_, rfl⟩ := h
    omega
  · split at h
    · split at h
      · rename_i hcut
        simp only [Option.map_eq_some_iff, Prod.mk.injEq] at h
        obtain ⟨_, _, _, rfl⟩ := h
        have := length_of_cutString? hcut
        omega
      · simp at h
    · split at h
      · simp only [Option.map_eq_some_iff, Prod.mk.injEq] at h
        obtain ⟨_, _, _, rfl⟩ := h
        have := length_dropWhile_le isNumeric rest
        omega
      · split at h
        · simp only [Option.map_eq_some_iff, Prod.mk.injEq] at h
          obtain ⟨_, _, _, rfl⟩ := h
          have := length_dropWhile_le Char.isAlpha rest
          omega
        · simp at h

/-- All tokens of a text, appended to the reversed list of those before it. -/
def tokensAfter? (before : List Token) (cs : List Char) : Option (List Token) :=
  match cs with
  | [] => some before.reverse
  | c :: rest =>
    if isSpace c then tokensAfter? before rest
    else
      match _h : nextToken? c rest with
      | none => none
      | some (t, after) => tokensAfter? (t :: before) after
termination_by cs.length
decreasing_by
  · simp
  · have := length_of_nextToken? _h
    simpa using this

/-- All tokens of a text. -/
def tokens? (cs : List Char) : Option (List Token) := tokensAfter? [] cs

end Json

end Equilibria
