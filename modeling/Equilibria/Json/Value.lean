import Equilibria.Json.Number

/-!
# JSON values

The values of RFC 8259.  Two things are kept that a plain reading would lose: a number keeps its
digits, since an unused field may hold a number that has no value of any fixed size, and a string
whose escapes name half of a surrogate pair is a string without a text, which is an error only where
the text is needed.

Main definitions:

* `Json` — values, with the fields of an object in order and with repetitions;
* `Json.compact`, `Json.pretty` — the two written forms;
* `Json.quoted` — a string with its escapes.
-/

namespace Equilibria

/-- A JSON value. -/
inductive Json where
  /-- The literal `null`. -/
  | null
  /-- A truth value. -/
  | bool (b : Bool)
  /-- A number. -/
  | number (n : Json.Numeral)
  /-- A string; without a text when its escapes leave half of a surrogate pair. -/
  | string (s : Option (List Char))
  /-- A list of values. -/
  | array (items : List Json)
  /-- The fields of an object as they stand. -/
  | object (fields : List (Option (List Char) × Json))

namespace Json

/-! ### Values of the library's types -/

/-- A text. -/
def ofText (s : String) : Json := .string (some s.toList)

/-- A natural number. -/
def ofNat (n : Nat) : Json := .number (Numeral.ofNat n)

/-- A double; a value that is not finite becomes `null`. -/
def ofDouble (x : Float) : Json :=
  match Numeral.ofDouble? x with
  | some n => .number n
  | none => .null

/-- A value that may be missing. -/
def ofOption {β : Type} (f : β → Json) (b : Option β) : Json :=
  match b with
  | some b => f b
  | none => .null

/-- A list of values. -/
def ofList {β : Type} (f : β → Json) (bs : List β) : Json := .array (bs.map f)

/-- An object with the given fields in order. -/
def record (fields : List (String × Json)) : Json :=
  .object (fields.map fun f => (some f.1.toList, f.2))

/-! ### Written strings -/

/-- The four hexadecimal digits of a code below `0x10000`. -/
def hexDigits (n : Nat) : List Char :=
  let ds := Nat.toDigits 16 n
  List.replicate (4 - ds.length) '0' ++ ds

/-- A character inside a string: quotation mark, backslash and the controls below the space are
escaped, all else stands for itself. -/
def escaped (c : Char) : List Char :=
  if c = '"' then ['\\', '"']
  else if c = '\\' then ['\\', '\\']
  else if c = '\x08' then ['\\', 'b']
  else if c = '\x0c' then ['\\', 'f']
  else if c = '\n' then ['\\', 'n']
  else if c = '\r' then ['\\', 'r']
  else if c = '\t' then ['\\', 't']
  else if c.toNat < 32 then '\\' :: 'u' :: hexDigits c.toNat
  else [c]

/-- A string with its quotation marks. -/
def quoted (s : List Char) : List Char := '"' :: s.flatMap escaped ++ ['"']

/-! ### Written values -/

/-- Puts a separator between texts. -/
def separated (sep : List Char) : List (List Char) → List Char
  | [] => []
  | [t] => t
  | t :: ts => t ++ sep ++ separated sep ts

/-- The characters of a truth value. -/
def boolChars (b : Bool) : List Char := if b then "true".toList else "false".toList

mutual

/-- A value without any blanks. -/
def compact : Json → List Char
  | .null => "null".toList
  | .bool b => boolChars b
  | .number n => n.chars
  | .string s => quoted (s.getD [])
  | .array items => '[' :: separated [','] (compactItems items) ++ [']']
  | .object fields => '\x7b' :: separated [','] (compactFields fields) ++ ['\x7d']

/-- The items of a list without any blanks. -/
def compactItems : List Json → List (List Char)
  | [] => []
  | v :: vs => compact v :: compactItems vs

/-- The fields of an object without any blanks. -/
def compactFields : List (Option (List Char) × Json) → List (List Char)
  | [] => []
  | (k, v) :: fs => (quoted (k.getD []) ++ ':' :: compact v) :: compactFields fs

end

/-- The start of a line at the given depth. -/
def newline (depth : Nat) : List Char := '\n' :: List.replicate (2 * depth) ' '

/-- Texts between two brackets, one a line, one level deeper than the brackets; nothing between the
brackets of an empty list. -/
def bracketed (opening closing : Char) (depth : Nat) (ts : List (List Char)) : List Char :=
  if ts.isEmpty then [opening, closing]
  else
    opening :: newline (depth + 1) ++ separated (',' :: newline (depth + 1)) ts ++
      newline depth ++ [closing]

mutual

/-- A value over several lines, indented by two blanks a level. -/
def prettyAt (depth : Nat) : Json → List Char
  | .null => "null".toList
  | .bool b => boolChars b
  | .number n => n.chars
  | .string s => quoted (s.getD [])
  | .array items => bracketed '[' ']' depth (prettyItems (depth + 1) items)
  | .object fields => bracketed '\x7b' '\x7d' depth (prettyFields (depth + 1) fields)

/-- The items of a list at the given depth. -/
def prettyItems (depth : Nat) : List Json → List (List Char)
  | [] => []
  | v :: vs => prettyAt depth v :: prettyItems depth vs

/-- The fields of an object at the given depth. -/
def prettyFields (depth : Nat) : List (Option (List Char) × Json) → List (List Char)
  | [] => []
  | (k, v) :: fs =>
    (quoted (k.getD []) ++ ':' :: ' ' :: prettyAt depth v) :: prettyFields depth fs

end

/-- A value over several lines. -/
def pretty (v : Json) : List Char := prettyAt 0 v

end Json

end Equilibria
