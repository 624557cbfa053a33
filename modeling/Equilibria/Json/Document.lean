import Equilibria.Json.Token

/-!
# Reading JSON documents

A document is read by a machine that takes one token at a time.  What stands open is kept on a
stack, so that no nesting is too deep.

Main definitions:

* `Json.Frame` — a list or an object that is not yet closed;
* `Json.Reader` — what may come next, with the stack;
* `Json.Reader.step` — the machine;
* `Json.parse?` — the value of a text.
-/

namespace Equilibria

namespace Json

/-- A key as it stands in a document. -/
abbrev Key := Option (List Char)

/-- An open list or object.  Finished parts are kept in reverse. -/
inductive Frame where
  /-- A list with the items before the one being read. -/
  | array (before : List Json)
  /-- An object with the fields before the one being read, and the key of that one. -/
  | object (before : List (Key × Json)) (key : Key)

/-- The state of the machine: what is due, and what stands open. -/
inductive Reader where
  /-- A value. -/
  | value (stack : List Frame)
  /-- The first item of a list, or its end. -/
  | items (stack : List Frame)
  /-- The first key of an object, or its end. -/
  | fields (stack : List Frame)
  /-- A further key of an object. -/
  | key (before : List (Key × Json)) (stack : List Frame)
  /-- The colon behind a key. -/
  | colon (before : List (Key × Json)) (key : Key) (stack : List Frame)
  /-- The end of the text or of what stands open, or a comma. -/
  | done (v : Json) (stack : List Frame)

namespace Reader

/-- Takes the first token of a value. -/
def begin? (stack : List Frame) : Token → Option Reader
  | .openArray => some (.items stack)
  | .openObject => some (.fields stack)
  | .null => some (.done .null stack)
  | .bool b => some (.done (.bool b) stack)
  | .number n => some (.done (.number n) stack)
  | .string s => some (.done (.string s) stack)
  | .closeArray => none
  | .closeObject => none
  | .comma => none
  | .colon => none

/-- Takes one token. -/
def step : Reader → Token → Option Reader
  | .value stack, t => begin? stack t
  | .items stack, .closeArray => some (.done (.array []) stack)
  | .items stack, t => begin? (.array [] :: stack) t
  | .fields stack, .closeObject => some (.done (.object []) stack)
  | .fields stack, .string k => some (.colon [] k stack)
  | .key before stack, .string k => some (.colon before k stack)
  | .colon before k stack, .colon => some (.value (.object before k :: stack))
  | .done v (.array before :: stack), .comma => some (.value (.array (v :: before) :: stack))
  | .done v (.array before :: stack), .closeArray =>
    some (.done (.array (v :: before).reverse) stack)
  | .done v (.object before k :: stack), .comma => some (.key ((k, v) :: before) stack)
  | .done v (.object before k :: stack), .closeObject =>
    some (.done (.object ((k, v) :: before).reverse) stack)
  | _, _ => none

/-- Takes all tokens. -/
def run (r : Reader) : List Token → Option Reader
  | [] => some r
  | t :: ts =>
    match r.step t with
    | some r => run r ts
    | none => none

/-- The value that has been read, if nothing stands open. -/
def result? : Reader → Option Json
  | .done v [] => some v
  | _ => none

/-- Taking tokens in two portions is taking them at once. -/
theorem run_append (r : Reader) (ts us : List Token) :
    r.run (ts ++ us) = (r.run ts).bind fun s => s.run us := by
  induction ts generalizing r with
  | nil => rfl
  | cons t ts ih =>
    simp only [List.cons_append, run]
    cases r.step t with
    | none => rfl
    | some s => exact ih s

end Reader

/-- The value of a text that is exactly one document. -/
def parse? (s : String) : Option Json :=
  match tokens? s.toList with
  | some ts => ((Reader.value []).run ts).bind Reader.result?
  | none => none

end Json

end Equilibria
