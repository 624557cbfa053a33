import Equilibria.Json.Document

/-!
# Reading typed data from JSON values

A reader of a type takes a value and gives a datum or nothing; why a value does not fit is not
told.  Records may be given as objects or as lists of their fields in order.

Main definitions:

* `Json.toText?`, `Json.toBool?`, `Json.toNat?`, `Json.toDouble?`, `Json.toList?`, `Json.toPair?` —
  the readers of simple types;
* `Json.fieldsOf?` — the values of the named fields of a record;
* `Json.required`, `Json.optional`, `Json.orDefault` — how a missing field is read.

In an object, fields with other names are passed over, a named field that is repeated is an error,
and every key must have a text.  In a list there may be no more items than fields, and only where
`short` allows it fewer.
-/

namespace Equilibria

namespace Json

/-- A string. -/
def toText? : Json → Option String
  | .string (some s) => some (String.ofList s)
  | _ => none

/-- A truth value. -/
def toBool? : Json → Option Bool
  | .bool b => some b
  | _ => none

/-- An unsigned integer of 64 bits. -/
def toNat? : Json → Option Nat
  | .number n => n.toNatural?
  | _ => none

/-- A double; integers are taken as well. -/
def toDouble? : Json → Option Float
  | .number n => n.toDouble?
  | _ => none

/-- A list. -/
def toList? {β : Type} (f : Json → Option β) : Json → Option (List β)
  | .array items => items.mapM f
  | _ => none

/-- A list of exactly two. -/
def toPair? {β : Type} (f : Json → Option β) : Json → Option (β × β)
  | .array [a, b] =>
    match f a, f b with
    | some a, some b => some (a, b)
    | _, _ => none
  | _ => none

/-- A value or `null`. -/
def toOption? {β : Type} (f : Json → Option β) : Json → Option (Option β)
  | .null => some none
  | v => (f v).map some

/-! ### Records -/

/-- The texts of all keys, with the values. -/
def keyed? (fields : List (Key × Json)) : Option (List (String × Json)) :=
  fields.mapM fun f => f.1.map fun k => (String.ofList k, f.2)

/-- The values of a name among the fields of an object. -/
def valuesOf (name : String) (fields : List (String × Json)) : List Json :=
  (fields.filter fun f => f.1 = name).map Prod.snd

/-- The only value of a name, if there is one; nothing at all if it is repeated. -/
def single? (name : String) (fields : List (String × Json)) : Option (Option Json) :=
  match valuesOf name fields with
  | [] => some none
  | [v] => some (some v)
  | _ => none

/-- The values of the named fields, in the order of the names. -/
def fieldsOf? (short : Bool) (names : List String) : Json → Option (List (Option Json))
  | .object fields =>
    match keyed? fields with
    | some known => names.mapM fun name => single? name known
    | none => none
  | .array items =>
    if items.length = names.length ∨ (short ∧ items.length < names.length) then
      some (items.map some ++ List.replicate (names.length - items.length) none)
    else none
  | _ => none

/-- A field that must be there. -/
def required {β : Type} (f : Json → Option β) (v : Option Json) : Option β := v.bind f

/-- A field with a value for its absence. -/
def orDefault {β : Type} (default : β) (f : Json → Option β) (v : Option Json) : Option β :=
  match v with
  | some v => f v
  | none => some default

/-- A field that may be missing or `null`. -/
def optional {β : Type} (f : Json → Option β) (v : Option Json) : Option (Option β) :=
  match v with
  | some v => toOption? f v
  | none => some none

end Json

end Equilibria
