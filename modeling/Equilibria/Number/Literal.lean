import Equilibria.Number.Decimal

/-!
# Number literals

Two grammars of written numbers.  An integer is an optional sign and digits, where underscores may
stand among the digits but not before the first.  A floating literal is an optional sign, digits
with at most one point and at least one digit, and an optional power of ten; or one of the words
for infinity and for an undefined result, in any case.  It denotes the nearest double.

Main definitions:

* `naturalOfDigits` — the value of a run of digits;
* `Literal.integer?` — reads an integer literal;
* `Literal.double?` — reads a floating literal.
-/

namespace Equilibria

/-- The value of a digit. -/
def digitValue (c : Char) : Nat := c.toNat - '0'.toNat

/-- The value of a run of digits, most significant first. -/
def naturalOfDigits (cs : List Char) : Nat := cs.foldl (fun n c => 10 * n + digitValue c) 0

namespace Literal

/-- Digits with underscores among them, the first character being no underscore. -/
def natural? (cs : List Char) : Option Nat :=
  match cs with
  | [] => none
  | '_' :: _ => none
  | _ =>
    let ds := cs.filter (· ≠ '_')
    if ds.all Char.isDigit then some (naturalOfDigits ds) else none

/-- An optional sign and a natural number. -/
def integer? (cs : List Char) : Option Int :=
  match cs with
  | '-' :: ds => (natural? ds).map fun n => -(n : Int)
  | '+' :: ds => (natural? ds).map fun n => (n : Int)
  | ds => (natural? ds).map fun n => (n : Int)

/-- An optional sign: whether it is a minus, and the rest. -/
def takeSign (cs : List Char) : Bool × List Char :=
  match cs with
  | '-' :: rest => (true, rest)
  | '+' :: rest => (false, rest)
  | rest => (false, rest)

/-- The power of ten at the end of a floating literal, zero if nothing is written. -/
def exponent? (cs : List Char) : Option Int :=
  match cs with
  | [] => some 0
  | c :: rest =>
    if c = 'e' ∨ c = 'E' then
      let signed := takeSign rest
      if signed.2.isEmpty || !signed.2.all Char.isDigit then none
      else
        let n : Int := (naturalOfDigits signed.2 : Int)
        some (if signed.1 then -n else n)
    else none

/-- Digits, an optional point with more digits, and an optional power of ten: the digits read as
one number, and the power of ten it is to be multiplied with. -/
def decimal? (cs : List Char) : Option Decimal :=
  let whole := cs.takeWhile Char.isDigit
  let rest := cs.dropWhile Char.isDigit
  let parts : List Char × List Char :=
    match rest with
    | '.' :: more => (more.takeWhile Char.isDigit, more.dropWhile Char.isDigit)
    | _ => ([], rest)
  if whole.isEmpty && parts.1.isEmpty then none
  else (exponent? parts.2).map fun e =>
    ⟨naturalOfDigits (whole ++ parts.1), e - (parts.1.length : Int)⟩

/-- Reads a floating literal as the nearest double. -/
def double? (cs : List Char) : Option Float :=
  let signed := takeSign cs
  let lower := signed.2.map Char.toLower
  if lower = ['i', 'n', 'f'] ∨ lower = ['i', 'n', 'f', 'i', 'n', 'i', 't', 'y'] then
    some (Binary64.ofSignWord signed.1 Binary64.infinityWord)
  else if lower = ['n', 'a', 'n'] then
    some (Binary64.ofSignWord signed.1 (Binary64.infinityWord + Nat.pow 2 51))
  else (decimal? signed.2).map fun x => Binary64.ofDecimal signed.1 x.coefficient x.exponent

end Literal

end Equilibria
