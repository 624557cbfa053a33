import Equilibria.Number.Literal
import Equilibria.Text.Blank

/-!
# Rational numbers as text

A rational is written as an integer or as a fraction in lowest terms.  It may be read from an
integer, a fraction, a decimal or a decimal with a power of ten; the last goes through the nearest
double, the others are exact.

Main definitions:

* `Rational.chars`, `Rational.text` — the written form;
* `Rational.ofDecimal?` — reads digits with a point;
* `Rational.read?`, `Rational.parse?` — read any of the four forms, blanks around it allowed.

The form is chosen by the characters that occur: a slash makes a fraction, otherwise a letter `e`
makes a floating literal, otherwise a point makes a decimal.
-/

namespace Equilibria

namespace Rational

/-- The rational of an integer. -/
def ofInt (i : Int) : Rat := mkRat i 1

/-- The quotient of two integers; a zero divisor gives zero. -/
def ratio (n d : Int) : Rat := Rat.divInt n d

/-- A rational as an integer, or as numerator and denominator in lowest terms. -/
def chars (r : Rat) : List Char :=
  if r.den = 1 then integerDigits r.num else integerDigits r.num ++ '/' :: digitsOf r.den

/-- A rational as an integer, or as numerator and denominator in lowest terms. -/
def text (r : Rat) : String := String.ofList (chars r)

/-- Reads a fraction from its two parts. -/
def ofFraction? (n d : List Char) : Option Rat :=
  match Literal.integer? (trim n), Literal.integer? (trim d) with
  | some n, some d => if d = 0 then none else some (ratio n d)
  | _, _ => none

/-- Reads a floating literal and takes the exact value of its double. -/
def ofFloating? (cs : List Char) : Option Rat := (Literal.double? cs).bind Binary64.toRational?

/-- Whether a character is a sign. -/
def isSign (c : Char) : Bool := c == '-' || c == '+'

/-- Reads a decimal from the characters before and after its point.  The number is negative when
the first character is a minus; all signs before the digits are passed over. -/
def ofDecimal? (whole fraction : List Char) : Option Rat :=
  let digits := whole.dropWhile isSign ++ fraction
  if digits.isEmpty || !digits.all Char.isDigit then none
  else
    let magnitude : Int := (naturalOfDigits digits : Int)
    let numerator := if whole.head? = some '-' then -magnitude else magnitude
    some (mkRat numerator (Nat.pow 10 fraction.length))

/-- Reads a rational from a trimmed text. -/
def ofTrimmed? (cs : List Char) : Option Rat :=
  if cs.isEmpty then none
  else
    match splitOnce '/' cs with
    | some (n, d) => ofFraction? n d
    | none =>
      if cs.any fun c => c == 'e' || c == 'E' then ofFloating? cs
      else
        match splitOnce '.' cs with
        | some (whole, fraction) => ofDecimal? whole fraction
        | none => (Literal.integer? cs).map ofInt

/-- Reads a rational; blanks around it do not matter. -/
def read? (cs : List Char) : Option Rat := ofTrimmed? (trim cs)

/-- Reads a rational; blanks around it do not matter. -/
def parse? (s : String) : Option Rat := read? s.toList

end Rational

end Equilibria
