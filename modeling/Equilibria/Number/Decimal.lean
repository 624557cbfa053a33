import Equilibria.Number.Binary64

/-!
# Decimal text of doubles

Three ways of writing a double are needed: the shortest digits that read back as the same double,
a fixed number of places, and a scientific form with three places.  All three choose their digits
by exact arithmetic on the significand and the power of two.

Main definitions:

* `Decimal` — a coefficient and a power of ten;
* `Decimal.shortest` — the shortest decimal inside the interval of reals that round to a double,
  the nearest of those, ties as told;
* `Decimal.plain` — positional text without an exponent;
* `Binary64.plainText`, `Binary64.fixedText`, `Binary64.scientificText` — the text of a double.
-/

namespace Equilibria

/-! ### Digits -/

/-- The decimal digits of a natural number. -/
def digitsOf (n : Nat) : List Char := Nat.toDigits 10 n

/-- The digits of `n`, filled up on the left with zeros to `width` places. -/
def paddedDigits (width n : Nat) : List Char :=
  let ds := digitsOf n
  List.replicate (width - ds.length) '0' ++ ds

/-- The text of an integer: a minus sign for negative ones, then the digits. -/
def integerDigits (i : Int) : List Char :=
  if i < 0 then '-' :: digitsOf i.natAbs else digitsOf i.natAbs

/-- The decimal `coefficient · 10 ^ exponent`. -/
structure Decimal where
  /-- The digits, read as one natural number. -/
  coefficient : Nat
  /-- The weight of the last digit. -/
  exponent : Int
  deriving Repr, DecidableEq

namespace Decimal

/-- Moves factors of ten from the coefficient into the exponent. -/
def strip (coefficient : Nat) (exponent : Int) : Decimal :=
  if h : 0 < coefficient ∧ coefficient % 10 = 0 then strip (coefficient / 10) (exponent + 1)
  else ⟨coefficient, exponent⟩
termination_by coefficient
decreasing_by omega

/-- The exponent of the leading digit. -/
def leading (x : Decimal) : Int := x.exponent + (digitCount x.coefficient : Int) - 1

/-- Where an exact tie between two neighbouring decimals goes. -/
inductive Tie where
  /-- To the larger one. -/
  | up
  /-- To the one whose last digit is even. -/
  | toEven
  deriving Repr, DecidableEq

/-! ### The shortest decimal -/

/-- An interval of positive reals around a double, all four numbers over one denominator: its ends,
whether the ends belong to it, and the double itself. -/
structure Interval where
  /-- Numerator of the lower end. -/
  low : Nat
  /-- Numerator of the double. -/
  value : Nat
  /-- Numerator of the upper end. -/
  high : Nat
  /-- The common denominator. -/
  denominator : Nat
  /-- Whether the two ends round to the double as well. -/
  closed : Bool

/-- The reals that round to `m · 2 ^ q`.  The ends lie half way to the neighbouring doubles, so the
lower gap is half as wide below a power of two, except at the least exponent; they belong to the
interval exactly when `m` is even. -/
def Interval.around (m : Nat) (q : Int) : Interval :=
  let below := if m = Nat.pow 2 52 ∧ -1074 < q then 1 else 2
  let unit := scaleQuotient 2 1 4 q
  { low := (4 * m - below) * unit.1
    value := 4 * m * unit.1
    high := (4 * m + 2) * unit.1
    denominator := unit.2
    closed := m % 2 = 0 }

/-- Whether the quotient `n / d` lies in the interval. -/
def Interval.contains (i : Interval) (n d : Nat) : Bool :=
  if i.closed then decide (i.low * d ≤ n * i.denominator) && decide (n * i.denominator ≤ i.high * d)
  else decide (i.low * d < n * i.denominator) && decide (n * i.denominator < i.high * d)

/-- The point of the grid of multiples of `10 ^ g` that lies in the interval nearest to the double,
if there is one.  Only the two neighbours of the double need to be looked at. -/
def Interval.onGrid? (i : Interval) (tie : Tie) (g : Int) : Option Nat :=
  let scaled := scaleQuotient 10 i.value i.denominator (-g)
  let floor := scaled.1 / scaled.2
  let rest := scaled.1 % scaled.2
  let unit := scaleQuotient 10 1 1 g
  let lower := i.contains (floor * unit.1) unit.2
  let upper := i.contains ((floor + 1) * unit.1) unit.2
  if lower && upper then
    if 2 * rest < scaled.2 then some floor
    else if scaled.2 < 2 * rest then some (floor + 1)
    else match tie with
      | .up => some (floor + 1)
      | .toEven => some (floor + floor % 2)
  else if lower then some floor
  else if upper then some (floor + 1)
  else none

/-- The shortest decimal that reads back as the positive double `m · 2 ^ q`: the first grid, from
the coarsest down, that meets the interval of the double.  Seventeen digits always do. -/
def shortest (tie : Tie) (m : Nat) (q : Int) : Decimal :=
  let i := Interval.around m q
  let lead := floorLog10 i.value i.denominator
  let found := (List.range 17).findSome? fun (k : Nat) =>
    (i.onGrid? tie (lead - (k : Int))).map fun c => strip c (lead - (k : Int))
  found.getD ⟨0, 0⟩

/-! ### Positional text -/

/-- The decimal written out in positions, without an exponent and without a point when it is a
whole number. -/
def plain (x : Decimal) : List Char :=
  let ds := digitsOf x.coefficient
  match x.exponent with
  | .ofNat k => ds ++ List.replicate k '0'
  | .negSucc k =>
    let places := k + 1
    let padded := paddedDigits (places + 1) x.coefficient
    padded.take (padded.length - places) ++ '.' :: padded.drop (padded.length - places)

end Decimal

/-! ### The text of a double -/

namespace Binary64

/-- A minus sign for negative data. -/
def signChars (negative : Bool) : List Char := if negative then ['-'] else []

/-- The text of a double that is not finite, in the style of the plain forms. -/
def infinityChars (negative : Bool) : List Char := signChars negative ++ ['i', 'n', 'f']

/-- The text of an undefined result. -/
def undefinedChars : List Char := ['N', 'a', 'N']

/-- The shortest digits that read back, positional whatever the size, a half going up. -/
def plainChars (x : Float) : List Char :=
  match ofFloat x with
  | .undefined => undefinedChars
  | .infinite negative => infinityChars negative
  | .finite f =>
    signChars f.negative ++
      (if f.significand = 0 then ['0'] else (Decimal.shortest .up f.significand f.exponent).plain)

/-- The exact value rounded to `places` places, a half going to the even neighbour. -/
def fixedChars (places : Nat) (x : Float) : List Char :=
  match ofFloat x with
  | .undefined => undefinedChars
  | .infinite negative => infinityChars negative
  | .finite f =>
    let value := f.quotient
    let grid := Nat.pow 10 places
    let scaled := roundHalfEven (value.1 * grid) value.2
    let whole := digitsOf (scaled / grid)
    signChars f.negative ++
      (if places = 0 then whole else whole ++ '.' :: paddedDigits places (scaled % grid))

/-- One digit, a point, three more digits and a power of ten. -/
def scientificChars (x : Float) : List Char :=
  match ofFloat x with
  | .undefined => undefinedChars
  | .infinite negative => infinityChars negative
  | .finite f =>
    let write (c : Nat) (e : Int) : List Char :=
      digitsOf (c / 1000) ++ '.' :: paddedDigits 3 (c % 1000) ++ 'e' :: integerDigits e
    signChars f.negative ++
      (if f.significand = 0 then write 0 0
      else
        let value := f.quotient
        let lead := floorLog10 value.1 value.2
        let scaled := scaleQuotient 10 value.1 value.2 (3 - lead)
        let c := roundHalfEven scaled.1 scaled.2
        if c = 10000 then write 1000 (lead + 1) else write c lead)

/-- `plainChars` as a string. -/
def plainText (x : Float) : String := String.ofList (plainChars x)

/-- `fixedChars` as a string. -/
def fixedText (places : Nat) (x : Float) : String := String.ofList (fixedChars places x)

/-- `scientificChars` as a string. -/
def scientificText (x : Float) : String := String.ofList (scientificChars x)

end Binary64

end Equilibria
