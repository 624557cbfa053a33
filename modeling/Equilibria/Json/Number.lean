import Equilibria.Number.RationalText

/-!
# Numbers in JSON documents

A number is kept as the characters it is written with, because the two readings of it differ: as an
integer of limited size, and as a double.  The reading as a double is not the nearest double in
general.  The digits are gathered in a significand of 64 bits, and one multiplication or division
by a power of ten follows, with digits past the significand's capacity dropped.

Main definitions:

* `Json.Numeral` — sign, digits before and after the point, and exponent;
* `Json.Numeral.read?` — the grammar of numbers;
* `Json.Numeral.toNatural?` — the reading as an unsigned integer of 64 bits;
* `Json.Numeral.toDouble?` — the reading as a double;
* `Json.Numeral.toRational?` — the reading as a payoff: integers of 64 bits are exact, all else is
  the decimal text of its double;
* `Json.Numeral.ofNat`, `Json.Numeral.ofDouble?` — the written form of a value.
-/

namespace Equilibria

namespace Json

/-- The power of ten of a number: whether it is negative, and its digits. -/
structure Power where
  /-- Whether a minus stands before the digits. -/
  negative : Bool
  /-- The digits, at least one. -/
  digits : List Char
  deriving Repr, DecidableEq

/-- A number as it is written. -/
structure Numeral where
  /-- Whether a minus stands first. -/
  negative : Bool
  /-- The digits before the point, at least one, a leading zero standing alone. -/
  whole : List Char
  /-- The digits after the point; none when there is no point. -/
  fraction : List Char
  /-- The power of ten, if one is written. -/
  power : Option Power
  deriving Repr, DecidableEq

namespace Numeral

/-! ### The grammar -/

/-- Whether digits may stand before the point. -/
def isWhole (ds : List Char) : Bool :=
  match ds with
  | [] => false
  | ['0'] => true
  | '0' :: _ => false
  | _ => true

/-- Reads the power of ten that ends a number. -/
def readPower? (cs : List Char) : Option (Option Power) :=
  match cs with
  | [] => some none
  | c :: rest =>
    if c = 'e' ∨ c = 'E' then
      let signed := Literal.takeSign rest
      if signed.2.isEmpty || !signed.2.all Char.isDigit then none
      else some (some ⟨signed.1, signed.2⟩)
    else none

/-- Reads a whole text as a number. -/
def read? (cs : List Char) : Option Numeral :=
  let negative := cs.head? == some '-'
  let body := if negative then cs.drop 1 else cs
  let whole := body.takeWhile Char.isDigit
  if isWhole whole then
    match body.dropWhile Char.isDigit with
    | '.' :: rest =>
      let fraction := rest.takeWhile Char.isDigit
      if fraction.isEmpty then none
      else (readPower? (rest.dropWhile Char.isDigit)).map fun p => ⟨negative, whole, fraction, p⟩
    | rest => (readPower? rest).map fun p => ⟨negative, whole, [], p⟩
  else none

/-! ### The reading as an integer -/

/-- One more than the largest unsigned integer. -/
def naturalBound : Nat := UInt64.size

/-- Whether neither a point nor a power of ten is written. -/
def isInteger (n : Numeral) : Bool := n.fraction.isEmpty && n.power.isNone

/-- The unsigned integer of 64 bits that is written, if one is. -/
def toNatural? (n : Numeral) : Option Nat :=
  let v := naturalOfDigits n.whole
  if n.isInteger && !n.negative && decide (v < naturalBound) then some v else none

/-- The integer that is written, if it is an unsigned one of 64 bits or a negative one of 64 bits
with sign.  The negative zero is none. -/
def toInteger? (n : Numeral) : Option Int :=
  let v := naturalOfDigits n.whole
  if !n.isInteger then none
  else if n.negative then (if 0 < v ∧ v ≤ Nat.pow 2 63 then some (-(v : Int)) else none)
  else if v < naturalBound then some (v : Int)
  else none

/-! ### The reading as a double -/

/-- A significand of 64 bits and the power of ten that belongs to it. -/
structure Gathered where
  /-- The digits gathered so far, as a number. -/
  significand : Nat
  /-- The power of ten. -/
  exponent : Int

/-- Appends digits before the point.  From the first one for which there is no room, each digit
only raises the exponent. -/
def gatherWhole (g : Gathered) : List Char → Gathered
  | [] => g
  | c :: cs =>
    let s := 10 * g.significand + digitValue c
    if s < naturalBound then gatherWhole ⟨s, g.exponent⟩ cs
    else ⟨g.significand, g.exponent + ((c :: cs).length : Int)⟩

/-- Appends digits after the point, dropping all from the first for which there is no room. -/
def gatherFraction (g : Gathered) : List Char → Gathered
  | [] => g
  | c :: cs =>
    let s := 10 * g.significand + digitValue c
    if s < naturalBound then gatherFraction ⟨s, g.exponent - 1⟩ cs else g

/-- The double nearest to a power of ten. -/
def powerOfTen (k : Nat) : Float := Binary64.ofDecimal false 1 (k : Int)

/-- Brings a double and a power of ten together.  A power beyond 308 is refused when it is positive
and taken in portions when it is negative; a result of infinite size is refused. -/
def scaleDouble (f : Float) (e : Int) : Option Float :=
  if 0 ≤ e then
    if e ≤ 308 then
      let product := f * powerOfTen e.toNat
      if Binary64.isFinite product then some product else none
    else if f == 0.0 then some f
    else none
  else if -308 ≤ e then some (f / powerOfTen e.natAbs)
  else if f == 0.0 then some f
  else scaleDouble (f / powerOfTen 308) (e + 308)
termination_by e.natAbs
decreasing_by omega

/-- The largest exponent that is read as a number. -/
def exponentBound : Nat := Nat.pow 2 31 - 1

/-- The magnitude of a number as a double.  An exponent past the bound gives zero when it is
negative or the digits are zero, and is refused otherwise. -/
def magnitude? (n : Numeral) : Option Float :=
  let g := gatherFraction (gatherWhole ⟨0, 0⟩ n.whole) n.fraction
  let f : Float := (UInt64.ofNat g.significand).toFloat
  match n.power with
  | none => scaleDouble f g.exponent
  | some p =>
    let e := naturalOfDigits p.digits
    if exponentBound < e then
      if g.significand ≠ 0 ∧ !p.negative then none else some 0.0
    else scaleDouble f (if p.negative then g.exponent - (e : Int) else g.exponent + (e : Int))

/-- The number as a double. -/
def toDouble? (n : Numeral) : Option Float :=
  n.magnitude?.map fun f => if n.negative then -f else f

/-! ### The written form of a value -/

/-- A natural number. -/
def ofNat (n : Nat) : Numeral := ⟨false, digitsOf n, [], none⟩

/-- The digits of a decimal with a point after the first `lead + 1` of them, for a leading digit of
weight `10 ^ lead` with `0 ≤ lead`. -/
def positionalDigits (x : Decimal) : List Char × List Char :=
  match x.exponent with
  | .ofNat k => (digitsOf x.coefficient ++ List.replicate k '0', ['0'])
  | .negSucc k =>
    let padded := paddedDigits (k + 2) x.coefficient
    (padded.take (padded.length - (k + 1)), padded.drop (padded.length - (k + 1)))

/-- A positive decimal as a number.  Leading digits of weight `10 ^ -5` to `10 ^ 15` are written in
positions, with a point always; all else has one digit before the point and a power of ten. -/
def ofDecimal (negative : Bool) (x : Decimal) : Numeral :=
  if -5 ≤ x.leading ∧ x.leading ≤ 15 then
    let parts := positionalDigits x
    ⟨negative, parts.1, parts.2, none⟩
  else
    let ds := digitsOf x.coefficient
    ⟨negative, ds.take 1, ds.drop 1,
      some ⟨decide (x.leading < 0), digitsOf x.leading.natAbs⟩⟩

/-- A finite double as a number, with the shortest digits that read back; a tie between two goes to
the even one. -/
def ofDouble? (x : Float) : Option Numeral :=
  match Binary64.ofFloat x with
  | .finite f =>
    if f.significand = 0 then some ⟨f.negative, ['0'], ['0'], none⟩
    else some (ofDecimal f.negative (Decimal.shortest .toEven f.significand f.exponent))
  | .infinite _ => none
  | .undefined => none

/-- The characters of a number.  A positive power of ten has its plus sign. -/
def chars (n : Numeral) : List Char :=
  Binary64.signChars n.negative ++ n.whole ++
    (if n.fraction.isEmpty then [] else '.' :: n.fraction) ++
    (match n.power with
      | none => []
      | some p => 'e' :: (if p.negative then '-' else '+') :: p.digits)

/-! ### The reading as a payoff -/

/-- The exact rational of a number.  Integers of 64 bits are taken as they are; any other number is
read as a double first, and the rational is read from the text that the double is written as. -/
def toRational? (n : Numeral) : Option Rat :=
  match n.toInteger? with
  | some i => Rational.read? (integerDigits i)
  | none =>
    match n.toDouble?.bind ofDouble? with
    | some written => Rational.read? written.chars
    | none => none

end Numeral

end Json

end Equilibria
