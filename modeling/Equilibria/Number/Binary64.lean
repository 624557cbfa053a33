/-!
# Binary64 numbers and exact rationals

A double is a sign, a significand below `2 ^ 53` and a power of two, so a finite one is a rational
number, and every rational has a nearest double.  This module goes both ways in exact natural
arithmetic; nothing here calls a floating-point operation.

Main definitions:

* `roundHalfEven n d` — the integer nearest to `n / d`, the even one of two equally near;
* `floorLog2 n d`, `floorLog10 n d` — the exponent of the leading digit of `n / d`;
* `Binary64.ofWord` — the datum that a 64-bit word encodes;
* `Binary64.nearestWord` — the word of the double nearest to `n / d`;
* `Binary64.ofRational`, `Binary64.toRational?` — the two conversions on `Float`;
* `Binary64.ofDecimal` — the double nearest to `± s · 10 ^ e`, whatever the size of `e`.

Rounding goes to nearest, ties to the even significand; a magnitude past the largest finite double
becomes infinite, and one below half the least subnormal becomes a zero of the same sign.
-/

namespace Equilibria

/-! ### Rounding a quotient -/

/-- The integer nearest to `n / d`; of two equally near ones the even one. -/
def roundHalfEven (n d : Nat) : Nat :=
  let q := n / d
  let r := n % d
  if 2 * r < d then q
  else if d < 2 * r then q + 1
  else q + q % 2

/-- A quotient that is a natural number is not changed by rounding. -/
theorem roundHalfEven_mul_right (q d : Nat) (hd : 0 < d) : roundHalfEven (q * d) d = q := by
  simp [roundHalfEven, Nat.mul_div_cancel q hd, hd]

/-- Numerator and denominator of `n / d · b ^ e`. -/
def scaleQuotient (b n d : Nat) : Int → Nat × Nat
  | .ofNat k => (n * Nat.pow b k, d)
  | .negSucc k => (n, d * Nat.pow b (k + 1))

/-- Whether `b ^ e ≤ n / d`. -/
def powLeQuotient (b n d : Nat) (e : Int) : Bool :=
  let scaled := scaleQuotient b n d (-e)
  decide (scaled.2 ≤ scaled.1)

/-- `⌊log₂ (n / d)⌋` for positive `n` and `d`. -/
def floorLog2 (n d : Nat) : Int :=
  let e : Int := (n.log2 : Int) - (d.log2 : Int)
  if powLeQuotient 2 n d e then e else e - 1

/-- The number of decimal digits of `n`. -/
def digitCount (n : Nat) : Nat := (Nat.toDigits 10 n).length

/-- `⌊log₁₀ (n / d)⌋` for positive `n` and `d`. -/
def floorLog10 (n d : Nat) : Int :=
  let e : Int := (digitCount n : Int) - (digitCount d : Int)
  if powLeQuotient 10 n d e then e else e - 1

namespace Binary64

/-! ### Words and data -/

/-- The finite number `± significand · 2 ^ exponent`; a zero keeps its sign. -/
structure Finite where
  /-- Whether the sign bit is set. -/
  negative : Bool
  /-- The significand with its leading bit, below `2 ^ 53`. -/
  significand : Nat
  /-- The weight of the significand's last bit, at least `-1074`. -/
  exponent : Int
  deriving Repr, DecidableEq

/-- What a double can be. -/
inductive Datum where
  /-- A finite number. -/
  | finite (x : Finite)
  /-- An infinity of the given sign. -/
  | infinite (negative : Bool)
  /-- Not a number. -/
  | undefined
  deriving Repr, DecidableEq

/-- The word of positive infinity, above the words of all finite magnitudes. -/
def infinityWord : Nat := 2047 * Nat.pow 2 52

/-- The datum of a 64-bit word: sign in bit 63, an exponent field of 11 bits, a fraction of 52. -/
def ofWord (w : Nat) : Datum :=
  let negative := decide (Nat.pow 2 63 ≤ w)
  let field : Nat := w / Nat.pow 2 52 % 2048
  let fraction : Nat := w % Nat.pow 2 52
  if field = 2047 then
    if fraction = 0 then .infinite negative else .undefined
  else if field = 0 then .finite ⟨negative, fraction, -1074⟩
  else .finite ⟨negative, Nat.pow 2 52 + fraction, (field : Int) - 1075⟩

/-- The datum of a double. -/
def ofFloat (x : Float) : Datum := ofWord x.toBits.toNat

/-- The double of a sign and the word of a magnitude. -/
def ofSignWord (negative : Bool) (w : Nat) : Float :=
  Float.ofBits (UInt64.ofNat (if negative then Nat.pow 2 63 + w else w))

/-! ### From quotients to doubles -/

/-- The word of the double nearest to `n / d`.  The exponent of the last significand bit is the
leading bit's less 52, but never below `-1074`; a significand that rounds up to `2 ^ 53` carries
into the exponent field by itself. -/
def nearestWord (n d : Nat) : Nat :=
  if n = 0 then 0
  else
    let q : Int := max (floorLog2 n d - 52) (-1074)
    let scaled := scaleQuotient 2 n d (-q)
    min ((q + 1074).toNat * Nat.pow 2 52 + roundHalfEven scaled.1 scaled.2) infinityWord

/-- The double nearest to a rational.  A negative rational too small for a subnormal gives the
negative zero. -/
def ofRational (r : Rat) : Float :=
  ofSignWord (decide (r.num < 0)) (nearestWord r.num.natAbs r.den)

/-- The double nearest to `± s · 10 ^ e`.  Exponents that put the leading digit far outside the
range of doubles are settled without computing the power. -/
def ofDecimal (negative : Bool) (s : Nat) (e : Int) : Float :=
  if s = 0 then ofSignWord negative 0
  else
    let lead : Int := e + (digitCount s : Int)
    if 400 < lead then ofSignWord negative infinityWord
    else if lead < -400 then ofSignWord negative 0
    else
      let scaled := scaleQuotient 10 s 1 e
      ofSignWord negative (nearestWord scaled.1 scaled.2)

/-! ### From doubles to quotients -/

/-- Numerator and denominator of the magnitude of a finite number, not in lowest terms. -/
def Finite.quotient (x : Finite) : Nat × Nat := scaleQuotient 2 x.significand 1 x.exponent

/-- The exact value of a finite number. -/
def Finite.toRational (x : Finite) : Rat :=
  let magnitude := x.quotient
  let value := mkRat (Int.ofNat magnitude.1) magnitude.2
  if x.negative then -value else value

/-- The exact value of a double; infinities and undefined results have none. -/
def toRational? (x : Float) : Option Rat :=
  match ofFloat x with
  | .finite f => some f.toRational
  | .infinite _ => none
  | .undefined => none

/-- Whether a double is neither infinite nor undefined. -/
def isFinite (x : Float) : Bool :=
  match ofFloat x with
  | .finite _ => true
  | .infinite _ => false
  | .undefined => false

end Binary64

end Equilibria
