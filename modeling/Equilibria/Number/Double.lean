import Equilibria.Number.Literal

/-!
# Doubles as a domain of computation

A double is a number, infinities included, or an undefined result.  An undefined result has no
value, but it carries a sign, which tests for a sign can see.

Main definitions:

* `Double`, `Double.ofResult`, `Double.toFloat` — doubles, and their passage from and to floats;
* `Double.combine` — an operation of two doubles;
* `Double.isBelowZero` — the test for a minus sign;
* `Double.same` — equality down to the sign of a zero, which the order does not see;
* `Double.ofLiteral?` — the double of a literal.

The sign of an undefined result is that of its first undefined operand, and a minus if all operands
are defined.  So it is the sign of the literal that spoiled the computation, and an invalid
operation such as `∞ / ∞` can be told from a literal without a sign.
-/

namespace Equilibria

/-- A double. -/
inductive Double where
  /-- A number or an infinity. -/
  | number (value : Float)
  /-- An undefined result of the given sign. -/
  | undefined (negative : Bool)

namespace Double

/-- The outcome of an operation on numbers. -/
@[inline]
def ofResult (x : Float) : Double := if x.isNaN then .undefined true else .number x

/-- The value as a float, which knows no sign of undefined results. -/
def toFloat : Double → Float
  | .number x => x
  | .undefined _ => 0.0 / 0.0

/-- An operation of two doubles.  The first undefined operand is the result, if there is one. -/
@[inline]
def combine (op : Float → Float → Float) : Double → Double → Double
  | .undefined s, _ => .undefined s
  | .number _, .undefined s => .undefined s
  | .number x, .number y => ofResult (op x y)

/-- The double with the other sign. -/
def negate : Double → Double
  | .number x => .number (-x)
  | .undefined s => .undefined !s

/-- The double without its sign. -/
def abs : Double → Double
  | .number x => .number x.abs
  | .undefined _ => .undefined false

instance instAdd : Add Double := ⟨combine fun x y => x + y⟩

instance instSub : Sub Double := ⟨combine fun x y => x - y⟩

instance instMul : Mul Double := ⟨combine fun x y => x * y⟩

instance instDiv : Div Double := ⟨combine fun x y => x / y⟩

instance instNeg : Neg Double := ⟨negate⟩

instance instLT : LT Double := ⟨fun a b => a.toFloat < b.toFloat⟩

instance instLE : LE Double := ⟨fun a b => a.toFloat ≤ b.toFloat⟩

@[inline]
instance instDecidableLT (a b : Double) : Decidable (a < b) :=
  inferInstanceAs (Decidable (a.toFloat < b.toFloat))

@[inline]
instance instDecidableLE (a b : Double) : Decidable (a ≤ b) :=
  inferInstanceAs (Decidable (a.toFloat ≤ b.toFloat))

/-- Whether a double is less than zero or undefined with a minus sign. -/
def isBelowZero : Double → Bool
  | .number x => decide (x < 0.0)
  | .undefined s => s

/-- Whether two doubles are the same, down to the sign of a zero. -/
def same : Double → Double → Bool
  | .number x, .number y => x.toBits == y.toBits
  | .undefined s, .undefined t => s == t
  | _, _ => false

/-- Whether a double is a number of finite size. -/
def isFinite : Double → Bool
  | .number x => Binary64.isFinite x
  | .undefined _ => false

/-- The exact value of a number of finite size. -/
def toRational? : Double → Option Rat
  | .number x => Binary64.toRational? x
  | .undefined _ => none

/-- The double nearest to a rational. -/
def ofRational (r : Rat) : Double := .number (Binary64.ofRational r)

/-- The double of a literal.  One that stands for no number keeps its sign. -/
def ofLiteral? (cs : List Char) : Option Double :=
  (Literal.double? cs).map fun x => if x.isNaN then .undefined (cs.head? = some '-') else .number x

end Double

end Equilibria
