import Equilibria.Number.Double
import Equilibria.Number.RationalText

/-!
# The two domains of computation

Equilibria are computed either in exact rationals or in doubles.  `Scalar` collects what the
algorithms need of a domain: the field operations, the order, a test for zero, and the conversions
from and to exact rationals and to text.  The domains differ in one decision only: a rational is
zero when it is zero, a double when its absolute value is below `zeroTolerance`.

Main definitions:

* `Scalar` — the operations of a domain, with instances for `Rat` and `Double`;
* `Scalar.isStrictlyPositive`, `Scalar.isStrictlyNegative`, `Scalar.approxEq` — signs and equality
  up to the domain's notion of zero;
* `Scalar.sum`, `Scalar.allNegligible` — folds over a list.

No law is asked of the operations: the doubles satisfy few, and the algorithms are total without.
-/

namespace Equilibria

/-- A domain of computation. -/
class Scalar (α : Type) extends
    Add α, Sub α, Mul α, Div α, Neg α, Zero α, One α, LT α, LE α where
  /-- The strict order can be decided. -/
  ltDecidable : DecidableRel (fun a b : α => a < b)
  /-- The weak order can be decided. -/
  leDecidable : DecidableRel (fun a b : α => a ≤ b)
  /-- Whether two values are the same in every respect. -/
  same : α → α → Bool
  /-- Whether a value counts as zero. -/
  isNegligible : α → Bool
  /-- Whether a value is equal to zero, without any tolerance. -/
  isZero : α → Bool
  /-- Whether the sign of a value that is not zero is a minus. -/
  isBelowZero : α → Bool
  /-- Whether a value is a number of finite size. -/
  isFinite : α → Bool
  /-- The absolute value. -/
  abs : α → α
  /-- The value nearest to a rational. -/
  ofRational : Rat → α
  /-- The exact value, when there is one. -/
  toRational? : α → Option Rat
  /-- The nearest double. -/
  toDouble : α → Double
  /-- The text for a table: exact values as they are, inexact ones with the given places. -/
  render : Nat → α → String
  /-- The text of the value itself. -/
  text : α → String

namespace Scalar

@[inline]
instance instDecidableLT {α : Type} [Scalar α] (a b : α) : Decidable (a < b) := ltDecidable a b

@[inline]
instance instDecidableLE {α : Type} [Scalar α] (a b : α) : Decidable (a ≤ b) := leDecidable a b

/-- Doubles of smaller absolute value count as zero. -/
def zeroTolerance : Float := 1e-9

/-- Exact rationals. -/
instance instRat : Scalar Rat where
  toAdd := Rat.instAdd
  toSub := Rat.instSub
  toMul := Rat.instMul
  toDiv := Rat.instDiv
  toNeg := Rat.instNeg
  toZero := ⟨(0 : Rat)⟩
  toOne := ⟨(1 : Rat)⟩
  toLT := Rat.instLT
  toLE := Rat.instLE
  ltDecidable a b := inferInstanceAs (Decidable (a < b))
  leDecidable a b := inferInstanceAs (Decidable (a ≤ b))
  same a b := decide (a = b)
  isNegligible a := decide (a = 0)
  isZero a := decide (a = 0)
  isBelowZero a := decide (a < 0)
  isFinite _ := true
  abs a := if a < 0 then -a else a
  ofRational r := r
  toRational? a := some a
  toDouble a := Double.ofRational a
  render _ a := Rational.text a
  text a := Rational.text a

/-- Doubles. -/
instance instDouble : Scalar Double where
  toAdd := Double.instAdd
  toSub := Double.instSub
  toMul := Double.instMul
  toDiv := Double.instDiv
  toNeg := Double.instNeg
  toZero := ⟨Double.number 0.0⟩
  toOne := ⟨Double.number 1.0⟩
  toLT := Double.instLT
  toLE := Double.instLE
  ltDecidable a b := inferInstanceAs (Decidable (a < b))
  leDecidable a b := inferInstanceAs (Decidable (a ≤ b))
  same a b := a.same b
  isNegligible a := decide (a.toFloat.abs < zeroTolerance)
  isZero a := a.toFloat == 0.0
  isBelowZero a := a.isBelowZero
  isFinite a := a.isFinite
  abs a := a.abs
  ofRational r := Double.ofRational r
  toRational? a := a.toRational?
  toDouble a := a
  render places a := Binary64.fixedText places a.toFloat
  text a := Binary64.plainText a.toFloat

section

variable {α : Type} [Scalar α]

/-- Without a minus sign and not negligible. -/
def isStrictlyPositive (a : α) : Bool := !isNegligible a && !isBelowZero a

/-- With a minus sign and not negligible. -/
def isStrictlyNegative (a : α) : Bool := !isNegligible a && isBelowZero a

/-- Equal up to a negligible difference. -/
def approxEq (a b : α) : Bool := isNegligible (a - b)

/-- The sum of a list, added from the left onto zero. -/
def sum (as : List α) : α := as.foldl (fun total a => total + a) 0

/-- Whether every entry counts as zero. -/
def allNegligible (as : List α) : Bool := as.all isNegligible

end

end Scalar

end Equilibria
