import Equilibria.Number.Scalar

/-!
# Mixed profiles

A mixed profile gives every player a list of probabilities, one per strategy.  Nothing forces the
numbers to be probabilities; `MixedProfile.isNormalized` tells whether they are.

Main definitions:

* `MixedProfile.ofWeights`, `MixedProfile.uniform` — profiles from weights that need not sum to one;
* `MixedProfile.support`, `MixedProfile.isNormalized`, `MixedProfile.maxDistance` — what a profile
  uses, whether it is one, and how far two are apart;
* `MixedProfile.render`, `MixedProfile.text` — the texts for a table and of the profile itself.
-/

namespace Equilibria

/-- One list of numbers per player. -/
structure MixedProfile (α : Type) where
  /-- The numbers, player by player. -/
  probs : List (List α)
  deriving Repr, DecidableEq

namespace MixedProfile

variable {α : Type} [Scalar α]

/-- The numbers of a player. -/
def player (x : MixedProfile α) (p : Nat) : List α := x.probs.getD p []

/-- The number of a player's strategy, zero for a strategy there is not. -/
def get (x : MixedProfile α) (p s : Nat) : α := (x.player p).getD s 0

/-- The number of players. -/
def numPlayers (x : MixedProfile α) : Nat := x.probs.length

/-- The numbers of all players in one list. -/
def flatten (x : MixedProfile α) : List α := x.probs.flatten

/-- How many numbers each player has. -/
def shape (x : MixedProfile α) : List Nat := x.probs.map List.length

/-! ### Profiles from weights -/

/-- One player's weights divided by their sum; all alike if the sum counts as zero. -/
def normalize (weights : List α) : List α :=
  let total := Scalar.sum weights
  if Scalar.isNegligible total then
    let n : α := Scalar.ofRational (Rational.ofInt (weights.length : Int))
    weights.map fun _ => 1 / n
  else weights.map fun w => w / total

/-- Weights keep their number when they are normalized. -/
theorem length_normalize (weights : List α) : (normalize weights).length = weights.length := by
  unfold normalize
  dsimp only
  split <;> simp

/-- Every player's weights divided by their sum. -/
def ofWeights (weights : List (List α)) : MixedProfile α := ⟨weights.map normalize⟩

/-- Every player chooses among the given number of strategies with equal probabilities. -/
def uniform (counts : List Nat) : MixedProfile α :=
  ofWeights (counts.map fun n => List.replicate n 0)

/-! ### What a profile is -/

/-- The strategies that a player uses with positive probability. -/
def support (x : MixedProfile α) (p : Nat) : List Nat :=
  ((x.player p).zipIdx.filter fun entry => Scalar.isStrictlyPositive entry.1).map Prod.snd

/-- Whether no number is negative and each player's sum is one, up to the domain's zero. -/
def isNormalized (x : MixedProfile α) : Bool :=
  x.probs.all fun row =>
    row.all (fun v => !Scalar.isStrictlyNegative v) && Scalar.approxEq (Scalar.sum row) 1

/-- The larger of a value and one that may undercut it. -/
def larger (best v : α) : α := if best < v then v else best

/-- The largest distance of two profiles in any coordinate. -/
def maxDistance (x y : MixedProfile α) : α :=
  (List.zipWith (fun a b => Scalar.abs (a - b)) x.flatten y.flatten).foldl larger 0

/-- The profile in doubles. -/
def toDouble (x : MixedProfile α) : MixedProfile Double :=
  ⟨x.probs.map fun row => row.map Scalar.toDouble⟩

/-! ### Texts -/

/-- The texts of all numbers for a table. -/
def render (places : Nat) (x : MixedProfile α) : List String := x.flatten.map (Scalar.render places)

/-- The text of a profile: the numbers of each player in parentheses. -/
def text (x : MixedProfile α) : String :=
  " ".intercalate (x.probs.map fun row => "(" ++ ", ".intercalate (row.map Scalar.text) ++ ")")

end MixedProfile

end Equilibria
