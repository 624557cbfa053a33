import Equilibria.Game.Basic
import Equilibria.Profile

/-!
# Expected payoffs

The payoff table of a game in a domain of computation, and what players expect of it against mixed
profiles.  Every expectation is one pass over the table: a row counts with the product of the
probabilities of its strategies, and rows of weight zero are left out.

Main definitions:

* `Payoffs.weight` — the probability of a pure profile, some players left out;
* `Payoffs.strategyValues` — what each strategy of a player gives against the others;
* `Payoffs.pairValues` — what each pair of strategies of two players gives the first of them;
* `Payoffs.expectedPayoff`, `Payoffs.regret`, `Payoffs.isNash` — the value of a profile, the largest
  gain from a deviation, and whether only best responses are used.
-/

namespace Equilibria

/-- A payoff table in a domain of computation. -/
structure Payoffs (α : Type) where
  /-- The number of strategies of every player. -/
  counts : List Nat
  /-- One row per pure profile, one entry per player. -/
  table : List (List α)

namespace Payoffs

variable {α : Type} [Scalar α]

/-- The table of a game. -/
def ofGame (g : Game) : Payoffs α := ⟨g.counts, g.payoffs.map fun row => row.map Scalar.ofRational⟩

/-- The number of players. -/
def numPlayers (t : Payoffs α) : Nat := t.counts.length

/-- The number of strategies of a player. -/
def count (t : Payoffs α) (player : Nat) : Nat := t.counts.getD player 0

/-- The rows of the table, each with its pure profile. -/
def rows (t : Payoffs α) : List (List α × List Nat) :=
  t.table.zip (successive t.counts t.table.length (zeroDigits t.counts))

/-- The product of the probabilities of a pure profile's strategies, without the skipped players. -/
def weight (x : MixedProfile α) (skip strategies : List Nat) : α :=
  strategies.zipIdx.foldl (fun w sq => if skip.contains sq.2 then w else w * x.get sq.2 sq.1) 1

/-- Adds to one entry of a list. -/
def addAt (values : List α) (i : Nat) (v : α) : List α := values.modify i fun old => old + v

/-- The expected payoff of each strategy of a player, the others following the profile. -/
def strategyValues (t : Payoffs α) (x : MixedProfile α) (player : Nat) : List α :=
  t.rows.foldl
    (fun values c =>
      let w := weight x [player] c.2
      if Scalar.isZero w then values
      else addAt values (c.2.getD player 0) (w * c.1.getD player 0))
    (List.replicate (t.count player) 0)

/-- The expected payoff of a player for each strategy of that player and each of another one, a row
per strategy of the player, everyone else following the profile. -/
def pairValues (t : Payoffs α) (x : MixedProfile α) (player other : Nat) : List (List α) :=
  t.rows.foldl
    (fun values c =>
      let w := weight x [player, other] c.2
      if Scalar.isZero w then values
      else
        values.modify (c.2.getD player 0) fun row =>
          addAt row (c.2.getD other 0) (w * c.1.getD player 0))
    (List.replicate (t.count player) (List.replicate (t.count other) 0))

/-- The value of a list of payoffs under a list of probabilities. -/
def average (values probs : List α) : α :=
  (List.zipWith (fun v p => v * p) values probs).foldl (fun total v => total + v) 0

/-- The expected payoff of a player. -/
def expectedPayoff (t : Payoffs α) (x : MixedProfile α) (player : Nat) : α :=
  average (t.strategyValues x player) (x.player player)

/-- The largest gain of a player from a pure deviation, if it exceeds what has been found. -/
def largestGain (t : Payoffs α) (x : MixedProfile α) (found : α) (player : Nat) : α :=
  let values := t.strategyValues x player
  let current := average values (x.player player)
  values.foldl (fun worst v => MixedProfile.larger worst (v - current)) found

/-- The largest gain of any player from a pure deviation, at least zero. -/
def regret (t : Payoffs α) (x : MixedProfile α) : α :=
  (List.range t.numPlayers).foldl (t.largestGain x) 0

/-- The largest of some values, zero for none. -/
def best (values : List α) : α :=
  match values with
  | [] => 0
  | v :: vs => vs.foldl MixedProfile.larger v

/-- Whether a player uses best responses only. -/
def isBestResponse (t : Payoffs α) (x : MixedProfile α) (player : Nat) : Bool :=
  let values := t.strategyValues x player
  let top := best values
  ((x.player player).zip values).all fun pv =>
    !Scalar.isStrictlyPositive pv.1 || Scalar.approxEq pv.2 top

/-- Whether every player uses best responses only. -/
def isNash (t : Payoffs α) (x : MixedProfile α) : Bool :=
  (List.range t.numPlayers).all (t.isBestResponse x)

end Payoffs

namespace MixedProfile

variable {α : Type} [Scalar α]

/-- Whether the profile is an equilibrium of a game. -/
def isNash (x : MixedProfile α) (g : Game) : Bool := (Payoffs.ofGame g).isNash x

/-- The largest gain of any player from a pure deviation in a game. -/
def regret (x : MixedProfile α) (g : Game) : α := (Payoffs.ofGame g).regret x

end MixedProfile

end Equilibria
