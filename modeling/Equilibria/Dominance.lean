import Equilibria.Game.Basic
import Equilibria.Profile

/-!
# Iterated elimination of strictly dominated strategies

A strategy is removed when another pure strategy of the same player is strictly better against
every pure profile of the others.  The players are gone through in rounds, each facing the game
that is left, until a round removes nothing.  Payoffs are compared exactly.

Main definitions:

* `Game.dominates`, `Game.undominated` — strict dominance by a pure strategy;
* `Reduction` — a game in which some strategies are left, with their places in the whole game;
* `Reduction.expand` — a profile of what is left as a profile of the whole game;
* `Game.eliminateDominated` — the reduction that is left in the end.
-/

namespace Equilibria

namespace Game

/-! ### Dominance -/

/-- Whether one strategy of a player is better than another against each of the next `n` profiles
of the others. -/
def beatsFrom (g : Game) (player better worse : Nat) (radix : List Nat) : Nat → List Nat → Bool
  | 0, _ => true
  | n + 1, strategies =>
    if g.payoff player (strategies.set player better) ≤ g.payoff player (strategies.set player worse)
    then false
    else beatsFrom g player better worse radix n (advance strategies radix)

/-- Whether one strategy of a player strictly dominates another. -/
def dominates (g : Game) (player better worse : Nat) : Bool :=
  let radix := g.counts.set player 1
  beatsFrom g player better worse radix (tableSize radix) (zeroDigits radix)

/-- The strategies of a player that no other strategy of the player strictly dominates. -/
def undominated (g : Game) (player : Nat) : List Nat :=
  let all := List.range (g.numStrategies player)
  all.filter fun s => !all.any fun t => t ≠ s && g.dominates player t s

/-- What is undominated is no more than there was. -/
theorem length_undominated_le (g : Game) (player : Nat) :
    (g.undominated player).length ≤ g.numStrategies player := by
  have h := List.length_filter_le
    (fun s => !(List.range (g.numStrategies player)).any fun t => t ≠ s && g.dominates player t s)
    (List.range (g.numStrategies player))
  rw [List.length_range] at h
  exact h

/-- All strategies of all players, but for one player only those listed. -/
def keepOnly (g : Game) (player : Nat) (survivors : List Nat) : List (List Nat) :=
  (List.range g.numPlayers).map fun q =>
    if q = player then survivors else List.range (g.numStrategies q)

end Game

/-! ### Reductions -/

/-- A game that is left of a whole one. -/
structure Reduction where
  /-- The game that is left. -/
  game : Game
  /-- For every player the strategies of the whole game that are left. -/
  kept : List (List Nat)
  /-- The number of strategies of every player in the whole game. -/
  wholeCounts : List Nat

namespace Reduction

/-- The reduction that removes nothing. -/
def identity (g : Game) : Reduction := ⟨g, g.counts.map List.range, g.counts⟩

/-- The number of strategies that are left. -/
def remaining (r : Reduction) : Nat := r.kept.flatten.length

/-- The number of strategies that are gone. -/
def removed (r : Reduction) : Nat :=
  r.wholeCounts.foldl (fun total n => total + n) 0 - r.remaining

/-- Whether nothing is gone. -/
def isTrivial (r : Reduction) : Bool :=
  (r.kept.zip r.wholeCounts).all fun kn => kn.1.length == kn.2

/-- One player's numbers in the whole game: those of the strategies that are left in their places,
and zero for the others. -/
def expandRow {α : Type} [Scalar α] (kept : List Nat) (count : Nat) (row : List α) : List α :=
  kept.zipIdx.foldl (fun full place => full.set place.1 (row.getD place.2 0))
    (List.replicate count 0)

/-- The profile of the whole game that gives strategies which are gone probability zero. -/
def expand {α : Type} [Scalar α] (r : Reduction) (x : MixedProfile α) : MixedProfile α :=
  ⟨(r.kept.zip r.wholeCounts).zipIdx.map fun entry =>
    expandRow entry.1.1 entry.1.2 (x.player entry.2)⟩

/-- Removes a player's dominated strategies from what is left. -/
def cut (r : Reduction) (player : Nat) : Reduction :=
  let survivors := r.game.undominated player
  if survivors.length = r.game.numStrategies player then r
  else
    { game := r.game.restrict (r.game.keepOnly player survivors)
      kept := r.kept.modify player fun kept => survivors.map fun s => kept.getD s 0
      wholeCounts := r.wholeCounts }

/-- Removes the dominated strategies of one player after the other. -/
def round (r : Reduction) : Reduction := (List.range r.game.numPlayers).foldl cut r

/-- Goes through rounds until one removes nothing. -/
def exhaust (r : Reduction) : Reduction :=
  let next := r.round
  if next.remaining < r.remaining then exhaust next else next
termination_by r.remaining

end Reduction

/-- What is left of a game when no strategy is strictly dominated any more. -/
def Game.eliminateDominated (g : Game) : Except GameFault Reduction :=
  match g.validate with
  | .ok _ => .ok (Reduction.identity g).exhaust
  | .error e => .error e

end Equilibria
