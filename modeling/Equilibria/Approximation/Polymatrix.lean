import Equilibria.Approximation.SeededStart
import Equilibria.Complementarity
import Equilibria.Payoffs

/-!
# Games linearized at a profile

At a profile `σ` the payoff of each player is replaced by a sum of terms for pairs of players,

  `M_pq[a][b] = u_p(a, b, σ) - (N - 2) / (N - 1) · u_p(a, σ)`,

which agrees with the payoff at `σ`.  The equilibria of such a polymatrix game are the solutions of a
linear complementarity problem in every player's strategy weights, followed by one payoff level per
player,

  `M = [ C  -Eᵀ ; E  0 ]`, `q = [ 0 ; -1 ]`,

where `C` holds the costs `K - M_pq` for a ceiling `K` above all entries and `E` sums each player's
weights.

Main definitions:

* `Polymatrix.block`, `Polymatrix.ceiling`, `Polymatrix.lcp` — the terms, the ceiling, the problem;
* `Polymatrix.bestResponse` — the first pure best response of each player;
* `Polymatrix.response` — the equilibrium of the linearized game; pure best responses for a single
  player, or when the problem is not solved.
-/

namespace Equilibria

namespace Polymatrix

variable {α : Type} [Scalar α]

/-- The players. -/
def players (t : Payoffs α) : List Nat := List.range t.numPlayers

/-- A small natural number in the domain. -/
def ofNat (n : Nat) : α := Scalar.ofRational (Rational.ofInt (n : Int))

/-- The weight `(N - 2) / (N - 1)` of a player's own values. -/
def scale (t : Payoffs α) : α := ofNat (t.numPlayers - 2) / ofNat (t.numPlayers - 1)

/-- The term of a pair of players. -/
def block (t : Payoffs α) (x : MixedProfile α) (p q : Nat) : List (List α) :=
  let factor := scale t
  List.zipWith (fun row own => row.map fun v => v - factor * own)
    (t.pairValues x p q) (t.strategyValues x p)

/-- The terms of a player with every other one, nothing in the player's own place. -/
def blocksOf (t : Payoffs α) (x : MixedProfile α) (p : Nat) : List (Option (List (List α))) :=
  (players t).map fun q => if q = p then none else some (block t x p q)

/-- The larger of what was found and a value that equals itself. -/
def largest? (found : Option α) (v : α) : Option α :=
  match found with
  | none => if v ≤ v then some v else none
  | some b => if b < v then some v else some b

/-- One more than the largest entry of all terms. -/
def ceiling (blocks : List (List (Option (List (List α))))) : α :=
  let entries := (blocks.flatten.map fun b => (b.getD []).flatten).flatten
  (entries.foldl largest? none).getD 0 + 1

/-- The part of the row of strategy `a` that belongs to another player. -/
def costs (top : α) (counts : List Nat) (a : Nat) (entry : Option (List (List α)) × Nat) : List α :=
  match entry.1 with
  | none => List.replicate (counts.getD entry.2 0) 0
  | some b => (b.getD a []).map fun v => top - v

/-- The row of a player's strategy. -/
def strategyRow (t : Payoffs α) (top : α) (blocks : List (Option (List (List α)))) (p a : Nat) :
    List α :=
  (blocks.zipIdx.map (costs top t.counts a)).flatten ++
    (players t).map fun q => if q = p then -1 else 0

/-- The row of a player's payoff level. -/
def levelRow (t : Payoffs α) (p : Nat) : List α :=
  ((players t).map fun q => List.replicate (t.count q) (if q = p then 1 else 0)).flatten ++
    (players t).map fun _ => 0

/-- The problem of the game linearized at a profile. -/
def lcp (t : Payoffs α) (x : MixedProfile α) : Lcp α :=
  let blocks := (players t).map (blocksOf t x)
  let top := ceiling blocks
  let strategyRows := (players t).map fun p =>
    (List.range (t.count p)).map fun a => strategyRow t top (blocks.getD p []) p a
  { matrix := strategyRows.flatten ++ (players t).map (levelRow t)
    offset := strategyRows.flatten.map (fun _ => 0) ++ (players t).map fun _ => -1 }

/-- The place of the first largest value. -/
def firstBest (values : List α) : Nat :=
  match values with
  | [] => 0
  | v :: vs =>
    (vs.zipIdx.foldl (fun (best : Nat × α) entry =>
      if best.2 < entry.1 then (entry.2 + 1, entry.1) else best) (0, v)).1

/-- The first pure best response of every player. -/
def bestResponse (t : Payoffs α) (x : MixedProfile α) : MixedProfile α :=
  ⟨(players t).map fun p =>
    let values := t.strategyValues x p
    Tableau.unitRow values.length (firstBest values)⟩

/-- The equilibrium of the game linearized at a profile. -/
@[specialize]
def response (rules : PivotRules α) (t : Payoffs α) (x : MixedProfile α) : MixedProfile α :=
  if t.numPlayers < 2 then bestResponse t x
  else
    match (lcp t x).solve rules with
    | .ok z => MixedProfile.ofWeights (Seed.portions t.counts z)
    | .error _ => bestResponse t x

end Polymatrix

end Equilibria
