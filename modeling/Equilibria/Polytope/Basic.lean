import Equilibria.Ascending
import Equilibria.Game.Basic

/-!
# Best-response polytopes

A game of two players in which every payoff is at least one has two polytopes: the first player's
`{ x ≥ 0 : Bᵀ x ≤ 1 }` and the second player's `{ y ≥ 0 : A y ≤ 1 }`.  Both players' strategies
are labels, the first player's before the second's.  A point carries the labels of its own
strategies that it does not use and of the opponent's strategies whose inequality is tight, that is
of the best responses to it; two points with all labels between them are an equilibrium once each
is scaled to sum one.

Main definitions:

* `shifted` — a payoff matrix raised so that its least entry is one;
* `Polytope`, `Polytope.pair` — the two polytopes of a game;
* `Polytope.labels`, `Polytope.vertex` — a point with its labels;
* `Vertex.isOrigin`, `Vertex.isComplementary` — the vertex that stands for no strategy, and pairs
  with all labels;
* `VertexEnumerator` — anything that lists the vertices of a polytope.
-/

namespace Equilibria

/-- One player's polytope. -/
structure Polytope (α : Type) where
  /-- The player, counted from zero. -/
  player : Nat
  /-- The label of the player's first strategy. -/
  ownOffset : Nat
  /-- The label of the opponent's first strategy. -/
  opponentOffset : Nat
  /-- The number of labels. -/
  numLabels : Nat
  /-- For every strategy of the opponent the coefficients of the player's strategies in its
  inequality. -/
  constraints : List (List α)

/-- A vertex with its labels. -/
structure Vertex (α : Type) where
  /-- The coordinates, not scaled. -/
  point : List α
  /-- The labels, ascending. -/
  labels : List Nat

/-- The vertices found on a polytope. -/
structure VertexSet (α : Type) where
  /-- The vertices in the order in which they were found. -/
  points : List (List α)
  /-- The number of bases that were visited, zero if that is not known. -/
  basesVisited : Nat

/-- A way to list the vertices of a polytope, the origin included, none twice. -/
abbrev VertexEnumerator (α : Type) := Polytope α → Except Failure (VertexSet α)

/-! ### From games to polytopes -/

/-- The least entry of a matrix, zero if it has none. -/
def leastEntry (m : List (List Rat)) : Rat :=
  match m.flatten with
  | [] => 0
  | v :: vs => vs.foldl (fun least v => if least ≤ v then least else v) v

/-- The matrix raised so that its least entry is one, in a domain of computation. -/
def shifted {α : Type} [Scalar α] (m : List (List Rat)) : List (List α) :=
  let shift := 1 - leastEntry m
  m.map fun row => row.map fun v => Scalar.ofRational (v + shift)

namespace Polytope

variable {α : Type} [Scalar α]

/-- The number of the player's strategies. -/
def dimension (p : Polytope α) : Nat := (p.constraints.getD 0 []).length

/-- The number of the opponent's strategies. -/
def numConstraints (p : Polytope α) : Nat := p.constraints.length

/-- Whether all coefficients are numbers of finite size. -/
def isFinite (p : Polytope α) : Bool := p.constraints.all fun row => row.all Scalar.isFinite

/-- The transposed matrix of the given size. -/
def transposed (rows columns : Nat) (m : List (List α)) : List (List α) :=
  (List.range columns).map fun c => (List.range rows).map fun r => (m.getD r []).getD c 0

/-- The first player's polytope. -/
def first (g : Game) : Polytope α :=
  let m := g.numStrategies 0
  let n := g.numStrategies 1
  ⟨0, 0, m, m + n, transposed m n (shifted (g.matrix 1))⟩

/-- The second player's polytope. -/
def second (g : Game) : Polytope α :=
  let m := g.numStrategies 0
  let n := g.numStrategies 1
  ⟨1, m, 0, m + n, shifted (g.matrix 0)⟩

/-- Both polytopes of a game, if it has two players and its shifted payoffs stay finite. -/
def pair (g : Game) : Except Failure (Polytope α × Polytope α) :=
  if g.numPlayers ≠ 2 then .error (.game (.notTwoPlayers g.numPlayers))
  else
    let p : Polytope α := first g
    let q : Polytope α := second g
    if !p.isFinite then .error (.numeric (.payoffOverflow 1))
    else if !q.isFinite then .error (.numeric (.payoffOverflow 2))
    else .ok (p, q)

/-! ### Labels -/

/-- The places of a list that satisfy a condition. -/
def placesWhere {β : Type} (p : β → Bool) (bs : List β) : List Nat :=
  (bs.zipIdx.filter fun entry => p entry.1).map Prod.snd

/-- What an inequality leaves: one less the products of coefficients and coordinates. -/
def slack (row point : List α) : α :=
  (List.zipWith (fun c x => c * x) row point).foldl (fun rest v => rest - v) 1

/-- The labels of a point: own strategies not used, and the opponent's best responses. -/
def labels (p : Polytope α) (point : List α) : List Nat :=
  ascending
    ((placesWhere Scalar.isNegligible point).map (p.ownOffset + ·) ++
      (placesWhere (fun row => Scalar.isNegligible (slack row point)) p.constraints).map
        (p.opponentOffset + ·))

/-- A point with its labels. -/
def vertex (p : Polytope α) (point : List α) : Vertex α := ⟨point, p.labels point⟩

end Polytope

namespace Vertex

variable {α : Type} [Scalar α]

/-- Whether the vertex is the origin, which takes part in no equilibrium. -/
def isOrigin (v : Vertex α) : Bool := Scalar.allNegligible v.point

/-- Whether two vertices carry all labels between them. -/
def isComplementary (v w : Vertex α) (numLabels : Nat) : Bool :=
  (List.range numLabels).all fun l => v.labels.contains l || w.labels.contains l

end Vertex

end Equilibria
