import Equilibria.Polytope.Tableau

/-!
# Vertex enumeration by pivoting

All vertices of a polytope are found by walking from basis to basis.  From every tableau every
column that is not basic enters through every row that the ratio test allows, ties included, so
that all bases of a degenerate vertex are reached.  A basis is visited once; the tableaux that wait
are taken last in, first out.

Main definitions:

* `Search` — the tableaux that wait, the bases seen, the points found;
* `Search.expand` — all steps from one tableau;
* `Search.explore` — the walk;
* `Polytope.vertices` — the vertices in the order in which they are found.

A basis is a set of columns, so a walk on `w` columns takes out at most `2 ^ w` tableaux.
-/

namespace Equilibria

/-- The state of the walk. -/
structure Search (α : Type) where
  /-- The tableaux whose steps are still to be made, the next one first. -/
  stack : List (Tableau α)
  /-- The bases of all tableaux that were ever put on the stack. -/
  visited : List (List Nat)
  /-- The distinct points found, the latest first. -/
  found : List (List α)

namespace Search

variable {α : Type} [Scalar α]

/-- Whether two points agree in every coordinate, up to the domain's zero. -/
def samePoint (a b : List α) : Bool := (a.zip b).all fun xy => Scalar.approxEq xy.1 xy.2

/-- Notes a point unless it is known. -/
def note (s : Search α) (point : List α) : Search α :=
  if s.found.any fun known => samePoint known point then s
  else { s with found := point :: s.found }

/-- Puts a tableau on the stack unless its basis has been seen. -/
def push (s : Search α) (t : Tableau α) : Search α :=
  let key := t.key
  if s.visited.contains key then s
  else { s with stack := t :: s.stack, visited := key :: s.visited }

/-- Makes the step from a tableau on a row and a column. -/
def step (t : Tableau α) (s : Search α) (rowColumn : Nat × Nat) : Except Failure (Search α) :=
  match t.pivot rowColumn.1 rowColumn.2 with
  | .ok next => .ok (s.push next)
  | .error e => .error e

/-- The rows and columns of all steps from a tableau with the given number of columns. -/
def moves (width : Nat) (t : Tableau α) : List (Nat × Nat) :=
  ((List.range width).filter fun c => !t.basis.contains c).flatMap fun c =>
    (t.leavingRows c).map fun r => (r, c)

/-- Makes all steps from a tableau. -/
def expand (width : Nat) (s : Search α) (t : Tableau α) : Except Failure (Search α) :=
  (moves width t).foldlM (step t) s

/-- Takes at most the given number of tableaux from the stack, noting the point of each and making
its steps. -/
def explore (width dimension : Nat) : Nat → Search α → Except Failure (Search α)
  | 0, s => .ok s
  | n + 1, s =>
    match s.stack with
    | [] => .ok s
    | t :: rest =>
      match expand width (note { s with stack := rest } (t.point dimension)) t with
      | .ok next => explore width dimension n next
      | .error e => .error e

/-- The walk before its first step. -/
def start (p : Polytope α) : Search α :=
  let t := Tableau.origin p
  ⟨[t], [t.key], []⟩

end Search

/-- The vertices of a polytope, and the number of its feasible bases. -/
def Polytope.vertices {α : Type} [Scalar α] : VertexEnumerator α := fun p =>
  let width := p.dimension + p.numConstraints
  match Search.explore width p.dimension (Nat.pow 2 width) (Search.start p) with
  | .ok s => .ok ⟨s.found.reverse, s.visited.length⟩
  | .error e => .error e

end Equilibria
