import Equilibria.Ascending

/-!
# Connected components of the equilibrium set

Extreme equilibria are the edges of a bipartite graph between the vertices of the two polytopes.
Equilibria that share a vertex lie in one convex set of equilibria, so the components of the graph
are the connected components of the equilibrium set; its maximal complete bipartite subgraphs are
the maximal convex pieces.

Main definitions:

* `DisjointSets` — classes of numbers, each with a root, under path halving;
* `Components.build` — the components, by their first member;
* `NashSubset`, `Components.maximalNashSubsets` — the maximal sets of vertices of which every pair
  is an equilibrium.

In `DisjointSets` a parent is never larger than its child, so that the root of a class is its least
member and the way to it gets shorter at every step.
-/

namespace Equilibria

/-! ### Disjoint sets -/

/-- Classes of the numbers below the length of the list, which holds the parent of each. -/
structure DisjointSets where
  /-- The parents; a root is its own. -/
  parents : List Nat
  deriving Repr, DecidableEq

namespace DisjointSets

/-- Every number below `n` in a class of its own. -/
def singletons (n : Nat) : DisjointSets := ⟨List.range n⟩

/-- The parent of a number. -/
def parent (s : DisjointSets) (x : Nat) : Nat := s.parents.getD x x

/-- The root of a number's class.  On the way every second number is given its grandparent as
parent. -/
def find (s : DisjointSets) (x : Nat) : Nat × DisjointSets :=
  let p := s.parent x
  let g := s.parent p
  if p < x ∧ g < x then find ⟨s.parents.set x g⟩ g else (x, s)
termination_by x
decreasing_by
  rename_i h
  exact h.2

/-- Joins the classes of two numbers.  The smaller root becomes the root of both. -/
def union (s : DisjointSets) (a b : Nat) : DisjointSets :=
  let ra := s.find a
  let rb := ra.2.find b
  if ra.1 < rb.1 then ⟨rb.2.parents.set rb.1 ra.1⟩
  else if rb.1 < ra.1 then ⟨rb.2.parents.set ra.1 rb.1⟩
  else rb.2

end DisjointSets

/-! ### Components -/

/-- Vertices that are the same for every pairing: each vertex of the first list makes an equilibrium
with each of the second. -/
structure NashSubset where
  /-- Vertices of the first player's polytope, ascending. -/
  first : List Nat
  /-- Vertices of the second player's polytope, ascending. -/
  second : List Nat
  /-- The numbers of the equilibria they make, ascending. -/
  equilibria : List Nat
  deriving Repr, DecidableEq

namespace Components

/-- What is known after some equilibria: the classes, and for each player's vertices the first
equilibrium at which they were seen. -/
structure Linking where
  /-- The classes of equilibria. -/
  sets : DisjointSets
  /-- The first equilibrium at each vertex of the first player. -/
  firstSeen : List (Nat × Nat)
  /-- The first equilibrium at each vertex of the second player. -/
  secondSeen : List (Nat × Nat)

/-- Links an equilibrium with the first one at a vertex, or notes that it is the first one. -/
def link (sets : DisjointSets) (seen : List (Nat × Nat)) (vertex index : Nat) :
    DisjointSets × List (Nat × Nat) :=
  match seen.lookup vertex with
  | some earlier => (sets.union earlier index, seen)
  | none => (sets, (vertex, index) :: seen)

/-- Takes one more equilibrium into account. -/
def Linking.add (l : Linking) (entry : (Nat × Nat) × Nat) : Linking :=
  let one := link l.sets l.firstSeen entry.1.1 entry.2
  let two := link one.1 l.secondSeen entry.1.2 entry.2
  ⟨two.1, one.2, two.2⟩

/-- The classes of equilibria that are linked by shared vertices. -/
def linked (pairs : List (Nat × Nat)) : DisjointSets :=
  (pairs.zipIdx.foldl Linking.add ⟨DisjointSets.singletons pairs.length, [], []⟩).sets

/-- Puts a number into the group of its root, a new one if there is none yet. -/
def addToGroup (root index : Nat) : List (Nat × List Nat) → List (Nat × List Nat)
  | [] => [(root, [index])]
  | (r, group) :: groups =>
    if r = root then (r, group ++ [index]) :: groups
    else (r, group) :: addToGroup root index groups

/-- Takes the number `index` to its group. -/
def place (state : DisjointSets × List (Nat × List Nat)) (index : Nat) :
    DisjointSets × List (Nat × List Nat) :=
  let root := state.1.find index
  (root.2, addToGroup root.1 index state.2)

/-- The components, each with its equilibria in ascending order, by their first equilibrium. -/
def build (pairs : List (Nat × Nat)) : List (List Nat) :=
  ((List.range pairs.length).foldl place (linked pairs, [])).2.map Prod.snd

/-! ### Maximal Nash subsets -/

/-- Adds a vertex of the second player to the neighbours of one of the first. -/
def addNeighbour (x y : Nat) : List (Nat × List Nat) → List (Nat × List Nat)
  | [] => [(x, [y])]
  | (v, ys) :: rest =>
    if v = x then (v, insertMember y ys) :: rest else (v, ys) :: addNeighbour x y rest

/-- Every vertex of the first player with its neighbours, by first appearance. -/
def neighbourhoods (pairs : List (Nat × Nat)) : List (Nat × List Nat) :=
  pairs.foldl (fun ns xy => addNeighbour xy.1 xy.2 ns) []

/-- Adds a set at the end unless it is there. -/
def addNew (sets : List (List Nat)) (set : List Nat) : List (List Nat) :=
  if sets.contains set then sets else sets ++ [set]

/-- Adds the non-empty intersections of a set with the sets before it. -/
def addMeets (set : List Nat) (before sets : List (List Nat)) : List (List Nat) :=
  before.foldl
    (fun sets other =>
      let common := meet set other
      if common.isEmpty then sets else addNew sets common)
    sets

/-- Goes through a growing list of sets from place `cursor` on, at most the given number of places,
adding the intersections of each set with those before it. -/
def closeFrom (cursor : Nat) : Nat → List (List Nat) → List (List Nat)
  | 0, sets => sets
  | n + 1, sets =>
    match sets[cursor]? with
    | none => sets
    | some set => closeFrom (cursor + 1) n (addMeets set (sets.take cursor) sets)

/-- All non-empty intersections of neighbourhoods.  They are sets of the second player's vertices,
which bounds their number. -/
def closedSets (pairs : List (Nat × Nat)) : List (List Nat) :=
  let distinct := ((neighbourhoods pairs).map Prod.snd).foldl addNew []
  closeFrom 0 (Nat.pow 2 (members (pairs.map Prod.snd)).length) distinct

/-- A set of the second player's vertices with all vertices of the first player that are neighbours
of each. -/
def subsetOf (pairs : List (Nat × Nat)) (second : List Nat) : NashSubset :=
  let first :=
    ascending (((neighbourhoods pairs).filter fun v => isWithin second v.2).map Prod.fst)
  let inside (entry : (Nat × Nat) × Nat) : Bool :=
    first.contains entry.1.1 && second.contains entry.1.2
  ⟨first, second, (pairs.zipIdx.filter inside).map Prod.snd⟩

/-- The maximal sets of vertices of which every pair is an equilibrium. -/
def maximalNashSubsets (pairs : List (Nat × Nat)) : List NashSubset :=
  (closedSets pairs).map (subsetOf pairs)

end Components

end Equilibria
