import Equilibria.Components
import Equilibria.Json.Record
import Equilibria.Payoffs
import Equilibria.Polytope.Search

/-!
# Extreme equilibria of two-player games

The vertices of both best-response polytopes are enumerated, and every two of them that are not the
origin and carry all labels between them, scaled to sum one, are an extreme equilibrium.  Together
these span the equilibrium set.

Main definitions:

* `ExtremeEquilibrium` — a profile and the vertices it comes from;
* `EnumStats` — what was counted on the way;
* `Solution` — the outcome: vertices with labels, equilibria and counts;
* `Solution.find` — the enumeration for a given vertex enumerator;
* `Solution.findWith` — the same, telling each equilibrium to a caller that may stop it;
* `Solution.cliques`, `Solution.maximalNashSubsets`, `Solution.document` — the outcome regrouped and
  written.
-/

namespace Equilibria

/-! ### Counts -/

/-- What was counted during an enumeration. -/
structure EnumStats where
  /-- The number of vertices of the two polytopes. -/
  vertices : Nat × Nat
  /-- The number of bases visited on both. -/
  basesVisited : Nat
  /-- The number of extreme equilibria. -/
  equilibria : Nat
  /-- The time taken, in seconds. -/
  elapsedSeconds : Float

namespace EnumStats

/-- Counts as a value, with the time as given. -/
def record (s : EnumStats) (elapsed : Json) : Json :=
  .record
    [("vertices", .array [.ofNat s.vertices.1, .ofNat s.vertices.2]),
      ("bases_visited", .ofNat s.basesVisited), ("equilibria", .ofNat s.equilibria),
      ("elapsed_seconds", elapsed)]

/-- Counts as a value. -/
def toJson (s : EnumStats) : Json := s.record (.ofDouble s.elapsedSeconds)

/-- Reads counts. -/
def ofJson? (j : Json) : Option EnumStats :=
  match Json.fieldsOf? false ["vertices", "bases_visited", "equilibria", "elapsed_seconds"] j with
  | some [vertices, bases, equilibria, elapsed] =>
    match Json.required (Json.toPair? Json.toNat?) vertices, Json.required Json.toNat? bases,
        Json.required Json.toNat? equilibria, Json.required Json.toDouble? elapsed with
    | some v, some b, some e, some t => some ⟨v, b, e, t⟩
    | _, _, _, _ => none
  | _ => none

end EnumStats

namespace NashSubset

/-- A subset as a value. -/
def toJson (s : NashSubset) : Json :=
  .record
    [("first", .ofList .ofNat s.first), ("second", .ofList .ofNat s.second),
      ("equilibria", .ofList .ofNat s.equilibria)]

/-- Reads a subset. -/
def ofJson? (j : Json) : Option NashSubset :=
  match Json.fieldsOf? false ["first", "second", "equilibria"] j with
  | some [first, second, equilibria] =>
    let nats := Json.required (Json.toList? Json.toNat?)
    match nats first, nats second, nats equilibria with
    | some f, some s, some e => some ⟨f, s, e⟩
    | _, _, _ => none
  | _ => none

end NashSubset

/-! ### Equilibria -/

/-- An extreme equilibrium. -/
structure ExtremeEquilibrium (α : Type) where
  /-- The probabilities. -/
  profile : MixedProfile α
  /-- The numbers of the vertices of the two polytopes. -/
  vertices : Nat × Nat

/-- The outcome of an enumeration. -/
structure Solution (α : Type) where
  /-- The vertices of the first player's polytope. -/
  first : List (Vertex α)
  /-- The vertices of the second player's polytope. -/
  second : List (Vertex α)
  /-- The extreme equilibria in the order in which they are found. -/
  equilibria : List (ExtremeEquilibrium α)
  /-- What was counted. -/
  stats : EnumStats

namespace Solution

variable {α : Type} [Scalar α]

/-- Whether two vertices make an equilibrium. -/
def matching (numLabels : Nat) (x y : Vertex α) : Bool :=
  !x.isOrigin && !y.isOrigin && x.isComplementary y numLabels

/-- The equilibria that a vertex of the first player makes with the second player's vertices. -/
def equilibriaAt (numLabels : Nat) (ys : List (Vertex α)) (x : Vertex α × Nat) :
    List (ExtremeEquilibrium α) :=
  (ys.zipIdx.filter fun y => matching numLabels x.1 y.1).map fun y =>
    ⟨MixedProfile.ofWeights [x.1.point, y.1.point], (x.2, y.2)⟩

/-- All equilibria, by the first player's vertex and then by the second's. -/
def pairUp (numLabels : Nat) (xs ys : List (Vertex α)) : List (ExtremeEquilibrium α) :=
  xs.zipIdx.flatMap (equilibriaAt numLabels ys)

/-- The outcome for two polytopes and their vertices. -/
def ofVertices (p q : Polytope α) (ps qs : VertexSet α) : Solution α :=
  let xs := ps.points.map p.vertex
  let ys := qs.points.map q.vertex
  let equilibria := pairUp p.numLabels xs ys
  { first := xs
    second := ys
    equilibria := equilibria
    stats :=
      { vertices := (ps.points.length, qs.points.length)
        basesVisited := ps.basesVisited + qs.basesVisited
        equilibria := equilibria.length
        elapsedSeconds := 0.0 } }

/-- The extreme equilibria of a game, with the vertices that the enumerator lists. -/
def find (enumerator : VertexEnumerator α) (g : Game) : Except Failure (Solution α) :=
  match g.validate with
  | .error e => .error (.game e)
  | .ok _ =>
    match Polytope.pair g with
    | .error e => .error e
    | .ok (p, q) =>
      match enumerator p with
      | .error e => .error e
      | .ok ps =>
        match enumerator q with
        | .error e => .error e
        | .ok qs => .ok (ofVertices p q ps qs)

/-- The extreme equilibria of a game, each told to a caller in turn.  The first failure of the
caller ends the enumeration. -/
def findWith {m : Type → Type} [Monad m] [MonadExceptOf Failure m] (enumerator : VertexEnumerator α)
    (g : Game) (tell : ExtremeEquilibrium α → m Unit) : m (Solution α) :=
  match find enumerator g with
  | .error e => throw e
  | .ok solution => do
    solution.equilibria.forM tell
    pure solution

/-! ### The outcome regrouped -/

/-- The profiles of the equilibria. -/
def profiles (s : Solution α) : List (MixedProfile α) :=
  s.equilibria.map ExtremeEquilibrium.profile

/-- The vertices of the equilibria. -/
def vertexPairs (s : Solution α) : List (Nat × Nat) := s.equilibria.map ExtremeEquilibrium.vertices

/-- The number of equilibria. -/
def size (s : Solution α) : Nat := s.equilibria.length

/-- Whether no equilibrium was found. -/
def isEmpty (s : Solution α) : Bool := s.equilibria.isEmpty

/-- The connected components, as numbers of equilibria. -/
def cliques (s : Solution α) : List (List Nat) := Components.build s.vertexPairs

/-- The connected components, as profiles. -/
def cliqueProfiles (s : Solution α) : List (List (MixedProfile α)) :=
  s.cliques.map fun clique => clique.map fun i => s.profiles.getD i ⟨[]⟩

/-- The maximal convex pieces of the equilibrium set. -/
def maximalNashSubsets (s : Solution α) : List NashSubset :=
  Components.maximalNashSubsets s.vertexPairs

/-- The outcome as an indented document.  An enumeration is not timed; its time is written as the
integer zero. -/
def document (places : Nat) (s : Solution α) : String :=
  String.ofList
    (Json.record
      [("equilibria",
          .ofList (.ofList .ofText) (s.profiles.map (MixedProfile.render places))),
        ("cliques", .ofList (.ofList .ofNat) s.cliques),
        ("stats", s.stats.record (.ofNat 0))]).pretty

end Solution

end Equilibria
