import Equilibria.Approximation.Iteration
import Equilibria.Delegate
import Equilibria.Dominance
import Equilibria.Enumeration
import Equilibria.Report

/-!
# Solving a game as the settings say

One way of solving is chosen by the settings.  If they say so, dominated strategies are removed
first; every profile is reported in the strategies of the whole game.

Main definitions:

* `Method`, `Method.ofSettings` — the ways of solving;
* `SolveReport` — what a solve tells besides the rows;
* `Solver.solve` — the solve, its rows going to a renderer.

Enumeration reports every extreme equilibrium as an ordinary one and then, if wanted, the members of
each component `k` as `convex-k`.  Approximation reports, if wanted, iteration `k` as `iterate-k`,
and then the outcome as an ordinary one or as `unconverged`.
-/

namespace Equilibria

/-- The ways of solving. -/
inductive Method where
  /-- Enumeration in rationals. -/
  | exact
  /-- Enumeration in doubles. -/
  | floating
  /-- Enumeration in rationals with the vertices of an external program. -/
  | delegated
  /-- Iterated approximation. -/
  | approximation
  deriving Repr, DecidableEq

namespace Method

/-- The way that settings choose. -/
def ofSettings (s : Settings) : Method :=
  if s.approximate then .approximation
  else if s.delegate then .delegated
  else if s.exactArithmetic then .exact
  else .floating

/-- The words for a way of solving. -/
def name : Method → String
  | .exact => "enumeration (rational)"
  | .floating => "enumeration (floating point)"
  | .delegated => "enumeration (lrs)"
  | .approximation => "polymatrix approximation"

end Method

/-- What a solve tells besides the rows. -/
inductive SolveReport where
  /-- The number of extreme equilibria, and of components if these were reported. -/
  | enumeration (equilibria : Nat) (cliques : Option Nat)
  /-- The outcome of the approximation, in the strategies of the whole game. -/
  | approximation (outcome : ApproximateEquilibrium Double)

namespace Solver

variable {m : Type → Type} [Monad m] [MonadExceptOf Failure m]

/-- What is left of a game before it is solved. -/
def reduce (s : Settings) (g : Game) : Except Failure Reduction :=
  match s.validate with
  | .error e => .error (.setting e)
  | .ok _ =>
    match g.validate with
    | .error e => .error (.game e)
    | .ok _ =>
      if s.eliminateDominated then
        match g.eliminateDominated with
        | .ok r => .ok r
        | .error e => .error (.game e)
      else .ok (Reduction.identity g)

/-- Reports the members of every component. -/
@[specialize]
def reportCliques {α : Type} [Scalar α] (wrap : MixedProfile α → AnyProfile) (r : Reduction)
    (renderer : Renderer m) (solution : Solution α) : m Unit :=
  solution.cliques.zipIdx.forM fun entry =>
    entry.1.forM fun i =>
      renderer.render ("convex-" ++ toString (entry.2 + 1))
        (wrap (r.expand (solution.profiles.getD i ⟨[]⟩)))

/-- Enumerates the equilibria of what is left of a game. -/
@[specialize]
def enumerate {α : Type} [Scalar α] (wrap : MixedProfile α → AnyProfile)
    (enumerator : VertexEnumerator α) (s : Settings) (r : Reduction) (renderer : Renderer m) :
    m SolveReport := do
  let solution ← Solution.findWith enumerator r.game fun e =>
    renderer.render "" (wrap (r.expand e.profile))
  if s.reportCliques then
    reportCliques wrap r renderer solution
    pure (.enumeration solution.size (some solution.cliques.length))
  else pure (.enumeration solution.size none)

/-- Tells a renderer of an iterate, and reports it if wanted. -/
@[specialize]
def tellIterate (s : Settings) (r : Reduction) (renderer : Renderer m) (k : Nat)
    (x : MixedProfile Double) : m Unit := do
  renderer.progress k
  if s.verbose then renderer.render ("iterate-" ++ toString k) (.floating (r.expand x))

/-- Approximates an equilibrium of what is left of a game. -/
@[specialize]
def approximate (s : Settings) (r : Reduction) (renderer : Renderer m) : m SolveReport := do
  let outcome ←
    ApproximateEquilibrium.findWith s.forApproximation r.game (tellIterate s r renderer)
  let expanded := { outcome with profile := r.expand outcome.profile }
  renderer.render (if expanded.isConverged then "" else "unconverged") (.floating expanded.profile)
  pure (.approximation expanded)

/-- Solves a game as the settings say. -/
@[specialize]
def solve (ask : String → ProgramOutcome) (s : Settings) (g : Game) (renderer : Renderer m) :
    m SolveReport :=
  match reduce s g with
  | .error e => throw e
  | .ok r =>
    match Method.ofSettings s with
    | .exact => enumerate .exact Polytope.vertices s r renderer
    | .floating => enumerate .floating Polytope.vertices s r renderer
    | .delegated => enumerate .exact (Delegate.vertices ⟨s.program, ask⟩) s r renderer
    | .approximation => approximate s r renderer

end Solver

end Equilibria
