import Equilibria.Approximation.Polymatrix
import Equilibria.Settings

/-!
# Iterated polymatrix approximation

From a starting profile on, the game is linearized at the current profile and the profile moves
towards the equilibrium of the linearized game, until a step is small or no iteration is left.  The
outcome is then the last profile, or the one of least regret that was met.

Main definitions:

* `Convergence`, `ApproximateEquilibrium` — how a run ended and with what;
* `Iteration.blend`, `Iteration.next` — one step;
* `Iteration.run` — the steps, each told to a caller that may stop the run;
* `ApproximateEquilibrium.findFrom`, `ApproximateEquilibrium.findWith` — the run in doubles under
  given settings, from a given start or from the one the settings name.
-/

namespace Equilibria

/-! ### Outcomes -/

/-- How a run ended. -/
inductive Convergence where
  /-- The last step was below the tolerance. -/
  | converged
  /-- No iteration was left. -/
  | iterationLimit
  deriving Repr, DecidableEq

namespace Convergence

/-- The word for an ending. -/
def name : Convergence → String
  | .converged => "Converged"
  | .iterationLimit => "IterationLimit"

/-- The ending of a word. -/
def ofName? (s : String) : Option Convergence :=
  if s = "Converged" then some .converged
  else if s = "IterationLimit" then some .iterationLimit
  else none

/-- An ending as a value. -/
def toJson (c : Convergence) : Json := .ofText c.name

/-- Reads an ending: its word, or an object with its word as the only key and nothing there. -/
def ofJson? : Json → Option Convergence
  | .string (some s) => ofName? (String.ofList s)
  | .object [(some k, .null)] => ofName? (String.ofList k)
  | _ => none

end Convergence

/-- The outcome of a run. -/
structure ApproximateEquilibrium (α : Type) where
  /-- The profile. -/
  profile : MixedProfile α
  /-- How the run ended. -/
  status : Convergence
  /-- The number of iterations made. -/
  iterations : Nat
  /-- The size of the last step. -/
  step : α
  /-- The largest gain from a deviation at the profile. -/
  regret : α

/-- Whether a run ended with a small step. -/
def ApproximateEquilibrium.isConverged {α : Type} (a : ApproximateEquilibrium α) : Bool :=
  a.status = .converged

/-! ### The iteration -/

namespace Iteration

variable {α : Type} [Scalar α]

/-- The numbers that govern a run. -/
structure Parameters (α : Type) where
  /-- The number of iterations allowed. -/
  cap : Nat
  /-- A smaller step ends the run. -/
  tolerance : α
  /-- The weight of the previous profile. -/
  damping : α
  /-- How the linearized games are solved. -/
  rules : PivotRules α

/-- The profile `w · x + (1 - w) · z`. -/
def blend (w : α) (x z : MixedProfile α) : MixedProfile α :=
  ⟨List.zipWith (List.zipWith fun a b => w * a + (1 - w) * b) x.probs z.probs⟩

/-- A profile with its regret. -/
structure Ranked (α : Type) where
  /-- The profile. -/
  profile : MixedProfile α
  /-- Its regret. -/
  regret : α

/-- A profile with its regret in a game. -/
def rank (t : Payoffs α) (x : MixedProfile α) : Ranked α := ⟨x, t.regret x⟩

/-- The one of less regret, the earlier of two that do not differ. -/
def Ranked.lesser (best x : Ranked α) : Ranked α := if x.regret < best.regret then x else best

/-- The size of the step from a profile and the profile after it. -/
@[specialize]
def next (p : Parameters α) (t : Payoffs α) (x : MixedProfile α) : α × MixedProfile α :=
  let z := Polymatrix.response p.rules t x
  (z.maxDistance x, blend p.damping x z)

/-- Makes at most `left` further iterations after `made` of them, telling the number and the profile
of each to a caller.  `best` is the profile of least regret so far, `step` the size of the last
step. -/
@[specialize]
def run {m : Type → Type} [Monad m] (p : Parameters α) (t : Payoffs α)
    (tell : Nat → MixedProfile α → m Unit) :
    Nat → Nat → MixedProfile α → Ranked α → α → m (ApproximateEquilibrium α)
  | 0, made, _, best, step =>
    pure ⟨best.profile, .iterationLimit, made, step, best.regret⟩
  | left + 1, made, x, best, _ => do
    let stepped := next p t x
    let here := rank t stepped.2
    tell (made + 1) stepped.2
    if stepped.1 < p.tolerance then
      pure ⟨stepped.2, .converged, made + 1, stepped.1, here.regret⟩
    else
      run p t tell left (made + 1) stepped.2 (best.lesser here) stepped.1

/-- A whole run from a starting profile. -/
@[inline]
def runFrom {m : Type → Type} [Monad m] (p : Parameters α) (t : Payoffs α)
    (start : MixedProfile α) (tell : Nat → MixedProfile α → m Unit) :
    m (ApproximateEquilibrium α) :=
  run p t tell p.cap 0 start (rank t start) 0

end Iteration

/-! ### Runs in doubles -/

namespace ApproximateEquilibrium

/-- The numbers that settings stand for. -/
def parameters (s : ApproximationSettings) : Iteration.Parameters Double :=
  ⟨s.iterationCap, .number s.tolerance, .number s.damping, PivotRules.standard⟩

/-- The profile from which a run starts: the uniform one unless a seed is set. -/
def start (s : ApproximationSettings) (g : Game) : MixedProfile Double :=
  match s.seed with
  | some seed => Seed.profile seed g.counts
  | none => MixedProfile.uniform g.counts

/-- Why a run from a profile cannot begin, if it cannot. -/
def obstacle (s : ApproximationSettings) (g : Game) (start : MixedProfile Double) :
    Except Failure Unit :=
  match s.validate with
  | .error e => .error (.setting e)
  | .ok _ =>
    match g.validate with
    | .error e => .error (.game e)
    | .ok _ =>
      if start.shape ≠ g.counts then .error (.game .startShape)
      else if !g.payoffs.all (fun row => row.all fun v => Binary64.isFinite (Binary64.ofRational v))
      then .error (.numeric .payoffSize)
      else .ok ()

/-- Approximates an equilibrium from a starting profile, telling every iterate to a caller. -/
@[specialize]
def findFrom {m : Type → Type} [Monad m] [MonadExceptOf Failure m] (s : ApproximationSettings)
    (g : Game) (start : MixedProfile Double) (tell : Nat → MixedProfile Double → m Unit) :
    m (ApproximateEquilibrium Double) :=
  match obstacle s g start with
  | .error e => throw e
  | .ok _ => Iteration.runFrom (parameters s) (Payoffs.ofGame g) start tell

/-- Approximates an equilibrium from the start that the settings name. -/
@[specialize]
def findWith {m : Type → Type} [Monad m] [MonadExceptOf Failure m] (s : ApproximationSettings)
    (g : Game) (tell : Nat → MixedProfile Double → m Unit) : m (ApproximateEquilibrium Double) :=
  findFrom s g (start s g) tell

end ApproximateEquilibrium

end Equilibria
