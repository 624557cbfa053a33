import Equilibria.Failure
import Equilibria.Json.Record

/-!
# Settings of a solve

Which way of solving is taken, with what arithmetic, and what is reported.

Main definitions:

* `ApproximationSettings` — cap, tolerance, damping and seed of the iterated approximation;
* `Settings` — all settings, with the usual presets;
* `ApproximationSettings.validate`, `Settings.validate` — the first setting that is unusable;
* `Settings.ofDocument` — settings from a document, in which each may be missing.
-/

namespace Equilibria

/-- Settings of the iterated approximation. -/
structure ApproximationSettings where
  /-- The number of iterations allowed. -/
  iterationCap : Nat
  /-- A step that moves no probability by as much as this ends the iteration. -/
  tolerance : Float
  /-- The weight of the previous profile in the next one. -/
  damping : Float
  /-- The seed of a random starting profile; none starts from the uniform one. -/
  seed : Option Nat

/-- Settings of a solve. -/
structure Settings where
  /-- Whether enumeration computes in rationals. -/
  exactArithmetic : Bool
  /-- The number of places of printed doubles. -/
  decimals : Nat
  /-- Whether dominated strategies are removed first. -/
  eliminateDominated : Bool
  /-- Whether vertices are enumerated by an external program. -/
  delegate : Bool
  /-- Whether the equilibria are reported again by component. -/
  reportCliques : Bool
  /-- Whether every profile of the approximation is reported. -/
  verbose : Bool
  /-- The number of iterations allowed. -/
  iterationCap : Nat
  /-- Whether an equilibrium is approximated instead of all enumerated. -/
  approximate : Bool
  /-- The step size at which the approximation has converged. -/
  tolerance : Float
  /-- The weight of the previous profile at each step of the approximation. -/
  damping : Float
  /-- The seed of a random starting profile. -/
  seed : Option Nat
  /-- The external program. -/
  program : String

/-! ### Presets -/

namespace Settings

/-- Exact enumeration after elimination. -/
def standard : Settings :=
  { exactArithmetic := true
    decimals := 6
    eliminateDominated := true
    delegate := false
    reportCliques := false
    verbose := false
    iterationCap := 1000
    approximate := false
    tolerance := 1e-6
    damping := 0.2
    seed := none
    program := "lrs" }

/-- Enumeration in doubles, printed with the given number of places. -/
def floating (decimals : Nat) : Settings :=
  { standard with exactArithmetic := false, decimals := decimals }

/-- Enumeration by the external program. -/
def delegated : Settings := { standard with delegate := true }

/-- Approximation, without elimination. -/
def approximation : Settings :=
  { standard with approximate := true, exactArithmetic := false, eliminateDominated := false }

/-- The settings of the approximation among all settings. -/
def forApproximation (s : Settings) : ApproximationSettings :=
  ⟨s.iterationCap, s.tolerance, s.damping, s.seed⟩

end Settings

/-- The settings of the approximation in the standard settings. -/
def ApproximationSettings.standard : ApproximationSettings := Settings.standard.forApproximation

/-! ### Validation -/

/-- Whether a tolerance is a positive number of finite size. -/
def isTolerance (x : Float) : Bool := decide (0.0 < x) && Binary64.isFinite x

/-- Whether a weight is at least zero and below one. -/
def isDamping (x : Float) : Bool := decide (0.0 ≤ x) && decide (x < 1.0)

/-- The first unusable setting of the approximation. -/
def ApproximationSettings.validate (s : ApproximationSettings) : Except SettingFault Unit :=
  if s.iterationCap = 0 then .error .noIterations
  else if !isTolerance s.tolerance then .error (.tolerance s.tolerance)
  else if !isDamping s.damping then .error (.damping s.damping)
  else .ok ()

/-- The first unusable setting. -/
def Settings.validate (s : Settings) : Except SettingFault Unit :=
  if 17 < s.decimals then .error (.decimals s.decimals)
  else if s.approximate && s.delegate then .error .twoMethods
  else s.forApproximation.validate

/-! ### Documents -/

namespace ApproximationSettings

/-- Settings as a value. -/
def toJson (s : ApproximationSettings) : Json :=
  .record
    [("iteration_cap", .ofNat s.iterationCap), ("tolerance", .ofDouble s.tolerance),
      ("damping", .ofDouble s.damping), ("seed", .ofOption .ofNat s.seed)]

/-- Reads settings of the approximation; only the seed may be missing. -/
def ofJson? (j : Json) : Option ApproximationSettings :=
  match Json.fieldsOf? false ["iteration_cap", "tolerance", "damping", "seed"] j with
  | some [cap, tolerance, damping, seed] =>
    match Json.required Json.toNat? cap, Json.required Json.toDouble? tolerance,
        Json.required Json.toDouble? damping, Json.optional Json.toNat? seed with
    | some cap, some tolerance, some damping, some seed => some ⟨cap, tolerance, damping, seed⟩
    | _, _, _, _ => none
  | _ => none

end ApproximationSettings

namespace Settings

/-- The names of all settings in documents, in order. -/
def names : List String :=
  ["exact_arithmetic", "num_decimals", "eliminate_dominated", "use_delegated_enumerator",
    "report_cliques", "verbose", "iteration_cap", "approximate", "tolerance", "damping", "seed",
    "lrs_program"]

/-- Settings as a value. -/
def toJson (s : Settings) : Json :=
  .record
    [("exact_arithmetic", .bool s.exactArithmetic), ("num_decimals", .ofNat s.decimals),
      ("eliminate_dominated", .bool s.eliminateDominated),
      ("use_delegated_enumerator", .bool s.delegate), ("report_cliques", .bool s.reportCliques),
      ("verbose", .bool s.verbose), ("iteration_cap", .ofNat s.iterationCap),
      ("approximate", .bool s.approximate), ("tolerance", .ofDouble s.tolerance),
      ("damping", .ofDouble s.damping), ("seed", .ofOption .ofNat s.seed),
      ("lrs_program", .ofText s.program)]

/-- Reads settings; each that is missing keeps its standard value. -/
def ofJson? (j : Json) : Option Settings := do
  let values ← Json.fieldsOf? true names j
  let field (k : Nat) : Option Json := values.getD k none
  let bool (default : Bool) (k : Nat) : Option Bool := Json.orDefault default Json.toBool? (field k)
  let nat (default : Nat) (k : Nat) : Option Nat := Json.orDefault default Json.toNat? (field k)
  let double (default : Float) (k : Nat) : Option Float :=
    Json.orDefault default Json.toDouble? (field k)
  some
    { exactArithmetic := ← bool standard.exactArithmetic 0
      decimals := ← nat standard.decimals 1
      eliminateDominated := ← bool standard.eliminateDominated 2
      delegate := ← bool standard.delegate 3
      reportCliques := ← bool standard.reportCliques 4
      verbose := ← bool standard.verbose 5
      iterationCap := ← nat standard.iterationCap 6
      approximate := ← bool standard.approximate 7
      tolerance := ← double standard.tolerance 8
      damping := ← double standard.damping 9
      seed := ← Json.optional Json.toNat? (field 10)
      program := ← Json.orDefault standard.program Json.toText? (field 11) }

/-- The settings of a document, if they are usable. -/
def ofDocument (text : String) : Except SettingFault Settings :=
  match (Json.parse? text).bind ofJson? with
  | none => .error .malformed
  | some s =>
    match s.validate with
    | .ok _ => .ok s
    | .error e => .error e

end Settings

end Equilibria
