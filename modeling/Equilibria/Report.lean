import Equilibria.Profile

/-!
# Reported profiles

Profiles are reported one by one, each with a label; the ordinary equilibrium has the empty label
and is shown as `NE`.  What becomes of a row is up to a renderer.

Main definitions:

* `AnyProfile` — a profile in either domain;
* `Row`, `Row.ofProfile`, `Row.line` — a label and the texts of all probabilities, and its line;
* `Renderer` — what takes the rows, with the two usual ones, `Renderer.csv` and `Renderer.memory`.
-/

namespace Equilibria

/-- A profile in either domain of computation. -/
inductive AnyProfile where
  /-- In rationals. -/
  | exact (x : MixedProfile Rat)
  /-- In doubles. -/
  | floating (x : MixedProfile Double)

/-- The texts of all numbers of a profile. -/
def AnyProfile.render (places : Nat) : AnyProfile → List String
  | .exact x => x.render places
  | .floating x => x.render places

/-- A row of a report. -/
structure Row where
  /-- The label. -/
  label : String
  /-- The texts of all probabilities, player by player. -/
  cells : List String
  deriving Repr, DecidableEq

namespace Row

/-- The row of a profile under a label. -/
def ofProfile (places : Nat) (label : String) (x : AnyProfile) : Row :=
  ⟨if label.isEmpty then "NE" else label, x.render places⟩

/-- The row as a line of fields between commas. -/
def line (r : Row) : String := ",".intercalate (r.label :: r.cells) ++ "\n"

end Row

/-- What takes the rows of a report, and is told of every iteration. -/
structure Renderer (m : Type → Type) where
  /-- Takes a profile under a label. -/
  render : String → AnyProfile → m Unit
  /-- Is told the number of an iteration. -/
  progress : Nat → m Unit

namespace Renderer

/-- Writes every row as a line. -/
def csv {m : Type → Type} (places : Nat) (write : String → m Unit) (progress : Nat → m Unit) :
    Renderer m :=
  ⟨fun label x => write (Row.ofProfile places label x).line, progress⟩

/-- Keeps every row. -/
def memory {m : Type → Type} (places : Nat) (keep : Row → m Unit) (progress : Nat → m Unit) :
    Renderer m :=
  ⟨fun label x => keep (Row.ofProfile places label x), progress⟩

end Renderer

end Equilibria
