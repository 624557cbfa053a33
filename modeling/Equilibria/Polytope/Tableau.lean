import Equilibria.Polytope.Basic

/-!
# Tableaux of a polytope

The system `C x + s = 1` of a polytope, solved for a set of basic columns.  The columns are first
those of `x`, then those of the slacks `s`.  Every row has one basic column, and its right side is
the value of that column at the basic solution.

Main definitions:

* `Tableau.origin` — the tableau in which the slacks are basic;
* `Tableau.key` — the basic columns, which tell two tableaux apart;
* `Tableau.point` — the basic solution's values of `x`;
* `Tableau.leavingRows` — the rows that attain the least ratio for an entering column, up to ties;
* `Tableau.pivotRows`, `Tableau.pivot` — the tableau with a column made basic in a row, the second
  only if its numbers are finite;
* `Tableau.same` — whether two tableaux are the same, row by row.
-/

namespace Equilibria

/-- A row of a tableau. -/
structure TableauRow (α : Type) where
  /-- The coefficients of all columns. -/
  coefficients : List α
  /-- The right side. -/
  rhs : α
  /-- The basic column. -/
  basic : Nat

/-- A solved system, row by row. -/
abbrev Tableau (α : Type) := List (TableauRow α)

namespace Tableau

variable {α : Type} [Scalar α]

/-- The row of the unit vector with a one at place `i`. -/
def unitRow (size i : Nat) : List α := (List.range size).map fun k => if k = i then 1 else 0

/-- The tableau of the origin. -/
def origin (p : Polytope α) : Tableau α :=
  p.constraints.mapIdx fun r row =>
    ⟨row ++ unitRow p.numConstraints r, 1, p.dimension + r⟩

/-- The basic columns, row by row. -/
def basis (t : Tableau α) : List Nat := t.map TableauRow.basic

/-- The basic columns in ascending order. -/
def key (t : Tableau α) : List Nat := ascending t.basis

/-- The values of the first `dimension` columns at the basic solution. -/
def point (dimension : Nat) (t : Tableau α) : List α :=
  t.foldl (fun x row => if row.basic < dimension then x.set row.basic row.rhs else x)
    (List.replicate dimension 0)

/-- The least ratio so far and the rows that attain it. -/
structure LeastRatio (α : Type) where
  /-- The ratio, none before the first row. -/
  ratio : Option α
  /-- The rows. -/
  rows : List Nat

/-- Takes one more ratio into account.  One that equals the least up to the domain's zero joins it,
a larger one is passed over, any other takes its place. -/
def LeastRatio.add (least : LeastRatio α) (ratio : α) (row : Nat) : LeastRatio α :=
  match least.ratio with
  | none => ⟨some ratio, [row]⟩
  | some b =>
    if Scalar.approxEq ratio b then ⟨some b, least.rows ++ [row]⟩
    else if b < ratio then least
    else ⟨some ratio, [row]⟩

/-- The rows from which a column may push out the basic one: among those with a positive
coefficient the ones with the least ratio. -/
def leavingRows (t : Tableau α) (column : Nat) : List Nat :=
  (t.zipIdx.foldl
    (fun least entry =>
      let c := entry.1.coefficients.getD column 0
      if Scalar.isStrictlyPositive c then least.add (entry.1.rhs / c) entry.2 else least)
    (⟨none, []⟩ : LeastRatio α)).rows

/-- The row divided by its coefficient of a column, which becomes basic. -/
@[specialize]
def scaleRow (row : TableauRow α) (column : Nat) : TableauRow α :=
  let p := row.coefficients.getD column 0
  ⟨row.coefficients.map fun e => e / p, row.rhs / p, column⟩

/-- The second list less a multiple of the first one, as long as the shorter of the two. -/
@[specialize]
def lessMultiple (factor : α) : List α → List α → List α
  | p :: ps, e :: es => (e - factor * p) :: lessMultiple factor ps es
  | _, _ => []

/-- The row less the multiple of a pivot row that clears a column. -/
@[specialize]
def clearRow (pivotRow row : TableauRow α) (column : Nat) : TableauRow α :=
  let factor := row.coefficients.getD column 0
  if Scalar.isZero factor then row
  else
    ⟨lessMultiple factor pivotRow.coefficients row.coefficients,
      row.rhs - factor * pivotRow.rhs, row.basic⟩

/-- Whether all numbers of a tableau are finite. -/
def isFinite (t : Tableau α) : Bool :=
  t.all fun row => Scalar.isFinite row.rhs && row.coefficients.all Scalar.isFinite

/-- The rows after a pivot step. -/
@[specialize]
def pivotRows (t : Tableau α) (row column : Nat) : Tableau α :=
  match t[row]? with
  | none => t
  | some old =>
    let scaled := scaleRow old column
    t.mapIdx fun i other => if i = row then scaled else clearRow scaled other column

/-- Clearing a column leaves the basic one. -/
theorem basic_clearRow (pivotRow row : TableauRow α) (column : Nat) :
    (clearRow pivotRow row column).basic = row.basic := by
  unfold clearRow
  dsimp only
  split
  · rfl
  · rfl

/-- A pivot step puts the column into the basis in the place of the row. -/
theorem basis_pivotRows (t : Tableau α) (row column : Nat) :
    (t.pivotRows row column).basis = t.basis.set row column := by
  unfold pivotRows
  split
  · next hrow =>
    have hle : t.basis.length ≤ row := by simpa [basis] using hrow
    rw [List.set_eq_of_length_le hle]
  · apply List.ext_getElem
    · simp [basis]
    · intro i hi hi'
      simp only [basis, List.getElem_map, List.getElem_mapIdx, List.getElem_set, eq_comm (a := row)]
      split
      · rfl
      · exact basic_clearRow _ _ _

/-- Whether two rows are the same. -/
@[specialize]
def sameRow (row other : TableauRow α) : Bool :=
  row.basic == other.basic && Scalar.same row.rhs other.rhs &&
    row.coefficients.isEqv other.coefficients Scalar.same

/-- Whether two tableaux are the same. -/
@[specialize]
def same (t u : Tableau α) : Bool := t.isEqv u sameRow

/-- Makes a column basic in a row, unless that leaves the finite numbers. -/
def pivot (t : Tableau α) (row column : Nat) : Except Failure (Tableau α) :=
  let next := t.pivotRows row column
  if isFinite next then .ok next else .error (.numeric (.pivot row column))

end Tableau

end Equilibria
