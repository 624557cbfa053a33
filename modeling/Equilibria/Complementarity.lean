import Equilibria.Polytope.Tableau

/-!
# Linear complementarity problems

Given a square matrix `M` and a vector `q`, wanted are `z ≥ 0` with `w = q + M z ≥ 0` and
`w · z = 0`.  An artificial variable with coefficient one in every row makes the origin feasible;
each further step brings in the complement of the variable that has just left, until the artificial
one leaves.  The leaving row is the lexicographic minimum of right side and inverse basis, so that
ties do not make an exact walk return.  A rounded one may return; then it never ends.

Main definitions:

* `Lcp`, `Lcp.build` — a problem, its shape checked;
* `Lcp.slack` — the vector `w` of a given `z`;
* `Lcp.Stage`, `Lcp.step` — what the walk knows between two steps, and a step;
* `Lcp.walk` — at most a number of steps, fewer if the walk is seen to return;
* `Lcp.solve` — complementary pivoting under the given `PivotRules`.

Columns are `w` first, `z` next and the artificial variable last.  The inverse of the basis stands
in the columns of `w`, since these began as the identity.
-/

namespace Equilibria

/-- Why a problem has no solution or was not solved. -/
inductive LcpFault where
  /-- The matrix is not square of the size of the vector. -/
  | shape (size : Nat)
  /-- No row bounds the entering column. -/
  | ray
  /-- The walk does not end within the steps allowed. -/
  | pivotLimit
  deriving Repr, DecidableEq

/-- The words for a fault. -/
def LcpFault.message : LcpFault → String
  | .shape size => "LCP matrix must be " ++ toString size ++ "x" ++ toString size
  | .ray => "Lemke's algorithm ended on a ray"
  | .pivotLimit => "Lemke's algorithm exceeded its pivot limit"

/-- A linear complementarity problem. -/
structure Lcp (α : Type) where
  /-- The rows of the matrix. -/
  matrix : List (List α)
  /-- The constant vector. -/
  offset : List α

/-- How pivots are chosen and counted. -/
structure PivotRules (α : Type) where
  /-- Entries up to this size are no pivots, and keys that differ by no more are equal. -/
  tolerance : α
  /-- The number of complementary pivots allowed. -/
  limit : Nat

/-- The rules for doubles. -/
def PivotRules.standard : PivotRules Double := ⟨.number 1e-12, 100000⟩

namespace Lcp

variable {α : Type} [Scalar α]

/-- A problem, if the matrix is square of the size of the vector. -/
def build (matrix : List (List α)) (offset : List α) : Except LcpFault (Lcp α) :=
  if matrix.length = offset.length ∧ matrix.all (fun row => row.length = offset.length) then
    .ok ⟨matrix, offset⟩
  else .error (.shape offset.length)

/-- The number of complementary pairs. -/
def size (p : Lcp α) : Nat := p.offset.length

/-- The sum of products.  It is added up from minus zero, which unlike zero changes no double that
is added to it. -/
def dot (row z : List α) : α :=
  (List.zipWith (fun a b => a * b) row z).foldl (fun total v => total + v) (-0)

/-- The vector `w = q + M z`. -/
def slack (p : Lcp α) (z : List α) : List α :=
  List.zipWith (fun row q => q + dot row z) p.matrix p.offset

/-! ### The tableau -/

/-- The complement of a column that is not the artificial one. -/
def complement (n column : Nat) : Nat := if column < n then column + n else column - n

/-- The system `w - M z - d z₀ = q` with `w` basic. -/
def start (p : Lcp α) : Tableau α :=
  (p.matrix.zip p.offset).mapIdx fun r entry =>
    ⟨Tableau.unitRow p.size r ++ entry.1.map (fun v => -v) ++ [-1], entry.2, r⟩

/-- The row of the most negative constant, the last one of several. -/
def firstRow (p : Lcp α) : Nat :=
  match p.offset with
  | [] => 0
  | q :: qs =>
    (qs.zipIdx.foldl (fun (least : Nat × α) entry =>
      if entry.1 ≤ least.2 then (entry.2 + 1, entry.1) else least) (0, q)).1

/-- Whether the first list divided by `a` comes before the second divided by `b`: of the first
`count` entries the earliest two that differ by more than the tolerance decide. -/
@[specialize]
def lexLess (tolerance a b : α) : Nat → List α → List α → Bool
  | count + 1, x :: xs, y :: ys =>
    let u := x / a
    let v := y / b
    if tolerance < Scalar.abs (u - v) then decide (u < v) else lexLess tolerance a b count xs ys
  | _, _, _ => false

/-- Whether a row comes before another as the row that an entering column makes leave: their right
sides and inverse bases are compared, each divided by the row's coefficient of the column. -/
@[specialize]
def precedes (tolerance : α) (n column : Nat) (row other : TableauRow α) : Bool :=
  lexLess tolerance (row.coefficients.getD column 0) (other.coefficients.getD column 0) (n + 1)
    (row.rhs :: row.coefficients) (other.rhs :: other.coefficients)

/-- Compares a row with the best one so far for an entering column. -/
@[specialize]
def better (tolerance : α) (n column : Nat) (best : Option (Nat × TableauRow α))
    (entry : TableauRow α × Nat) : Option (Nat × TableauRow α) :=
  if entry.1.coefficients.getD column 0 ≤ tolerance then best
  else
    match best with
    | none => some (entry.2, entry.1)
    | some (r, row) =>
      if precedes tolerance n column entry.1 row then some (entry.2, entry.1) else some (r, row)

/-- The row that an entering column makes leave, with its basic column, if any row bounds it. -/
@[specialize]
def leaving? (tolerance : α) (n : Nat) (t : Tableau α) (column : Nat) : Option (Nat × Nat) :=
  (t.zipIdx.foldl (better tolerance n column) none).map fun best => (best.1, best.2.basic)

/-- A value, or zero for one that is not positive. -/
def positivePart (v : α) : α := if 0 < v then v else 0

/-- The values of `z` at the basic solution. -/
@[specialize]
def solution (n : Nat) (t : Tableau α) : List α :=
  t.foldl
    (fun z row =>
      if n ≤ row.basic ∧ row.basic < 2 * n then z.set (row.basic - n) (positivePart row.rhs) else z)
    (List.replicate n 0)

/-! ### Complementary pivoting -/

/-- What the walk knows between two steps. -/
structure Stage (α : Type) where
  /-- The solved system. -/
  tableau : Tableau α
  /-- The column that has just left. -/
  left : Nat

/-- Whether two stages are the same, so that they lead to the same steps. -/
@[specialize]
def Stage.same (s t : Stage α) : Bool := s.left == t.left && Tableau.same s.tableau t.tableau

/-- What a step leads to. -/
inductive Progress (α : Type) where
  /-- No row bounds the entering column. -/
  | ray
  /-- The artificial column has left. -/
  | solved (z : List α)
  /-- Another column has left. -/
  | further (stage : Stage α)

/-- Brings in the complement of the column that has left. -/
@[specialize]
def step (tolerance : α) (n : Nat) (s : Stage α) : Progress α :=
  let entering := complement n s.left
  match leaving? tolerance n s.tableau entering with
  | none => .ray
  | some (row, column) =>
    let next := s.tableau.pivotRows row entering
    if column = 2 * n then .solved (solution n next) else .further ⟨next, column⟩

/-- Makes at most the given number of steps.  A walk that comes to the marked stage again goes round
from there, so that no number of steps ends it.  The mark is moved to the present stage after `rest`
more steps and then after spans that double, by which it gets into every round. -/
@[specialize]
def walk (tolerance : α) (n : Nat) :
    Nat → Stage α → Stage α → Nat → Nat → Except LcpFault (List α)
  | 0, _, _, _, _ => .error .pivotLimit
  | steps + 1, s, mark, rest, span =>
    match step tolerance n s with
    | .ray => .error .ray
    | .solved z => .ok z
    | .further next =>
      if next.same mark then .error .pivotLimit
      else
        match rest with
        | 0 => walk tolerance n steps next next span (2 * span)
        | rest + 1 => walk tolerance n steps next mark rest span

/-- A solution of the problem.  The zero vector is one if no constant is negative. -/
@[specialize]
def solve (rules : PivotRules α) (p : Lcp α) : Except LcpFault (List α) :=
  let n := p.size
  if p.offset.all fun q => decide (0 ≤ q) then .ok (List.replicate n 0)
  else
    let row := p.firstRow
    let first : Stage α := ⟨p.start.pivotRows row (2 * n), row⟩
    walk rules.tolerance n rules.limit first first 8 16

end Lcp

end Equilibria
