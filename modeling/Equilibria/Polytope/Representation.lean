import Equilibria.Polytope.Basic

/-!
# Polytopes and vertices as text

The text form in which polytopes are handed to an external vertex enumerator, and in which it
returns vertices.  Both consist of lines of numbers between `begin` and `end`.  A row of a polytope
holds `b a₁ … aₙ` for the inequality `b + a · x ≥ 0`; a vertex is a row that begins with a one.

Main definitions:

* `Polytope.hRepresentation` — the inequalities of a polytope, the opponent's strategies first, then
  the signs of the coordinates;
* `Representation.parseVertices` — the vertices of an output.

Blank lines and lines that begin with a star do not matter, nor does anything before `begin` or
after `end`; between them every line is a vertex, or a size line that ends in `rational`.
-/

namespace Equilibria

namespace Representation

/-! ### Writing -/

/-- A line of words. -/
def line (ws : List String) : String := " ".intercalate ws ++ "\n"

/-- The words of the inequality `1 - c · x ≥ 0`. -/
def inequality {α : Type} [Scalar α] (row : List α) : Except Failure (List String) :=
  match row with
  | [] => .ok []
  | c :: cs =>
    match Scalar.toRational? c with
    | none => .error (.numeric (.inexact (Scalar.text c)))
    | some exact =>
      match inequality cs with
      | .ok ws => .ok (Rational.text (-exact) :: ws)
      | .error e => .error e

/-- The lines of the inequalities of several rows. -/
def inequalities {α : Type} [Scalar α] : List (List α) → Except Failure (List String)
  | [] => .ok []
  | row :: rows =>
    match inequality row with
    | .error e => .error e
    | .ok ws =>
      match inequalities rows with
      | .ok ls => .ok (line ("1" :: ws) :: ls)
      | .error e => .error e

/-- The line of the inequality that coordinate `i` is not negative. -/
def signLine (dimension i : Nat) : String :=
  line ("0" :: (List.range dimension).map fun k => if k = i then "1" else "0")

end Representation

/-- The inequalities of a polytope as text. -/
def Polytope.hRepresentation {α : Type} [Scalar α] (p : Polytope α) : Except Failure String :=
  let d := p.dimension
  match Representation.inequalities p.constraints with
  | .error e => .error e
  | .ok ls =>
    .ok ("player" ++ toString (p.player + 1) ++ "\nH-representation\nbegin\n" ++
      toString (p.numConstraints + d) ++ " " ++ toString (d + 1) ++ " rational\n" ++
      String.join ls ++ String.join ((List.range d).map (Representation.signLine d)) ++ "end\n")

namespace Representation

/-! ### Reading -/

/-- The lines that matter, trimmed. -/
def content (output : String) : List (List Char) :=
  ((lines output.toList).map trim).filter fun l => !l.isEmpty && l.head? != some '*'

/-- The coordinates of a vertex line; nothing for a size line. -/
def coordinates? (dimension : Nat) (l : List Char) :
    Except DelegateFault (Option (List Rat)) :=
  let text := String.ofList l
  let ws := words l
  if ws.getLast? = some "rational".toList then .ok none
  else
    match ws with
    | ['1'] :: rest =>
      if rest.length ≠ dimension then .error (.width dimension rest.length text)
      else
        match rest.mapM Rational.read? with
        | some v => .ok (some v)
        | none => .error (.coordinate text)
    | ['0'] :: _ => .error (.ray text)
    | _ => .error (.unrecognized text)

/-- The vertices of the lines before `end`. -/
def body (dimension : Nat) : List (List Char) → Except DelegateFault (List (List Rat))
  | [] => .error .incomplete
  | l :: ls =>
    if l = "end".toList then .ok []
    else
      match coordinates? dimension l with
      | .error e => .error e
      | .ok none => body dimension ls
      | .ok (some v) =>
        match body dimension ls with
        | .ok vs => .ok (v :: vs)
        | .error e => .error e

/-- The vertices of an output, each with the given number of coordinates. -/
def parseVertices (output : String) (dimension : Nat) : Except DelegateFault (List (List Rat)) :=
  match (content output).dropWhile fun l => l ≠ "begin".toList with
  | [] => .error .incomplete
  | _ :: ls => body dimension ls

end Representation

end Equilibria
