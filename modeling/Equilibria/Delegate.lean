import Equilibria.Polytope.Representation

/-!
# Vertices from an external program

An external program may list the vertices of a polytope: it is given the inequalities as text and
answers with vertices as text.  Here the program is a function from its input to how it ended.

Main definitions:

* `ProgramOutcome` — how a program ended;
* `Delegate`, `Delegate.answer` — a program, and its output as a text;
* `Delegate.vertices` — the vertex enumerator that asks a program.
-/

namespace Equilibria

/-- How a program ended. -/
inductive ProgramOutcome where
  /-- It could not be started. -/
  | notStarted (reason : String)
  /-- It was started, but its input could not be written. -/
  | unwritten (reason : String)
  /-- It had its input, but its end could not be waited for. -/
  | unfinished (reason : String)
  /-- It ended with a code, having written bytes and complaints. -/
  | exited (code : Nat) (output : List UInt8) (complaint : String)
  /-- It was ended by a signal, having written complaints, and perhaps its memory was saved. -/
  | killed (signal : Nat) (saved : Bool) (complaint : String)

/-- A program by its name and what it does with an input. -/
structure Delegate where
  /-- The name or path. -/
  program : String
  /-- How it ends on an input. -/
  ask : String → ProgramOutcome

namespace Delegate

/-- The output of a program that ended well, as a text. -/
def answer (d : Delegate) (input : String) : Except DelegateFault String :=
  match d.ask input with
  | .notStarted reason => .error (.notStarted d.program reason)
  | .unwritten reason => .error (.unwritten reason)
  | .unfinished reason => .error (.unfinished reason)
  | .killed signal saved complaint =>
    .error (.killed signal saved (String.ofList (trim complaint.toList)))
  | .exited code output complaint =>
    if code ≠ 0 then .error (.exited code (String.ofList (trim complaint.toList)))
    else
      match Utf8.decode output with
      | .ok text => .ok text
      | .error fault => .error (.encoding fault)

/-- The points without those that equal an earlier one, up to the domain's zero. -/
def distinct {α : Type} [Scalar α] (points : List (List α)) : List (List α) :=
  (points.foldl (fun kept point =>
    if kept.any fun k => (k.zip point).all fun xy => Scalar.approxEq xy.1 xy.2 then kept
    else point :: kept) []).reverse

/-- The vertices that a program lists. -/
def vertices {α : Type} [Scalar α] (d : Delegate) : VertexEnumerator α := fun p =>
  match p.hRepresentation with
  | .error e => .error e
  | .ok input =>
    match d.answer input with
    | .error e => .error (.delegate e)
    | .ok output =>
      match Representation.parseVertices output p.dimension with
      | .error e => .error (.delegate e)
      | .ok vs => .ok ⟨distinct (vs.map fun v => v.map Scalar.ofRational), 0⟩

end Delegate

end Equilibria
