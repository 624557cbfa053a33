import Equilibria.CommandLine.Arguments
import Equilibria.Game.Document
import Equilibria.Solve

/-!
# The two command-line tools

`enummixed` enumerates the extreme equilibria of a game of two players, `ipa` approximates one
equilibrium of a game.  Both read the game from a file or from standard input, settings from a file,
write profiles to standard output and all else to standard error.

Main definitions:

* `Tool` — the tools, with their flags and words;
* `Tool.settings` — the settings that the arguments of a tool stand for;
* `Console` — what a tool can do outside of itself;
* `Tool.run` — a tool on its arguments, ending with an exit code.

The exit code is zero after a solve, one after a failure, and two after arguments that were not
understood.
-/

namespace Equilibria

/-- The tools. -/
inductive Tool where
  /-- Enumeration. -/
  | enumerator
  /-- Approximation. -/
  | approximator
  deriving Repr, DecidableEq

/-- What a tool can do outside of itself. -/
structure Console (m : Type → Type) where
  /-- The text of a file, or why it cannot be read. -/
  fileText : String → m (Except String String)
  /-- The text of standard input, or why it cannot be read. -/
  inputText : m (Except String String)
  /-- Writes to standard output. -/
  write : String → m Unit
  /-- Writes to standard error. -/
  complain : String → m Unit
  /-- How a program, given by its name, ends on an input. -/
  ask : String → String → ProgramOutcome

namespace Tool

/-! ### What the tools are called and understand -/

/-- The name. -/
def name : Tool → String
  | .enumerator => "enummixed"
  | .approximator => "ipa"

/-- The tool of a name. -/
def ofName? (s : String) : Option Tool :=
  if s = "enummixed" then some .enumerator else if s = "ipa" then some .approximator else none

/-- What the tool does. -/
def purpose : Tool → String
  | .enumerator => "Compute Nash equilibria by enumerating extreme points"
  | .approximator => "Compute Nash equilibria using iterated polymatrix approximation"

/-- The version of both tools. -/
def version : String := "0.1.0"

/-- The lines that a tool writes first unless it is to be quiet. -/
def banner (t : Tool) : String := t.purpose ++ "\nnash-enum version " ++ version ++ "\n\n"

/-- The flags that both tools have. -/
def commonFlags : List Flag :=
  [⟨"version", some 'v', some "version", .version⟩, ⟨"help", some 'h', some "help", .help⟩,
    ⟨"quiet", some 'q', none, .switch⟩, ⟨"decimals", some 'd', none, .natural⟩,
    ⟨"config", none, some "config", .path⟩]

/-- The flags of a tool. -/
def flags : Tool → List Flag
  | .enumerator =>
    commonFlags ++
      [⟨"keep", some 'D', none, .switch⟩, ⟨"lrs", some 'L', none, .switch⟩,
        ⟨"program", none, some "lrs-program", .path⟩, ⟨"cliques", some 'c', none, .switch⟩]
  | .approximator =>
    commonFlags ++
      [⟨"verbose", some 'V', some "verbose", .switch⟩,
        ⟨"iterations", none, some "iterations", .natural⟩,
        ⟨"tolerance", none, some "tolerance", .double⟩, ⟨"seed", none, some "seed", .natural⟩]

/-- How a flag is written. -/
def spelling (f : Flag) : String :=
  let letter := match f.letter with
    | some c => ["-" ++ String.ofList [c]]
    | none => []
  let word := match f.word with
    | some w => ["--" ++ w]
    | none => []
  let value := match f.kind with
    | .path => " <PATH>"
    | .natural => " <N>"
    | .double => " <X>"
    | _ => ""
  "  " ++ ", ".intercalate (letter ++ word) ++ value ++ "\n"

/-- The text that is written when help is wanted. -/
def usage (t : Tool) : String :=
  t.purpose ++ "\n\nUsage: " ++ t.name ++ " [OPTIONS] [FILE]\n\nOptions:\n" ++
    String.join (t.flags.map spelling)

/-! ### Settings -/

/-- A setting changed if a value is given. -/
def change {β : Type} (value : Option β) (set : Settings → β → Settings) (s : Settings) : Settings :=
  match value with
  | some v => set s v
  | none => s

/-- The settings of a tool when none are read from a file. -/
def presets : Tool → Settings
  | .enumerator => Settings.standard
  | .approximator => Settings.approximation

/-- Settings changed by the arguments of the enumerator. -/
def enumeratorSettings (p : Parsed) (s : Settings) : Settings :=
  let s := change (p.natural? "decimals")
    (fun s n => { s with exactArithmetic := false, decimals := n }) s
  let s := change (p.path? "program") (fun s path => { s with program := path }) s
  { s with
    eliminateDominated := s.eliminateDominated && !p.isOn "keep"
    delegate := s.delegate || p.isOn "lrs"
    reportCliques := s.reportCliques || p.isOn "cliques"
    approximate := false }

/-- Settings changed by the arguments of the approximator. -/
def approximatorSettings (p : Parsed) (s : Settings) : Settings :=
  let s := change (p.natural? "decimals") (fun s n => { s with decimals := n }) s
  let s := change (p.natural? "iterations") (fun s n => { s with iterationCap := n }) s
  let s := change (p.double? "tolerance") (fun s x => { s with tolerance := x }) s
  let s := change (p.natural? "seed") (fun s n => { s with seed := some n }) s
  { s with
    approximate := true
    delegate := false
    verbose := s.verbose || p.isOn "verbose" }

/-- Settings changed by the arguments of a tool. -/
def settings (t : Tool) (p : Parsed) (s : Settings) : Settings :=
  match t with
  | .enumerator => enumeratorSettings p s
  | .approximator => approximatorSettings p s

/-! ### Running -/

section

variable {m : Type → Type} [Monad m]

/-- A step that cannot fail, among steps that can. -/
def outside {β : Type} (x : m β) : ExceptT Failure m β := ExceptT.lift x

/-- An outcome as a step that fails with its reason. -/
def orFail {ε β : Type} (cause : ε → Failure) (x : Except ε β) : ExceptT Failure m β :=
  match x with
  | .ok b => pure b
  | .error e => throw (cause e)

/-- The settings of a run, from the file that is named or from the tool. -/
def baseSettings (t : Tool) (console : Console m) (p : Parsed) : ExceptT Failure m Settings :=
  match p.path? "config" with
  | none => pure t.presets
  | some path => do
    let read ← outside (console.fileText path)
    let text ← orFail (fun reason => .setting (.unreadable reason)) read
    orFail .setting (Settings.ofDocument text)

/-- The game of a run, from the file that is named or from standard input. -/
def readGame (console : Console m) (p : Parsed) : ExceptT Failure m Game := do
  let text ← match p.file with
    | some path => do
      let read ← outside (console.fileText path)
      orFail (fun reason => .setting (.unreadable reason)) read
    | none => do
      let read ← outside console.inputText
      orFail (fun reason => .game (.unreadableInput reason)) read
  orFail .setting (Game.ofDocument text)

/-- The line that tells how an approximation ended. -/
def summary (a : ApproximateEquilibrium Double) : String :=
  a.status.name ++ " after " ++ toString a.iterations ++ " iterations (step " ++
    Binary64.scientificText a.step.toFloat ++ ", regret " ++ Binary64.scientificText a.regret.toFloat ++ ")\n"

/-- What a tool does with arguments that were understood. -/
def perform (t : Tool) (console : Console m) (p : Parsed) : ExceptT Failure m Unit := do
  let base ← t.baseSettings console p
  let s := t.settings p base
  let g ← readGame console p
  let renderer : Renderer (ExceptT Failure m) :=
    Renderer.csv s.decimals (fun line => outside (console.write line)) (fun _ => pure ())
  match ← Solver.solve (console.ask s.program) s g renderer with
  | .approximation outcome =>
    if p.isOn "quiet" then pure () else outside (console.complain (summary outcome))
  | .enumeration _ _ => pure ()

/-- Runs a tool on its arguments. -/
def run (t : Tool) (console : Console m) (arguments : List String) : m UInt32 :=
  match Arguments.parse t.flags arguments with
  | .misuse => do
    console.complain ("error: arguments not understood\n\n" ++ t.usage)
    pure 2
  | .version => do
    console.write (t.name ++ " " ++ version ++ "\n")
    pure 0
  | .help => do
    console.write t.usage
    pure 0
  | .parsed p => do
    if !p.isOn "quiet" then console.complain t.banner
    match ← (t.perform console p).run with
    | .ok _ => pure 0
    | .error e =>
      if e.aborts then do
        console.complain (e.message ++ "\n")
        pure 101
      else do
        console.complain ("Error: " ++ e.message ++ "\n")
        pure 1

end

end Tool

end Equilibria
