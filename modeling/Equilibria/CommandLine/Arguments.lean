import Equilibria.Number.Literal

/-!
# Command-line arguments

Arguments are flags, options with a value, and at most one plain argument.  A flag has a letter, a
word or both; letters may be joined behind one dash, and a value may follow its letter directly or
behind an equals sign, its word behind an equals sign, or be the next argument unless that begins
with a dash.  Two dashes end the flags.  Nothing may be given twice.

Main definitions:

* `Flag`, `Parsed` — what a tool understands, and what was given;
* `Arguments.parse` — the reading of arguments, which ends at the first mistake or at the first
  request for version or help.
-/

namespace Equilibria

/-- What a flag means. -/
inductive FlagKind where
  /-- Something is switched on. -/
  | switch
  /-- A path follows. -/
  | path
  /-- An unsigned integer of 64 bits follows. -/
  | natural
  /-- A double follows. -/
  | double
  /-- The version is wanted. -/
  | version
  /-- Help is wanted. -/
  | help
  deriving Repr, DecidableEq

/-- A flag. -/
structure Flag where
  /-- The name under which it is found. -/
  name : String
  /-- The letter. -/
  letter : Option Char
  /-- The word. -/
  word : Option String
  /-- What it means. -/
  kind : FlagKind

/-- The value of a flag. -/
inductive FlagValue where
  /-- Switched on. -/
  | on
  /-- A path, never empty. -/
  | path (p : String)
  /-- A number. -/
  | natural (n : Nat)
  /-- A double. -/
  | double (x : Float)

/-- The arguments that were given. -/
structure Parsed where
  /-- The flags with their values. -/
  values : List (String × FlagValue)
  /-- The plain argument. -/
  file : Option String

/-- How the reading of arguments ended. -/
inductive ArgumentsOutcome where
  /-- All were understood. -/
  | parsed (p : Parsed)
  /-- The version is wanted. -/
  | version
  /-- Help is wanted. -/
  | help
  /-- They were not understood. -/
  | misuse

namespace Parsed

/-- Whether a switch is on. -/
def isOn (p : Parsed) (name : String) : Bool := (p.values.lookup name).isSome

/-- The path of a flag. -/
def path? (p : Parsed) (name : String) : Option String :=
  match p.values.lookup name with
  | some (.path s) => some s
  | _ => none

/-- The number of a flag. -/
def natural? (p : Parsed) (name : String) : Option Nat :=
  match p.values.lookup name with
  | some (.natural n) => some n
  | _ => none

/-- The double of a flag. -/
def double? (p : Parsed) (name : String) : Option Float :=
  match p.values.lookup name with
  | some (.double x) => some x
  | _ => none

end Parsed

namespace Arguments

/-- An unsigned integer of 64 bits; a plus may stand before it. -/
def natural? (cs : List Char) : Option Nat :=
  let ds := if cs.head? = some '+' then cs.drop 1 else cs
  if ds.isEmpty || !ds.all Char.isDigit then none
  else
    let n := naturalOfDigits ds
    if n < UInt64.size then some n else none

/-- The value of a flag that takes one. -/
def value? (kind : FlagKind) (cs : List Char) : Option FlagValue :=
  match kind with
  | .path => if cs.isEmpty then none else some (.path (String.ofList cs))
  | .natural => (natural? cs).map .natural
  | .double => (Literal.double? cs).map .double
  | _ => none

/-- Whether a flag takes a value. -/
def takesValue (f : Flag) : Bool := f.kind = .path || f.kind = .natural || f.kind = .double

/-- What is known in the middle of the arguments, or how they ended. -/
inductive Progress where
  /-- More may follow; a flag may be waiting for its value. -/
  | reading (p : Parsed) (waiting : Option Flag)
  /-- Nothing that follows matters. -/
  | ended (outcome : ArgumentsOutcome)

/-- Notes the value of a flag that was not given before. -/
def record (p : Parsed) (f : Flag) (v : Option FlagValue) : Progress :=
  match v with
  | none => .ended .misuse
  | some v =>
    if p.isOn f.name then .ended .misuse else .reading { p with values := (f.name, v) :: p.values } none

/-- Notes the plain argument. -/
def recordFile (p : Parsed) (cs : List Char) : Progress :=
  if p.file.isSome || cs.isEmpty then .ended .misuse
  else .reading { p with file := some (String.ofList cs) } none

/-- Takes a flag without a value. -/
def recordBare (p : Parsed) (f : Flag) : Progress :=
  match f.kind with
  | .version => .ended .version
  | .help => .ended .help
  | _ => record p f (some .on)

/-- Takes letters joined behind a dash. -/
def letters (flags : List Flag) (p : Parsed) : List Char → Progress
  | [] => .reading p none
  | c :: cs =>
    match flags.find? fun f => f.letter = some c with
    | none => .ended .misuse
    | some f =>
      if takesValue f then
        if cs.isEmpty then
          (if p.isOn f.name then .ended .misuse else .reading p (some f))
        else record p f (value? f.kind (if cs.head? = some '=' then cs.drop 1 else cs))
      else
        match recordBare p f with
        | .reading p _ => letters flags p cs
        | .ended outcome => .ended outcome

/-- Takes a word behind two dashes. -/
def longWord (flags : List Flag) (p : Parsed) (cs : List Char) : Progress :=
  let name := cs.takeWhile (· ≠ '=')
  let attached := cs.dropWhile (· ≠ '=')
  match flags.find? fun f => f.word = some (String.ofList name) with
  | none => .ended .misuse
  | some f =>
    match attached with
    | [] =>
      if takesValue f then
        (if p.isOn f.name then .ended .misuse else .reading p (some f))
      else recordBare p f
    | _ :: v => if takesValue f then record p f (value? f.kind v) else .ended .misuse

/-- Takes the plain arguments behind two dashes. -/
def plain (p : Parsed) : List String → ArgumentsOutcome
  | [] => .parsed p
  | a :: rest =>
    match recordFile p a.toList with
    | .reading p _ => plain p rest
    | .ended outcome => outcome

/-- Takes one argument that is not two dashes.  While a flag waits for its value, only an argument
without a dash, or a lone dash, will do. -/
def take (flags : List Flag) (p : Parsed) (waiting : Option Flag) (a : String) : Progress :=
  match a.toList, waiting with
  | '-' :: '-' :: cs, none => longWord flags p cs
  | '-' :: c :: cs, none => letters flags p (c :: cs)
  | '-' :: _ :: _, some _ => .ended .misuse
  | cs, none => recordFile p cs
  | cs, some f => record p f (value? f.kind cs)

/-- Takes the arguments one after the other. -/
def parseFrom (flags : List Flag) : Progress → List String → ArgumentsOutcome
  | .ended outcome, _ => outcome
  | .reading p none, [] => .parsed p
  | .reading _ (some _), [] => .misuse
  | .reading p waiting, a :: rest =>
    if a = "--" then (if waiting.isSome then .misuse else plain p rest)
    else parseFrom flags (take flags p waiting a) rest

/-- Reads arguments. -/
def parse (flags : List Flag) (arguments : List String) : ArgumentsOutcome :=
  parseFrom flags (.reading ⟨[], none⟩ none) arguments

end Arguments

end Equilibria
