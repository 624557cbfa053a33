import Equilibria.Number.Scalar
import Equilibria.Text.Utf8

/-!
# What can go wrong

Every failure is a cause with its data; the words for it are written once, in `message`.  That a
game has no equilibrium of the wanted kind is never a failure.

Main definitions:

* `GameFault` — a game that cannot be built or solved;
* `NumericFault` — numbers that leave the domain of computation;
* `DelegateFault` — an external vertex enumerator that cannot be used or understood;
* `SettingFault` — a setting or document that is refused;
* `Failure` — any of these, or a row that could not be written.
-/

namespace Equilibria

/-! ### Games -/

/-- Why a game cannot be built or solved. -/
inductive GameFault where
  /-- The payoff table has the wrong number of rows. -/
  | rowCount (expected found : Nat)
  /-- A payoff row does not have one entry per player. -/
  | rowWidth (found players : Nat)
  /-- Two payoff matrices are not rectangles of one shape. -/
  | matrixShape
  /-- There is no player. -/
  | noPlayers
  /-- A player has no strategy to choose. -/
  | noStrategies (player : String)
  /-- Enumeration was asked for a game of another number of players than two. -/
  | notTwoPlayers (players : Nat)
  /-- A starting profile has another shape than the game. -/
  | startShape
  /-- The document could not be taken from standard input. -/
  | unreadableInput (reason : String)
  /-- The number of pure profiles leaves the machine word.  A run that meets this is aborted. -/
  | sizeOverflow
  deriving Repr, DecidableEq

/-- The words for a game's fault. -/
def GameFault.message : GameFault → String
  | .rowCount expected found =>
    "expected " ++ toString expected ++ " payoff rows, found " ++ toString found
  | .rowWidth found players =>
    "payoff row has " ++ toString found ++ " entries for " ++ toString players ++ " players"
  | .matrixShape => "payoff matrices must have identical rectangular shapes"
  | .noPlayers => "game has no players"
  | .noStrategies player => "player '" ++ player ++ "' has no strategies"
  | .notTwoPlayers players =>
    "enumeration needs exactly two players, game has " ++ toString players
  | .startShape => "starting profile does not match the game"
  | .unreadableInput reason => "cannot read standard input: " ++ reason
  | .sizeOverflow => "attempt to multiply with overflow"

/-! ### Numbers -/

/-- Why a computation left its domain. -/
inductive NumericFault where
  /-- A payoff has no finite double. -/
  | payoffSize
  /-- The shifted payoffs of a player, counted from one, are not all finite. -/
  | payoffOverflow (player : Nat)
  /-- A pivot step made an entry that is not finite. -/
  | pivot (row column : Nat)
  /-- A coefficient, given by its text, is no rational number. -/
  | inexact (coefficient : String)
  deriving Repr, DecidableEq

/-- The words for a numeric fault. -/
def NumericFault.message : NumericFault → String
  | .payoffSize => "payoffs do not fit in floating point"
  | .payoffOverflow player =>
    "payoffs of player " ++ toString player ++ " overflow the numeric domain"
  | .pivot row column =>
    "pivot on row " ++ toString row ++ " column " ++ toString column ++
      " left non-finite entries"
  | .inexact coefficient => "coefficient " ++ coefficient ++ " has no exact value"

/-! ### The external enumerator -/

/-- Why an external vertex enumerator gave no vertices. -/
inductive DelegateFault where
  /-- It could not be started. -/
  | notStarted (program reason : String)
  /-- Its input could not be written. -/
  | unwritten (reason : String)
  /-- Its end could not be waited for. -/
  | unfinished (reason : String)
  /-- It ended with a code other than zero. -/
  | exited (code : Nat) (complaint : String)
  /-- It was ended by a signal, and perhaps its memory was saved. -/
  | killed (signal : Nat) (saved : Bool) (complaint : String)
  /-- Its output is no text. -/
  | encoding (fault : Utf8.Fault)
  /-- A line of its output describes a ray. -/
  | ray (line : String)
  /-- A line of its output describes nothing known. -/
  | unrecognized (line : String)
  /-- A vertex has the wrong number of coordinates. -/
  | width (expected found : Nat) (line : String)
  /-- A coordinate is no number. -/
  | coordinate (line : String)
  /-- The list of vertices does not begin or does not end. -/
  | incomplete
  deriving Repr, DecidableEq

/-- The names of the signals from one on. -/
def signalNames : List String :=
  ["HUP", "INT", "QUIT", "ILL", "TRAP", "ABRT", "BUS", "FPE", "KILL", "USR1", "SEGV", "USR2", "PIPE",
    "ALRM", "TERM", "STKFLT", "CHLD", "CONT", "STOP", "TSTP", "TTIN", "TTOU", "URG", "XCPU", "XFSZ",
    "VTALRM", "PROF", "WINCH", "IO", "PWR", "SYS"]

/-- A signal by its number and, if it has one, its name. -/
def signalWords (signal : Nat) : String :=
  let name := match (none :: signalNames.map some).getD signal none with
    | some name => " (SIG" ++ name ++ ")"
    | none => ""
  "signal: " ++ toString signal ++ name

/-- The words for a fault of the external enumerator. -/
def DelegateFault.message : DelegateFault → String
  | .notStarted program reason => "cannot start " ++ program ++ ": " ++ reason
  | .unwritten reason => "cannot write input: " ++ reason
  | .unfinished reason => "lrs did not finish: " ++ reason
  | .exited code complaint => "lrs exited with exit status: " ++ toString code ++ ": " ++ complaint
  | .killed signal saved complaint =>
    "lrs exited with " ++ signalWords signal ++ (if saved then " (core dumped)" else "") ++ ": " ++
      complaint
  | .encoding fault => "output is not UTF-8: " ++ fault.message
  | .ray line => "unexpected ray in output: " ++ line
  | .unrecognized line => "unrecognized output line: " ++ line
  | .width expected found line =>
    "expected " ++ toString expected ++ " coordinates, found " ++ toString found ++ " in: " ++ line
  | .coordinate line => "unparseable coordinate in: " ++ line
  | .incomplete => "output has no complete V-representation"

/-! ### Settings and documents -/

/-- Why a setting or a document is refused. -/
inductive SettingFault where
  /-- More decimals than a double has. -/
  | decimals (places : Nat)
  /-- Two ways of solving were chosen at once. -/
  | twoMethods
  /-- No iteration is allowed. -/
  | noIterations
  /-- The tolerance is not a positive number. -/
  | tolerance (value : Float)
  /-- The damping weight is outside the half-open unit interval. -/
  | damping (value : Float)
  /-- A payoff row, counted from zero, holds something that is no number. -/
  | payoffEntry (row : Nat)
  /-- The payoff table does not belong to the players. -/
  | payoffTable (fault : GameFault)
  /-- A file could not be read. -/
  | unreadable (reason : String)
  /-- A document is not of the form wanted. -/
  | malformed

/-- The words for an unusable value of a field. -/
def SettingFault.invalid (field reason : String) : String :=
  "Invalid value for " ++ field ++ ": " ++ reason

/-- The words for a refused setting.  What is wrong with the form of a document is not told. -/
def SettingFault.message : SettingFault → String
  | .decimals places => invalid "num_decimals" (toString places ++ " digits exceeds f64 precision")
  | .twoMethods => invalid "approximate" "cannot approximate and delegate enumeration at once"
  | .noIterations => invalid "iteration_cap" "must allow at least one iteration"
  | .tolerance value =>
    invalid "tolerance" (Binary64.plainText value ++ " is not a positive number")
  | .damping value => invalid "damping" (Binary64.plainText value ++ " is out of range [0, 1)")
  | .payoffEntry row =>
    invalid "payoffs" ("row " ++ toString row ++ " contains a value that is not a number")
  | .payoffTable fault => invalid "payoffs" ("invalid game: " ++ fault.message)
  | .unreadable reason => "IO error: " ++ reason
  | .malformed => "Parse error: "

/-! ### All failures -/

/-- Why a solve gave no result. -/
inductive Failure where
  /-- The game cannot be solved. -/
  | game (fault : GameFault)
  /-- Numbers left the domain of computation. -/
  | numeric (fault : NumericFault)
  /-- The external enumerator gave nothing. -/
  | delegate (fault : DelegateFault)
  /-- The settings or a document were refused. -/
  | setting (fault : SettingFault)
  /-- A row could not be written. -/
  | render (reason : String)

/-- The words for a failure, led by its kind. -/
def Failure.message : Failure → String
  | .game fault => "invalid game: " ++ fault.message
  | .numeric fault => "numeric failure: " ++ fault.message
  | .delegate fault => "vertex enumerator failed: " ++ fault.message
  | .setting fault => "invalid configuration: " ++ fault.message
  | .render reason => "could not write profile: " ++ reason

/-- Whether a failure ends the whole run at once. -/
def Failure.aborts : Failure → Bool
  | .game .sizeOverflow | .setting (.payoffTable .sizeOverflow) => true
  | _ => false

end Equilibria
