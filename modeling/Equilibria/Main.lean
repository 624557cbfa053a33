import Equilibria.CommandLine.Tools

/-!
# The program

The first argument names the tool, the others are the tool's.  No program can be started from here,
so that vertices are always enumerated by the library itself.
-/

namespace Equilibria

/-- The words for the number of an error, the given ones for a number that reading a file does not
meet. -/
def systemWords (details : String) : Nat → String
  | 2 => "No such file or directory"
  | 13 => "Permission denied"
  | 20 => "Not a directory"
  | 21 => "Is a directory"
  | 36 => "File name too long"
  | 40 => "Too many levels of symbolic links"
  | _ => details

/-- The words and the number of an error.  Some calls report the number with a minus sign. -/
def systemReason (code : UInt32) (details : String) : String :=
  let number := code.toInt32.toInt.natAbs
  systemWords details number ++ " (os error " ++ toString number ++ ")"

/-- Why something could not be read. -/
def readingReason (e : IO.Error) : String :=
  match e with
  | .noFileOrDirectory _ code details | .interrupted _ code details
  | .alreadyExists _ code details | .invalidArgument _ code details
  | .permissionDenied _ code details | .resourceExhausted _ code details
  | .inappropriateType _ code details | .noSuchThing _ code details
  | .otherError code details | .resourceBusy code details | .resourceVanished code details
  | .unsupportedOperation code details | .hardwareFault code details
  | .unsatisfiedConstraints code details | .illegalOperation code details
  | .protocolError code details | .timeExpired code details =>
    systemReason code details
  | .unexpectedEof | .userError _ => toString e

/-- The text that an action reads, or the reason if it fails or does not read a text. -/
def textRead (action : IO ByteArray) : IO (Except String String) := do
  match ← action.toBaseIO with
  | .error e => pure (.error (readingReason e))
  | .ok bytes =>
    match Utf8.decode bytes.toList with
    | .ok text => pure (.ok text)
    | .error _ => pure (.error "stream did not contain valid UTF-8")

/-- The bytes of a stream up to its end. -/
def readToEnd (stream : IO.FS.Stream) : IO ByteArray :=
  let rec go (bytes : ByteArray) (n : Nat) : IO ByteArray := do
    match n with
    | 0 => pure bytes
    | n + 1 =>
      let more ← stream.read 65536
      if more.isEmpty then pure bytes else go (bytes ++ more) n
  go ByteArray.empty UInt64.size

/-- The console of the process. -/
def processConsole : Console IO :=
  { fileText := fun path => textRead (IO.FS.readBinFile path)
    inputText := do textRead (readToEnd (← IO.getStdin))
    write := fun text => do
      let output ← IO.getStdout
      output.putStr text
      output.flush
    complain := fun text => do
      let output ← IO.getStderr
      output.putStr text
    ask := fun _ _ => .notStarted "No such file or directory (os error 2)" }

end Equilibria

/-- Runs the tool that the first argument names. -/
def main (arguments : List String) : IO UInt32 :=
  match arguments with
  | name :: rest =>
    match Equilibria.Tool.ofName? name with
    | some tool => tool.run Equilibria.processConsole rest
    | none => do
      IO.eprintln "usage: (enummixed | ipa) [OPTIONS] [FILE]"
      pure 2
  | [] => do
    IO.eprintln "usage: (enummixed | ipa) [OPTIONS] [FILE]"
    pure 2
