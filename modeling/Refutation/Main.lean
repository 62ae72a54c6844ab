import Refutation.Execution

/-!
# The program

The command line on the real standard streams and files.
-/

namespace Refutation

/-- The wording of a system error.  Its number may come negated, as a word of 32 bits. -/
def systemFailure (code : UInt32) (details : String) : String :=
  let number := if code < 0x80000000 then code.toNat else (0 - code).toNat
  details.capitalize ++ " (os error " ++ toString number ++ ")"

/-- The wording of a failure to read. -/
def readFailure : IO.Error → String
  | .noFileOrDirectory _ code details | .permissionDenied _ code details
  | .inappropriateType _ code details | .noSuchThing _ code details
  | .invalidArgument _ code details | .resourceExhausted _ code details
  | .otherError code details | .hardwareFault code details => systemFailure code details
  | e => toString e

/-- Read an input as text. -/
def readInput (input : Input) : IO (Except String String) := do
  try
    let bytes ←
      match input with
      | .stdin => (← IO.getStdin).readBinToEnd
      | .file path => IO.FS.readBinFile path
    match String.fromUTF8? bytes with
    | some text => return .ok text
    | none => return .error "stream did not contain valid UTF-8"
  catch e => return .error (readFailure e)

/-- Write an event to the log, which is standard error. -/
def writeLog (event : Event) : IO Unit := event.entries.forM fun e => IO.eprintln e.line

end Refutation

/-- Call the program with the given arguments. -/
def main (args : List String) : IO UInt32 := do
  let answer ← Refutation.Command.call Refutation.readInput Refutation.writeLog args
  let exit := answer.exit
  (← IO.getStdout).putStr exit.out
  (← IO.getStderr).putStr exit.err
  return exit.code.toUInt32
