import SignalFormula.Cli.Run
/-!
# Main — the command line program as an executable

Only here does anything touch the world: the arguments, the variable that sets the filter of the log, the file that is
asked for, and the two output streams.
-/
open SignalFormula

/-- The reason why a file cannot be read, as the system words it. -/
def reasonOf (e : IO.Error) : String :=
  match e with
  | .noFileOrDirectory .. => "No such file or directory (os error 2)"
  | .permissionDenied .. => "Permission denied (os error 13)"
  | .inappropriateType .. => "Is a directory (os error 21)"
  | e => toString e

/-- The text of a file, or the reason why it cannot be read. -/
def answerOf (path : String) : IO (Except Text Text) := do
  match ← (IO.FS.readFile path).toBaseIO with
  | .ok text => return .ok text.toList
  | .error e => return .error (reasonOf e).toList

/-- The answers that a command line needs: that of its spec file, if it has one. -/
def answers (args : List Text) : IO Cli.Files := do
  match Cli.Options.ofArguments args with
  | .ok { spec := some path, .. } =>
    let answer ← answerOf (String.ofList path)
    return fun _ => answer
  | _ => return fun _ => .ok []

def main (args : List String) : IO UInt32 := do
  let args := args.map String.toList
  let files ← answers args
  let log ← IO.getEnv "RUST_LOG"
  let result := Cli.outcome args files (log.map String.toList)
  IO.print (String.ofList result.output)
  for line in result.errors do
    IO.eprintln (String.ofList line)
  return UInt32.ofNat result.status
