import SignalFlow.Runner.Basic
import SignalFlow.Runner.RunId
import Std.Time.DateTime.Timestamp
/-!
# The command line

Runs the checkout once, with the configuration in the file that the first argument names or with the
usual one, and prints the lines of the log and the trace. A failure goes to standard error.
-/

namespace SignalFlow.Runner

/-- the bytes of a file, if it can be read -/
def readFile? (path : String) : IO (Option ByteArray) := do
  try
    return some (← IO.FS.readBinFile path)
  catch _ =>
    return none

/-- the variables that a file asks for, as far as they are set -/
def environmentOf (file : ByteArray) : IO Environment := do
  let asked := match (String.fromUTF8? file).bind Yaml.read? with
    | some document => document.references
    | none => []
  let found ← asked.filterMapM fun reference => do
    if Environment.isName reference.name then
      return (← IO.getEnv reference.name).map (reference.name, ·)
    else
      return none
  return Environment.ofList found

/-- the configuration that the arguments ask for -/
def configured (args : List String) : IO (Except Failure Config) := do
  match args with
  | [] => return configure (fun _ => none) none
  | path :: _ =>
    let file ← readFile? path
    return configure (← environmentOf (file.getD .empty)) (some (path, file))

def report (failure : Failure) : IO Unit := do
  IO.eprintln s!"Error: {failure.message}"
  if let some cause := failure.cause? then
    IO.eprintln s!"\nCaused by:\n    {cause}"

end SignalFlow.Runner

open SignalFlow Runner in
def main (args : List String) : IO UInt32 := do
  let now := (← Std.Time.Timestamp.now).toNanosecondsSinceUnixEpoch.val.toNat
  let id := RunId.text (now / 1000000) (← IO.rand 0 (Nat.pow 2 80 - 1))
  let startedAt := Timestamp.ofUnix now
  match (← configured args).bind fun config => Runner.run config id startedAt with
  | .error failure =>
    report failure
    return 1
  | .ok ran =>
    for line in ran.lines do
      IO.println s!"{startedAt.text}  INFO {line}"
    IO.println ran.trace.report.pretty
    return 0
