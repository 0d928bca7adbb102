import SignalFlow.Definition.Position
/-!
# Errors of runs

Why a run is refused at its start or rejected while it runs.
-/

namespace SignalFlow

structure Site where
  signal : String
  step : String
  position : Position
  deriving DecidableEq, Inhabited, Repr

inductive RunError
  /-- the arguments cannot be written as data -/
  | invalidArgs (signal reason : String)
  /-- the arguments are data, but no object -/
  | argsNotObject (signal found : String)
  /-- a sequential step failed -/
  | stepFailed (site : Site) (message : String)
  /-- a concurrent step failed -/
  | asyncStepFailed (site : Site) (message : String)
  /-- a concurrent step took an output it does not declare -/
  | undeclaredOutput (site : Site) (output : String)
  deriving DecidableEq, Inhabited, Repr

namespace RunError

def kind : RunError → String
  | invalidArgs .. => "InvalidArgs"
  | argsNotObject .. => "ArgsNotObject"
  | stepFailed .. => "StepFailed"
  | asyncStepFailed .. => "AsyncStepFailed"
  | undeclaredOutput .. => "UndeclaredOutput"

def message : RunError → String
  | invalidArgs signal reason =>
    s!"signal '{signal}': arguments are not plain serializable data: {reason}"
  | argsNotObject signal found =>
    s!"signal '{signal}': arguments must serialize to an object, got {found}"
  | stepFailed site message =>
    s!"signal '{site.signal}': step '{site.step}' at {site.position.text} failed: {message}"
  | asyncStepFailed site message =>
    s!"signal '{site.signal}': concurrent step '{site.step}' at {site.position.text} failed: " ++ message
  | undeclaredOutput site output =>
    s!"signal '{site.signal}': step '{site.step}' at {site.position.text} took undeclared output '" ++ output ++ "'"

end RunError

end SignalFlow
