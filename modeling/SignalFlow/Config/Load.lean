import SignalFlow.Config.Basic
import SignalFlow.Config.Environment
/-!
# Loading a configuration

A configuration file is a YAML mapping. The settings of the engine stand in its section `engine`, or
nowhere, and each of them may be missing. A setting may carry a tag, which does not count, as may
the section; a policy may also be written as a tag without content. Numbers of traces must not be
zero.

`Config.ofYaml` reads the settings, `Config.validate` refuses those with which no engine can run,
and `Config.load` does both for a text.
-/

namespace SignalFlow

namespace Yaml.Value

/-- the value without its tags -/
def untagged : Value → Value
  | .tagged _ value => untagged value
  | value => value

/-- a number of 64 bits -/
def word? (value : Value) : Option Nat :=
  match value.untagged with
  | .int n => if 0 ≤ n ∧ n < Word.bound then some n.toNat else none
  | _ => none

def text? (value : Value) : Option String :=
  match value.untagged with
  | .string s => some s
  | _ => none

end Yaml.Value

/-- a policy by name, or as a tag on nothing -/
def Policy.ofYaml? : Yaml.Value → Option Policy
  | .string name => ofName? name
  | .tagged tag .null => all.find? fun policy => tag = "!" ++ policy.name
  | _ => none

namespace Config

/-- the names of the settings -/
def settings : List String := ["on_step_error", "stored_traces", "trace_channel_capacity", "log_level"]

/-- entries by name, if all their keys are text -/
def named? : List (Yaml.Value × Yaml.Value) → Option (List (String × Yaml.Value))
  | [] => some []
  | (key, value) :: rest => do
    let name ← key.text?
    let rest ← named? rest
    some ((name, value) :: rest)

/-- no setting is there twice -/
def settledOnce (entries : List (String × Yaml.Value)) : Bool :=
  settings.all fun name => (entries.filter (·.1 = name)).length ≤ 1

/-- the configuration that a section says; other names than those of the settings mean nothing -/
def ofSection? (part : Yaml.Value) : Option Config :=
  match part.untagged with
  | .null => some {}
  | .mapping entries =>
    ((named? entries).filter settledOnce).bind fun named =>
      let setting (name : String) : Option Yaml.Value := (named.find? (·.1 = name)).map (·.2)
      Written.config?
        { onStepError := (setting "on_step_error").map Policy.ofYaml?
          storedTraces := (setting "stored_traces").map Yaml.Value.word?
          traceChannelCapacity := (setting "trace_channel_capacity").map Yaml.Value.word?
          logLevel := (setting "log_level").map Yaml.Value.text? }
  | _ => none

/-- the section of the engine in a document -/
def section? : Yaml.Value → Option Yaml.Value
  | .null => some .null
  | .mapping entries => some ((Yaml.Value.get? "engine" entries).getD .null)
  | _ => none

/-- the configuration in a document, not yet checked -/
def ofYaml (document : Yaml.Value) : Except ConfigError Config :=
  match section? document with
  | none => .error (.invalid .root)
  | some part =>
    match ofSection? part with
    | some config => .ok config
    | none => .error (.invalid .engineSection)

/-- refuse what no engine can run with -/
def validate (config : Config) : Except ConfigError Config :=
  if config.storedTraces = 0 then .error (.invalid .storedTraces)
  else if config.traceChannelCapacity = 0 then .error (.invalid .traceChannelCapacity)
  else .ok config

/-- the checked configuration in a YAML text -/
def load (env : Environment) (text : String) : Except ConfigError Config := do
  (← ofYaml (← Yaml.load env text)).validate

/-- the checked configuration in a file, given by its bytes, or `none` if there is no such file -/
def loadFile (env : Environment) (file : Option ByteArray) : Except ConfigError Config := do
  (← ofYaml (← Yaml.loadFile env file)).validate

end Config

end SignalFlow
