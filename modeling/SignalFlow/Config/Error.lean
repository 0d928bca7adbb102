/-!
# Why a configuration is refused

`ConfigError` lists the causes in the order in which loading meets them: the file, its text, the
variables it asks for, and the values it holds.
-/

namespace SignalFlow

/-- a part of a configuration whose value cannot be used -/
inductive ConfigPart
  /-- the text of an `!env_var` node -/
  | variableName
  /-- the document as a whole -/
  | root
  /-- the section of the engine -/
  | engineSection
  | storedTraces
  | traceChannelCapacity
  deriving DecidableEq, Inhabited, Repr

namespace ConfigPart

def key : ConfigPart → String
  | variableName => "!env_var"
  | root => "root"
  | engineSection => "engine"
  | storedTraces => "engine.stored_traces"
  | traceChannelCapacity => "engine.trace_channel_capacity"

def reason : ConfigPart → String
  | variableName => "environment variable name must be a string"
  | root => "configuration must be a mapping"
  | engineSection => "values do not have the types of the engine's settings"
  | storedTraces => "must keep at least one trace"
  | traceChannelCapacity => "must be greater than zero"

end ConfigPart

inductive ConfigError
  /-- there is no such file, or it is not text -/
  | unreadable
  /-- the text is no YAML document -/
  | malformed
  /-- an `!env_var` node names a variable that is not set, and says nothing to use instead -/
  | unsetVariable (name : String)
  | invalid (part : ConfigPart)
  deriving DecidableEq, Inhabited, Repr

namespace ConfigError

def kind : ConfigError → String
  | unreadable => "ReadFile"
  | malformed => "ParseYaml"
  | unsetVariable _ => "EnvVarNotFound"
  | invalid _ => "InvalidValue"

def message : ConfigError → String
  | unreadable => "cannot read engine config"
  | malformed => "engine config is not valid YAML"
  | unsetVariable name => s!"!env_var {name} is not set and has no fallback"
  | invalid part => s!"{part.key}: {part.reason}"

end ConfigError

end SignalFlow
