import SignalFlow.Config.Basic
import SignalFlow.Json.Value
/-!
# Configuration as JSON

A configuration is an object whose keys may all be missing, or a list of its first parts in order.
-/

namespace SignalFlow

/-- a policy by name, alone or as the key of a null -/
def Policy.ofJson? : Value → Option Policy
  | .string name => ofName? name
  | .object [(name, .null)] => ofName? name
  | _ => none

namespace Config

def textOfJson? : Value → Option String
  | .string s => some s
  | _ => none

def ofParts? (policy stored capacity level : Option Value) : Option Config :=
  Written.config?
    { onStepError := policy.map Policy.ofJson?
      storedTraces := stored.map Value.word?
      traceChannelCapacity := capacity.map Value.word?
      logLevel := level.map textOfJson? }

def ofJson? : Value → Option Config
  | .object fields =>
    ofParts? (Fields.get? "on_step_error" fields) (Fields.get? "stored_traces" fields)
      (Fields.get? "trace_channel_capacity" fields) (Fields.get? "log_level" fields)
  | .array parts =>
    if parts.length ≤ 4 then ofParts? parts[0]? parts[1]? parts[2]? parts[3]? else none
  | _ => none

def toJson (config : Config) : Value :=
  .ofEntries [("on_step_error", .string config.onStepError.name),
    ("stored_traces", .nat config.storedTraces),
    ("trace_channel_capacity", .nat config.traceChannelCapacity),
    ("log_level", .string config.logLevel)]

end Config

end SignalFlow
