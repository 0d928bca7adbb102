/-!
# Configuration of an engine

What happens when a step that runs through at once fails, how many traces are kept, and how large
the buffer is through which traces are sent.
-/

namespace SignalFlow

/-- what becomes of a run in which a sequential step fails -/
inductive Policy
  /-- the run stays where it is for ever -/
  | stall
  /-- the run ends with the failure -/
  | reject
  /-- the run goes on through the output `error` of the step, if the step may take it -/
  | errorOutput
  deriving DecidableEq, Inhabited, Repr

namespace Policy

def all : List Policy := [stall, reject, errorOutput]

def name : Policy → String
  | stall => "stall"
  | reject => "reject"
  | errorOutput => "error_output"

def title : Policy → String
  | stall => "Stall"
  | reject => "Reject"
  | errorOutput => "ErrorOutput"

def ofName? (name : String) : Option Policy := all.find? (·.name = name)

theorem ofName?_name (p : Policy) : ofName? p.name = some p := by cases p <;> decide

end Policy

structure Config where
  onStepError : Policy := .stall
  /-- completed traces kept for each signal -/
  storedTraces : Nat := 5
  /-- traces that a subscriber may fall behind -/
  traceChannelCapacity : Nat := 64
  logLevel : String := "info"
  deriving DecidableEq, Inhabited, Repr

/-- settings as they are written: each may be missing, and one that is there may be unusable -/
structure Config.Written where
  onStepError : Option (Option Policy) := none
  storedTraces : Option (Option Nat) := none
  traceChannelCapacity : Option (Option Nat) := none
  logLevel : Option (Option String) := none

/-- the configuration that settings say, the usual values standing for those that are missing -/
def Config.Written.config? (written : Written) : Option Config := do
  let usual : Config := {}
  let onStepError ← written.onStepError.getD (some usual.onStepError)
  let storedTraces ← written.storedTraces.getD (some usual.storedTraces)
  let traceChannelCapacity ← written.traceChannelCapacity.getD (some usual.traceChannelCapacity)
  let logLevel ← written.logLevel.getD (some usual.logLevel)
  some { onStepError, storedTraces, traceChannelCapacity, logLevel }

end SignalFlow
