import SignalFlow.Config.Basic
import SignalFlow.Trace.Channel
import SignalFlow.Trace.Record
/-!
# The log of completed traces

The log keeps the last traces of every signal and sends each trace to all subscribers when it is
recorded. At least one trace is kept for each signal.
-/

namespace SignalFlow

structure TraceLog where
  /-- traces kept for each signal -/
  capacity : Nat
  /-- the kept traces by the name of the signal, oldest first -/
  traces : List (String × List Trace) := []
  channel : Channel Trace
  deriving Inhabited

namespace TraceLog

/-- an empty log, if a channel of this capacity can be opened; zero counts as one -/
def open? (capacity channelCapacity : Nat) : Option TraceLog :=
  (Channel.open? (max channelCapacity 1)).map fun channel =>
    { capacity := max capacity 1, channel }

def ofConfig? (config : Config) : Option TraceLog :=
  open? config.storedTraces config.traceChannelCapacity

/-- the kept traces of a signal, oldest first -/
def tracesOf (log : TraceLog) (signal : String) : List Trace :=
  (Fields.get? signal log.traces).getD []

def record (log : TraceLog) (trace : Trace) : TraceLog :=
  let all := log.tracesOf trace.name ++ [trace]
  let kept := all.drop (all.length - log.capacity)
  { log with
    channel := log.channel.send trace
    traces := Fields.insert trace.name kept log.traces }

def latest? (log : TraceLog) (signal : String) : Option Trace := (log.tracesOf signal).getLast?

/-- the first kept trace of a signal with this id -/
def get? (log : TraceLog) (signal id : String) : Option Trace :=
  (log.tracesOf signal).find? (·.id = id)

def names (log : TraceLog) : List String := log.traces.map (·.1)

/-- forget the traces of a signal, and say how many there were -/
def clear (log : TraceLog) (signal : String) : TraceLog × Nat :=
  ({ log with traces := Fields.erase signal log.traces }, (log.tracesOf signal).length)

end TraceLog

end SignalFlow
