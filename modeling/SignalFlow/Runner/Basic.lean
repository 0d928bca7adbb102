import SignalFlow.Config.Load
import SignalFlow.Json.Writer
import SignalFlow.Runner.Checkout
import SignalFlow.Runner.LogLevel
import SignalFlow.Trace.Json
/-!
# Running the checkout

`Runner.run` takes a configuration, runs the checkout once on an empty store, and reports the trace
together with the lines to be logged. What can go wrong on the way is a `Runner.Failure`.
-/

namespace SignalFlow

/-- open gates one after another at their times, and poll a run once behind each -/
def Engine.await (engine : Engine) (run : Run) (opened : List String) :
    List (String × Nat) → Engine × Run
  | [] => (engine, run)
  | (gate, elapsed) :: rest =>
    let opened := gate :: opened
    let (engine, run) := engine.poll opened.contains elapsed (run.gateOpened gate)
    Engine.await engine run opened rest

namespace Runner

inductive Failure
  /-- the file at this path holds no configuration -/
  | configuration (path : String) (cause : ConfigError)
  | logLevel (text : String)
  /-- no log of traces can be opened for this configuration -/
  | traceLog (capacity : Nat)
  | definition (fault : Fault)
  | run (error : RunError)
  /-- the run has no end -/
  | unsettled
  deriving Inhabited

def Failure.message : Failure → String
  | configuration path _ => s!"Failed to load engine configuration from {path}"
  | logLevel text => s!"Invalid log level '{text}'"
  | traceLog capacity => s!"cannot buffer {capacity} traces"
  | definition fault => fault.message
  | run error => error.message
  | unsettled => "the signal did not finish"

/-- what led to the failure, if there is more to say -/
def Failure.cause? : Failure → Option String
  | configuration _ cause => some cause.message
  | logLevel _ => some "expected a level's name, or a number from 1 to 5"
  | _ => none

structure Report where
  /-- the lines to be logged, in order -/
  lines : List String
  trace : Trace

/-- the line before the run -/
def openingLine (config : Config) : String :=
  s!"Starting signal runner policy={config.onStepError.title}"

/-- the line behind the run -/
def closingLine (store : Store) (trace : Trace) : String :=
  let receipts := (store.get? Checkout.receipts).getD .null
  "Checkout finished run_id=" ++ trace.id ++ " duration_ms=" ++ toString (trace.duration.getD 0)
    ++ " receipts=" ++ receipts.compact

/-- the configuration at a path, given by the bytes found there, or the usual one without a path -/
def configure (env : Environment) : Option (String × Option ByteArray) → Except Failure Config
  | none => .ok {}
  | some (path, file) => (Config.loadFile env file).mapError (.configuration path)

/-- run the checkout once; `id` and `startedAt` are those of the run -/
def run (config : Config) (id : String) (startedAt : Timestamp) : Except Failure Report :=
  match LogLevel.ofText? config.logLevel with
  | none => .error (.logLevel config.logLevel)
  | some level =>
    match Engine.open? config {} with
    | none => .error (.traceLog config.traceChannelCapacity)
    | some engine =>
      match engine.create "checkout" Checkout.definition with
      | .error fault => .error (.definition fault)
      | .ok signal =>
        match signal.start id startedAt (.data Checkout.order) with
        | .error error => .error (.run error)
        | .ok begun =>
          let (engine, begun) := engine.poll (fun _ => false) 0 begun
          let (engine, ended) := engine.await begun [] Checkout.delays
          match ended.settled with
          | some (.completed trace) =>
            let lines := [openingLine config, closingLine engine.store trace]
            .ok { trace, lines := if level.shownAt .info then lines else [] }
          | some (.rejected error) => .error (.run error)
          | none => .error .unsettled

end Runner

end SignalFlow
