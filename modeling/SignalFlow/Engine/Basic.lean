import SignalFlow.Run.Basic
import SignalFlow.Trace.Log
/-!
# Engines

An engine holds what its signals share: the store, the configuration, and the log of completed
traces. A run that completes is recorded in the poll in which it does.
-/

namespace SignalFlow

structure Engine where
  config : Config
  store : Store
  log : TraceLog
  deriving Inhabited

namespace Engine

/-- an engine on a store, if its log can be opened -/
def open? (config : Config) (store : Store) : Option Engine :=
  (TraceLog.ofConfig? config).map fun log => { config, store, log }

/-- a signal with the policy of the engine -/
def create (engine : Engine) (name : String) (definition : List Chain) : Except Fault Signal :=
  Signal.create name engine.config.onStepError definition

def settle (engine : Engine) (run : Run) : Engine :=
  match run.settled with
  | some (.completed trace) => { engine with log := engine.log.record trace }
  | _ => engine

/-- poll a run once on the store of the engine -/
def poll (engine : Engine) (isOpen : String → Bool) (elapsed : Nat) (run : Run) : Engine × Run :=
  if run.settled.isSome then (engine, run)
  else
    let (run, store) := run.poll isOpen elapsed engine.store
    ({ engine with store }.settle run, run)

/-- poll a run at most `limit` times, as long as it asks for it -/
def drive (isOpen : String → Bool) (elapsed : Nat) : Nat → Engine → Run → Engine × Run
  | 0, engine, run => (engine, run)
  | limit + 1, engine, run =>
    let (engine, run) := engine.poll isOpen elapsed run
    if run.settled.isNone && run.woken then drive isOpen elapsed limit engine run
    else (engine, run)

end Engine

end SignalFlow
