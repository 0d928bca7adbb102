import SignalFlow.Definition.Analyze
import SignalFlow.Run.Walk
import SignalFlow.Trace.Record
/-!
# Signals and their runs

A signal is a definition that was checked and compiled. `Signal.start` begins a run: it takes the
arguments and does nothing else; a run makes progress when it is polled, until it is settled.
-/

namespace SignalFlow

structure Signal where
  name : String
  tree : Tree
  policy : Policy
  deriving Inhabited

inductive Settled
  | completed (trace : Trace)
  | rejected (error : RunError)
  deriving Inhabited

structure Run where
  id : String
  signal : Signal
  startedAt : Timestamp
  shared : Shared
  walk : Walk
  /-- has it asked to be polled again? -/
  woken : Bool := false
  settled : Option Settled := none
  deriving Inhabited

namespace Signal

def create (name : String) (policy : Policy) (definition : List Chain) : Except Fault Signal :=
  match analyze name definition with
  | .error fault => .error fault
  | .ok () => .ok ⟨name, Tree.compile definition, policy⟩

def describe (signal : Signal) : String :=
  "Signal \x7b name: " ++ Text.quoted signal.name ++ ", branches: " ++ toString signal.tree.size
    ++ ", policy: " ++ signal.policy.title ++ " \x7d"

/-- arguments as a caller hands them over -/
inductive Input
  | data (value : Value)
  /-- something that cannot be written as data -/
  | unwritable (reason : String)
  deriving Inhabited

/-- the arguments of a run: an object, or nothing for none -/
def prepareArgs (signal : Signal) : Input → Except RunError Args
  | .data (.object args) => .ok args
  | .data .null => .ok []
  | .data other => .error (.argsNotObject signal.name other.kind)
  | .unwritable reason => .error (.invalidArgs signal.name reason)

def start (signal : Signal) (id : String) (startedAt : Timestamp) (input : Input) :
    Except RunError Run :=
  match signal.prepareArgs input with
  | .error error => .error error
  | .ok args =>
    .ok { id, signal, startedAt
          shared := .initial args signal.tree.size
          walk := .ready signal.tree.branches }

end Signal

namespace Run

def snapshot (run : Run) : Trace :=
  run.shared.snapshot run.id run.signal.name run.startedAt run.signal.tree

def isExecuting (run : Run) : Bool := run.shared.isExecuting

def setting (run : Run) (isOpen : String → Bool) (elapsed : Nat) : Setting :=
  ⟨run.signal.name, run.signal.policy, isOpen, elapsed⟩

/-- poll a run once; a settled run is left alone -/
def poll (isOpen : String → Bool) (elapsed : Nat) (run : Run) (store : Store) : Run × Store :=
  if run.settled.isSome then (run, store)
  else
    let polled := run.walk.poll (run.setting isOpen elapsed) ⟨store, run.shared⟩
    let run := { run with walk := polled.walk, shared := polled.world.shared, woken := polled.woken }
    let run :=
      match polled.walk.error? with
      | some error =>
        { run with shared := run.shared.close elapsed, settled := some (.rejected error) }
      | none =>
        if polled.walk.isDone then
          let run := { run with shared := run.shared.complete elapsed }
          { run with settled := some (.completed run.snapshot) }
        else run
    (run, polled.world.store)

/-- one of those who wait can go on -/
def wake (address : Address) (run : Run) : Run :=
  let (walk, reached) := run.walk.wake address
  { run with walk, woken := run.woken || reached }

/-- a gate was opened: those who wait there can go on, in the order in which they began to wait -/
def gateOpened (run : Run) (gate : String) : Run :=
  let (there, elsewhere) := run.shared.waiting.partition (·.1 = gate)
  let run := { run with shared := { run.shared with waiting := elsewhere } }
  there.foldl (fun run entry => run.wake entry.2) run

end Run

end SignalFlow
