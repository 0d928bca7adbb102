import SignalFlow.Config.Basic
import SignalFlow.Definition.Tree
import SignalFlow.Run.Error
/-!
# The state of a run

A run has shared arguments and one slot for each branch of its tree.

* `Slot`     what is known about one branch: untouched, executing, executed, or given up;
* `Event`    an entry of the journal: which step began, ended or was given up, in order;
* `Shared`   the state of a run that all its walks work on;
* `World`    that state together with the store;
* `Setting`  what is fixed while a run is polled.

A step begins by taking a copy of the arguments into its slot. It ends by merging its payload into
the arguments, key by key, and noting the output it took.
-/

namespace SignalFlow

/-- what is known about one branch -/
structure Slot where
  /-- the shared arguments as the step saw them -/
  args : Option Args := none
  /-- the payload it ended with -/
  output : Option Value := none
  /-- how long it took, in milliseconds -/
  duration : Option Nat := none
  mutations : List Mutation := []
  /-- the output it took -/
  outputPath : Option String := none
  isExecuting : Bool := false
  hasExecuted : Bool := false
  deriving Inhabited

inductive Event
  | began (id : Nat) (args : Args)
  | ended (id : Nat) (payload : Value) (output : Option String)
  | givenUp (id : Nat)
  deriving Inhabited

/-- where a walk stands: which member of which group, from the outside in -/
abbrev Address := List Nat

/-- the state of a run that its walks share -/
structure Shared where
  args : Args
  slots : List Slot
  isExecuting : Bool := true
  duration : Option Nat := none
  /-- the walks that wait at gates, in the order in which they began to wait -/
  waiting : List (String × Address) := []
  journal : List Event := []
  deriving Inhabited

structure World where
  store : Store
  shared : Shared
  deriving Inhabited

/-- what is fixed while a run is polled -/
structure Setting where
  signal : String
  policy : Policy
  isOpen : String → Bool
  /-- the time stamped on whatever ends in this poll, in milliseconds -/
  elapsed : Nat

/-- where a walk goes on after a step -/
inductive After
  | follow (items : List (Item Branch))
  | stall
  | fail (error : RunError)

namespace Shared

def initial (args : Args) (size : Nat) : Shared :=
  { args, slots := List.replicate size {} }

def updateSlot (shared : Shared) (id : Nat) (change : Slot → Slot) : Shared :=
  { shared with slots := shared.slots.modify id change }

/-- a step begins: a fresh slot with a copy of the arguments -/
def begin (shared : Shared) (b : Branch) : Shared :=
  { shared.updateSlot b.id fun _ => { args := some shared.args, isExecuting := true } with
    journal := shared.journal ++ [.began b.id shared.args] }

/-- the entries of an object payload go over the arguments; any other payload has no effect -/
def mergeArgs (args : Args) : Value → Args
  | .object fields => Fields.merge args fields
  | _ => args

/-- a step ends with a payload and the output it takes -/
def finish (shared : Shared) (b : Branch) (output : Option String) (payload : Value)
    (elapsed : Nat) : Shared :=
  { shared.updateSlot b.id fun slot =>
      { slot with
        output := if payload.isNull then none else some payload
        outputPath := output
        duration := some elapsed
        isExecuting := false
        hasExecuted := true } with
    args := mergeArgs shared.args payload
    journal := shared.journal ++ [.ended b.id payload output] }

/-- a step ends without an outcome -/
def abandon (shared : Shared) (b : Branch) (elapsed : Nat) : Shared :=
  { shared.updateSlot b.id fun slot =>
      { slot with duration := some elapsed, isExecuting := false } with
    journal := shared.journal ++ [.givenUp b.id] }

def complete (shared : Shared) (elapsed : Nat) : Shared :=
  { shared with isExecuting := false, duration := some elapsed }

/-- the run is rejected; no step is executing any more -/
def close (shared : Shared) (elapsed : Nat) : Shared :=
  { shared.complete elapsed with
    slots := shared.slots.map fun slot => { slot with isExecuting := false } }

/-- a walk waits at a gate; one that already did keeps its turn -/
def waitAt (shared : Shared) (gate : String) (here : Address) : Shared :=
  if shared.waiting.contains (gate, here) then shared
  else { shared with waiting := shared.waiting ++ [(gate, here)] }

end Shared

/-! ## steps -/

namespace Setting

def site (s : Setting) (b : Branch) : Site := ⟨s.signal, b.spec.name, b.spec.position⟩

/-- a step has ended with this outcome and output: merge it and go on below it -/
def advance (s : Setting) (b : Branch) (output : Option String) (payload : Value)
    (shared : Shared) : Shared × After :=
  (shared.finish b output payload s.elapsed, .follow (b.next output))

def errorPayload (message : String) : Value := .object [("error", .string message)]

/-- the failure of a sequential step, as the policy has it -/
def stepFailed (s : Setting) (b : Branch) (message : String) (shared : Shared) : Shared × After :=
  let reject := (shared.abandon b s.elapsed, After.fail (.stepFailed (s.site b) message))
  match s.policy with
  | .stall => (shared, .stall)
  | .errorOutput =>
    if b.action.declares "error" then s.advance b (some "error") (errorPayload message) shared
    else reject
  | .reject => reject

/-- the message of a sequential step that took an output it does not declare -/
def undeclared (output : String) : String := "took undeclared output '" ++ output ++ "'"

/-- what becomes of a sequential step after its body has run -/
def conclude (s : Setting) (b : Branch) (result : StepResult) (shared : Shared) :
    Shared × After :=
  match result with
  | .error message => s.stepFailed b message shared
  | .ok outcome =>
    match b.action.resolve outcome.path with
    | .error output => s.stepFailed b (undeclared output) shared
    | .ok output => s.advance b output outcome.payload shared

def runSync (s : Setting) (b : Branch) (step : Args → SyncProgram) (w : World) : World × After :=
  let shared := w.shared.begin b
  let (view, result) := (step w.shared.args).run { store := w.store, writable := true }
  let shared := shared.updateSlot b.id fun slot => { slot with mutations := view.log }
  let (shared, after) := s.conclude b result shared
  (⟨view.store, shared⟩, after)

/-- what becomes of a concurrent step after its body has ended -/
def settle (s : Setting) (b : Branch) (result : StepResult) (shared : Shared) : Shared × After :=
  match result with
  | .error message =>
    (shared.abandon b s.elapsed, .fail (.asyncStepFailed (s.site b) message))
  | .ok outcome =>
    match b.action.resolve outcome.path with
    | .error output =>
      (shared.abandon b s.elapsed, .fail (.undeclaredOutput (s.site b) output))
    | .ok output => s.advance b output outcome.payload shared

end Setting

/-- what a member of a group still has to run: the body of a step that runs through at once has
already run, on a view of the store that it may not change -/
def Action.started (action : Action) (args : Args) (store : Store) : AsyncProgram :=
  match action.body with
  | .async step => step args
  | .sync step => .finish ((step args).run { store, writable := false }).2

end SignalFlow
