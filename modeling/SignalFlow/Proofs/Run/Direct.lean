import SignalFlow.Run.Basic
/-!
# Running a definition as it is written

`Direct.run` reads a definition without compiling it and without walks: a big-step reading of the
list of items.

* `Direct.State`     the store, the arguments, and an account of the steps so far;
* `Direct.Ending`    how a list ends: completed, stalled, or failed with an error;
* `Direct.step`      an action in a sequential list;
* `Direct.items`     the items of a list in order; behind an action, the list under the output it took;
* `Direct.members`   the members of a group that has begun: each is settled, and followed by the list
                     under its output, before the next. An error ends the group; a member that stalls
                     only keeps it from ending.

Nothing here waits: `AsyncProgram.run` takes a body that may be suspended through to its end.
-/

namespace SignalFlow

/-- run a body to its end, gates and pauses not holding it up -/
def AsyncProgram.run (store : Store) : AsyncProgram → StepResult
  | finish result => result
  | get path next => (next (store.get? path)).run store
  | wait _ next => next.run store
  | pause next => next.run store

namespace Direct

/-- an entry of the account of a run -/
inductive Entry
  /-- a step began and saw these arguments -/
  | began (position : Position) (action : Action) (args : Args)
  /-- it ended with a payload and took an output -/
  | ended (position : Position) (action : Action) (payload : Value) (output : Option String)
  | givenUp (position : Position) (action : Action)

structure State where
  store : Store
  args : Args
  account : List Entry := []

/-- how a list ends -/
inductive Ending
  | completed
  | stalled
  | failed (error : RunError)

namespace State

def began (state : State) (here : Position) (a : Action) : State :=
  { state with account := state.account ++ [.began here a state.args] }

def ended (state : State) (here : Position) (a : Action) (payload : Value)
    (output : Option String) : State :=
  { state with
    args := Shared.mergeArgs state.args payload
    account := state.account ++ [.ended here a payload output] }

def givenUp (state : State) (here : Position) (a : Action) : State :=
  { state with account := state.account ++ [.givenUp here a] }

end State

/-! ## putting parts together -/

/-- go on if the part before was completed -/
def andThen (ran : State × Ending) (next : State → State × Ending) : State × Ending :=
  match ran with
  | (state, .completed) => next state
  | ended => ended

/-- go on unless the part before failed; if it stalled, all of it cannot be completed -/
def alongside (ran : State × Ending) (next : State → State × Ending) : State × Ending :=
  match ran with
  | (state, .completed) => next state
  | (state, .stalled) =>
    match next state with
    | (state, .completed) => (state, .stalled)
    | ended => ended
  | ended => ended

/-- go on through the output that a step took, if it took its way -/
def through (ran : State × Except Ending (Option String))
    (next : Option String → State → State × Ending) : State × Ending :=
  match ran with
  | (state, .ok output) => next output state
  | (state, .error ending) => (state, ending)

/-! ## steps -/

section
variable (signal : String) (policy : Policy) (here : Position) (a : Action)

def site : Site := ⟨signal, a.name, here⟩

/-- a sequential step failed -/
def fail (message : String) (state : State) : State × Except Ending (Option String) :=
  let reject := (state.givenUp here a, .error (.failed (.stepFailed (site signal here a) message)))
  match policy with
  | .stall => (state, .error .stalled)
  | .reject => reject
  | .errorOutput =>
    if a.declares "error" then
      (state.ended here a (.object [("error", .string message)]) (some "error"), .ok (some "error"))
    else reject

/-- a concurrent step has come to its result -/
def settle (result : StepResult) (state : State) : State × Except Ending (Option String) :=
  match result with
  | .error message =>
    (state.givenUp here a, .error (.failed (.asyncStepFailed (site signal here a) message)))
  | .ok outcome =>
    match a.resolve outcome.path with
    | .error output =>
      (state.givenUp here a, .error (.failed (.undeclaredOutput (site signal here a) output)))
    | .ok output => (state.ended here a outcome.payload output, .ok output)

/-- a step in a sequential list; one that may be suspended runs as a group of its own -/
def step (state : State) : State × Except Ending (Option String) :=
  let began := state.began here a
  match a.body with
  | .async body => settle signal here a ((body state.args).run state.store) began
  | .sync body =>
    let (view, result) := (body state.args).run { store := state.store, writable := true }
    let ran := { began with store := view.store }
    match result with
    | .error message => fail signal policy here a message ran
    | .ok outcome =>
      match a.resolve outcome.path with
      | .error output =>
        fail signal policy here a ("took undeclared output '" ++ output ++ "'") ran
      | .ok output => (ran.ended here a outcome.payload output, .ok output)

end

/-- what a member of a group comes to: one that runs through at once ran when the group began, on a
store that it could only read; any other runs on the store as it is now -/
def result (args : Args) (atStart now : Store) (a : Action) : StepResult :=
  match a.body with
  | .sync body => ((body args).run { store := atStart, writable := false }).2
  | .async body => (body args).run now

/-- the members of a group begin, all with the same arguments -/
def beginAll (position : Position) (index : Nat) : List Chain → State → State
  | [], state => state
  | .action a :: rest, state =>
    beginAll position (index + 1) rest (state.began (position.item index) a)
  | _ :: rest, state => beginAll position index rest state

/-! ## lists -/

section
variable (signal : String) (policy : Policy)

mutual

/-- the items of a list; `index` counts the items before them, output maps left aside -/
def items (position : Position) (index : Nat) : List Chain → State → State × Ending
  | [], state => (state, .completed)
  | .action a :: rest, state =>
    let here := position.item index
    andThen
      (through (step signal policy here a state) fun output state =>
        match rest with
        | behind :: _ => under here output behind state
        | [] => (state, .completed))
      (items position (index + 1) rest)
  | .parallel all :: rest, state =>
    let here := position.item index
    andThen (members here 0 state.args state.store all (beginAll here 0 all state))
      (items position (index + 1) rest)
  | _ :: rest, state => items position index rest state

/-- the members of a group that began with these arguments on this store -/
def members (position : Position) (index : Nat) (args : Args) (store : Store) :
    List Chain → State → State × Ending
  | [], state => (state, .completed)
  | .action a :: rest, state =>
    let here := position.item index
    alongside
      (through (settle signal here a (result args store state.store a) state) fun output state =>
        match rest with
        | behind :: _ => under here output behind state
        | [] => (state, .completed))
      (members position (index + 1) args store rest)
  | _ :: rest, state => members position index args store rest state

/-- what an item directly behind an action holds under the output that the action took -/
def under (here : Position) (output : Option String) : Chain → State → State × Ending
  | .paths outputs, state => follow here output outputs state
  | _, state => (state, .completed)

/-- the list under an output, if there is one -/
def follow (here : Position) (output : Option String) :
    List (String × List Chain) → State → State × Ending
  | [], state => (state, .completed)
  | (name, list) :: rest, state =>
    if output = some name then items (here.output name) 0 list state
    else follow here output rest state

end

/-- run a definition -/
def run (definition : List Chain) (store : Store) (args : Args) : State × Ending :=
  items signal policy [] 0 definition { store, args }

end

end Direct

end SignalFlow
