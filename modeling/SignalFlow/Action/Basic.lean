import SignalFlow.Action.Program
import SignalFlow.Text.Quoted
/-!
# Actions

A named step that can be placed in definitions. An action has an identity of its own: two actions
are the same when their identities are, whatever their names. Changing the outputs of an action
makes another action, so the builders take the identity of the new one.

An action that declares no outputs may take any.
-/

namespace SignalFlow

/-- the body of an action, given the shared arguments -/
inductive Body
  | sync (step : Args → SyncProgram)
  | async (step : Args → AsyncProgram)

instance : Inhabited Body := ⟨.sync fun _ => default⟩

structure Action where
  identity : Nat
  name : String
  /-- the outputs it declares -/
  outputs : List String := []
  /-- the output it takes when its outcome names none -/
  defaultOutput : Option String := none
  body : Body
  deriving Inhabited

namespace Action

def isAsync (action : Action) : Bool :=
  match action.body with
  | .async _ => true
  | .sync _ => false

def declares (action : Action) (output : String) : Bool :=
  action.outputs.isEmpty || action.outputs.contains output

def sameAs (action other : Action) : Bool := action.identity = other.identity

/-- the action with other outputs; a default output stays declared -/
def withOutputs (action : Action) (identity : Nat) (outputs : List String) : Action :=
  let kept := match action.defaultOutput with
    | some output => if outputs.contains output then outputs else outputs ++ [output]
    | none => outputs
  { action with identity, outputs := kept }

/-- the action with another default output, declared if the action declares any -/
def withDefaultOutput (action : Action) (identity : Nat) (output : String) : Action :=
  let outputs :=
    if !action.outputs.isEmpty && !action.outputs.contains output then action.outputs ++ [output]
    else action.outputs
  { action with identity, outputs, defaultOutput := some output }

/-- the output that an outcome leads to, or the name it may not take -/
def resolve (action : Action) (path : Option String) : Except String (Option String) :=
  match path <|> action.defaultOutput with
  | some output => if action.declares output then .ok (some output) else .error output
  | none => .ok none

def describe (action : Action) : String :=
  "Action \x7b name: " ++ Text.quoted action.name
    ++ ", async: " ++ (if action.isAsync then "true" else "false")
    ++ ", outputs: " ++ Text.quotedList action.outputs
    ++ ", default_output: " ++ Text.quotedOption action.defaultOutput ++ " \x7d"

end Action

end SignalFlow
