import SignalFlow.Definition.Position
/-!
# Faults of definitions

Why a definition is refused, and where. Positions refer to the definition as written, so output
maps count as items.
-/

namespace SignalFlow

inductive FaultCause
  /-- data that is no item -/
  | invalidLeaf (found : String)
  /-- a name that stands for no action -/
  | unresolvedAction (name : String)
  /-- an output map that does not stand directly after an action -/
  | orphanOutputs (follows : String)
  /-- an output that the action may not take -/
  | undeclaredOutput (action output : String)
  /-- a group that is itself a member of a group -/
  | nestedGroup
  deriving DecidableEq, Inhabited, Repr

structure Fault where
  signal : String
  position : Position
  cause : FaultCause
  deriving DecidableEq, Inhabited, Repr

namespace Fault

def kind (fault : Fault) : String :=
  match fault.cause with
  | .invalidLeaf _ => "InvalidLeaf"
  | .unresolvedAction _ => "UnresolvedAction"
  | .orphanOutputs _ => "OrphanOutputs"
  | .undeclaredOutput .. => "UndeclaredOutput"
  | .nestedGroup => "NestedGroup"

def message (fault : Fault) : String :=
  let position := fault.position.text
  s!"signal '{fault.signal}': " ++ match fault.cause with
    | .invalidLeaf found =>
      s!"item at {position} is not an action, sequence or output map (found {found})"
    | .unresolvedAction name => s!"action '{name}' at {position} is not defined"
    | .orphanOutputs follows =>
      s!"output map at {position} does not directly follow an action (follows {follows})"
    | .undeclaredOutput action output =>
      s!"action '{action}' at {position} has no output named '{output}'"
    | .nestedGroup => s!"sequence at {position} is nested directly inside a concurrent group"

end Fault

end SignalFlow
