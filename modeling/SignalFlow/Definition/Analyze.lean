import SignalFlow.Definition.Chain
import SignalFlow.Definition.Fault
/-!
# Checking definitions

`analyze` goes through a definition depth first and stops at the first fault: data that is no item,
a name without an action, an output map that does not directly follow an action or has an output
that the action may not take, a group directly inside a group. The lists of an output map are
sequential again, also inside a group.
-/

namespace SignalFlow

namespace Chain

mutual

def checkItem (signal : String) (here : Position) (concurrent : Bool) (previous : Option Chain) :
    Chain → Except Fault Unit
  | action _ => .ok ()
  | parallel members =>
    if concurrent then .error ⟨signal, here, .nestedGroup⟩
    else checkItems signal here true 0 none members
  | paths outputs =>
    match previous with
    | some (action a) => checkOutputs signal here a outputs
    | other => .error ⟨signal, here, .orphanOutputs ((other.map describe).getD "nothing")⟩
  | unresolved name => .error ⟨signal, here, .unresolvedAction name⟩
  | invalid value => .error ⟨signal, here, .invalidLeaf value.kind⟩

/-- check the items from `index` on -/
def checkItems (signal : String) (position : Position) (concurrent : Bool) (index : Nat)
    (previous : Option Chain) : List Chain → Except Fault Unit
  | [] => .ok ()
  | item :: rest =>
    match checkItem signal (position.item index) concurrent previous item with
    | .error fault => .error fault
    | .ok () => checkItems signal position concurrent (index + 1) (some item) rest

def checkOutputs (signal : String) (here : Position) (a : Action) :
    List (String × List Chain) → Except Fault Unit
  | [] => .ok ()
  | (output, items) :: rest =>
    if a.declares output then
      match checkItems signal (here.output output) false 0 none items with
      | .error fault => .error fault
      | .ok () => checkOutputs signal here a rest
    else .error ⟨signal, here, .undeclaredOutput a.name output⟩

end

end Chain

def analyze (signal : String) (definition : List Chain) : Except Fault Unit :=
  Chain.checkItems signal [] false 0 none definition

end SignalFlow
