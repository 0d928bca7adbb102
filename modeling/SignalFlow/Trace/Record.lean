import SignalFlow.Run.State
import SignalFlow.Trace.Timestamp
/-!
# Traces

A trace shows a run at one moment: the tree of its signal with the slot of each branch in place.

* `Record`          one branch: what is fixed about it, its slot, and the records under its outputs;
* `Trace`           the records of the outermost list and the state of the run;
* `Trace.records`   all records, a branch before those under its outputs;
* `Shared.snapshot` the trace of a run.
-/

namespace SignalFlow

/-- what is fixed about a branch, as far as a trace shows it -/
structure Occurrence where
  name : String
  position : Position
  isAsync : Bool
  actionIndex : Nat
  deriving DecidableEq, Inhabited, Repr

/-- what a trace shows of an occurrence in a tree -/
def Spec.occurrence (spec : Spec) : Occurrence :=
  ⟨spec.name, spec.position, spec.isAsync, spec.actionIndex⟩

inductive Record
  | mk (occurrence : Occurrence) (slot : Slot)
      (outputs : Option (List (String × List (Item Record))))
  deriving Inhabited

namespace Record

def occurrence : Record → Occurrence
  | mk occurrence _ _ => occurrence

def slot : Record → Slot
  | mk _ slot _ => slot

def outputs : Record → Option (List (String × List (Item Record)))
  | mk _ _ outputs => outputs

def name (r : Record) : String := r.occurrence.name

/-! ## all records of a part -/

mutual

def all : Record → List Record
  | mk occurrence slot (some outputs) =>
    mk occurrence slot (some outputs) :: allOfOutputs outputs
  | mk occurrence slot none => [mk occurrence slot none]

def allOfOutputs : List (String × List (Item Record)) → List Record
  | [] => []
  | (_, items) :: rest => allOfItems items ++ allOfOutputs rest

def allOfItems : List (Item Record) → List Record
  | [] => []
  | .step r :: rest => all r ++ allOfItems rest
  | .group members :: rest => allOfMembers members ++ allOfItems rest

def allOfMembers : List Record → List Record
  | [] => []
  | r :: rest => all r ++ allOfMembers rest

end

/-! ## the records of compiled branches -/

mutual

/-- the record of a branch, its slot looked up by number -/
def ofBranch (slots : List Slot) : Branch → Record
  | .mk spec outputs => mk spec.occurrence (slots[spec.id]?.getD {}) (ofMap slots outputs)

def ofMap (slots : List Slot) :
    Option (List (String × List (Item Branch))) → Option (List (String × List (Item Record)))
  | some outputs => some (ofOutputs slots outputs)
  | none => none

def ofOutputs (slots : List Slot) :
    List (String × List (Item Branch)) → List (String × List (Item Record))
  | [] => []
  | (output, items) :: rest => (output, ofItems slots items) :: ofOutputs slots rest

def ofItems (slots : List Slot) : List (Item Branch) → List (Item Record)
  | [] => []
  | .step b :: rest => .step (ofBranch slots b) :: ofItems slots rest
  | .group members :: rest => .group (ofMembers slots members) :: ofItems slots rest

def ofMembers (slots : List Slot) : List Branch → List Record
  | [] => []
  | b :: rest => ofBranch slots b :: ofMembers slots rest

end

end Record

structure Trace where
  id : String
  name : String
  args : Args
  branches : List (Item Record)
  isExecuting : Bool
  duration : Option Nat
  startedAt : Timestamp
  deriving Inhabited

namespace Trace

def records (trace : Trace) : List Record := Record.allOfItems trace.branches

def find? (trace : Trace) (name : String) : Option Record :=
  trace.records.find? (·.name = name)

end Trace

/-- the trace of a run in this state -/
def Shared.snapshot (shared : Shared) (id name : String) (startedAt : Timestamp) (tree : Tree) :
    Trace :=
  { id, name, startedAt
    args := shared.args
    branches := Record.ofItems shared.slots tree.branches
    isExecuting := shared.isExecuting
    duration := shared.duration }

end SignalFlow
