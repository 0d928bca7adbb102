import SignalFlow.Definition.Chain
import SignalFlow.Definition.Position
/-!
# Compiled definitions

Compiling numbers the steps of a definition and puts the output map of a step under it.

* `Item`    an item of a compiled list: one thing run on its own, or a group run concurrently;
* `Spec`    what is fixed about one occurrence of an action;
* `Branch`  an occurrence with the lists under its outputs;
* `Tree`    the table of actions, each identity once, the outermost list, and all branches in the
            order of their numbers.

A branch is numbered before those under its outputs. Output maps take no index in a compiled list,
and whatever a check would have refused is left out.
-/

namespace SignalFlow

/-- one thing run on its own, or several run concurrently -/
inductive Item (β : Type u)
  | step (one : β)
  | group (members : List β)
  deriving Inhabited, Repr

namespace Item

def step? {β : Type u} : Item β → Option β
  | step one => some one
  | group _ => none

def members {β : Type u} : Item β → List β
  | step one => [one]
  | group all => all

end Item

/-- what is fixed about one occurrence of an action -/
structure Spec where
  id : Nat
  name : String
  position : Position
  /-- a direct member of a group -/
  isAsync : Bool
  /-- where the action stands in the table -/
  actionIndex : Nat
  action : Action
  deriving Inhabited

/-- an occurrence of an action, with the lists under its outputs if an output map follows it -/
inductive Branch
  | mk (spec : Spec) (outputs : Option (List (String × List (Item Branch))))
  deriving Inhabited

namespace Branch

def spec : Branch → Spec
  | mk spec _ => spec

def outputs : Branch → Option (List (String × List (Item Branch)))
  | mk _ outputs => outputs

def id (b : Branch) : Nat := b.spec.id

def action (b : Branch) : Action := b.spec.action

/-- the list under an output, nothing to run if there is none -/
def next (b : Branch) (output : Option String) : List (Item Branch) :=
  match output, b.outputs with
  | some name, some outputs => (Keyed.get? name outputs).getD []
  | _, _ => []

end Branch

structure Tree where
  /-- each action once, in the order of first use -/
  actions : List Action
  /-- the outermost list -/
  branches : List (Item Branch)
  /-- all branches by number -/
  specs : List Branch
  deriving Inhabited

namespace Tree

def size (tree : Tree) : Nat := tree.specs.length

def isEmpty (tree : Tree) : Bool := tree.specs.isEmpty

/-! ## compiling -/

/-- the table with the action in it, and where it stands -/
def place (table : List Action) (action : Action) : List Action × Nat :=
  match table.findIdx? (·.sameAs action) with
  | some index => (table, index)
  | none => (table ++ [action], table.length)

/-- part of a tree: the table so far, a compiled thing and the branches in it -/
structure Part (α : Type) where
  table : List Action
  result : α
  specs : List Branch

mutual

/-- compile what follows an action, if it is an output map -/
def compileMap (here : Position) (next : Nat) (table : List Action) :
    Chain → Part (Option (List (String × List (Item Branch))))
  | .paths outputs =>
    let part := compileOutputs here next table outputs
    ⟨part.table, some part.result, part.specs⟩
  | _ => ⟨table, none, []⟩

/-- compile items; `index` counts the compiled items before them, `next` is the next number -/
def compileItems (concurrent : Bool) (position : Position) (index next : Nat)
    (table : List Action) : List Chain → Part (List (Item Branch))
  | [] => ⟨table, [], []⟩
  | .action action :: rest =>
    let here := position.item index
    let (table, actionIndex) := place table action
    let below := match rest with
      | following :: _ => compileMap here (next + 1) table following
      | [] => ⟨table, none, []⟩
    let branch := Branch.mk ⟨next, action.name, here, concurrent, actionIndex, action⟩ below.result
    let after := compileItems concurrent position (index + 1) (next + 1 + below.specs.length)
      below.table rest
    ⟨after.table, .step branch :: after.result, branch :: (below.specs ++ after.specs)⟩
  | .parallel members :: rest =>
    let inside := compileItems (!concurrent) (position.item index) 0 next table members
    let after := compileItems concurrent position (index + 1) (next + inside.specs.length)
      inside.table rest
    ⟨after.table, .group (inside.result.filterMap Item.step?) :: after.result,
      inside.specs ++ after.specs⟩
  | _ :: rest => compileItems concurrent position index next table rest

def compileOutputs (here : Position) (next : Nat) (table : List Action) :
    List (String × List Chain) → Part (List (String × List (Item Branch)))
  | [] => ⟨table, [], []⟩
  | (output, items) :: rest =>
    let inside := compileItems false (here.output output) 0 next table items
    let after := compileOutputs here (next + inside.specs.length) inside.table rest
    ⟨after.table, (output, inside.result) :: after.result, inside.specs ++ after.specs⟩

end

def compile (definition : List Chain) : Tree :=
  let part := compileItems false [] 0 0 [] definition
  ⟨part.table, part.result, part.specs⟩

end Tree

end SignalFlow
