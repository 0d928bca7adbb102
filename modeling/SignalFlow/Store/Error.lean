import SignalFlow.Store.Path
/-!
# What can go wrong in a store

* `Mutator`     the nine operations that change a store, by name;
* `StoreError`  why one of them is refused, with its wording in `StoreError.message`.
-/

namespace SignalFlow

inductive Mutator
  | set | merge | deepMerge | concat | unset | push | splice | unshift | apply
  deriving DecidableEq, Inhabited, Repr

namespace Mutator

def all : List Mutator := [set, merge, deepMerge, concat, unset, push, splice, unshift, apply]

def name : Mutator → String
  | set => "set"
  | merge => "merge"
  | deepMerge => "deep_merge"
  | concat => "concat"
  | unset => "unset"
  | push => "push"
  | splice => "splice"
  | unshift => "unshift"
  | apply => "apply"

def ofName? (name : String) : Option Mutator := all.find? (·.name = name)

theorem ofName?_name (m : Mutator) : ofName? m.name = some m := by cases m <;> decide

end Mutator

/-- the shape that an operation asks for -/
inductive Shape
  | object | array | objectAtRoot
  deriving DecidableEq, Inhabited, Repr

def Shape.text : Shape → String
  | .object => "an object"
  | .array => "an array"
  | .objectAtRoot => "an object when setting the root"

/-- why an operation on a store is refused -/
inductive StoreError
  /-- a key leads through a value that holds nothing -/
  | notAContainer (path : Path)
  /-- the value at the path has another shape -/
  | typeMismatch (path : Path) (expected : Shape)
  /-- a key is no index of the array at the path, nor the one behind its end -/
  | invalidIndex (path : Path) (key : String)
  /-- the view of the store does not allow changes -/
  | readOnly (method : Mutator) (path : Path)
  /-- the argument has another shape -/
  | invalidArgument (method : Mutator) (expected : Shape)
  deriving DecidableEq, Inhabited, Repr

namespace StoreError

def kind : StoreError → String
  | notAContainer .. => "NotAContainer"
  | typeMismatch .. => "TypeMismatch"
  | invalidIndex .. => "InvalidIndex"
  | readOnly .. => "ReadOnly"
  | invalidArgument .. => "InvalidArgument"

def message : StoreError → String
  | notAContainer path => s!"cannot descend into '{path.display}': not an object or array"
  | typeMismatch path expected => s!"expected {expected.text} at '{path.display}'"
  | invalidIndex path key => s!"invalid array index '{key}' at '{path.display}'"
  | readOnly method path => s!"cannot {method.name} '{path.display}': state is read-only here"
  | invalidArgument method expected => s!"{method.name} expects {expected.text}"

end StoreError

end SignalFlow
