import SignalFlow.Action.Catalog
/-!
# Definitions

A definition is a list of items. The items of the outermost list run one after another.

* `action`      a step;
* `parallel`    members that run concurrently with each other;
* `paths`       an output map: which list runs next for each output of the action before it;
* `unresolved`  a name that the catalog does not know;
* `invalid`     any other data.

`Chain.listOfJson` reads a definition from JSON: a string names an action, a list is a group, an
object whose values are all lists is an output map.
-/

namespace SignalFlow

inductive Chain
  | action (action : Action)
  | parallel (members : List Chain)
  | paths (outputs : List (String × List Chain))
  | unresolved (name : String)
  | invalid (value : Value)
  deriving Inhabited

namespace Chain

def describe : Chain → String
  | action a => s!"action '{a.name}'"
  | parallel _ => "sequence"
  | paths _ => "output map"
  | unresolved name => s!"unresolved '{name}'"
  | invalid value => value.kind

def named (catalog : Catalog) (name : String) : Chain :=
  match catalog.get? name with
  | some a => action a
  | none => unresolved name

/-! ## from JSON -/

mutual

def ofJson (catalog : Catalog) : Value → Chain
  | .string name => named catalog name
  | .array items => parallel (itemsOfJson catalog items)
  | .object fields =>
    if fields.all (·.2.isArray) then paths (pathsOfJson catalog fields)
    else invalid (.object fields)
  | other => invalid other

def itemsOfJson (catalog : Catalog) : List Value → List Chain
  | [] => []
  | item :: rest => ofJson catalog item :: itemsOfJson catalog rest

def pathsOfJson (catalog : Catalog) : List (String × Value) → List (String × List Chain)
  | [] => []
  | (output, .array items) :: rest =>
    (output, itemsOfJson catalog items) :: pathsOfJson catalog rest
  | (output, other) :: rest => (output, [ofJson catalog other]) :: pathsOfJson catalog rest

end

/-- a whole definition; anything but a list counts as a list of one -/
def listOfJson (catalog : Catalog) : Value → List Chain
  | .array items => itemsOfJson catalog items
  | other => [ofJson catalog other]

end Chain

end SignalFlow
