import SignalFlow.Action.Basic
import SignalFlow.Keyed
/-!
# Catalogs

Actions that definitions written as data refer to by name. A later action of the same name takes
the place of the earlier one.
-/

namespace SignalFlow

structure Catalog where
  entries : List (String × Action) := []
  deriving Inhabited

namespace Catalog

def register (catalog : Catalog) (action : Action) : Catalog :=
  ⟨Keyed.put action.name action catalog.entries⟩

def ofList (actions : List Action) : Catalog := actions.foldl register {}

def get? (catalog : Catalog) (name : String) : Option Action := Keyed.get? name catalog.entries

def size (catalog : Catalog) : Nat := catalog.entries.length

def isEmpty (catalog : Catalog) : Bool := catalog.entries.isEmpty

theorem get?_register (catalog : Catalog) (action : Action) :
    (catalog.register action).get? action.name = some action :=
  Keyed.get?_put_self ..

end Catalog

end SignalFlow
