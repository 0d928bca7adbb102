import SignalFlow.Store.Basic
/-!
# Mutation logs and views of a store

* `Mutation`  one logged change: the operation, the path, and its arguments as values. Of an
              `apply` the function is not kept;
* `replay`    a log carried out again, failing calls included;
* `View`      a store as one step sees it, with the log of the changes it asked for. A view that is
              not writable refuses every change and logs nothing; a writable one logs a change
              before it is tried.
-/

namespace SignalFlow

structure Mutation where
  method : Mutator
  path : Path
  args : List Value
  deriving Inhabited

namespace Call

/-- the arguments of a change as values -/
def logged : Call → List Value
  | set value | merge value | deepMerge value | push value | unshift value => [value]
  | concat items => items
  | splice start count items => .nat start :: .nat count :: items
  | unset | apply _ => []

end Call

namespace Mutation

def ofCall (path : Path) (call : Call) : Mutation := ⟨call.mutator, path, call.logged⟩

/-- the change that an entry stands for; `apply` cannot be told from its entry -/
def call? (m : Mutation) : Option Call :=
  match m.method, m.args with
  | .set, [value] => some (.set value)
  | .merge, [value] => some (.merge value)
  | .deepMerge, [value] => some (.deepMerge value)
  | .concat, items => some (.concat items)
  | .unset, [] => some .unset
  | .push, [value] => some (.push value)
  | .splice, start :: count :: items => do
    let start ← start.word?
    let count ← count.word?
    some (.splice start count items)
  | .unshift, [value] => some (.unshift value)
  | _, _ => none

/-- an entry as JSON, `object` being the way to build an object -/
def encode (object : List (String × Value) → Value) (m : Mutation) : Value :=
  object [("name", .string m.method.name), ("path", .array (m.path.map .string)),
    ("args", .array m.args)]

def toJson (m : Mutation) : Value := m.encode .ofEntries

/-- carry out an entry; its answer does not matter -/
def perform (store : Store) (m : Mutation) : Store :=
  match m.call? with
  | some call => (store.call m.path call).1
  | none => store

end Mutation

/-- carry out a log from its beginning -/
def Store.replay (store : Store) (log : List Mutation) : Store := log.foldl Mutation.perform store

@[simp] theorem Store.replay_nil (store : Store) : store.replay [] = store := rfl

theorem Store.replay_append (store : Store) (first second : List Mutation) :
    store.replay (first ++ second) = (store.replay first).replay second := by
  simp [Store.replay, List.foldl_append]

/-- a store as one step sees it -/
structure View where
  store : Store
  /-- the changes asked for so far -/
  log : List Mutation := []
  writable : Bool
  deriving Inhabited

namespace View

def get? (view : View) (path : Path) : Option Value := view.store.get? path

def call (view : View) (path : Path) (call : Call) : View × Except StoreError Value :=
  if view.writable then
    let (store, answer) := view.store.call path call
    ({ view with store, log := view.log ++ [.ofCall path call] }, answer)
  else (view, .error (.readOnly call.mutator path))

end View

end SignalFlow
