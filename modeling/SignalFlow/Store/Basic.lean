import SignalFlow.Json.Value
import SignalFlow.Store.Error
/-!
# The store: a tree of values changed by path

* `Value.at?`      what a path leads to;
* `Value.visit`    walks down a path, opening it on the way, and changes what it finds: a null
                   becomes an object, a missing key gets a null, the index just behind the end of
                   an array appends one. A walk that is stopped leaves what it had opened;
* `Call`           a change with its arguments, `Store.call` carries it out.

The root of a store is always an object. A call answers with the value that now stands at the path,
only `unset` and `splice` with what they removed.
-/

namespace SignalFlow

namespace Value

/-! ## looking up -/

def child? (key : String) : Value → Option Value
  | .object fields => Fields.get? key fields
  | .array items => (Path.index? key).bind (items[·]?)
  | _ => none

def at? : Path → Value → Option Value
  | [], v => some v
  | key :: path, v => (v.child? key).bind (at? path)

/-! ## walking down for a change -/

/-- a null stands for an object that nobody has written to yet -/
def opened : Value → Value
  | .null => .object []
  | v => v

/-- the items with `item` at `index`, or behind the end if the index is not there -/
def putItem (items : List Value) (index : Nat) (item : Value) : List Value :=
  if index < items.length then items.set index item else items ++ [item]

/-- walk down `path`, of which `seen` lies behind, and change the value at its end -/
def visit (change : Value → Value × Except StoreError α) (seen : Path) :
    Path → Value → Value × Except StoreError α
  | [], v => change v
  | key :: path, v =>
    match v.opened with
    | .object fields =>
      let (below, answer) := visit change (seen ++ [key]) path (ofOption (Fields.get? key fields))
      (.object (Fields.insert key below fields), answer)
    | .array items =>
      match (Path.index? key).filter (· ≤ items.length) with
      | some index =>
        let (below, answer) := visit change (seen ++ [key]) path (ofOption items[index]?)
        (.array (putItem items index below), answer)
      | none => (.array items, .error (.invalidIndex seen key))
    | other => (other, .error (.notAContainer seen))

/-- change the object at the end of a path, a null counting as an empty one -/
def onObject (path : Path) (change : List (String × Value) → List (String × Value)) :
    Value → Value × Except StoreError Value
  | .null => let v := .object (change []); (v, .ok v)
  | .object fields => let v := .object (change fields); (v, .ok v)
  | v => (v, .error (.typeMismatch path .object))

/-- change the array at the end of a path, a null counting as an empty one; `answer` picks the
answer from the items before and after -/
def onArray (path : Path) (change : List Value → List Value)
    (answer : List Value → List Value → List Value) : Value → Value × Except StoreError Value
  | .null => (.array (change []), .ok (.array (answer [] (change []))))
  | .array items => (.array (change items), .ok (.array (answer items (change items))))
  | v => (v, .error (.typeMismatch path .array))

/-! ## merging -/

mutual

/-- lay `source` over `target`, objects being laid over objects key by key -/
def overlay (target : Value) : Value → Value
  | .object source =>
    match target with
    | .object fields => .object (overlayFields fields source)
    | _ => .object source
  | source => source

/-- lay the entries of `source` over `target` one by one -/
def overlayFields (target : List (String × Value)) : List (String × Value) → List (String × Value)
  | [] => target
  | (key, value) :: source =>
    let laid := match Fields.get? key target with
      | some old => overlay old value
      | none => value
    overlayFields (Fields.insert key laid target) source

end

/-! ## removing -/

/-- drop what stands under the last key, if anything does -/
def dropChild (key : String) : Value → Value × Option Value
  | .object fields =>
    match Fields.get? key fields with
    | some v => (.object (Fields.erase key fields), some v)
    | none => (.object fields, none)
  | .array items =>
    match (Path.index? key).bind fun index => items[index]?.map (index, ·) with
    | some (index, v) => (.array (items.eraseIdx index), some v)
    | none => (.array items, none)
  | v => (v, none)

/-- drop what a path leads to from a container, creating nothing -/
def dropAt (key : String) : Path → Value → Value × Option Value
  | [], v => v.dropChild key
  | next :: path, v =>
    match v with
    | .object fields =>
      match Fields.get? next fields with
      | some below =>
        let (below, removed) := dropAt key path below
        (.object (Fields.insert next below fields), removed)
      | none => (v, none)
    | .array items =>
      match Path.index? next with
      | some index =>
        match items[index]? with
        | some below =>
          let (below, removed) := dropAt key path below
          (.array (items.set index below), removed)
        | none => (v, none)
      | none => (v, none)
    | v => (v, none)

end Value

/-- the state that all steps of an engine share -/
structure Store where
  /-- the entries of the root object -/
  fields : List (String × Value) := []
  deriving Inhabited

/-- a change to a store, with its arguments -/
inductive Call
  /-- put a value in place -/
  | set (value : Value)
  /-- put the entries of an object into the object in place -/
  | merge (value : Value)
  /-- the same, objects inside being merged in turn -/
  | deepMerge (value : Value)
  /-- append items -/
  | concat (items : List Value)
  /-- remove the value in place -/
  | unset
  /-- append one item -/
  | push (value : Value)
  /-- replace `count` items from `start` on -/
  | splice (start count : Nat) (items : List Value)
  /-- put one item in front -/
  | unshift (value : Value)
  /-- replace the value in place by a function of it -/
  | apply (change : Value → Value)

def Call.mutator : Call → Mutator
  | set _ => .set
  | merge _ => .merge
  | deepMerge _ => .deepMerge
  | concat _ => .concat
  | unset => .unset
  | push _ => .push
  | splice .. => .splice
  | unshift _ => .unshift
  | apply _ => .apply

namespace Store

def root (store : Store) : Value := .object store.fields

/-- a store with this root; anything but an object counts as an empty one -/
def ofRoot : Value → Store
  | .object fields => ⟨fields⟩
  | _ => ⟨[]⟩

@[simp] theorem ofRoot_root (store : Store) : ofRoot store.root = store := rfl

def get? (store : Store) (path : Path) : Option Value := store.root.at? path

def contains (store : Store) (path : Path) : Bool := (store.get? path).isSome

def visit (store : Store) (path : Path) (change : Value → Value × Except StoreError Value) :
    Store × Except StoreError Value :=
  let (root, answer) := store.root.visit change [] path
  (ofRoot root, answer)

/-! ## the nine changes -/

def set (store : Store) (path : Path) (value : Value) : Store × Except StoreError Value :=
  if path.isRoot && !value.isObject then (store, .error (.invalidArgument .set .objectAtRoot))
  else store.visit path fun _ => (value, .ok value)

def merge (store : Store) (path : Path) (value : Value) : Store × Except StoreError Value :=
  match value with
  | .object source => store.visit path (Value.onObject path (Fields.merge · source))
  | _ => (store, .error (.invalidArgument .merge .object))

def deepMerge (store : Store) (path : Path) (value : Value) : Store × Except StoreError Value :=
  match value with
  | .object source => store.visit path (Value.onObject path (Value.overlayFields · source))
  | _ => (store, .error (.invalidArgument .deepMerge .object))

def concat (store : Store) (path : Path) (items : List Value) : Store × Except StoreError Value :=
  store.visit path (Value.onArray path (· ++ items) fun _ after => after)

def push (store : Store) (path : Path) (value : Value) : Store × Except StoreError Value :=
  store.visit path (Value.onArray path (· ++ [value]) fun _ after => after)

def unshift (store : Store) (path : Path) (value : Value) : Store × Except StoreError Value :=
  store.visit path (Value.onArray path (value :: ·) fun _ after => after)

/-- positions behind the end count as the end -/
def splice (store : Store) (path : Path) (start count : Nat) (items : List Value) :
    Store × Except StoreError Value :=
  store.visit path (Value.onArray path
    (fun old => old.take start ++ items ++ (old.drop start).drop count)
    (fun old _ => (old.drop start).take count))

/-- a root that is no longer an object is emptied -/
def apply (store : Store) (path : Path) (change : Value → Value) : Store × Except StoreError Value :=
  store.visit path fun old =>
    let new := change old
    let kept := if path.isRoot && !new.isObject then .object [] else new
    (kept, .ok kept)

/-- a path that leads nowhere removes nothing and answers null -/
def unset (store : Store) (path : Path) : Store × Except StoreError Value :=
  match path.splitLast? with
  | none => (⟨[]⟩, .ok store.root)
  | some (parent, key) =>
    let (root, removed) := store.root.dropAt key parent
    (ofRoot root, .ok (.ofOption removed))

def call (store : Store) (path : Path) : Call → Store × Except StoreError Value
  | .set value => store.set path value
  | .merge value => store.merge path value
  | .deepMerge value => store.deepMerge path value
  | .concat items => store.concat path items
  | .unset => store.unset path
  | .push value => store.push path value
  | .splice start count items => store.splice path start count items
  | .unshift value => store.unshift path value
  | .apply change => store.apply path change

end Store

end SignalFlow
