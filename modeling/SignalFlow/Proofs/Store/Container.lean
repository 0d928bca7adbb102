import SignalFlow.Proofs.Store.Place
/-!
# Containers at a path

* `Container`         a kind of value that calls work on, arrays by their items and objects by their
                      entries: how one is made and what one holds;
* `Container.on`      a change of what it holds, a null counting as an empty one;
* `Store.contents`    what the container at a path holds, nothing and a null counting as an empty one;
* `Store.Has`         the path can be walked to, and a container, a null or nothing is there.

A call on a container is refused in the same way whatever it does with the contents, or else the container
has what the call makes of them (`Store.Has.call`, `Store.refused_of_not_has`).
-/

namespace SignalFlow

theorem Value.isNull_of_ne {v : Value} (notNull : v ≠ .null) : v.isNull = false := by
  cases v with
  | null => exact absurd rfl notNull
  | bool _ | number _ | string _ | array _ | object _ => rfl

/-- a kind of value that holds others -/
structure Container (α : Type) where
  make : List α → Value
  contents? : Value → Option (List α)
  contents?_make : ∀ contents, contents? (make contents) = some contents
  eq_make : ∀ {v contents}, contents? v = some contents → v = make contents
  contents?_null : contents? .null = none
  shape : Shape

namespace Container

def array : Container Value where
  make := .array
  contents?
    | .array items => some items
    | _ => none
  contents?_make _ := rfl
  eq_make {v contents} h := by
    cases v with
    | array items => exact congrArg Value.array (Option.some.inj h)
    | null | bool _ | number _ | string _ | object _ => cases h
  contents?_null := rfl
  shape := .array

def object : Container (String × Value) where
  make := .object
  contents?
    | .object fields => some fields
    | _ => none
  contents?_make _ := rfl
  eq_make {v contents} h := by
    cases v with
    | object fields => exact congrArg Value.object (Option.some.inj h)
    | null | bool _ | number _ | string _ | array _ => cases h
  contents?_null := rfl
  shape := .object

variable {α : Type} (c : Container α)

theorem make_ne_null (contents : List α) : c.make contents ≠ .null := by
  intro same
  have held := c.contents?_make contents
  rw [same, c.contents?_null] at held
  cases held

/-- change what a container holds; `answer` picks the answer from the contents before and after -/
def on (path : Path) (change : List α → List α) (answer : List α → List α → List α) (v : Value) :
    Value × Except StoreError Value :=
  let work (old : List α) := (c.make (change old), .ok (c.make (answer old (change old))))
  if v.isNull then work []
  else match c.contents? v with
    | some old => work old
    | none => (v, .error (.typeMismatch path c.shape))

theorem array_on (path : Path) (change : List Value → List Value)
    (answer : List Value → List Value → List Value) :
    array.on path change answer = Value.onArray path change answer := by
  funext v
  cases v <;> rfl

theorem object_on (path : Path) (change : List (String × Value) → List (String × Value)) :
    object.on path change (fun _ after => after) = Value.onObject path change := by
  funext v
  cases v <;> rfl

end Container

namespace Store

variable {α : Type}

/-- what the container at the path holds, if one is there -/
def contents (store : Store) (c : Container α) (path : Path) : List α :=
  (c.contents? (store.there path)).getD []

/-- a call can work on a container at the path -/
structure Has (store : Store) (c : Container α) (path : Path) : Prop where
  free : store.stop? path = none
  kind : store.there path = .null ∨ store.there path = c.make (store.contents c path)

section
variable {store : Store} {c : Container α} {path : Path} {held : List α}

theorem has_of_there (free : store.stop? path = none) (found : store.there path = c.make held) :
    store.Has c path ∧ store.contents c path = held := by
  have own : store.contents c path = held := by rw [contents, found, c.contents?_make, Option.getD_some]
  exact ⟨⟨free, .inr (own ▸ found)⟩, own⟩

theorem has_of_get? (found : store.get? path = some (c.make held)) :
    store.Has c path ∧ store.contents c path = held :=
  has_of_there (stop?_of_get? found) (there_of_get? found)

theorem Has.target (h : store.Has c path) : store.get? path = none ∨ store.get? path = some .null ∨
    store.get? path = some (c.make (store.contents c path)) := by
  rcases h.kind with null | made
  · exact (get?_of_there_null null).imp_right .inl
  · exact .inr (.inr (get?_of_there made (c.make_ne_null _)))

theorem has_of_target (free : store.stop? path = none)
    (target : store.get? path = none ∨ store.get? path = some .null ∨
      ∃ held, store.get? path = some (c.make held)) : store.Has c path := by
  rcases target with none | null | ⟨held, made⟩
  · exact ⟨free, .inl (congrArg Value.ofOption none)⟩
  · exact ⟨free, .inl (there_of_get? null)⟩
  · exact (has_of_get? made).1

theorem contents_of_null (null : store.there path = .null) : store.contents c path = [] := by
  rw [contents, null, c.contents?_null]
  rfl

theorem Has.call (h : store.Has c path) (change : List α → List α)
    (answer : List α → List α → List α) :
    store.visit path (c.on path change answer) =
      (store.put path (c.make (change (store.contents c path))),
        .ok (c.make (answer (store.contents c path) (change (store.contents c path))))) := by
  rw [visit_eq, h.free]
  rcases h.kind with null | made
  · rw [null, contents_of_null null]
    rfl
  · rw [made, Container.on, Value.isNull_of_ne (c.make_ne_null _), c.contents?_make]
    rfl

theorem Has.object (h : store.Has .object path)
    (change : List (String × Value) → List (String × Value)) :
    store.visit path (Value.onObject path change) =
      (store.put path (.object (change (store.contents .object path))),
        .ok (.object (change (store.contents .object path)))) := by
  rw [← Container.object_on]
  exact h.call change _

/-- where no container can be had, every call on one is refused in the same way -/
theorem refused_of_not_has (none : ¬ store.Has c path) : ∃ error, ∀ change answer,
    store.visit path (c.on path change answer) = (store, .error error) := by
  cases free : store.stop? path with
  | some error => exact ⟨error, fun change answer => visit_stopped free _⟩
  | none =>
    have notNull : store.there path ≠ .null := fun null => none ⟨free, .inl null⟩
    have notHeld : c.contents? (store.there path) = Option.none := by
      cases held : c.contents? (store.there path) with
      | none => rfl
      | some old => exact absurd (has_of_there free (c.eq_make held)).1 none
    refine ⟨.typeMismatch path c.shape, fun change answer => visit_kept free rfl notNull ?_⟩
    rw [Container.on, Value.isNull_of_ne notNull, notHeld]
    rfl

theorem has_of_ok {change : List α → List α} {answer : List α → List α → List α} {v : Value}
    (done : (store.visit path (c.on path change answer)).2 = .ok v) : store.Has c path := by
  refine Classical.byContradiction fun none => ?_
  obtain ⟨error, refused⟩ := refused_of_not_has none
  rw [refused] at done
  cases done

end

end Store

end SignalFlow
