import SignalFlow.Proofs.Store.Descent
/-!
# A refused change leaves the store as it was

A walk down a path opens what it needs on its way: it turns nulls into objects, puts in missing keys
and appends to arrays. It can be refused all the same, by a value or an index further down.

* `Value.Atomic`         a change of one value that leaves what it refuses as it was, and takes a null;
* `Value.visit_null`     below a null nothing is refused, and whatever a walk opens is a null;
* `Value.visit_refused`  so a walk that is refused has opened nothing.

`Store.call_refused`: a refused call, whichever of the nine, leaves the whole store as it was.
-/

namespace SignalFlow

namespace Value

/-! ## changes of one value -/

/-- a change that leaves what it refuses as it was, and takes a null -/
structure Atomic (change : Value → Value × Except StoreError Value) : Prop where
  kept : ∀ {v error}, (change v).2 = .error error → (change v).1 = v
  null : ∀ {error}, (change .null).2 ≠ .error error
  writable : ∀ {v method path}, (change v).2 ≠ .error (.readOnly method path)

theorem atomic_ok (change : Value → Value) : Atomic fun v => (change v, .ok (change v)) where
  kept refused := nomatch refused
  null refused := nomatch refused
  writable refused := nomatch refused

theorem atomic_onObject (path : Path) (change : List (String × Value) → List (String × Value)) :
    Atomic (onObject path change) where
  kept {v _} refused := by
    cases v with
    | null | object _ => cases refused
    | bool _ | number _ | string _ | array _ => rfl
  null refused := nomatch refused
  writable {v _ _} refused := by
    cases v <;> cases refused

theorem atomic_onArray (path : Path) (change : List Value → List Value)
    (answer : List Value → List Value → List Value) : Atomic (onArray path change answer) where
  kept {v _} refused := by
    cases v with
    | null | array _ => cases refused
    | bool _ | number _ | string _ | object _ => rfl
  null refused := nomatch refused
  writable {v _ _} refused := by
    cases v <;> cases refused

/-! ## walks -/

section
variable {change : Value → Value × Except StoreError Value} (atomic : Atomic change)
include atomic

theorem visit_null (seen path : Path) (error : StoreError) :
    (visit change seen path .null).2 ≠ .error error := by
  induction path generalizing seen with
  | nil => exact atomic.null
  | cons key path ih => exact ih (seen ++ [key])

/-- a walk that is refused has found, and not opened, all that it went through -/
theorem visit_refused (path seen : Path) (v : Value) {error : StoreError}
    (refused : (visit change seen path v).2 = .error error) : (visit change seen path v).1 = v := by
  induction path generalizing seen v with
  | nil => exact atomic.kept refused
  | cons key path ih =>
    rw [visit_cons] at refused ⊢
    cases stopped : v.refusal? seen key with
    | some _ => rfl
    | none =>
      rw [stopped] at refused
      cases found : v.child? key with
      | none =>
        rw [found] at refused
        exact absurd refused (visit_null atomic (seen ++ [key]) path error)
      | some below =>
        rw [found] at refused
        dsimp only
        rw [ofOption, Option.getD_some, ih (seen ++ [key]) below refused, putChild_child? found]

theorem visit_ne_readOnly (path seen : Path) (v : Value) (method : Mutator) (place : Path) :
    (visit change seen path v).2 ≠ .error (.readOnly method place) := by
  induction path generalizing seen v with
  | nil => exact atomic.writable
  | cons key path ih =>
    rw [visit_cons]
    cases stopped : v.refusal? seen key with
    | some error =>
      intro same
      cases same
      exact refusal?_ne_readOnly method place stopped
    | none => exact ih (seen ++ [key]) _

end

end Value

namespace Store

theorem visit_refused {store : Store} {path : Path}
    {change : Value → Value × Except StoreError Value} (atomic : Value.Atomic change)
    {error : StoreError} (refused : (store.visit path change).2 = .error error) :
    (store.visit path change).1 = store ∧ ∀ method place, error ≠ .readOnly method place := by
  have walked : (store.root.visit change [] path).2 = .error error := refused
  have kept := Value.visit_refused atomic path [] store.root walked
  constructor
  · show ofRoot (store.root.visit change [] path).1 = store
    rw [kept, ofRoot_root]
  · rintro method place rfl
    exact Value.visit_ne_readOnly atomic path [] store.root method place walked

/-- **A refused call leaves the whole store as it was**: no object was created on the way, no null
became one, and no item was appended. A store has no views of its own, so the refusal is never that
of a view that may not be written to. -/
theorem call_refused (store : Store) (path : Path) (call : Call) (error : StoreError)
    (refused : (store.call path call).2 = .error error) :
    (store.call path call).1 = store ∧ ∀ method place, error ≠ .readOnly method place := by
  cases call with
  | set value =>
    simp only [Store.call, Store.set] at refused ⊢
    split at refused
    · next notObject =>
      rw [if_pos notObject]
      cases refused
      exact ⟨rfl, fun _ _ same => by cases same⟩
    · next fits =>
      rw [if_neg fits]
      exact visit_refused (Value.atomic_ok fun _ => value) refused
  | merge value | deepMerge value =>
    cases value with
    | object source => exact visit_refused (Value.atomic_onObject path _) refused
    | null | bool _ | number _ | string _ | array _ =>
      cases refused
      exact ⟨rfl, fun _ _ same => by cases same⟩
  | concat _ | push _ | splice _ _ _ | unshift _ =>
    exact visit_refused (Value.atomic_onArray path _ _) refused
  | unset =>
    simp only [Store.call, Store.unset] at refused
    split at refused <;> cases refused
  | apply change => exact visit_refused (Value.atomic_ok _) refused

/-- a walk through an object, an array and a null, stopped by a number -/
theorem call_refused_number :
    let store : Store := ⟨[("list", .array [.object [("count", .int 1)]])]⟩
    let path := ["list", "0", "count", "deep"]
    (store.call path (.push .null)).2 = .error (.notAContainer ["list", "0", "count"]) ∧
      (store.call path (.push .null)).1 = store := by
  intro store path
  have refused : (store.call path (.push .null)).2 =
      .error (.notAContainer ["list", "0", "count"]) := rfl
  exact ⟨refused, (call_refused store path (.push .null) _ refused).1⟩

end Store

end SignalFlow
