import SignalFlow.Proofs.Store.Place
/-!
# The root of a store and the answers of calls

* `Value.called`    the tree that calls leave one after the other, nothing being mended at its root;
* `Store.called`    the store they leave;
* `Value.Answers`   a change that answers with what it leaves.

A call keeps an object at the root (`Call.isObject_on`): a walk that goes further down puts it back, and at
the root itself a call asks for an object, refuses what is none, or empties it. So a store is what its calls
have left, and never mended afterwards.

`Store.called_answers`: this holds behind any calls from any seed on, and a call that answers with a value
leaves it at its path, `unset` and `splice` apart, which answer with what they took away.
-/

namespace SignalFlow

/-! ## the root -/

theorem Call.isObject_on_root (call : Call) (fields : List (String × Value)) :
    ((call.deed []).on [] [] (.object fields)).1.isObject = true := by
  cases call with
  | set value =>
    rw [Call.deed]
    split
    · rfl
    · next guard =>
      show value.isObject = true
      simpa [Path.isRoot] using guard
  | merge value | deepMerge value => cases value <;> rfl
  | concat _ | push _ | splice _ _ _ | unshift _ | unset => rfl
  | apply change =>
    show (if _ then _ else _ : Value).isObject = true
    split
    · rfl
    · next guard => simpa [Path.isRoot] using guard

/-- **A call keeps an object at the root**, whatever its path -/
theorem Call.isObject_on (call : Call) (path : Path) {tree : Value} (object : tree.isObject = true) :
    ((call.deed path).on [] path tree).1.isObject = true := by
  cases tree with
  | object fields =>
    cases path with
    | nil => exact call.isObject_on_root fields
    | cons key rest =>
      obtain ⟨effect, does⟩ := (call.deed (key :: rest)).on_object [] key rest
      rw [does]
      rfl
  | null | bool _ | number _ | string _ | array _ => cases object

theorem Store.root_ofRoot {tree : Value} (object : tree.isObject = true) :
    (ofRoot tree).root = tree := by
  cases tree with
  | object fields => rfl
  | null | bool _ | number _ | string _ | array _ => cases object

theorem Store.root_ofRoot_seed (seed : Value) :
    (ofRoot seed).root = if seed.isObject then seed else .object [] := by
  cases seed <;> rfl

/-- the tree that the calls leave, its root as they leave it -/
def Value.called (tree : Value) (calls : List (Path × Call)) : Value :=
  calls.foldl (fun tree made => ((made.2.deed made.1).on [] made.1 tree).1) tree

def Store.called (store : Store) (calls : List (Path × Call)) : Store :=
  calls.foldl (fun store made => (store.call made.1 made.2).1) store

theorem Value.isObject_called {tree : Value} (object : tree.isObject = true)
    (calls : List (Path × Call)) : (tree.called calls).isObject = true := by
  induction calls generalizing tree with
  | nil => exact object
  | cons made calls ih => exact ih (made.2.isObject_on made.1 object)

theorem Store.root_of_call (store : Store) (path : Path) (call : Call) :
    (store.call path call).1.root = ((call.deed path).on [] path store.root).1 := by
  have object : store.root.isObject = true := rfl
  rw [call_eq]
  exact root_ofRoot (call.isObject_on path object)

theorem Store.root_called (store : Store) (calls : List (Path × Call)) :
    (store.called calls).root = store.root.called calls := by
  induction calls generalizing store with
  | nil => rfl
  | cons made calls ih =>
    show ((store.call made.1 made.2).1.called calls).root = _
    rw [ih, root_of_call]
    rfl

/-! ## answers -/

namespace Value

/-- the change answers with what it leaves -/
def Answers (change : Value → Value × Except StoreError Value) : Prop :=
  ∀ v answer, (change v).2 = .ok answer → (change v).1 = answer

theorem answers_ok (change : Value → Value) : Answers fun v => (change v, .ok (change v)) := by
  intro v answer done
  exact Except.ok.inj done

theorem answers_onObject (path : Path) (change : List (String × Value) → List (String × Value)) :
    Answers (onObject path change) := by
  intro v answer done
  cases v with
  | null | object _ => exact Except.ok.inj done
  | bool _ | number _ | string _ | array _ => cases done

theorem answers_onArray (path : Path) (change : List Value → List Value) :
    Answers (onArray path change fun _ after => after) := by
  intro v answer done
  cases v with
  | null | array _ => exact Except.ok.inj done
  | bool _ | number _ | string _ | object _ => cases done

end Value

/-- but for `unset` and `splice`, a call refuses its argument or answers with what it leaves -/
theorem Call.answers {call : Call} (stays : call.mutator ≠ .unset) (whole : call.mutator ≠ .splice)
    (path : Path) : (∃ error, call.deed path = .refuse error) ∨
      ∃ change, call.deed path = .alter change ∧ Value.Answers change := by
  cases call with
  | set value =>
    rw [Call.deed]
    split
    · exact .inl ⟨_, rfl⟩
    · exact .inr ⟨_, rfl, Value.answers_ok fun _ => value⟩
  | merge value | deepMerge value =>
    cases value with
    | object source => exact .inr ⟨_, rfl, Value.answers_onObject path _⟩
    | null | bool _ | number _ | string _ | array _ => exact .inl ⟨_, rfl⟩
  | concat _ | push _ | unshift _ => exact .inr ⟨_, rfl, Value.answers_onArray path _⟩
  | apply change => exact .inr ⟨_, rfl, Value.answers_ok _⟩
  | unset => exact absurd rfl stays
  | splice _ _ _ => exact absurd rfl whole

namespace Store

theorem get?_of_answer {store : Store} {path : Path} {call : Call} {value : Value}
    (stays : call.mutator ≠ .unset) (whole : call.mutator ≠ .splice)
    (done : (store.call path call).2 = .ok value) :
    (store.call path call).1.get? path = some value := by
  have answered : ((call.deed path).on [] path store.root).2 = .ok value := by
    rwa [call_eq] at done
  rw [get?, root_of_call]
  rcases Call.answers stays whole path with ⟨error, deed⟩ | ⟨change, deed, answers⟩
  · rw [deed] at answered
    cases answered
  · rw [deed, Deed.on, Value.visit_eq] at answered ⊢
    cases free : store.root.stop? [] path with
    | some error =>
      rw [free] at answered
      cases answered
    | none =>
      rw [free] at answered
      rw [Value.at?_fill free, answers _ value answered]

/-- **The root stays an object, and calls answer with what is stored.** Behind any calls, from any seed on,
the tree that they have left is an object and it is the store; the next call leaves at its path what it
answers, if it is neither `unset` nor `splice`; and an `apply` that makes something else of the root
empties it and says so. -/
theorem called_answers (seed : Value) (calls : List (Path × Call)) :
    let store := (ofRoot seed).called calls
    let tree := (if seed.isObject then seed else .object [] : Value).called calls
    tree.isObject = true ∧ store.root = tree ∧
      (∀ (path : Path) (call : Call) (value : Value),
        call.mutator ≠ .unset → call.mutator ≠ .splice →
        (store.call path call).2 = .ok value → (store.call path call).1.get? path = some value) ∧
      (∀ change : Value → Value, (change store.root).isObject = false →
        (store.call [] (.apply change)).2 = .ok (.object []) ∧
          (store.call [] (.apply change)).1.get? [] = some (.object [])) := by
  intro store tree
  have planted : (ofRoot seed).root.called calls = tree :=
    congrArg (Value.called · calls) (root_ofRoot_seed seed)
  have object : (ofRoot seed).root.isObject = true := rfl
  refine ⟨planted ▸ Value.isObject_called object calls, (root_called _ calls).trans planted,
    fun path call value stays whole done => get?_of_answer stays whole done,
    fun change notObject => ?_⟩
  have emptied : (store.call [] (.apply change)).2 = .ok (.object []) := by
    rw [call_eq]
    show Except.ok (if (true && !(change store.root).isObject) = true then _ else _) = _
    rw [notObject]
    rfl
  exact ⟨emptied, get?_of_answer (fun same => nomatch same) (fun same => nomatch same) emptied⟩

/-- an array is no seed; a function that makes an array of the root empties it again -/
theorem called_answers_array :
    let store := (ofRoot (.array [.null])).called
      [(["list"], .push (.int 1)), ([], .apply fun root => .array [root]), (["list"], .push (.int 2))]
    let concat := Call.concat [.int 3]
    (store.call ["list"] concat).2 = .ok (.array [.int 2, .int 3]) ∧
      (store.call ["list"] concat).1.get? ["list"] = some (.array [.int 2, .int 3]) := by
  intro store concat
  obtain ⟨-, -, answers, -⟩ := called_answers (.array [.null])
    [(["list"], .push (.int 1)), ([], .apply fun root => .array [root]), (["list"], .push (.int 2))]
  have done : (store.call ["list"] concat).2 = .ok (.array [.int 2, .int 3]) := rfl
  exact ⟨done, answers ["list"] concat _ (by decide) (by decide) done⟩

end Store

end SignalFlow
