import SignalFlow.Proofs.Json.Fields
import SignalFlow.Proofs.Json.Value
import SignalFlow.Store.Basic
/-!
# One key down

A walk and a removal both go down a path key by key. Here it is said once what one key of the path does.

* `Value.refusal?`    why a walk cannot go below a value under a key, if it cannot;
* `Value.putChild`    the value with another one under a key; with `Value.child?` it has the laws of a
                      place that is read and written (`child?_putChild`, `putChild_putChild`,
                      `putChild_child?`);
* `Deed`              what a call does at the end of its path: alter what is there, drop it, or nothing
                      because its argument is refused (`Store.call_eq`);
* `Edit`              what happens to one entry of an object.

`Value.visit_cons` and `Value.dropAt_cons`: one key down, a walk or a removal goes on below the child and
puts back what it leaves there. `Deed.on_object`: on an object a deed answers by the entry under the first
key of its path and edits no other.
-/

namespace SignalFlow

namespace Value

/-! ## children -/

/-- why a walk cannot go below the value under a key, if it cannot; `seen` leads to the value -/
def refusal? (seen : Path) (key : String) (v : Value) : Option StoreError :=
  match v.opened with
  | .object _ => none
  | .array items =>
    match (Path.index? key).filter (· ≤ items.length) with
    | some _ => none
    | none => some (.invalidIndex seen key)
  | _ => some (.notAContainer seen)

/-- the value, opened, with `child` under the key -/
def putChild (key : String) (v child : Value) : Value :=
  match v.opened with
  | .object fields => .object (Fields.insert key child fields)
  | .array items =>
    match (Path.index? key).filter (· ≤ items.length) with
    | some index => .array (putItem items index child)
    | none => .array items
  | other => other

section
variable {items : List Value} {index : Nat}

theorem getElem?_putItem (inside : index ≤ items.length) (item : Value) :
    (putItem items index item)[index]? = some item := by
  rw [putItem]
  split
  · next lt => rw [List.getElem?_set_self lt]
  · next notLt =>
    obtain rfl : index = items.length := by omega
    rw [List.getElem?_concat_length]

theorem le_length_putItem (items : List Value) (index : Nat) (item : Value) :
    items.length ≤ (putItem items index item).length := by
  rw [putItem]
  split
  · exact Nat.le_of_eq List.length_set.symm
  · rw [List.length_append]
    exact Nat.le_add_right ..

theorem putItem_putItem (inside : index ≤ items.length) (first second : Value) :
    putItem (putItem items index first) index second = putItem items index second := by
  by_cases lt : index < items.length
  · simp only [putItem, lt, List.length_set, if_true, List.set_set]
  · obtain rfl : index = items.length := by omega
    simp [putItem]

theorem putItem_of_getElem? {item : Value} (found : items[index]? = some item) :
    putItem items index item = items := by
  obtain ⟨inside, rfl⟩ := List.getElem?_eq_some_iff.mp found
  rw [putItem, if_pos inside, List.set_getElem_self]

/-! An array has a place for each of its items and one behind its end. -/

section
variable {seen : Path} {key : String} (number : Path.index? key = some index)
include number

theorem child?_array : (array items).child? key = items[index]? := by
  rw [child?, number, Option.bind_some]

variable (inside : index ≤ items.length)
include inside

theorem filter_index? : (Path.index? key).filter (· ≤ items.length) = some index := by
  rw [number, Option.filter_some, if_pos (decide_eq_true inside)]

theorem refusal?_array : (array items).refusal? seen key = none := by
  simp only [refusal?, opened, filter_index? number inside]

theorem putChild_array (child : Value) :
    (array items).putChild key child = array (putItem items index child) := by
  simp only [putChild, opened, filter_index? number inside]

end

theorem index_of_refusal? {seen : Path} {key : String}
    (free : (array items).refusal? seen key = none) :
    ∃ index, Path.index? key = some index ∧ index ≤ items.length := by
  simp only [refusal?, opened] at free
  split at free
  · next index found =>
    obtain ⟨number, inside⟩ := Option.filter_eq_some_iff.mp found
    exact ⟨index, number, of_decide_eq_true inside⟩
  · cases free

theorem index_of_child? {key : String} {child : Value}
    (found : (array items).child? key = some child) :
    ∃ index, Path.index? key = some index ∧ index < items.length ∧ items[index]? = some child := by
  obtain ⟨index, number, there⟩ := Option.bind_eq_some_iff.mp found
  exact ⟨index, number, (List.getElem?_eq_some_iff.mp there).1, there⟩

end

section
variable {seen : Path} {key : String} {v child : Value}

theorem refusal?_of_child? (found : v.child? key = some child) : v.refusal? seen key = none := by
  cases v with
  | object fields => rfl
  | array items =>
    obtain ⟨index, number, inside, -⟩ := index_of_child? found
    exact refusal?_array number (Nat.le_of_lt inside)
  | null | bool _ | number _ | string _ => cases found

theorem child?_of_refusal? {error : StoreError} (refused : v.refusal? seen key = some error) :
    v.child? key = none := by
  cases found : v.child? key with
  | none => rfl
  | some child => cases (refusal?_of_child? found).symm.trans refused

theorem proper_child? (proper : v.proper = true) (found : v.child? key = some child) :
    child.proper = true := by
  cases v with
  | object fields => exact (proper_object.mp proper).2 _ (Fields.mem_of_get? found)
  | array items =>
    obtain ⟨index, -, -, there⟩ := index_of_child? found
    exact proper_array.mp proper child (List.mem_of_getElem? there)
  | null | bool _ | number _ | string _ => cases found

theorem proper_at? {w : Value} (proper : v.proper = true) {path : Path}
    (found : v.at? path = some w) : w.proper = true := by
  induction path generalizing v with
  | nil =>
    cases found
    exact proper
  | cons key path ih =>
    obtain ⟨child, first, further⟩ := Option.bind_eq_some_iff.mp found
    exact ih (proper_child? proper first) further

theorem proper_ofOption {found : Option Value} (proper : ∀ v, found = some v → v.proper = true) :
    (ofOption found).proper = true := by
  cases found with
  | none => rfl
  | some v => exact proper v rfl

/-- it is the value or the key that refuses, never a view -/
theorem refusal?_ne_readOnly (method : Mutator) (place : Path) :
    v.refusal? seen key ≠ some (.readOnly method place) := by
  cases v with
  | array items =>
    simp only [refusal?, opened]
    split <;> exact fun e => nomatch e
  | null | object _ | bool _ | number _ | string _ => exact fun e => nomatch e

theorem putChild_child? (found : v.child? key = some child) : v.putChild key child = v := by
  cases v with
  | object fields => exact congrArg object (Fields.insert_of_get? found)
  | array items =>
    obtain ⟨index, number, inside, there⟩ := index_of_child? found
    rw [putChild_array number (Nat.le_of_lt inside), putItem_of_getElem? there]
  | null | bool _ | number _ | string _ => cases found

variable (free : v.refusal? seen key = none)
include free

theorem child?_putChild (child : Value) : (v.putChild key child).child? key = some child := by
  cases v with
  | null => exact Fields.get?_insert_self key child []
  | object fields => exact Fields.get?_insert_self key child fields
  | array items =>
    obtain ⟨index, number, inside⟩ := index_of_refusal? free
    rw [putChild_array number inside, child?_array number, getElem?_putItem inside]
  | bool _ | number _ | string _ => cases free

theorem putChild_putChild (first second : Value) :
    (v.putChild key first).putChild key second = v.putChild key second := by
  cases v with
  | null => exact congrArg object (Fields.insert_insert key first second [])
  | object fields => exact congrArg object (Fields.insert_insert key first second fields)
  | array items =>
    obtain ⟨index, number, inside⟩ := index_of_refusal? free
    have still := Nat.le_trans inside (le_length_putItem items index first)
    rw [putChild_array number inside, putChild_array number still, putChild_array number inside,
      putItem_putItem inside]
  | bool _ | number _ | string _ => cases free

end

/-! ## walks and removals -/

section
variable {α : Type} (change : Value → Value × Except StoreError α) (seen path : Path) (key : String)

/-- one key down, a walk goes on below the child and puts back what it leaves there -/
theorem visit_cons (v : Value) : visit change seen (key :: path) v =
    match v.refusal? seen key with
    | some error => (v, .error error)
    | none =>
      let below := visit change (seen ++ [key]) path (ofOption (v.child? key))
      (v.putChild key below.1, below.2) := by
  cases v with
  | null | object _ | bool _ | number _ | string _ => rfl
  | array items =>
    simp only [visit, refusal?, putChild, opened]
    cases place : (Path.index? key).filter (· ≤ items.length) with
    | none => rfl
    | some index => rw [child?_array (Option.filter_eq_some_iff.mp place).1]

theorem dropChild_of_child? {key : String} {v : Value} (absent : v.child? key = none) :
    dropChild key v = (v, none) := by
  cases v with
  | object fields =>
    have nothing : Fields.get? key fields = none := absent
    rw [dropChild, nothing]
  | array items =>
    have nothing : ((Path.index? key).bind fun index => items[index]?.map (index, ·)) = none := by
      rw [child?, Option.bind_eq_none_iff] at absent
      exact Option.bind_eq_none_iff.mpr fun index number => by rw [absent index number, Option.map_none]
    rw [dropChild, nothing]
  | null | bool _ | number _ | string _ => rfl

theorem dropAt_cons (last : String) (v : Value) : dropAt last (key :: path) v =
    match v.child? key with
    | some child =>
      let below := dropAt last path child
      (v.putChild key below.1, below.2)
    | none => (v, none) := by
  cases v with
  | object fields =>
    rw [dropAt, child?]
    cases Fields.get? key fields <;> rfl
  | array items =>
    rw [dropAt]
    cases number : Path.index? key with
    | none => simp only [child?, number, Option.bind_none]
    | some index =>
      rw [child?_array number]
      cases there : items[index]? with
      | none => simp only [there]
      | some child =>
        have inside : index < items.length := (List.getElem?_eq_some_iff.mp there).1
        simp only [there, putChild_array number (Nat.le_of_lt inside), putItem, if_pos inside]
  | null | bool _ | number _ | string _ => rfl

end

end Value

/-! ## deeds -/

/-- what a call does at the end of its path -/
inductive Deed
  | alter (change : Value → Value × Except StoreError Value)
  | drop
  /-- the argument of the call is refused, wherever it is made -/
  | refuse (error : StoreError)

namespace Deed

/-- the deed done to a value that `seen` leads to, at the end of the path from there on -/
def on (seen : Path) : Deed → Path → Value → Value × Except StoreError Value
  | alter change, path, v => v.visit change seen path
  | drop, path, v =>
    match path.splitLast? with
    | none => (.object [], .ok v)
    | some (parent, key) => ((v.dropAt key parent).1, .ok (.ofOption (v.dropAt key parent).2))
  | refuse error, _, v => (v, .error error)

end Deed

/-- what the call does at the end of this path -/
def Call.deed (path : Path) : Call → Deed
  | .set value =>
    if path.isRoot && !value.isObject then .refuse (.invalidArgument .set .objectAtRoot)
    else .alter fun _ => (value, .ok value)
  | .merge (.object source) => .alter (Value.onObject path (Fields.merge · source))
  | .merge _ => .refuse (.invalidArgument .merge .object)
  | .deepMerge (.object source) => .alter (Value.onObject path (Value.overlayFields · source))
  | .deepMerge _ => .refuse (.invalidArgument .deepMerge .object)
  | .concat items => .alter (Value.onArray path (· ++ items) fun _ after => after)
  | .unset => .drop
  | .push value => .alter (Value.onArray path (· ++ [value]) fun _ after => after)
  | .splice start count items => .alter (Value.onArray path
      (fun old => old.take start ++ items ++ (old.drop start).drop count)
      (fun old _ => (old.drop start).take count))
  | .unshift value => .alter (Value.onArray path (value :: ·) fun _ after => after)
  | .apply change => .alter fun old =>
      let new := change old
      let kept := if path.isRoot && !new.isObject then .object [] else new
      (kept, .ok kept)

/-- **A call does its deed to the root.** -/
theorem Store.call_eq (store : Store) (path : Path) (call : Call) :
    store.call path call = (ofRoot ((call.deed path).on [] path store.root).1,
      ((call.deed path).on [] path store.root).2) := by
  cases call with
  | set value =>
    simp only [Store.call, Store.set, Call.deed]
    split <;> rfl
  | merge value | deepMerge value => cases value <;> rfl
  | unset =>
    simp only [Store.call, Store.unset, Call.deed, Deed.on]
    cases path.splitLast? <;> rfl
  | concat _ | push _ | splice _ _ _ | unshift _ | apply _ => rfl

/-! ## the entries of an object -/

/-- what happens to one entry of an object -/
inductive Edit
  | keep
  | put (value : Value)
  | drop

def Edit.on (key : String) (fields : List (String × Value)) : Edit → List (String × Value)
  | keep => fields
  | put value => Fields.insert key value fields
  | drop => Fields.erase key fields

section
variable {key other : String} {fields : List (String × Value)}

theorem Edit.sorted (sorted : Fields.Sorted fields) (edit : Edit) :
    Fields.Sorted (edit.on key fields) := by
  cases edit with
  | keep => exact sorted
  | put value => exact Fields.sorted_insert sorted key value
  | drop => exact Fields.sorted_erase sorted key

theorem Edit.get?_of_ne (sorted : Fields.Sorted fields) (different : other ≠ key) (edit : Edit) :
    Fields.get? other (edit.on key fields) = Fields.get? other fields := by
  cases edit with
  | keep => rfl
  | put value => exact Fields.get?_insert_of_ne different value fields
  | drop => exact Fields.get?_erase_of_ne sorted different

theorem Edit.get?_self {fields' : List (String × Value)} (sorted : Fields.Sorted fields)
    (sorted' : Fields.Sorted fields') (same : Fields.get? key fields = Fields.get? key fields')
    (edit : Edit) :
    Fields.get? key (edit.on key fields) = Fields.get? key (edit.on key fields') := by
  cases edit with
  | keep => exact same
  | put value =>
    show Fields.get? key (Fields.insert key value fields) =
      Fields.get? key (Fields.insert key value fields')
    rw [Fields.get?_insert_self, Fields.get?_insert_self]
  | drop =>
    show Fields.get? key (Fields.erase key fields) = Fields.get? key (Fields.erase key fields')
    rw [Fields.get?_erase_self sorted, Fields.get?_erase_self sorted']

end

namespace Deed

theorem drop_concat (seen parent : Path) (last : String) (v : Value) :
    drop.on seen (parent ++ [last]) v =
      ((v.dropAt last parent).1, .ok (.ofOption (v.dropAt last parent).2)) := by
  rw [on, Path.splitLast?_concat]

/-- what a deed does to the entry under the first key of its path, by what stands there -/
abbrev Effect := Option Value → Edit × Except StoreError Value

/-- a removal at the end of the path drops the entry, one further down puts back what it leaves -/
theorem drop_object (seen : Path) (key : String) (rest : Path) : ∃ effect : Effect, ∀ fields,
    drop.on seen (key :: rest) (.object fields) =
      (.object ((effect (Fields.get? key fields)).1.on key fields),
        (effect (Fields.get? key fields)).2) := by
  rcases List.eq_nil_or_concat rest with rfl | ⟨parent, last, rfl⟩
  · refine ⟨fun found => found.elim (.keep, .ok .null) fun removed => (.drop, .ok removed),
      fun fields => ?_⟩
    rw [← List.nil_append [key], drop_concat, Value.dropAt, Value.dropChild]
    cases Fields.get? key fields <;> rfl
  · refine ⟨fun found => found.elim (.keep, .ok .null) fun below =>
      (.put (Value.dropAt last parent below).1, .ok (.ofOption (Value.dropAt last parent below).2)),
      fun fields => ?_⟩
    rw [List.concat_eq_append, ← List.cons_append, drop_concat, Value.dropAt]
    cases Fields.get? key fields <;> rfl

/-- **On an object a deed answers by the entry under the first key of its path**, and edits no other. -/
theorem on_object (deed : Deed) (seen : Path) (key : String) (rest : Path) :
    ∃ effect : Effect, ∀ fields, deed.on seen (key :: rest) (.object fields) =
      (.object ((effect (Fields.get? key fields)).1.on key fields),
        (effect (Fields.get? key fields)).2) := by
  cases deed with
  | alter change =>
    exact ⟨fun found =>
      let below := Value.visit change (seen ++ [key]) rest (.ofOption found)
      (.put below.1, below.2), fun _ => rfl⟩
  | drop => exact drop_object seen key rest
  | refuse error => exact ⟨fun _ => (.keep, .error error), fun _ => rfl⟩

end Deed

end SignalFlow
