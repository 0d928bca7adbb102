import SignalFlow.Proofs.Store.Descent
/-!
# The place at the end of a path

A walk down a path is stopped on its way, or it comes to a place, changes what it finds there and puts
back what the change leaves, all the way up. Here the place is taken apart from the walk.

* `Value.stop?`    why a walk cannot come to the end of a path, if it cannot;
* `Value.there`    what it finds at the end, a null where there is nothing;
* `Value.fill`     the value with another one at the end of a path, what is missing on the way put in.

`Value.visit_eq`: a walk that is stopped changes nothing, and any other fills the place with what the
change makes of what is there. Reading and filling have the laws of a place (`at?_fill`, `fill_fill`,
`fill_of_at?`). `Store.stop?`, `Store.there` and `Store.put` are the same from the root on, where only an
object fits (`Value.Fits`).
-/

namespace SignalFlow

namespace Value

/-! ## places in a value -/

/-- why a walk cannot come to the end of the path, if it cannot; `seen` leads to the value -/
def stop? (seen : Path) : Path → Value → Option StoreError
  | [], _ => none
  | key :: path, v =>
    match v.refusal? seen key with
    | some error => some error
    | none => stop? (seen ++ [key]) path (ofOption (v.child? key))

/-- what a walk finds at the end of the path -/
def there (path : Path) (v : Value) : Value := ofOption (v.at? path)

/-- the value with `new` at the end of the path -/
def fill : Path → Value → Value → Value
  | [], _, new => new
  | key :: path, v, new => v.putChild key (fill path (ofOption (v.child? key)) new)

theorem there_null (path : Path) : there path .null = .null := by
  cases path <;> rfl

theorem there_cons (key : String) (path : Path) (v : Value) :
    there (key :: path) v = there path (ofOption (v.child? key)) := by
  show ofOption (at? (key :: path) v) = _
  rw [at?]
  cases v.child? key with
  | none => exact (there_null path).symm
  | some child => rfl

theorem at?_append (path further : Path) (v : Value) :
    v.at? (path ++ further) = (v.at? path).bind (at? further) := by
  induction path generalizing v with
  | nil => rfl
  | cons key path ih =>
    rw [List.cons_append, at?, at?, Option.bind_assoc]
    exact Option.bind_congr fun child _ => ih child

theorem fill_append (path further : Path) (v new : Value) :
    v.fill (path ++ further) new = v.fill path ((v.there path).fill further new) := by
  induction path generalizing v with
  | nil => rfl
  | cons key path ih => rw [List.cons_append, fill, fill, ih, there_cons]

theorem stop?_cons {seen path : Path} {key : String} {v : Value} :
    stop? seen (key :: path) v = none ↔
      v.refusal? seen key = none ∧ stop? (seen ++ [key]) path (ofOption (v.child? key)) = none := by
  rw [stop?]
  cases v.refusal? seen key <;> simp

theorem stop?_append (seen path further : Path) (v : Value) :
    stop? seen (path ++ further) v =
      (stop? seen path v).or (stop? (seen ++ path) further (v.there path)) := by
  induction path generalizing seen v with
  | nil => rw [List.append_nil]; rfl
  | cons key path ih =>
    rw [List.cons_append, stop?, stop?, there_cons]
    cases v.refusal? seen key with
    | some error => rfl
    | none => rw [ih, List.append_assoc]; rfl

theorem stop?_null (seen path : Path) : stop? seen path .null = none := by
  induction path generalizing seen with
  | nil => rfl
  | cons key path ih => exact stop?_cons.mpr ⟨rfl, ih (seen ++ [key])⟩

theorem stop?_of_at? {seen path : Path} {v w : Value} (found : v.at? path = some w) :
    stop? seen path v = none := by
  induction path generalizing seen v with
  | nil => rfl
  | cons key path ih =>
    obtain ⟨child, first, further⟩ := Option.bind_eq_some_iff.mp found
    refine stop?_cons.mpr ⟨refusal?_of_child? first, ?_⟩
    rw [first]
    exact ih further

theorem fill_of_at? {path : Path} {v w : Value} (found : v.at? path = some w) :
    v.fill path w = v := by
  induction path generalizing v with
  | nil => exact (Option.some.inj found).symm
  | cons key path ih =>
    obtain ⟨child, first, further⟩ := Option.bind_eq_some_iff.mp found
    have filled : fill path (ofOption (v.child? key)) w = child := by
      rw [first]
      exact ih further
    rw [fill, filled, putChild_child? first]

section
variable {seen path : Path} {v : Value} (free : stop? seen path v = none)
include free

theorem at?_fill (new : Value) : (v.fill path new).at? path = some new := by
  induction path generalizing seen v with
  | nil => rfl
  | cons key path ih =>
    obtain ⟨first, further⟩ := stop?_cons.mp free
    rw [fill, at?, child?_putChild first, Option.bind_some, ih further]

theorem fill_fill (first second : Value) :
    (v.fill path first).fill path second = v.fill path second := by
  induction path generalizing seen v with
  | nil => rfl
  | cons key path ih =>
    obtain ⟨here, further⟩ := stop?_cons.mp free
    rw [fill, fill, child?_putChild here, putChild_putChild here, ofOption, Option.getD_some,
      ih further, fill]

end

/-- **A walk that is stopped changes nothing, any other fills the place at the end of its path.** -/
theorem visit_eq {α : Type} (change : Value → Value × Except StoreError α) (seen path : Path)
    (v : Value) : visit change seen path v =
      match stop? seen path v with
      | some error => (v, .error error)
      | none => (v.fill path (change (v.there path)).1, (change (v.there path)).2) := by
  induction path generalizing seen v with
  | nil => rfl
  | cons key path ih =>
    rw [visit_cons, stop?]
    cases v.refusal? seen key with
    | some error => rfl
    | none =>
      simp only [ih, there_cons, fill]
      cases stopped : stop? (seen ++ [key]) path (ofOption (v.child? key)) with
      | none => rfl
      | some error =>
        -- below a null nothing stops a walk, so the child is there, and it is put back as it was
        cases found : v.child? key with
        | none =>
          rw [found] at stopped
          cases (stop?_null (seen ++ [key]) path).symm.trans stopped
        | some child =>
          show (v.putChild key child, _) = _
          rw [putChild_child? found]

/-- at the root only an object fits -/
def Fits (path : Path) (v : Value) : Prop := path = [] → v.isObject = true

theorem fits_of_ne {path : Path} (below : path ≠ []) (v : Value) : v.Fits path :=
  fun root => absurd root below

theorem fits_of_isObject {v : Value} (object : v.isObject = true) (path : Path) : v.Fits path :=
  fun _ => object

end Value

/-! ## places in a store -/

namespace Store

/-- why nothing can be put at the path, if nothing can -/
def stop? (store : Store) (path : Path) : Option StoreError := store.root.stop? [] path

/-- what a call finds at the path, a null where there is nothing -/
def there (store : Store) (path : Path) : Value := store.root.there path

/-- the store with another value at the path -/
def put (store : Store) (path : Path) (new : Value) : Store := ofRoot (store.root.fill path new)

/-- **A call that walks is stopped and changes nothing, or fills the place at the end of its path.** -/
theorem visit_eq (store : Store) (path : Path) (change : Value → Value × Except StoreError Value) :
    store.visit path change =
      match store.stop? path with
      | some error => (store, .error error)
      | none => (store.put path (change (store.there path)).1, (change (store.there path)).2) := by
  unfold Store.visit stop? there put
  rw [Value.visit_eq]
  cases store.root.stop? [] path <;> rfl

section
variable {store : Store} {path : Path} {v new : Value}

theorem visit_stopped {error : StoreError} (stopped : store.stop? path = some error)
    (change : Value → Value × Except StoreError Value) :
    store.visit path change = (store, .error error) := by
  rw [visit_eq, stopped]

theorem there_of_get? (found : store.get? path = some v) : store.there path = v :=
  congrArg Value.ofOption found

theorem stop?_of_get? (found : store.get? path = some v) : store.stop? path = none :=
  Value.stop?_of_at? found

theorem get?_of_there (found : store.there path = v) (notNull : v ≠ .null) :
    store.get? path = some v := by
  have read : Value.ofOption (store.get? path) = v := found
  cases there : store.get? path with
  | none =>
    rw [there] at read
    exact absurd read.symm notNull
  | some w =>
    rw [there] at read
    exact congrArg some read

theorem get?_of_there_null (found : store.there path = .null) :
    store.get? path = none ∨ store.get? path = some .null := by
  have read : Value.ofOption (store.get? path) = .null := found
  cases there : store.get? path with
  | none => exact .inl rfl
  | some w =>
    rw [there] at read
    exact .inr (congrArg some read)

/-- the root of a store is an object, so it is no place for anything else -/
theorem ne_root (notObject : (store.there path).isObject = false) : path ≠ [] := by
  rintro rfl
  cases notObject

theorem put_get? (found : store.get? path = some v) : store.put path v = store := by
  rw [put, Value.fill_of_at? found, ofRoot_root]

/-- what stops a walk to a child stops it on its way, or is found at the parent -/
theorem stop?_child (store : Store) (path : Path) (key : String) : store.stop? (path ++ [key]) =
    (store.stop? path).or ((store.there path).refusal? path key) := by
  rw [stop?, Value.stop?_append, Value.stop?]
  show _ = (store.root.stop? [] path).or ((store.root.there path).refusal? path key)
  rw [List.nil_append]
  cases (store.root.there path).refusal? path key <;> rfl

theorem put_child (store : Store) (path : Path) (key : String) (child : Value) :
    store.put (path ++ [key]) child = store.put path ((store.there path).putChild key child) :=
  congrArg ofRoot (Value.fill_append path [key] store.root child)

theorem root_put (store : Store) (fits : new.Fits path) :
    (store.put path new).root = store.root.fill path new := by
  cases path with
  | nil =>
    cases new with
    | object fields => rfl
    | null | bool _ | number _ | string _ | array _ => cases fits rfl
  | cons key path => rfl

variable (free : store.stop? path = none)
include free

theorem visit_kept {change : Value → Value × Except StoreError Value} {error : StoreError}
    (found : store.there path = v) (notNull : v ≠ .null) (kept : change v = (v, .error error)) :
    store.visit path change = (store, .error error) := by
  rw [visit_eq, free, found, kept]
  exact congrArg (·, _) (put_get? (get?_of_there found notNull))

variable (fits : new.Fits path)
include fits

theorem get?_put : (store.put path new).get? path = some new := by
  rw [get?, root_put store fits, Value.at?_fill free]

theorem stop?_put : (store.put path new).stop? path = none := stop?_of_get? (get?_put free fits)

theorem put_put (second : Value) : (store.put path new).put path second = store.put path second := by
  rw [put, root_put store fits, Value.fill_fill free, put]

end

end Store

end SignalFlow
