import SignalFlow.Proofs.Store.Container
/-!
# Merging deeply

* `Value.under?`     what a path of keys leads to, through objects only;
* `Value.Overlaid`   a value is what a source makes of a target: said path by path, not by how it is done;
* `Value.Free`       a path can be walked to: no scalar and no bad index stands in the way.

Under a path of keys, an overlay has what the source has there, laid over what the target has there
(`under?_overlay`). Laying the same over it once more changes nothing (`overlay_again`).

`Store.deepMerge_overlaid`: where an object, a null or nothing can be walked to, and nowhere else, a deep
merge puts the overlay of its argument over it.
-/

namespace SignalFlow

namespace Value

/-! ## overlays -/

/-- a value laid over what is there, if anything is -/
def laidOn (old : Option Value) (v : Value) : Value :=
  match old with
  | some w => overlay w v
  | none => v

theorem overlay_of_notObject_source {source : Value} (notObject : source.isObject = false)
    (target : Value) : overlay target source = source := by
  cases source with
  | object fields => cases notObject
  | null | bool _ | number _ | string _ | array _ => rfl

theorem overlay_of_notObject_target {target : Value} (notObject : target.isObject = false)
    (source : Value) : overlay target source = source := by
  cases source with
  | object fields =>
    cases target with
    | object _ => cases notObject
    | null | bool _ | number _ | string _ | array _ => rw [overlay.eq_def]
  | null | bool _ | number _ | string _ | array _ => rfl

theorem overlay_object (fields source : List (String × Value)) :
    overlay (.object fields) (.object source) = .object (overlayFields fields source) := by
  rw [overlay]

theorem overlayFields_cons (target : List (String × Value)) (entry : String × Value)
    (source : List (String × Value)) : overlayFields target (entry :: source) =
      overlayFields (Fields.insert entry.1 (laidOn (Fields.get? entry.1 target) entry.2) target)
        source := by
  rw [overlayFields]
  cases Fields.get? entry.1 target <;> rfl

theorem get?_overlayFields {source : List (String × Value)} (sorted : Fields.Sorted source)
    (key : String) (target : List (String × Value)) :
    Fields.get? key (overlayFields target source) =
      ((Fields.get? key source).map (laidOn (Fields.get? key target))).or (Fields.get? key target) := by
  induction source generalizing target with
  | nil =>
    rw [overlayFields]
    rfl
  | cons entry source ih =>
    obtain ⟨least, behind⟩ := List.pairwise_cons.mp sorted
    rw [overlayFields_cons, ih behind]
    by_cases same : key = entry.1
    · subst same
      rw [Fields.get?_of_below least, Fields.get?_of_mem sorted List.mem_cons_self,
        Fields.get?_insert_self]
      rfl
    · rw [Fields.get?_cons_of_ne sorted same, Fields.get?_insert_of_ne same]

/-! ## paths of keys -/

/-- what a path of keys leads to, through objects only -/
def under? : Path → Value → Option Value
  | [], v => some v
  | key :: keys, v => (v.field? key).bind (under? keys)

theorem under?_concat (keys : Path) (key : String) (v : Value) :
    v.under? (keys ++ [key]) = (v.under? keys).bind (field? key) := by
  induction keys generalizing v with
  | nil =>
    show (v.field? key).bind some = v.field? key
    cases v.field? key <;> rfl
  | cons first keys ih =>
    rw [List.cons_append, under?, under?]
    cases v.field? first with
    | none => rfl
    | some child => exact ih child

theorem proper_under? {source v : Value} (proper : source.proper = true) {keys : Path}
    (mentioned : source.under? keys = some v) : v.proper = true := by
  induction keys generalizing source with
  | nil =>
    cases mentioned
    exact proper
  | cons key keys ih =>
    obtain ⟨child, first, further⟩ := Option.bind_eq_some_iff.mp mentioned
    cases source with
    | object fields => exact ih ((proper_object.mp proper).2 _ (Fields.mem_of_get? first)) further
    | null | bool _ | number _ | string _ | array _ => cases first

/-- **Under a path an overlay has what the source has there, laid over what the target has there.** -/
theorem under?_overlay {source v : Value} (proper : source.proper = true) {keys : Path}
    (mentioned : source.under? keys = some v) (target : Value) :
    (overlay target source).under? keys = some (laidOn (target.under? keys) v) := by
  induction keys generalizing source target with
  | nil =>
    cases mentioned
    rfl
  | cons key keys ih =>
    obtain ⟨child, first, further⟩ := Option.bind_eq_some_iff.mp mentioned
    cases source with
    | object fields =>
      have there : Fields.get? key fields = some child := first
      obtain ⟨sorted, each⟩ := proper_object.mp proper
      have own : child.proper = true := each _ (Fields.mem_of_get? there)
      cases target with
      | object old =>
        rw [overlay_object, under?, under?, field?, field?, get?_overlayFields sorted, there]
        cases Fields.get? key old with
        | none => exact further
        | some below => exact ih own further below
      | null | bool _ | number _ | string _ | array _ =>
        rw [overlay_of_notObject_target rfl]
        exact mentioned
    | null | bool _ | number _ | string _ | array _ => cases first

/-- `result` is what `source` makes of `target` where it is laid over it -/
structure Overlaid (source target result : Value) : Prop where
  /-- what is no object takes the place of whatever was there -/
  replaced : ∀ keys v, source.under? keys = some v → v.isObject = false →
    result.under? keys = some v
  /-- an object over an object has the keys of both -/
  united : ∀ keys fields old, source.under? keys = some (.object fields) →
    target.under? keys = some (.object old) →
    ∃ both, result.under? keys = some (.object both) ∧ ∀ key,
      (Fields.get? key both).isSome = ((Fields.get? key fields).isSome || (Fields.get? key old).isSome)
  /-- an object comes as it is where there was none -/
  brought : ∀ keys fields, source.under? keys = some (.object fields) →
    (∀ old, target.under? keys ≠ some (.object old)) →
    result.under? keys = some (.object fields)
  /-- under a key that is not mentioned everything stays -/
  kept : ∀ keys key fields old, source.under? keys = some (.object fields) →
    target.under? keys = some (.object old) → Fields.get? key fields = none →
    result.under? (keys ++ [key]) = target.under? (keys ++ [key])

theorem overlaid_overlay {source : Value} (proper : source.proper = true) (target : Value) :
    Overlaid source target (overlay target source) where
  replaced keys v mentioned notObject := by
    rw [under?_overlay proper mentioned]
    cases target.under? keys with
    | none => rfl
    | some old => exact congrArg some (overlay_of_notObject_source notObject old)
  united keys fields old mentioned there := by
    have sorted : Fields.Sorted fields := (proper_object.mp (proper_under? proper mentioned)).1
    refine ⟨overlayFields old fields, ?_, fun key => ?_⟩
    · rw [under?_overlay proper mentioned, there, laidOn, overlay_object]
    · rw [get?_overlayFields sorted, Option.isSome_or, Option.isSome_map]
  brought keys fields mentioned none := by
    rw [under?_overlay proper mentioned]
    cases there : target.under? keys with
    | none => rfl
    | some old =>
      have notObject : old.isObject = false := by
        cases old with
        | object fields => exact absurd there (none fields)
        | null | bool _ | number _ | string _ | array _ => rfl
      exact congrArg some (overlay_of_notObject_target notObject _)
  kept keys key fields old mentioned there absent := by
    have sorted : Fields.Sorted fields := (proper_object.mp (proper_under? proper mentioned)).1
    rw [under?_concat, under?_concat, under?_overlay proper mentioned, there, laidOn, overlay_object]
    show Fields.get? key (overlayFields old fields) = Fields.get? key old
    rw [get?_overlayFields sorted, absent]
    rfl

/-! ## laying over it once more -/

theorem overlayFields_of_laid {fields source : List (String × Value)}
    (laid : ∀ entry ∈ source, ∃ v, Fields.get? entry.1 fields = some v ∧ overlay v entry.2 = v) :
    overlayFields fields source = fields := by
  induction source with
  | nil => rw [overlayFields]
  | cons entry source ih =>
    obtain ⟨own, others⟩ := List.forall_mem_cons.mp laid
    obtain ⟨v, there, same⟩ := own
    rw [overlayFields_cons, there, laidOn, same, Fields.insert_of_get? there, ih others]

/-- what is laid on nothing could be laid on a null -/
theorem overlay_self {v : Value}
    (again : ∀ target, overlay (overlay target v) v = overlay target v) : overlay v v = v := by
  have null : overlay .null v = v := overlay_of_notObject_target rfl v
  have twice := again .null
  rwa [null] at twice

theorem overlayFields_again {source : List (String × Value)} (sorted : Fields.Sorted source)
    (again : ∀ entry ∈ source, ∀ target, overlay (overlay target entry.2) entry.2 =
      overlay target entry.2) (target : List (String × Value)) :
    overlayFields (overlayFields target source) source = overlayFields target source := by
  refine overlayFields_of_laid fun entry h => ?_
  rw [get?_overlayFields sorted, Fields.get?_of_mem sorted h]
  refine ⟨_, rfl, ?_⟩
  cases Fields.get? entry.1 target with
  | some old => exact again entry h old
  | none => exact overlay_self (again entry h)

mutual

theorem overlay_again : ∀ source : Value, source.proper = true → ∀ target : Value,
    overlay (overlay target source) source = overlay target source
  | .object source, proper, target => by
    obtain ⟨sorted, each⟩ := proper_object.mp proper
    have again := overlays_again source each
    cases object : target.isObject with
    | true =>
      cases target with
      | object fields => rw [overlay_object, overlay_object, overlayFields_again sorted again]
      | null | bool _ | number _ | string _ | array _ => cases object
    | false =>
      have laid : overlayFields source source = source := overlayFields_of_laid fun entry h =>
        ⟨entry.2, Fields.get?_of_mem sorted h, overlay_self (again entry h)⟩
      rw [overlay_of_notObject_target object, overlay_object, laid]
  | .null, _, _ | .bool _, _, _ | .number _, _, _ | .string _, _, _ | .array _, _, _ => rfl

theorem overlays_again : ∀ source : List (String × Value),
    (∀ entry ∈ source, entry.2.proper = true) → ∀ entry ∈ source, ∀ target : Value,
      overlay (overlay target entry.2) entry.2 = overlay target entry.2
  | [], _ => fun _ h => nomatch h
  | (_, v) :: source, each => by
    obtain ⟨own, others⟩ := List.forall_mem_cons.mp each
    exact List.forall_mem_cons.mpr ⟨overlay_again v own, overlays_again source others⟩

end

/-! ## paths that can be walked to -/

/-- the path can be reached or created: no scalar stands in the way, and every index of an array is that of
an item or the one behind the last -/
inductive Free : Value → Path → Prop
  | nil (v : Value) : Free v []
  | null (path : Path) : Free .null path
  | object {fields : List (String × Value)} {key : String} {path : Path}
      (further : Free (ofOption (Fields.get? key fields)) path) : Free (.object fields) (key :: path)
  | array {items : List Value} {key : String} {index : Nat} {path : Path}
      (number : Path.index? key = some index) (inside : index ≤ items.length)
      (further : Free (ofOption items[index]?) path) : Free (.array items) (key :: path)

theorem free_iff {seen path : Path} {v : Value} : v.Free path ↔ stop? seen path v = none := by
  constructor
  · intro free
    induction free generalizing seen with
    | nil v => rfl
    | null path => exact stop?_null seen path
    | object further ih => exact stop?_cons.mpr ⟨rfl, ih⟩
    | array number inside further ih =>
      refine stop?_cons.mpr ⟨refusal?_array number inside, ?_⟩
      rw [child?_array number]
      exact ih
  · intro free
    induction path generalizing seen v with
    | nil => exact .nil v
    | cons key path ih =>
      obtain ⟨here, below⟩ := stop?_cons.mp free
      cases v with
      | null => exact .null _
      | object fields => exact .object (ih below)
      | array items =>
        obtain ⟨index, number, inside⟩ := index_of_refusal? here
        rw [child?_array number] at below
        exact .array number inside (ih below)
      | bool _ | number _ | string _ => cases here

end Value

/-! ## objects at a path -/

namespace Store

section
variable {store : Store} {path : Path}

theorem has_object_iff : store.Has .object path ↔ store.root.Free path ∧
    (store.get? path = none ∨ store.get? path = some .null ∨
      ∃ fields, store.get? path = some (.object fields)) :=
  ⟨fun h => ⟨Value.free_iff.mpr h.free, h.target.imp_right (Or.imp_right fun made => ⟨_, made⟩)⟩,
    fun ⟨free, target⟩ => has_of_target (Value.free_iff.mp free) target⟩

theorem has_object_of_ok {change : List (String × Value) → List (String × Value)} {answer : Value}
    (done : (store.visit path (Value.onObject path change)).2 = .ok answer) :
    store.Has .object path := by
  rw [← Container.object_on] at done
  exact has_of_ok done

end

/-- **A deep merge lays its argument over what is at the path.** It is done exactly where the path can be
reached or created and holds an object, a null or nothing; then the value at the path, which it answers, is
what the source makes of the object that was there, an empty one if there was none; and doing the same once
more changes nothing. The source is a value that JSON can hold, with no key twice. -/
theorem deepMerge_overlaid (store : Store) (path : Path) (source : List (String × Value))
    (proper : (Value.object source).proper = true) :
    let merged := store.deepMerge path (.object source)
    ((∃ answer, merged.2 = .ok answer) ↔ store.root.Free path ∧
      (store.get? path = none ∨ store.get? path = some .null ∨
        ∃ fields, store.get? path = some (.object fields))) ∧
    ∀ answer, merged.2 = .ok answer →
      merged.1.get? path = some answer ∧
        Value.Overlaid (.object source) (.object (store.contents .object path)) answer ∧
        merged.1.deepMerge path (.object source) = merged := by
  intro merged
  have done (h : store.Has .object path) : merged =
      (store.put path (.object (Value.overlayFields (store.contents .object path) source)),
        .ok (.object (Value.overlayFields (store.contents .object path) source))) := h.object _
  refine ⟨⟨fun ⟨answer, ok⟩ => has_object_iff.mp (has_object_of_ok ok), fun h => ?_⟩,
    fun answer ok => ?_⟩
  · rw [done (has_object_iff.mpr h)]
    exact ⟨_, rfl⟩
  · have h : store.Has .object path := has_object_of_ok ok
    rw [done h] at ok ⊢
    cases ok
    have fits (fields : List (String × Value)) : (Value.object fields).Fits path :=
      Value.fits_of_isObject rfl path
    have read := get?_put h.free (fits (Value.overlayFields (store.contents .object path) source))
    refine ⟨read, ?_, ?_⟩
    · rw [← Value.overlay_object]
      exact Value.overlaid_overlay proper _
    · obtain ⟨there, held⟩ := has_of_get? (c := .object) read
      have again := Value.overlay_again (.object source) proper
        (.object (store.contents .object path))
      rw [Value.overlay_object, Value.overlay_object] at again
      rw [deepMerge, there.object, held, Value.object.inj again, put_put h.free (fits _)]

/-- an object over a scalar, a scalar over an object, and two objects with a key of their own each -/
theorem deepMerge_overlaid_nested :
    let store : Store := ⟨[("cfg", .object [("a", .object [("x", .int 1)]), ("b", .int 1),
      ("c", .object [("z", .null)])])]⟩
    let source := [("a", Value.object [("y", .array [])]), ("b", .object []), ("c", .int 2)]
    let result := Value.object [("a", .object [("x", .int 1), ("y", .array [])]), ("b", .object []),
      ("c", .int 2)]
    (store.deepMerge ["cfg"] (.object source)).2 = .ok result ∧
      (store.deepMerge ["cfg"] (.object source)).1.get? ["cfg"] = some result ∧
      ((store.deepMerge ["cfg"] (.object source)).1.deepMerge ["cfg"] (.object source)).2 =
        .ok result := by
  intro store source result
  have done : (store.deepMerge ["cfg"] (.object source)).2 = .ok result := rfl
  obtain ⟨-, laid⟩ := deepMerge_overlaid store ["cfg"] source rfl
  obtain ⟨read, -, again⟩ := laid result done
  exact ⟨done, read, again.symm ▸ done⟩

end Store

end SignalFlow
