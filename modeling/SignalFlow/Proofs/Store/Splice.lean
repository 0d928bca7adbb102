import SignalFlow.Proofs.Store.Container
import SignalFlow.Proofs.Store.Lens
/-!
# The items of an array

* `Agree`            two calls leave the same and are refused alike;
* `Store.pushEach`   items pushed one after the other.

Calls that make the same of the items of an array agree (`agree_visit`), and pushing, appending and
unshifting make of them what a splice does.

`Store.splice_exact`: a splice takes out and puts in exactly the items in its range and can be taken back,
and the other calls on arrays are splices.
-/

namespace SignalFlow

/-! ## indices in decimal -/

theorem Path.index?_toString {n : Nat} (small : n < Word.bound) :
    Path.index? (toString n) = some n := by
  have text : (toString n).toList = Nat.toDigits 10 n := by
    rw [Nat.toString_eq_repr, Nat.toList_repr]
  have digit : ∀ c ∈ Nat.toDigits 10 n, c.isDigit = true := fun c h =>
    Nat.isDigit_of_mem_toDigits (by decide) (by decide) h
  have filled : (Nat.toDigits 10 n).isEmpty = false :=
    List.isEmpty_eq_false_iff.mpr (List.ne_nil_of_length_pos Nat.length_toDigits_pos)
  have value : digits? (Nat.toDigits 10 n) = some n := by
    rw [digits?, filled, List.all_eq_true.mpr digit]
    exact congrArg some (Nat.ofDigitChars_toDigits (by decide) (by decide))
  rw [index?, text]
  split
  · next sign =>
    rw [sign] at digit
    cases digit '+' List.mem_cons_self
  · rw [value, Option.filter_some, if_pos (decide_eq_true small)]

/-! ## calls that agree -/

/-- the two leave the same store and are refused in the same way -/
structure Agree (first second : Store × Except StoreError Value) : Prop where
  left : first.1 = second.1
  refused : ∀ error, first.2 = .error error ↔ second.2 = .error error

namespace Store

variable {store : Store} {path : Path}

/-- the root is an object, and no array can be had there -/
theorem Has.below (h : store.Has .array path) : path ≠ [] := by
  have notObject : (store.there path).isObject = false := by
    rcases h.kind with null | array
    · rw [null]
      rfl
    · rw [array]
      rfl
  exact ne_root notObject

theorem Has.fits (h : store.Has .array path) (v : Value) : v.Fits path :=
  Value.fits_of_ne h.below v

theorem Has.get?_put (h : store.Has .array path) (v : Value) :
    (store.put path v).get? path = some v := Store.get?_put h.free (h.fits v)

theorem Has.put_put (h : store.Has .array path) (first second : Value) :
    (store.put path first).put path second = store.put path second :=
  Store.put_put h.free (h.fits first) second

theorem Has.array (h : store.Has .array path) (change : List Value → List Value)
    (answer : List Value → List Value → List Value) :
    store.visit path (Value.onArray path change answer) =
      (store.put path (.array (change (store.contents .array path))),
        .ok (.array (answer (store.contents .array path) (change (store.contents .array path))))) := by
  rw [← Container.array_on]
  exact h.call change answer

theorem refused_of_not_array (none : ¬ store.Has .array path) : ∃ error, ∀ change answer,
    store.visit path (Value.onArray path change answer) = (store, .error error) := by
  simpa only [Container.array_on] using refused_of_not_has none

theorem has_array_of_get? {items : List Value} (found : store.get? path = some (.array items)) :
    store.Has .array path ∧ store.contents .array path = items := has_of_get? found

theorem agree_visit {change change' : List Value → List Value}
    (same : change (store.contents .array path) = change' (store.contents .array path))
    (answer answer' : List Value → List Value → List Value) :
    Agree (store.visit path (Value.onArray path change answer))
      (store.visit path (Value.onArray path change' answer')) := by
  by_cases h : store.Has .array path
  · rw [h.array, h.array, same]
    exact ⟨rfl, fun error => ⟨fun refused => (nomatch refused), fun refused => (nomatch refused)⟩⟩
  · obtain ⟨error, refused⟩ := refused_of_not_array h
    rw [refused, refused]
    exact ⟨rfl, fun _ => Iff.rfl⟩

theorem append_eq_splice {α : Type} {old : List α} {start : Nat} (behind : old.length ≤ start)
    (count : Nat) (items : List α) :
    old ++ items = old.take start ++ items ++ (old.drop start).drop count := by
  rw [List.take_of_length_le behind, List.drop_eq_nil_of_le behind, List.drop_nil, List.append_nil]

theorem take_take_drop {α : Type} (old : List α) (start count : Nat) :
    old.take start ++ (old.drop start).take count ++ (old.drop start).drop count = old := by
  rw [List.append_assoc, List.take_append_drop, List.take_append_drop]

/-- a splice of as many items as were put in puts back what was taken out -/
theorem splice_back {α : Type} (before items removed behind : List α) :
    let after := before ++ items ++ behind
    after.take before.length ++ removed ++ (after.drop before.length).drop items.length =
        before ++ removed ++ behind ∧
      (after.drop before.length).take items.length = items := by
  intro after
  have first : after.take before.length = before := by simp [after]
  have others : after.drop before.length = items ++ behind := by simp [after]
  rw [first, others, List.drop_left, List.take_left]
  exact ⟨rfl, rfl⟩

theorem Has.splice (h : store.Has .array path) (start count : Nat) (items : List Value) :
    let old := store.contents .array path
    store.splice path start count items =
      (store.put path (.array (old.take start ++ items ++ (old.drop start).drop count)),
        .ok (.array ((old.drop start).take count))) := h.array _ _

/-- a splice of what it took out, over what it put in, takes it back -/
theorem Has.splice_back (h : store.Has .array path) (start count : Nat) (items : List Value) :
    let old := store.contents .array path
    (store.splice path start count items).1.splice path (old.take start).length items.length
        ((old.drop start).take count) = (store.put path (.array old), .ok (.array items)) := by
  intro old
  rw [h.splice]
  obtain ⟨there, own⟩ := has_array_of_get? (h.get?_put
    (.array (old.take start ++ items ++ (old.drop start).drop count)))
  obtain ⟨left, taken⟩ := Store.splice_back (old.take start) items ((old.drop start).take count)
    ((old.drop start).drop count)
  rw [there.splice, own, h.put_put, left, taken, take_take_drop]

/-- the items pushed one after the other, with the answer to the last -/
def pushEach (store : Store) (path : Path) (items : List Value) : Store × Except StoreError Value :=
  items.foldl (fun done item => done.1.push path item) (store, .ok .null)

theorem foldl_push (h : store.Has .array path) (old items : List Value) :
    items.foldl (fun done item => done.1.push path item)
        (store.put path (.array old), .ok (.array old)) =
      (store.put path (.array (old ++ items)), .ok (.array (old ++ items))) := by
  induction items generalizing old with
  | nil => rw [List.append_nil]; rfl
  | cons item items ih =>
    obtain ⟨there, own⟩ := has_array_of_get? (h.get?_put (.array old))
    have pushed : (store.put path (.array old)).push path item =
        (store.put path (.array (old ++ [item])), .ok (.array (old ++ [item]))) := by
      rw [push, there.array, own, h.put_put]
    rw [List.foldl_cons, pushed, ih, List.append_assoc, List.singleton_append]

theorem foldl_push_refused {error : StoreError}
    (refused : ∀ item, store.push path item = (store, .error error)) (items : List Value) :
    items.foldl (fun done item => done.1.push path item) (store, .error error) =
      (store, .error error) := by
  induction items with
  | nil => rfl
  | cons item items ih => rw [List.foldl_cons, refused, ih]

theorem concat_eq_pushEach {items : List Value} (filled : items ≠ []) :
    store.concat path items = store.pushEach path items := by
  obtain ⟨item, items, rfl⟩ := List.exists_cons_of_ne_nil filled
  rw [pushEach, List.foldl_cons]
  by_cases h : store.Has .array path
  · have pushed : store.push path item = (store.put path (.array (store.contents .array path ++ [item])),
        .ok (.array (store.contents .array path ++ [item]))) := by rw [push, h.array]
    rw [pushed, foldl_push h, concat, h.array, List.append_assoc, List.singleton_append]
  · obtain ⟨error, refused⟩ := refused_of_not_array h
    have each (item : Value) : store.push path item = (store, .error error) := refused _ _
    rw [each, foldl_push_refused each]
    exact refused _ _

theorem set_behind {old : List Value} (found : store.get? path = some (.array old)) {key : String}
    (number : Path.index? key = some old.length) (item : Value) :
    (store.set (path ++ [key]) item).1 = store.put path (.array (old ++ [item])) := by
  have there : store.there path = .array old := there_of_get? found
  have free : store.stop? (path ++ [key]) = none := by
    rw [stop?_child, stop?_of_get? found, there, Value.refusal?_array number (Nat.le_refl _)]
    rfl
  have fits : item.Fits (path ++ [key]) :=
    Value.fits_of_ne (List.append_ne_nil_of_right_ne_nil path (List.cons_ne_nil key [])) item
  rw [set_eq free fits]
  show store.put (path ++ [key]) item = _
  rw [put_child, there, Value.putChild_array number (Nat.le_refl _), Value.putItem,
    if_neg (Nat.lt_irrefl _)]

/-- **Splices.** A splice that is not refused finds an array, or counts nothing and a null as an empty one;
it takes `count` items out from `start` on, as far as there are any, answers with them and puts the new
items in their place; and the splice back restores the array. Pushing and appending are splices at the end,
unshifting is one in front; appending items is pushing them one by one; and pushing is setting the item at
the index behind the last one, which a word holds for every array there can be. -/
theorem splice_exact (store : Store) (path : Path) :
    let old := store.contents .array path
    (∀ (start count : Nat) (items : List Value) (answer : Value),
      (store.splice path start count items).2 = .ok answer →
      let after := (store.splice path start count items).1
      (store.get? path = none ∨ store.get? path = some .null ∨
        store.get? path = some (.array old)) ∧
      ∃ before removed behind,
        old = before ++ removed ++ behind ∧
        before.length = min start old.length ∧
        removed.length = min count (old.length - before.length) ∧
        answer = .array removed ∧
        after.get? path = some (.array (before ++ items ++ behind)) ∧
        let back := after.splice path before.length items.length removed
        back.2 = .ok (.array items) ∧ back.1.get? path = some (.array old) ∧
          (store.get? path = some (.array old) → back.1 = store)) ∧
    (∀ (start count : Nat) (item : Value), old.length ≤ start →
      Agree (store.push path item) (store.splice path start count [item])) ∧
    (∀ (start count : Nat) (items : List Value), old.length ≤ start →
      Agree (store.concat path items) (store.splice path start count items)) ∧
    (∀ item : Value, Agree (store.unshift path item) (store.splice path 0 0 [item])) ∧
    (∀ items : List Value, items ≠ [] → store.concat path items = store.pushEach path items) ∧
    (∀ item : Value, store.get? path = some (.array old) → old.length < Word.bound →
      (store.push path item).1 = (store.set (path ++ [toString old.length]) item).1) := by
  intro old
  refine ⟨fun start count items answer done => ?_,
    fun start count item behind => agree_visit (append_eq_splice behind count [item]) _ _,
    fun start count items behind => agree_visit (append_eq_splice behind count items) _ _,
    fun item => agree_visit rfl _ _, fun items filled => concat_eq_pushEach filled,
    fun item found small => ?_⟩
  · have h : store.Has .array path := by
      rw [splice, ← Container.array_on] at done
      exact has_of_ok done
    rw [h.splice] at done
    have parts := take_take_drop old start count
    refine ⟨h.target, old.take start, (old.drop start).take count, (old.drop start).drop count,
      parts.symm, List.length_take, ?_, (Except.ok.inj done).symm, ?_, ?_⟩
    · rw [List.length_take, List.length_drop, List.length_take]
      omega
    · rw [h.splice]
      exact h.get?_put _
    · rw [h.splice_back]
      exact ⟨rfl, h.get?_put (.array old), fun there => put_get? there⟩
  · rw [set_behind found (Path.index?_toString small), push, (has_array_of_get? found).1.array]

/-- a range that reaches behind the end, and a null that counts as an empty array -/
theorem splice_exact_clamped :
    let store : Store := ⟨[("empty", .null), ("list", .array [.int 0, .int 1, .int 2])]⟩
    let after := (store.splice ["list"] 1 18446744073709551615 [.null]).1
    (store.splice ["list"] 1 18446744073709551615 [.null]).2 = .ok (.array [.int 1, .int 2]) ∧
      (after.splice ["list"] 1 1 [.int 1, .int 2]).1 = store ∧
      store.concat ["empty"] [.null, .int 3] = store.pushEach ["empty"] [.null, .int 3] ∧
      (store.push ["list"] .null).1 = (store.set ["list", "3"] .null).1 := by
  intro store after
  have done : (store.splice ["list"] 1 18446744073709551615 [.null]).2 =
      .ok (.array [.int 1, .int 2]) := rfl
  obtain ⟨exact', -, -, -, -, pushed⟩ := splice_exact store ["list"]
  obtain ⟨-, before, removed, behind, -, long, -, answer, -, -, -, back⟩ := exact' _ _ _ _ done
  have back := back rfl
  have first : before.length = 1 := long
  rw [first, ← Value.array.inj answer] at back
  obtain ⟨-, -, -, -, each, -⟩ := splice_exact store ["empty"]
  have text : toString (store.contents .array ["list"]).length = "3" := by decide
  have pushed := pushed .null rfl (by decide)
  rw [text] at pushed
  exact ⟨done, back, each _ (List.cons_ne_nil _ _), pushed⟩

end Store

end SignalFlow
