import SignalFlow.Proofs.Store.Merge
/-!
# Removing

A removal does not walk as the other calls do: it goes down only through what is there, and opens nothing.

* `Value.dropAt_eq`       it fills the parent with what dropping the last key leaves of it, if the parent can be
                          read at all;
* `Store.unset_object`    an object loses the entry under the key, and setting it again gives it back;
* `Store.unset_array`     an array closes up over the item at the index.

`Store.unset_exact`: a removal takes out what is read at its path, and nothing else; from an object it can be
taken back.
-/

namespace SignalFlow

namespace Value

section
variable {key : String} {removed : Value}

theorem dropChild_object {fields : List (String × Value)}
    (there : Fields.get? key fields = some removed) :
    dropChild key (.object fields) = (.object (Fields.erase key fields), some removed) := by
  rw [dropChild, there]

theorem dropChild_array {items : List Value} {index : Nat} (number : Path.index? key = some index)
    (there : items[index]? = some removed) :
    dropChild key (.array items) = (.array (items.eraseIdx index), some removed) := by
  rw [dropChild, number, Option.bind_some, there]
  rfl

end

/-- a removal fills the parent with what dropping the last key leaves of it -/
theorem dropAt_eq (key : String) (parent : Path) (v : Value) : dropAt key parent v =
    match v.at? parent with
    | some w => (v.fill parent (dropChild key w).1, (dropChild key w).2)
    | none => (v, none) := by
  induction parent generalizing v with
  | nil => rfl
  | cons next parent ih =>
    rw [dropAt_cons, at?]
    cases first : v.child? next with
    | none => rfl
    | some child =>
      simp only [Option.bind_some, ih child]
      cases child.at? parent with
      | none =>
        show (v.putChild next child, none) = _
        rw [putChild_child? first]
      | some w =>
        simp only [fill, first]
        rfl

/-- a path that takes another child than one to a child does so above the parent, or takes a sibling under
another spelling of the parent -/
theorem leaves_concat {v : Value} {parent beside : Path} {key : String}
    (leaves : v.Leaves (parent ++ [key]) beside) : v.Leaves parent beside ∨
      ∃ spelled other rest, beside = spelled ++ other :: rest ∧ v.Spells parent spelled ∧
        ¬ (v.there parent).SameChild key other := by
  induction parent generalizing v beside with
  | nil =>
    cases leaves with
    | part apart p q => exact .inr ⟨[], _, q, rfl, .nil v, apart⟩
    | step same further => cases further
  | cons first parent ih =>
    cases leaves with
    | part apart p q => exact .inl (.part apart _ q)
    | step same further =>
      rcases ih further with above | ⟨spelled, other, rest, rfl, spells, apart⟩
      · exact .inl (.step same above)
      · refine .inr ⟨_ :: spelled, other, rest, rfl, .cons same spells, ?_⟩
        rwa [there_cons]

end Value

namespace Store

section
variable {store : Store} {parent : Path} {key : String}

theorem get?_concat (store : Store) (parent : Path) (key : String) :
    store.get? (parent ++ [key]) = (store.get? parent).bind (Value.child? key) := by
  rw [get?, Value.at?_append]
  refine Option.bind_congr fun w _ => ?_
  rw [Value.at?]
  cases w.child? key <;> rfl

theorem unset_concat (store : Store) (parent : Path) (key : String) :
    store.unset (parent ++ [key]) = match store.get? parent with
      | some w => (store.put parent (Value.dropChild key w).1, .ok (.ofOption (Value.dropChild key w).2))
      | none => (store, .ok .null) := by
  rw [unset, Path.splitLast?_concat]
  simp only [Value.dropAt_eq]
  show _ = match store.root.at? parent with
    | some w => _
    | none => _
  cases store.root.at? parent <;> rfl

theorem unset_absent (absent : store.get? (parent ++ [key]) = none) :
    store.unset (parent ++ [key]) = (store, .ok .null) := by
  rw [unset_concat]
  rw [get?_concat] at absent
  cases found : store.get? parent with
  | none => rfl
  | some w =>
    rw [found, Option.bind_some] at absent
    simp only [Value.dropChild_of_child? absent]
    rw [put_get? found]
    rfl

theorem unset_child {w left removed : Value} (found : store.get? parent = some w)
    (dropped : Value.dropChild key w = (left, some removed)) :
    store.unset (parent ++ [key]) = (store.put parent left, .ok removed) := by
  rw [unset_concat, found]
  simp only [dropped]
  rfl

theorem unset_object (proper : store.root.proper = true) {fields : List (String × Value)}
    {removed : Value} (found : store.get? parent = some (.object fields))
    (there : Fields.get? key fields = some removed) :
    let after := store.put parent (.object (Fields.erase key fields))
    store.unset (parent ++ [key]) = (after, .ok removed) ∧
      after.get? (parent ++ [key]) = none ∧
      (∀ beside, store.root.Leaves (parent ++ [key]) beside → after.get? beside = store.get? beside) ∧
      after.set (parent ++ [key]) removed = (store, .ok removed) := by
  intro after
  have sorted : Fields.Sorted fields := (Value.proper_object.mp (Value.proper_at? proper found)).1
  have free : store.stop? parent = none := stop?_of_get? found
  have fits (v : List (String × Value)) : (Value.object v).Fits parent :=
    Value.fits_of_isObject rfl parent
  have read : after.get? parent = some (.object (Fields.erase key fields)) := get?_put free (fits _)
  have filled : after.root = store.root.fill parent (.object (Fields.erase key fields)) :=
    root_put store (fits _)
  refine ⟨unset_child found (Value.dropChild_object there), ?_, fun beside leaves => ?_, ?_⟩
  · rw [get?_concat, read]
    exact Fields.get?_erase_self sorted key
  · rcases Value.leaves_concat leaves with above | ⟨spelled, other, rest, rfl, spells, apart⟩
    · exact get?_put_of_leaves free (fits _) above
    · have object : store.root.there parent = .object fields := there_of_get? found
      have different : other ≠ key := by
        rw [object] at apart
        exact fun same => apart same.symm
      have free' : store.root.stop? [] spelled = none := spells.stop? free
      rw [get?, get?, filled, Value.at?_append, Value.at?_append, spells.fill, Value.at?_fill free',
        ← spells.at?, show store.root.at? parent = some (.object fields) from found]
      show (Fields.get? other _).bind _ = (Fields.get? other _).bind _
      rw [Fields.get?_erase_of_ne sorted different]
  · obtain ⟨has, held⟩ : after.Has .object parent ∧
        after.contents .object parent = Fields.erase key fields := has_of_get? read
    rw [has.set_child, held, put_put free (fits _), Fields.insert_erase sorted there, put_get? found]

theorem unset_array {items : List Value} {index : Nat} {removed : Value}
    (found : store.get? parent = some (.array items)) (number : Path.index? key = some index)
    (there : items[index]? = some removed) :
    let after := store.put parent (.array (items.eraseIdx index))
    store.unset (parent ++ [key]) = (after, .ok removed) ∧
      after.get? parent = some (.array (items.eraseIdx index)) ∧
      ∀ other n rest, Path.index? other = some n → after.get? (parent ++ other :: rest) =
        (items[if n < index then n else n + 1]?).bind (Value.at? rest) := by
  intro after
  have below : parent ≠ [] := by
    rintro rfl
    cases found
  have read : after.get? parent = some (.array (items.eraseIdx index)) :=
    get?_put (stop?_of_get? found) (Value.fits_of_ne below _)
  refine ⟨unset_child found (Value.dropChild_array number there), read, fun other n rest number' => ?_⟩
  rw [get?, Value.at?_append, show after.root.at? parent = _ from read, Option.bind_some, Value.at?,
    Value.child?_array number', List.getElem?_eraseIdx]
  split <;> rfl

end

/-- **A removal takes out exactly what is read at its path.** It never fails, answers with what was read
there, or null, and changes nothing where nothing was. No path that takes another child above the parent
reads anything else than before. If the parent is an object, then nothing is left under the key, all that is
read beside it stays, and setting the answer again restores the store. If it is an array, then the items
behind the removed one move down by one and the others stay. At the root the whole object goes. -/
theorem unset_exact (store : Store) (proper : store.root.proper = true) :
    store.unset [] = (⟨[]⟩, .ok store.root) ∧
    ∀ parent key,
      let path := parent ++ [key]
      let after := (store.unset path).1
      (store.unset path).2 = .ok (.ofOption (store.get? path)) ∧
      (store.get? path = none → after = store) ∧
      ∀ removed, store.get? path = some removed →
        (∀ beside, store.root.Leaves parent beside → after.get? beside = store.get? beside) ∧
        ((∃ fields, store.get? parent = some (.object fields) ∧ after.get? path = none ∧
            (∀ beside, store.root.Leaves path beside → after.get? beside = store.get? beside) ∧
            after.set path removed = (store, .ok removed)) ∨
          ∃ items index, store.get? parent = some (.array items) ∧
            Path.index? key = some index ∧ items[index]? = some removed ∧
            after.get? parent = some (.array (items.eraseIdx index)) ∧
            ∀ other n rest, Path.index? other = some n → after.get? (parent ++ other :: rest) =
              (items[if n < index then n else n + 1]?).bind (Value.at? rest)) := by
  refine ⟨rfl, fun parent key => ?_⟩
  intro path after
  cases found : store.get? path with
  | none =>
    have none : store.unset path = (store, .ok .null) := unset_absent found
    exact ⟨congrArg Prod.snd none, fun _ => congrArg Prod.fst none, fun _ there => nomatch there⟩
  | some removed =>
    obtain ⟨w, first, child⟩ := Option.bind_eq_some_iff.mp ((get?_concat store parent key).symm.trans found)
    have free : store.stop? parent = none := stop?_of_get? first
    suffices step : (store.unset path).2 = .ok removed ∧ _ from
      ⟨step.1, fun absent => (nomatch absent), fun removed' same => Option.some.inj same ▸ step.2⟩
    cases w with
    | object fields =>
      obtain ⟨done, gone, stay, back⟩ := unset_object proper first child
      have left : after = store.put parent (.object (Fields.erase key fields)) := congrArg Prod.fst done
      rw [← left] at gone stay back
      refine ⟨congrArg Prod.snd done, fun beside leaves => ?_, .inl ⟨fields, first, gone, stay, back⟩⟩
      rw [left, get?_put_of_leaves free (Value.fits_of_isObject rfl parent) leaves]
    | array items =>
      obtain ⟨index, number, -, there⟩ := Value.index_of_child? child
      obtain ⟨done, closed, shifted⟩ := unset_array first number there
      have left : after = store.put parent (.array (items.eraseIdx index)) := congrArg Prod.fst done
      rw [← left] at closed shifted
      refine ⟨congrArg Prod.snd done, fun beside leaves => ?_,
        .inr ⟨items, index, first, number, there, closed, shifted⟩⟩
      have below : parent ≠ [] := ne_root (by rw [there_of_get? first]; rfl)
      rw [left, get?_put_of_leaves free (Value.fits_of_ne below _) leaves]
    | null | bool _ | number _ | string _ => cases child

/-- an item whose index is written with a sign, and an entry that is put back -/
theorem unset_exact_signed :
    let store : Store := ⟨[("cfg", .object [("a", .int 1), ("b", .null)]),
      ("list", .array [.int 5, .int 6, .int 7])]⟩
    (store.unset ["list", "+1"]).2 = .ok (.int 6) ∧
      (store.unset ["list", "+1"]).1.get? ["list", "01"] = some (.int 7) ∧
      (store.unset ["cfg", "a"]).1.set ["cfg", "a"] (.int 1) = (store, .ok (.int 1)) := by
  intro store
  obtain ⟨-, exact'⟩ := unset_exact store rfl
  obtain ⟨answer, -, item⟩ := exact' ["list"] "+1"
  obtain ⟨-, -, entry⟩ := exact' ["cfg"] "a"
  have second : Path.index? "+1" = some 1 := by decide
  obtain ⟨-, ⟨fields, object, -⟩ | ⟨items, index, array, number, -, -, shifted⟩⟩ := item (.int 6) rfl
  · cases object
  obtain ⟨-, ⟨fields, -, -, -, back⟩ | ⟨items, index, array, -⟩⟩ := entry (.int 1) rfl
  · cases array
    obtain rfl : 1 = index := Option.some.inj (second.symm.trans number)
    exact ⟨answer, shifted "01" 1 [] (by decide), back⟩
  · cases array

end Store

end SignalFlow
