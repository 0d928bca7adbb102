import SignalFlow.Proofs.Store.Place
/-!
# Setting and getting

* `Value.SameChild`   two keys name the same child of a value: in an array by the index they stand for,
                      anywhere else by being equal;
* `Value.Spells`      two paths name the same place, key by key;
* `Value.Leaves`      a path takes another child than a second one, behind a way that both name alike.

`Store.set_lens`: what is set is read back under every spelling of the path, setting again forgets what
was set before, setting what is there changes nothing, and no path that leaves the one that was set reads
anything else than before.
-/

namespace SignalFlow

namespace Value

/-! ## keys of one value -/

/-- the two keys name the same child: in an array the same index, anywhere else the same key -/
def SameChild (a b : String) : Value → Prop
  | .array _ => Path.index? a = Path.index? b
  | .null | .bool _ | .number _ | .string _ | .object _ => a = b

instance (a b : String) (v : Value) : Decidable (v.SameChild a b) := by
  cases v <;> unfold SameChild <;> infer_instance

theorem sameChild_refl (key : String) (v : Value) : v.SameChild key key := by
  cases v <;> rfl

theorem getElem?_putItem_of_ne {items : List Value} {index other : Nat}
    (inside : index ≤ items.length) (different : other ≠ index) (item : Value) :
    (putItem items index item)[other]? = items[other]? := by
  rw [putItem]
  split
  · exact List.getElem?_set_ne different.symm
  · obtain rfl : index = items.length := by omega
    rw [List.getElem?_append]
    split
    · rfl
    · have behind : ([item])[other - items.length]? = none := by
        apply List.getElem?_eq_none
        rw [List.length_singleton]
        omega
      rw [behind, List.getElem?_eq_none (by omega)]

section
variable {a b : String} {v : Value}

theorem SameChild.child? (same : v.SameChild a b) : v.child? a = v.child? b := by
  cases v with
  | array items =>
    have index : Path.index? a = Path.index? b := same
    rw [Value.child?, Value.child?, index]
  | null | bool _ | number _ | string _ | object _ =>
    cases same
    rfl

theorem SameChild.putChild (same : v.SameChild a b) (child : Value) :
    v.putChild a child = v.putChild b child := by
  cases v with
  | array items =>
    have index : Path.index? a = Path.index? b := same
    simp only [Value.putChild, opened, index]
  | null | bool _ | number _ | string _ | object _ =>
    cases same
    rfl

theorem SameChild.refusal? (same : v.SameChild a b) {seen seen' : Path}
    (free : v.refusal? seen a = none) : v.refusal? seen' b = none := by
  cases v with
  | array items =>
    obtain ⟨index, number, inside⟩ := index_of_refusal? free
    exact refusal?_array (same.symm.trans number) inside
  | null | object _ => rfl
  | bool _ | number _ | string _ => cases free

theorem child?_putChild_of_ne {seen : Path} (free : v.refusal? seen a = none)
    (apart : ¬ v.SameChild a b) (child : Value) : (v.putChild a child).child? b = v.child? b := by
  cases v with
  | null =>
    have different : b ≠ a := fun same => apart same.symm
    exact Fields.get?_insert_of_ne different child []
  | object fields =>
    have different : b ≠ a := fun same => apart same.symm
    exact Fields.get?_insert_of_ne different child fields
  | array items =>
    obtain ⟨index, number, inside⟩ := index_of_refusal? free
    rw [putChild_array number inside]
    cases number' : Path.index? b with
    | none => rw [Value.child?, Value.child?, number']; rfl
    | some other =>
      have different : other ≠ index := by
        rintro rfl
        exact apart (number.trans number'.symm)
      rw [child?_array number', child?_array number', getElem?_putItem_of_ne inside different]
  | bool _ | number _ | string _ => cases free

end

/-! ## paths that name the same place, and paths that part -/

/-- `q` names the same place as `p` -/
inductive Spells : Value → Path → Path → Prop
  | nil (v : Value) : Spells v [] []
  | cons {v : Value} {a b : String} {p q : Path} (same : v.SameChild a b)
      (further : Spells (ofOption (v.child? a)) p q) : Spells v (a :: p) (b :: q)

/-- behind a common way `q` takes another child than `p` -/
inductive Leaves : Value → Path → Path → Prop
  | part {v : Value} {a b : String} (apart : ¬ v.SameChild a b) (p q : Path) :
      Leaves v (a :: p) (b :: q)
  | step {v : Value} {a b : String} {p q : Path} (same : v.SameChild a b)
      (further : Leaves (ofOption (v.child? a)) p q) : Leaves v (a :: p) (b :: q)

/-- paths that go on under different children behind the same keys part there -/
theorem leaves_append {v : Value} {r : Path} {a b : String} (apart : ¬ (v.there r).SameChild a b)
    (p q : Path) : v.Leaves (r ++ a :: p) (r ++ b :: q) := by
  induction r generalizing v with
  | nil => exact .part apart p q
  | cons key r ih =>
    rw [there_cons] at apart
    exact .step (sameChild_refl key v) (ih apart)

/-- what is read under one spelling of a path is read under any other -/
theorem Spells.at? {v : Value} {p q : Path} (same : v.Spells p q) : v.at? p = v.at? q := by
  induction same with
  | nil v => rfl
  | @cons v a b p q same further ih =>
    rw [Value.at?, Value.at?, ← same.child?]
    cases found : v.child? a with
    | none => rfl
    | some child =>
      rw [found] at ih
      exact ih

theorem Spells.fill {v : Value} {p q : Path} (same : v.Spells p q) (new : Value) :
    v.fill p new = v.fill q new := by
  induction same with
  | nil v => rfl
  | cons same further ih => rw [Value.fill, Value.fill, ih, same.putChild, ← same.child?]

theorem Spells.stop? {v : Value} {p q : Path} (same : v.Spells p q) {seen seen' : Path}
    (free : Value.stop? seen p v = none) : Value.stop? seen' q v = none := by
  induction same generalizing seen seen' with
  | nil v => rfl
  | cons same further ih =>
    obtain ⟨here, below⟩ := stop?_cons.mp free
    refine stop?_cons.mpr ⟨same.refusal? here, ?_⟩
    rw [← same.child?]
    exact ih below

/-- **Filling a place leaves what is read elsewhere as it was.** -/
theorem Leaves.at?_fill {v : Value} {p q : Path} (leaves : v.Leaves p q) {seen : Path}
    (free : stop? seen p v = none) (new : Value) : (v.fill p new).at? q = v.at? q := by
  induction leaves generalizing seen with
  | part apart p q =>
    obtain ⟨here, -⟩ := stop?_cons.mp free
    rw [Value.fill, at?, at?, child?_putChild_of_ne here apart]
  | @step v a b p q same further ih =>
    obtain ⟨here, below⟩ := stop?_cons.mp free
    have back : (v.putChild b (Value.fill p (ofOption (v.child? a)) new)).child? b =
        some (Value.fill p (ofOption (v.child? a)) new) :=
      child?_putChild (same.refusal? here : v.refusal? seen b = none) _
    rw [Value.fill, same.putChild, at?, at?, back, Option.bind_some, ih below, ← same.child?]
    cases v.child? a with
    | some child => rfl
    | none =>
      -- nothing is read below a null, as below nothing: the paths part further down
      cases further <;> rfl

end Value

/-! ## setting -/

namespace Store

section
variable {store : Store} {path : Path} {value : Value}

theorem set_of_fits (store : Store) (fits : value.Fits path) :
    store.set path value = store.visit path fun _ => (value, .ok value) := by
  have guard : ¬ (path.isRoot && !value.isObject) = true := by
    intro refused
    obtain ⟨root, notObject⟩ := Bool.and_eq_true_iff.mp refused
    rw [fits (List.isEmpty_iff.mp root)] at notObject
    cases notObject
  rw [set, if_neg guard]

theorem set_eq (free : store.stop? path = none) (fits : value.Fits path) :
    store.set path value = (store.put path value, .ok value) := by
  rw [set_of_fits store fits, visit_eq, free]

/-- what is put at a path is seen by no path that leaves it -/
theorem get?_put_of_leaves (free : store.stop? path = none) (fits : value.Fits path) {beside : Path}
    (leaves : store.root.Leaves path beside) :
    (store.put path value).get? beside = store.get? beside := by
  rw [get?, root_put store fits, leaves.at?_fill free, get?]

theorem of_set {answer : Value} (done : (store.set path value).2 = .ok answer) :
    store.stop? path = none ∧ value.Fits path := by
  rw [set] at done
  split at done
  · cases done
  · next guard =>
    rw [visit_eq] at done
    constructor
    · cases stopped : store.stop? path with
      | none => rfl
      | some error =>
        rw [stopped] at done
        cases done
    · rintro rfl
      cases object : value.isObject with
      | true => rfl
      | false =>
        rw [object] at guard
        exact absurd rfl guard

end

/-- **The laws of setting and getting.** If a value can be set at a path, then it is read back there;
setting again what fits there gives the same as setting it at once; setting what was there changes
nothing; a path that leaves this one reads what it has read before; and another spelling of the path, an
index in an array with a sign or with zeros in front, names the same place. -/
theorem set_lens (store : Store) (path : Path) (value answer : Value)
    (done : (store.set path value).2 = .ok answer) :
    let after := (store.set path value).1
    after.get? path = some value ∧
      (∀ other : Value, other.Fits path →
        after.set path other = store.set path other ∧ (store.set path other).2 = .ok other) ∧
      (store.get? path = some value → after = store) ∧
      (∀ beside, store.root.Leaves path beside → after.get? beside = store.get? beside) ∧
      (∀ spelled, store.root.Spells path spelled →
        store.set spelled value = store.set path value ∧ after.get? spelled = some value) := by
  obtain ⟨free, fits⟩ := of_set done
  rw [set_eq free fits]
  intro after
  refine ⟨get?_put free fits, fun other fits' => ?_, fun there => put_get? there,
    fun beside leaves => get?_put_of_leaves free fits leaves, fun spelled same => ?_⟩
  · have again : after.set path other = (after.put path other, .ok other) :=
      set_eq (stop?_put free fits) fits'
    have forgotten : after.put path other = store.put path other := put_put free fits other
    rw [again, set_eq free fits', forgotten]
    exact ⟨rfl, rfl⟩
  · have free' : store.stop? spelled = none := same.stop? free
    have fits' : value.Fits spelled := by
      rintro rfl
      cases same
      exact fits rfl
    have filled : store.put spelled value = after :=
      congrArg ofRoot (same.fill value).symm
    rw [set_eq free' fits', filled]
    refine ⟨rfl, ?_⟩
    rw [← filled]
    exact get?_put free' fits'

/-- an object is appended to a list by an index with a sign, and read back without it -/
theorem set_lens_append :
    let store : Store := ⟨[("list", .array [.null, .object [("x", .int 1)]])]⟩
    let after := (store.set ["list", "+2", "y"] (.int 5)).1
    (store.set ["list", "+2", "y"] (.int 5)).2 = .ok (.int 5) ∧
      after.get? ["list", "002", "y"] = some (.int 5) ∧
      after.get? ["list", "01", "x"] = store.get? ["list", "01", "x"] := by
  intro store after
  have done : (store.set ["list", "+2", "y"] (.int 5)).2 = .ok (.int 5) := rfl
  obtain ⟨-, -, -, beside, spelled⟩ := set_lens store ["list", "+2", "y"] (.int 5) (.int 5) done
  have apart : ¬ (store.root.there ["list"]).SameChild "+2" "01" := by decide
  have same : store.root.Spells ["list", "+2", "y"] ["list", "002", "y"] :=
    .cons rfl (.cons rfl (.cons rfl (.nil _)))
  exact ⟨done, (spelled _ same).2, beside _ (Value.leaves_append apart ["y"] ["x"])⟩

end Store

end SignalFlow
