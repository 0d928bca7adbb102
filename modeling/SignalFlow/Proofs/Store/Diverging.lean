import SignalFlow.Proofs.Store.Descent
/-!
# Calls on diverging paths

Two paths diverge behind a common prefix when they go on under different keys. Unless an array stands
there, where a removal would move what the other key leads to, calls on them may be made in any order.

* `Exchange`                two changes may be made to a value in any order: they leave the same, and
                            each answers the same;
* `Edit.on_comm`            edits of different entries may be exchanged, so
* `Deed.exchange_object`    deeds whose paths part at an object may be;
* `Deed.exchange_parting`   and at a null or a scalar, which a walk opens or refuses whoever comes first;
* `Deed.exchange_cons`      what may be exchanged below a key may be exchanged above it.

`Store.calls_exchange`: so may two calls, whichever of the nine, whether the common prefix is there, has
to be created or stops them.
-/

namespace SignalFlow

/-! ## entries of an object -/

theorem Edit.on_comm {a b : String} (different : a ≠ b) {fields : List (String × Value)}
    (sorted : Fields.Sorted fields) (first second : Edit) :
    second.on b (first.on a fields) = first.on a (second.on b fields) := by
  have left : Fields.Sorted (first.on a fields) := first.sorted sorted
  have right : Fields.Sorted (second.on b fields) := second.sorted sorted
  refine Fields.ext (second.sorted left) (first.sorted right) fun key => ?_
  by_cases here : key = a
  · subst here
    rw [second.get?_of_ne left different]
    exact first.get?_self sorted right (second.get?_of_ne sorted different).symm
  · rw [first.get?_of_ne right here]
    by_cases there : key = b
    · subst there
      exact second.get?_self left sorted (first.get?_of_ne sorted here)
    · rw [second.get?_of_ne left there, first.get?_of_ne sorted here, second.get?_of_ne sorted there]

/-! ## changes in any order -/

/-- a change of one value with its answer -/
abbrev Change := Value → Value × Except StoreError Value

/-- the two changes may be made to the value in any order -/
structure Exchange (f g : Change) (v : Value) : Prop where
  leaves : (g (f v).1).1 = (f (g v).1).1
  first : (f v).2 = (f (g v).1).2
  second : (g v).2 = (g (f v).1).2

namespace Exchange

variable {f g : Change} {v : Value}

theorem symm (h : Exchange f g v) : Exchange g f v := ⟨h.leaves.symm, h.second, h.first⟩

theorem of_still (left : (f v).1 = v) (right : (g v).1 = v) : Exchange f g v where
  leaves := by rw [left, right, left]
  first := by rw [right]
  second := by rw [left]

theorem of_place {f' g' : Change} {fill : Value → Value} {c : Value} (h : Exchange f' g' c)
    (left : ∀ w, f (fill w) = (fill (f' w).1, (f' w).2))
    (right : ∀ w, g (fill w) = (fill (g' w).1, (g' w).2)) : Exchange f g (fill c) := by
  refine ⟨?_, ?_, ?_⟩
  · rw [left, right, right, left, h.leaves]
  · rw [left, right, left, h.first]
  · rw [right, left, right, h.second]

end Exchange

/-- the change opens `v` to `w` before it does anything, or leaves either of them alone -/
def Opens (f : Change) (v w : Value) : Prop := f v = f w ∨ (f w).1 = w ∧ f v = (v, (f w).2)

theorem Exchange.of_opens {f g : Change} {v w : Value} (h : Exchange f g w) (left : Opens f v w)
    (right : Opens g v w) : Exchange f g v := by
  -- the one that opens the value comes first or last, the other finds nothing to change
  have once {f g : Change} (h : Exchange f g w) (left : f v = f w) (still : (g w).1 = w)
      (right : g v = (v, (g w).2)) : Exchange f g v := by
    refine ⟨?_, ?_, ?_⟩
    · rw [left, right, left, h.leaves, still]
    · rw [right]
    · rw [left, right, h.second]
  rcases left with left | ⟨still, left⟩ <;> rcases right with right | ⟨still', right⟩
  · refine ⟨?_, ?_, ?_⟩
    · rw [left, right, h.leaves]
    · rw [left, right, h.first]
    · rw [left, right, h.second]
  · exact once h left still' right
  · exact (once h.symm right still left).symm
  · exact .of_still (by rw [left]) (by rw [right])

/-! ## deeds where their paths part -/

namespace Deed

section
variable {deed other : Deed} {seen : Path} {key : String} {v : Value}

theorem drop_of_child? (absent : v.child? key = none) (rest : Path) :
    drop.on seen (key :: rest) v = (v, .ok .null) := by
  rcases List.eq_nil_or_concat rest with rfl | ⟨parent, last, rfl⟩
  · rw [← List.nil_append [key], drop_concat, Value.dropAt, Value.dropChild_of_child? absent]
    rfl
  · rw [List.concat_eq_append, ← List.cons_append, drop_concat, Value.dropAt_cons, absent]
    rfl

/-- a deed does nothing to a value that refuses the first key of its path -/
theorem still_of_refusal? {error : StoreError} (refused : v.refusal? seen key = some error)
    (rest : Path) : (deed.on seen (key :: rest) v).1 = v := by
  cases deed with
  | alter change => rw [on, Value.visit_cons, refused]
  | drop => rw [drop_of_child? (Value.child?_of_refusal? refused)]
  | refuse error => rfl

theorem opens_null (rest : Path) : Opens (deed.on seen (key :: rest)) .null (.object []) := by
  cases deed with
  | alter change => exact .inl rfl
  | drop =>
    right
    have absent : Value.null.child? key = none := rfl
    have absent' : (Value.object []).child? key = none := rfl
    rw [drop_of_child? absent, drop_of_child? absent']
    exact ⟨rfl, rfl⟩
  | refuse error => exact .inr ⟨rfl, rfl⟩

variable {a b : String} {s t : Path} (different : a ≠ b)
include different

theorem exchange_object {fields : List (String × Value)} (sorted : Fields.Sorted fields) :
    Exchange (deed.on seen (a :: s)) (other.on seen (b :: t)) (.object fields) := by
  obtain ⟨first, left⟩ := deed.on_object seen a s
  obtain ⟨second, right⟩ := other.on_object seen b t
  have untouched (edit : Edit) := edit.get?_of_ne sorted different
  have untouched' (edit : Edit) := edit.get?_of_ne sorted different.symm
  refine ⟨?_, ?_, ?_⟩
  · simp only [left, right, untouched, untouched']
    exact congrArg Value.object (Edit.on_comm different sorted _ _)
  · simp only [left, right, untouched]
  · simp only [left, right, untouched']

/-- deeds whose paths part anywhere but at an array may be exchanged -/
theorem exchange_parting (proper : v.proper = true) (notArray : ∀ items, v ≠ .array items) :
    Exchange (deed.on seen (a :: s)) (other.on seen (b :: t)) v := by
  cases v with
  | object fields => exact exchange_object different (Value.proper_object.mp proper).1
  | null =>
    have emptied : Exchange (deed.on seen (a :: s)) (other.on seen (b :: t)) (.object []) :=
      exchange_object different List.Pairwise.nil
    exact emptied.of_opens (opens_null s) (opens_null t)
  | array items => exact absurd rfl (notArray items)
  | bool _ | number _ | string _ =>
    exact .of_still (still_of_refusal? rfl s) (still_of_refusal? rfl t)

end

/-! ## deeds below a common key -/

section
variable {deed other : Deed} {seen path path' : Path} {key : String} {v child : Value}

theorem on_of_child? (further : path ≠ []) (found : v.child? key = some child) :
    deed.on seen (key :: path) v = (v.putChild key (deed.on (seen ++ [key]) path child).1,
      (deed.on (seen ++ [key]) path child).2) := by
  cases deed with
  | alter change =>
    rw [on, Value.visit_cons, Value.refusal?_of_child? found, found]
    rfl
  | drop =>
    obtain ⟨parent, last, rfl⟩ := (List.eq_nil_or_concat path).resolve_left further
    rw [List.concat_eq_append, ← List.cons_append, drop_concat, drop_concat, Value.dropAt_cons, found]
  | refuse error => rw [on, on, Value.putChild_child? found]

theorem opens_child (further : path ≠ []) (free : v.refusal? seen key = none)
    (absent : v.child? key = none) :
    Opens (deed.on seen (key :: path)) v (v.putChild key .null) := by
  have there := Value.child?_putChild free .null
  cases deed with
  | alter change =>
    left
    rw [on_of_child? further there, Value.putChild_putChild free, on, Value.visit_cons, free, absent]
    rfl
  | drop =>
    right
    obtain ⟨next, rest, rfl⟩ := List.exists_cons_of_ne_nil further
    have nothing : Value.null.child? next = none := rfl
    rw [drop_of_child? absent, on_of_child? further there, drop_of_child? nothing,
      Value.putChild_putChild free]
    exact ⟨rfl, rfl⟩
  | refuse error => exact .inr ⟨rfl, rfl⟩

theorem exchange_cons (further : path ≠ []) (further' : path' ≠ [])
    (h : Exchange (deed.on (seen ++ [key]) path) (other.on (seen ++ [key]) path')
      (.ofOption (v.child? key))) :
    Exchange (deed.on seen (key :: path)) (other.on seen (key :: path')) v := by
  cases stopped : v.refusal? seen key with
  | some error => exact .of_still (still_of_refusal? stopped path) (still_of_refusal? stopped path')
  | none =>
    have goes (deed : Deed) {path : Path} (further : path ≠ []) (w : Value) :
        deed.on seen (key :: path) (v.putChild key w) =
          (v.putChild key (deed.on (seen ++ [key]) path w).1,
            (deed.on (seen ++ [key]) path w).2) := by
      rw [on_of_child? further (Value.child?_putChild stopped w), Value.putChild_putChild stopped]
    have filled := h.of_place (goes deed further) (goes other further')
    cases found : v.child? key with
    | some child =>
      rw [found] at filled
      rwa [Value.ofOption, Option.getD_some, Value.putChild_child? found] at filled
    | none =>
      rw [found] at filled
      exact filled.of_opens (opens_child further stopped found) (opens_child further' stopped found)

end

theorem exchange_diverging {deed other : Deed} {a b : String} (different : a ≠ b) (r s t : Path)
    (seen : Path) {v : Value} (proper : v.proper = true)
    (notArray : ∀ items, v.at? r ≠ some (.array items)) :
    Exchange (deed.on seen (r ++ a :: s)) (other.on seen (r ++ b :: t)) v := by
  induction r generalizing seen v with
  | nil => exact exchange_parting different proper fun items e => notArray items (congrArg some e)
  | cons key r ih =>
    refine exchange_cons (List.append_ne_nil_of_right_ne_nil r (List.cons_ne_nil a s))
      (List.append_ne_nil_of_right_ne_nil r (List.cons_ne_nil b t)) (ih (seen ++ [key]) ?_ ?_)
    · exact Value.proper_ofOption fun _ found => Value.proper_child? proper found
    · intro items reached
      cases found : v.child? key with
      | none =>
        rw [found] at reached
        cases r with
        | nil => cases reached
        | cons _ _ => cases reached
      | some child =>
        rw [found] at reached
        refine notArray items ?_
        rw [Value.at?, found]
        exact reached

end Deed

/-! ## calls -/

namespace Store

theorem root_call (store : Store) {path : Path} (below : path ≠ []) (call : Call) :
    (store.call path call).1.root = ((call.deed path).on [] path store.root).1 := by
  obtain ⟨key, rest, rfl⟩ := List.exists_cons_of_ne_nil below
  obtain ⟨effect, does⟩ := (call.deed (key :: rest)).on_object [] key rest
  have edited : (call.deed (key :: rest)).on [] (key :: rest) store.root = _ := does store.fields
  rw [call_eq, edited]
  rfl

theorem call_call (store : Store) {path : Path} (below : path ≠ []) (call : Call) (path' : Path)
    (call' : Call) :
    (store.call path call).1.call path' call' =
      let done := (call'.deed path').on [] path' ((call.deed path).on [] path store.root).1
      (ofRoot done.1, done.2) := by
  rw [call_eq, root_call store below]

/-- **Calls on diverging paths may be made in any order**, unless an array stands where the paths part:
they leave the same store, and each is answered or refused in the same way. -/
theorem calls_exchange (store : Store) (proper : store.root.proper = true) (r s t : Path)
    (a b : String) (different : a ≠ b)
    (notArray : ∀ items, store.get? r ≠ some (.array items)) (first second : Call) :
    let p := r ++ [a] ++ s
    let q := r ++ [b] ++ t
    ((store.call p first).1.call q second).1 = ((store.call q second).1.call p first).1 ∧
      (store.call p first).2 = ((store.call q second).1.call p first).2 ∧
      (store.call q second).2 = ((store.call p first).1.call q second).2 := by
  intro p q
  have parts (key : String) (rest : Path) : r ++ [key] ++ rest = r ++ key :: rest :=
    (List.append_cons r key rest).symm
  have below (key : String) (rest : Path) : r ++ [key] ++ rest ≠ [] := by
    rw [parts]
    exact List.append_ne_nil_of_right_ne_nil r (List.cons_ne_nil key rest)
  have exchange : Exchange ((first.deed p).on [] p) ((second.deed q).on [] q) store.root := by
    have diverging : Exchange ((first.deed p).on [] (r ++ a :: s)) ((second.deed q).on [] (r ++ b :: t))
        store.root := Deed.exchange_diverging different r s t [] proper notArray
    rwa [← parts a s, ← parts b t] at diverging
  refine ⟨?_, ?_, ?_⟩
  · rw [call_call store (below a s), call_call store (below b t)]
    exact congrArg ofRoot exchange.leaves
  · rw [call_eq, call_call store (below b t)]
    exact exchange.first
  · rw [call_eq, call_call store (below a s)]
    exact exchange.second

/-- the first call appends to an array on the way, the second comes to what it has opened or finds
nothing to remove -/
theorem calls_exchange_append :
    let store : Store := ⟨[("list", .array [.null])]⟩
    let push := Call.push (.int 1)
    (store.call ["list", "1", "x"] push).2 =
        ((store.call ["list", "1", "y", "z"] .unset).1.call ["list", "1", "x"] push).2 ∧
      ((store.call ["list", "1", "x"] push).1.call ["list", "1", "y", "z"] .unset).1 =
        ((store.call ["list", "1", "y", "z"] .unset).1.call ["list", "1", "x"] push).1 ∧
      ((store.call ["list", "1", "x"] push).1.get? ["list"]) =
        some (.array [.null, .object [("x", .array [.int 1])]]) := by
  intro store push
  obtain ⟨leaves, answered, -⟩ := calls_exchange store rfl ["list", "1"] [] ["z"] "x" "y" (by decide)
    (fun items reached => nomatch reached) push .unset
  exact ⟨answered, leaves, rfl⟩

end Store

end SignalFlow
