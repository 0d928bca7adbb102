import Mathlib.Data.List.Nodup
import SignalFlow.Proofs.Store.Container
import SignalFlow.Proofs.Store.Lens
/-!
# Merging and setting

* `Value.Blocked`     a scalar or a bad index stands in the way of a path: said by what is read there, with
                      the refusal that it leads to;
* `Store.setEach`     entries set one after the other, each under its key below a path.

A path is blocked exactly where a walk down to it is stopped (`Value.blocked_iff`). Below a path that is
not, an entry that is set goes into the object there (`Store.Has.set_child`), and entries with keys of their
own may go in in any order (`Fields.merge_of_perm`).

`Store.merge_eq_setEach`: a merge sets the entries of its argument, in any order, and is refused as each of
them is.
-/

namespace SignalFlow

theorem Fields.merge_of_perm {α : Type u} {first second : List (String × α)}
    (perm : first.Perm second) (unique : Keyed.Unique first) (target : List (String × α)) :
    merge target first = merge target second := by
  refine perm.foldl_eq' (fun a ha b hb fields => ?_) target
  by_cases same : a.1 = b.1
  · obtain rfl : a = b := List.inj_on_of_nodup_map unique ha hb same
    rfl
  · exact insert_comm (Ne.symm same) b.2 a.2 fields

namespace Value

/-! ## what blocks a path -/

/-- nothing stands under any key of it, and nothing can be put there -/
def Scalar : Value → Prop
  | .bool _ | .number _ | .string _ => True
  | .null | .array _ | .object _ => False

/-- the key is neither that of an item nor the one behind the last -/
def BadIndex (items : List Value) (key : String) : Prop :=
  ∀ index, Path.index? key = some index → items.length < index

/-- strictly above the end of the path stands a scalar, or an array that the next key is a bad index of -/
inductive Blocked (v : Value) : Path → StoreError → Prop
  | scalar {above : Path} {w : Value} (key : String) (below : Path)
      (found : v.at? above = some w) (scalar : w.Scalar) :
      Blocked v (above ++ key :: below) (.notAContainer above)
  | index {above : Path} {items : List Value} {key : String} (below : Path)
      (found : v.at? above = some (.array items)) (bad : BadIndex items key) :
      Blocked v (above ++ key :: below) (.invalidIndex above key)

section
variable {seen path : Path} {key : String} {v : Value} {error : StoreError}

theorem Scalar.refusal? (scalar : v.Scalar) (seen : Path) (key : String) :
    v.refusal? seen key = some (.notAContainer seen) := by
  cases v with
  | bool _ | number _ | string _ => rfl
  | null | array _ | object _ => exact scalar.elim

theorem BadIndex.refusal? {items : List Value} (bad : BadIndex items key) (seen : Path) :
    (array items).refusal? seen key = some (.invalidIndex seen key) := by
  have none : (Path.index? key).filter (· ≤ items.length) = none :=
    Option.filter_eq_none_iff.mpr fun index number inside =>
      Nat.not_le_of_lt (bad index number) (of_decide_eq_true inside)
  simp only [Value.refusal?, opened, none]

theorem of_refusal? (refused : v.refusal? seen key = some error) :
    v.Scalar ∧ error = .notAContainer seen ∨
      ∃ items, v = .array items ∧ BadIndex items key ∧ error = .invalidIndex seen key := by
  cases v with
  | null | object _ => cases refused
  | bool _ | number _ | string _ => exact .inl ⟨trivial, (Option.some.inj refused).symm⟩
  | array items =>
    have bad : BadIndex items key := fun index number => Nat.lt_of_not_le fun inside =>
      nomatch (refusal?_array number inside).symm.trans refused
    rw [bad.refusal?] at refused
    exact .inr ⟨items, rfl, bad, (Option.some.inj refused).symm⟩

theorem stop?_append_cons {above : Path} {w : Value} (found : v.at? above = some w)
    (refused : w.refusal? (seen ++ above) key = some error) (below : Path) :
    stop? seen (above ++ key :: below) v = some error := by
  rw [stop?_append, stop?_of_at? found, there, found, Option.none_or]
  simp only [stop?, ofOption, Option.getD_some, refused]

theorem of_stop? (stopped : stop? seen path v = some error) : ∃ above key below w,
    path = above ++ key :: below ∧ v.at? above = some w ∧
      w.refusal? (seen ++ above) key = some error := by
  induction path generalizing seen v with
  | nil => cases stopped
  | cons key path ih =>
    rw [stop?] at stopped
    cases here : v.refusal? seen key with
    | some _ =>
      rw [here] at stopped
      cases stopped
      exact ⟨[], key, path, v, rfl, rfl, by rwa [List.append_nil]⟩
    | none =>
      rw [here] at stopped
      cases found : v.child? key with
      | none =>
        -- nothing stops a walk below a null, nor where it would have to create one
        rw [found] at stopped
        cases (stop?_null (seen ++ [key]) path).symm.trans stopped
      | some child =>
        rw [found] at stopped
        obtain ⟨above, next, below, w, rfl, there, refused⟩ := ih stopped
        refine ⟨key :: above, next, below, w, rfl, ?_, by rwa [List.append_cons]⟩
        rw [at?, found]
        exact there

/-- **A walk is stopped exactly by what blocks its path.** -/
theorem blocked_iff : v.Blocked path error ↔ stop? [] path v = some error := by
  constructor
  · intro blocked
    cases blocked with
    | scalar key below found scalar => exact stop?_append_cons found (scalar.refusal? _ key) below
    | index below found bad => exact stop?_append_cons found (bad.refusal? _) below
  · intro stopped
    obtain ⟨above, key, below, w, rfl, found, refused⟩ := of_stop? stopped
    rw [List.nil_append] at refused
    rcases of_refusal? refused with ⟨scalar, rfl⟩ | ⟨items, rfl, bad, rfl⟩
    · exact .scalar key below found scalar
    · exact .index below found bad

end

end Value

namespace Store

/-- the entries set one after the other, each under its key below the path, with the answers -/
def setEach (store : Store) (path : Path) :
    List (String × Value) → Store × List (Except StoreError Value)
  | [] => (store, [])
  | entry :: entries =>
    let first := store.set (path ++ [entry.1]) entry.2
    let others := first.1.setEach path entries
    (others.1, first.2 :: others.2)

section
variable {store : Store} {path : Path} {error : StoreError}

theorem blocked_iff : store.root.Blocked path error ↔ store.stop? path = some error :=
  Value.blocked_iff

theorem fits_child (path : Path) (key : String) (v : Value) : v.Fits (path ++ [key]) :=
  Value.fits_of_ne (List.append_ne_nil_of_right_ne_nil path (List.cons_ne_nil key [])) v

theorem Has.set_child (h : store.Has .object path) (key : String) (v : Value) :
    store.set (path ++ [key]) v =
      (store.put path (.object (Fields.insert key v (store.contents .object path))), .ok v) := by
  have taken : (store.there path).refusal? path key = none ∧
      (store.there path).putChild key v =
        .object (Fields.insert key v (store.contents .object path)) := by
    rcases h.kind with null | made
    · rw [contents_of_null null, null]
      exact ⟨rfl, rfl⟩
    · rw [made]
      exact ⟨rfl, rfl⟩
  have free : store.stop? (path ++ [key]) = none := by rw [stop?_child, h.free, taken.1]; rfl
  rw [set_eq free (fits_child path key v), put_child, taken.2]

theorem Has.setEach_put (h : store.Has .object path) (fields entries : List (String × Value)) :
    (store.put path (.object fields)).setEach path entries =
      (store.put path (.object (Fields.merge fields entries)), entries.map (.ok ·.2)) := by
  have fits (fields : List (String × Value)) : (Value.object fields).Fits path :=
    Value.fits_of_isObject rfl path
  induction entries generalizing fields with
  | nil => rfl
  | cons entry entries ih =>
    obtain ⟨there, held⟩ : (store.put path (.object fields)).Has .object path ∧
        (store.put path (.object fields)).contents .object path = fields :=
      has_of_get? (get?_put h.free (fits fields))
    have first := there.set_child entry.1 entry.2
    rw [held, put_put h.free (fits fields)] at first
    rw [setEach, first, ih]
    rfl

theorem Has.setEach (h : store.Has .object path) {entries : List (String × Value)}
    (filled : entries ≠ []) : store.setEach path entries =
      (store.put path (.object (Fields.merge (store.contents .object path) entries)),
        entries.map (.ok ·.2)) := by
  obtain ⟨entry, entries, rfl⟩ := List.exists_cons_of_ne_nil filled
  rw [Store.setEach, h.set_child, h.setEach_put]
  rfl

/-- where an object is, or can be made, a merge and the sets succeed and leave the same store -/
theorem Has.merge_setEach (h : store.Has .object path) {source order : List (String × Value)}
    (filled : order ≠ []) (unique : Keyed.Unique source) (perm : order.Perm source) :
    ∃ after v, store.merge path (.object source) = (after, .ok v) ∧
      store.setEach path order = (after, order.map (.ok ·.2)) := by
  refine ⟨_, _, h.object _, ?_⟩
  rw [h.setEach filled, Fields.merge_of_perm perm.symm unique]

theorem set_child_refused (stopped : store.stop? path = some error) (key : String) (v : Value) :
    store.set (path ++ [key]) v = (store, .error error) := by
  have further : store.stop? (path ++ [key]) = some error := by rw [stop?_child, stopped]; rfl
  rw [set_of_fits store (fits_child path key v), visit_stopped further]

theorem setEach_refused (stopped : store.stop? path = some error)
    (entries : List (String × Value)) :
    store.setEach path entries = (store, entries.map fun _ => .error error) := by
  induction entries with
  | nil => rfl
  | cons entry entries ih =>
    rw [setEach, set_child_refused stopped, ih]
    rfl

end

/-- **A merge is a sequence of sets.** Where nothing, a null or an object is found at the path, merging the
entries of an object into it, which are told apart by their keys, leaves the same store as setting them one
after the other below the path, in whatever order. It succeeds exactly when all the sets do. What makes it
fail is a scalar or a bad index above the end of the path, and then the sets all fail alike, naming the same
place. -/
theorem merge_eq_setEach (store : Store) (path : Path) (source order : List (String × Value))
    (target : store.get? path = none ∨ store.get? path = some .null ∨
      ∃ fields, store.get? path = some (.object fields))
    (filled : source ≠ []) (unique : Keyed.Unique source) (perm : order.Perm source) :
    let merged := store.merge path (.object source)
    let each := store.setEach path order
    merged.1 = each.1 ∧
      ((∃ v, merged.2 = .ok v) ↔ ∀ answer ∈ each.2, ∃ v, answer = .ok v) ∧
      ∀ error, (merged.2 = .error error ↔ store.root.Blocked path error) ∧
        (store.root.Blocked path error → ∀ answer ∈ each.2, answer = .error error) := by
  intro merged each
  have filled' : order ≠ [] := fun none => filled (List.nil_perm.mp (none ▸ perm))
  cases stopped : store.stop? path with
  | some error =>
    have refused : merged = (store, .error error) := visit_stopped stopped _
    have each' : each = (store, order.map fun _ => .error error) := setEach_refused stopped order
    have only {error' : StoreError} : store.root.Blocked path error' ↔ error = error' := by
      rw [blocked_iff, stopped, Option.some.injEq]
    rw [refused, each']
    refine ⟨rfl, ⟨fun ⟨v, ok⟩ => (nomatch ok), fun ok => ?_⟩, fun error' => ⟨?_, fun blocked => ?_⟩⟩
    · obtain ⟨entry, h⟩ := List.exists_mem_of_ne_nil order filled'
      obtain ⟨v, ok⟩ := ok _ (List.mem_map_of_mem h)
      cases ok
    · rw [only, Except.error.injEq]
    · rw [only.mp blocked]
      exact List.forall_mem_map.mpr fun _ _ => rfl
  | none =>
    obtain ⟨after, v, merged', each'⟩ := (has_of_target stopped target).merge_setEach filled' unique perm
    have open' (error : StoreError) : ¬ store.root.Blocked path error := fun blocked =>
      nomatch stopped.symm.trans (blocked_iff.mp blocked)
    rw [show merged = _ from merged', show each = _ from each']
    refine ⟨rfl, ⟨fun _ => ?_, fun _ => ⟨v, rfl⟩⟩, fun error => ⟨⟨fun e => (nomatch e), fun blocked =>
      absurd blocked (open' error)⟩, fun blocked => absurd blocked (open' error)⟩⟩
    exact List.forall_mem_map.mpr fun entry _ => ⟨entry.2, rfl⟩

/-- entries in another order put into a null, and behind a number that neither call gets past -/
theorem merge_eq_setEach_null :
    let store : Store := ⟨[("count", .int 1), ("list", .array [.null])]⟩
    let source := [("a", Value.int 1), ("b", .null)]
    (store.merge ["list", "0"] (.object source)).1 =
        (store.setEach ["list", "0"] [("b", .null), ("a", .int 1)]).1 ∧
      ∀ answer ∈ (store.setEach ["count", "x"] source).2,
        answer = .error (.notAContainer ["count"]) := by
  intro store source
  have filled : source ≠ [] := List.cons_ne_nil _ _
  have unique : Keyed.Unique source := (by decide : ["a", "b"].Nodup)
  obtain ⟨same, -, -⟩ := merge_eq_setEach store ["list", "0"] source [("b", .null), ("a", .int 1)]
    (.inr (.inl rfl)) filled unique (.swap ..)
  obtain ⟨-, -, blocked⟩ := merge_eq_setEach store ["count", "x"] source source (.inl rfl) filled
    unique (.refl _)
  have number : store.root.Blocked (["count"] ++ "x" :: []) (.notAContainer ["count"]) :=
    .scalar "x" [] (w := .int 1) rfl trivial
  exact ⟨same, (blocked _).2 number⟩

end Store

end SignalFlow
