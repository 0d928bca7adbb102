import SignalFlow.Json.Fields
import SignalFlow.Keyed
/-!
# Laws of the entries of an object

* `get?_insert_of_ne`, `get?_erase_self`, `get?_erase_of_ne`   looking up behind a change;
* `get?_merge`     behind a merge a key has the value of the last entry for it;
* `insert_comm`    insertions under different keys may be exchanged, so
* `merge_comm`     merges without a key in common may be;
* `sorted_insert`, `sorted_erase`, `sorted_ofList`   the order of the keys is kept;
* `ofList_perm`    entries with keys of their own are only put in order;
* `ofList_eq_self` those that are in order stay as they are;
* `ext`            and are told apart by what is found under the keys.

`insert` looks for its place from the front, so its laws hold in any order of the entries. `erase`
takes out one entry, and the key is gone only because no key occurs twice.
-/

namespace SignalFlow

namespace Fields

variable {α : Type u} {β : Type v}

/-! ## looking up -/

theorem get?_cons (key : String) (entry : String × α) (rest : List (String × α)) :
    get? key (entry :: rest) =
      if key < entry.1 then none else if key = entry.1 then some entry.2 else get? key rest := rfl

theorem get?_insert_of_ne {key other : String} (different : other ≠ key) (value : α)
    (fields : List (String × α)) : get? other (insert key value fields) = get? other fields := by
  have skip (rest : List (String × α)) (above : ¬ other < key) :
      get? other ((key, value) :: rest) = get? other rest := by
    rw [get?_cons, if_neg above, if_neg different]
  induction fields with
  | nil =>
    rw [insert, get?_cons, if_neg different]
    split <;> rfl
  | cons entry rest ih =>
    obtain ⟨k, v⟩ := entry
    rw [insert]
    split
    · next below =>
      by_cases before : other < key
      · rw [get?_cons, get?_cons, if_pos before, if_pos (String.lt_trans before below)]
      · exact skip _ before
    · split
      · next same =>
        subst same
        rw [get?_cons, get?_cons, if_neg different, if_neg different]
      · rw [get?_cons, get?_cons, ih]

theorem mem_of_get? {key : String} {value : α} {fields : List (String × α)}
    (found : get? key fields = some value) : (key, value) ∈ fields := by
  induction fields with
  | nil => cases found
  | cons first rest ih =>
    rw [get?_cons] at found
    split at found
    · cases found
    · split at found
      · next same =>
        cases found
        exact same ▸ List.mem_cons_self
      · exact List.mem_cons_of_mem _ (ih found)

theorem insert_of_get? {key : String} {value : α} {fields : List (String × α)}
    (found : get? key fields = some value) : insert key value fields = fields := by
  induction fields with
  | nil => cases found
  | cons entry rest ih =>
    obtain ⟨k, v⟩ := entry
    rw [get?] at found
    rw [insert]
    split at found
    · cases found
    · next notBelow =>
      rw [if_neg notBelow]
      split at found
      · next same =>
        cases found
        rw [if_pos same, same]
      · next other => rw [if_neg other, ih found]

theorem insert_insert (key : String) (first second : α) (fields : List (String × α)) :
    insert key second (insert key first fields) = insert key second fields := by
  have again (rest : List (String × α)) :
      insert key second ((key, first) :: rest) = (key, second) :: rest := by
    rw [insert, if_neg (String.lt_irrefl _), if_pos rfl]
  induction fields with
  | nil => exact again []
  | cons entry rest ih =>
    obtain ⟨k, v⟩ := entry
    rw [insert, insert]
    split
    · exact again _
    · next notBelow =>
      split
      · exact again _
      · next other => rw [insert, if_neg notBelow, if_neg other, ih]

theorem merge_append (target first second : List (String × α)) :
    merge target (first ++ second) = merge (merge target first) second :=
  List.foldl_append

/-- behind a merge a key has the value of the last entry for it -/
theorem get?_merge (key : String) (target source : List (String × α)) :
    get? key (merge target source) = (source.reverse.lookup key).or (get? key target) := by
  induction source generalizing target with
  | nil => rfl
  | cons entry source ih =>
    obtain ⟨k, v⟩ := entry
    rw [merge_cons, ih, List.reverse_cons, List.lookup_append, Option.or_assoc]
    congr 1
    by_cases same : key = k
    · subst same
      rw [get?_insert_self, List.lookup_cons_self]
      rfl
    · have other : (key == k) = false := beq_eq_false_iff_ne.mpr same
      rw [get?_insert_of_ne same, List.lookup_cons, other]
      rfl

theorem isSome_get?_merge {key : String} {target : List (String × α)} (source : List (String × α))
    (there : (get? key target).isSome = true) : (get? key (merge target source)).isSome = true := by
  rw [get?_merge, Option.isSome_or, there, Bool.or_true]

/-! ## changes in another order -/

theorem insert_cons (key : String) (value : α) (entry : String × α) (rest : List (String × α)) :
    insert key value (entry :: rest) =
      if key < entry.1 then (key, value) :: entry :: rest
      else if key = entry.1 then (key, value) :: rest
      else entry :: insert key value rest := rfl

theorem insert_comm_of_lt {small great : String} (lt : small < great) (v w : α)
    (fields : List (String × α)) :
    insert small v (insert great w fields) = insert great w (insert small v fields) := by
  have notGreater : ¬ great < small := String.lt_asymm lt
  have notSame : great ≠ small := fun e => String.lt_irrefl _ (e ▸ lt)
  have behind (rest : List (String × α)) :
      insert great w ((small, v) :: rest) = (small, v) :: insert great w rest := by
    rw [insert_cons, if_neg notGreater, if_neg notSame]
  induction fields with
  | nil =>
    rw [insert, insert_cons, if_pos lt]
    exact (behind []).symm
  | cons entry rest ih =>
    obtain ⟨k, x⟩ := entry
    rcases Std.lt_trichotomy small k with below | same | above
    · have place : insert small v ((k, x) :: rest) = (small, v) :: (k, x) :: rest := if_pos below
      rw [place, behind, insert_cons great]
      split
      · rw [insert_cons, if_pos lt]
      · split
        · rw [insert_cons, if_pos lt]
        · rw [insert_cons, if_pos below]
    · subst same
      have place : insert small v ((small, x) :: rest) = (small, v) :: rest := by
        rw [insert_cons, if_neg (String.lt_irrefl _), if_pos rfl]
      rw [place, behind, insert_cons great, if_neg notGreater, if_neg notSame, insert_cons,
        if_neg (String.lt_irrefl _), if_pos rfl]
    · have past : ∀ {key : String} (value : α) (rest : List (String × α)), k < key →
          insert key value ((k, x) :: rest) = (k, x) :: insert key value rest := by
        intro key value rest above
        rw [insert_cons, if_neg (String.lt_asymm above), if_neg fun e => String.lt_irrefl _ (e ▸ above)]
      have further := String.lt_trans above lt
      rw [past w rest further, past v _ above, past v rest above, past w _ further, ih]

theorem insert_comm {a b : String} (different : a ≠ b) (v w : α) (fields : List (String × α)) :
    insert a v (insert b w fields) = insert b w (insert a v fields) := by
  rcases Std.lt_trichotomy a b with lt | same | gt
  · exact insert_comm_of_lt lt v w fields
  · exact absurd same different
  · exact (insert_comm_of_lt gt w v fields).symm

theorem merge_insert {key : String} {source : List (String × α)} (value : α)
    (other : ∀ entry ∈ source, entry.1 ≠ key) (target : List (String × α)) :
    merge (insert key value target) source = insert key value (merge target source) := by
  induction source generalizing target with
  | nil => rfl
  | cons entry source ih =>
    obtain ⟨first, others⟩ := List.forall_mem_cons.mp other
    rw [merge_cons, merge_cons, insert_comm first, ih others]

theorem merge_comm {first second : List (String × α)}
    (apart : ∀ a ∈ first, ∀ b ∈ second, a.1 ≠ b.1) (target : List (String × α)) :
    merge (merge target first) second = merge (merge target second) first := by
  induction first generalizing target with
  | nil => rfl
  | cons entry first ih =>
    obtain ⟨own, others⟩ := List.forall_mem_cons.mp apart
    rw [merge_cons, merge_cons, ih others, merge_insert entry.2 fun b hb => (own b hb).symm]

/-! ## the order of the keys -/

theorem mem_insert {key : String} {value : α} {fields : List (String × α)} {entry : String × α}
    (h : entry ∈ insert key value fields) : entry = (key, value) ∨ entry ∈ fields := by
  induction fields with
  | nil => exact .inl (List.mem_singleton.mp h)
  | cons first rest ih =>
    rw [insert_cons] at h
    split at h
    · exact List.mem_cons.mp h
    · split at h
      · exact (List.mem_cons.mp h).imp_right (List.mem_cons_of_mem _)
      · rcases List.mem_cons.mp h with rfl | h
        · exact .inr List.mem_cons_self
        · exact (ih h).imp_right (List.mem_cons_of_mem _)

theorem sorted_insert {fields : List (String × α)} (sorted : Sorted fields) (key : String)
    (value : α) : Sorted (insert key value fields) := by
  induction fields with
  | nil => exact List.pairwise_singleton _ _
  | cons first rest ih =>
    obtain ⟨least, behind⟩ := List.pairwise_cons.mp sorted
    rw [insert_cons]
    split
    · next below =>
      refine List.pairwise_cons.mpr ⟨List.forall_mem_cons.mpr ⟨below, fun e he => ?_⟩, sorted⟩
      exact String.lt_trans below (least e he)
    · next notBelow =>
      split
      · next same =>
        refine List.pairwise_cons.mpr ⟨fun e he => ?_, behind⟩
        show key < e.1
        rw [same]
        exact least e he
      · next other =>
        refine List.pairwise_cons.mpr ⟨fun e he => ?_, ih behind⟩
        rcases mem_insert he with rfl | he
        · rcases Std.lt_trichotomy key first.1 with lt | same | gt
          · exact absurd lt notBelow
          · exact absurd same other
          · exact gt
        · exact least e he

theorem sorted_ofList (entries : List (String × α)) : Sorted (ofList entries) := by
  have laid (target : List (String × α)) (sorted : Sorted target) :
      Sorted (merge target entries) := by
    induction entries generalizing target with
    | nil => exact sorted
    | cons entry entries ih => exact ih _ (sorted_insert sorted _ _)
  exact laid [] List.Pairwise.nil

/-! ## entries put in order -/

theorem insert_perm {key : String} {fields : List (String × α)}
    (fresh : ∀ entry ∈ fields, entry.1 ≠ key) (value : α) :
    (insert key value fields).Perm ((key, value) :: fields) := by
  induction fields with
  | nil => exact .refl _
  | cons first rest ih =>
    obtain ⟨other, others⟩ := List.forall_mem_cons.mp fresh
    rw [insert_cons]
    split
    · exact .refl _
    · rw [if_neg other.symm]
      exact ((ih others).cons first).trans (.swap ..)

theorem merge_perm {target source : List (String × α)} (unique : Keyed.Unique (source ++ target)) :
    (merge target source).Perm (source ++ target) := by
  induction source generalizing target with
  | nil => exact .refl _
  | cons entry source ih =>
    obtain ⟨fresh, behind⟩ := List.nodup_cons.mp unique
    have place : (insert entry.1 entry.2 target).Perm (entry :: target) :=
      insert_perm (fun other h same => fresh
        (List.mem_map.mpr ⟨other, List.mem_append_right source h, same⟩)) entry.2
    have moved : (source ++ insert entry.1 entry.2 target).Perm (entry :: source ++ target) :=
      (place.append_left source).trans List.perm_middle
    have still : Keyed.Unique (source ++ insert entry.1 entry.2 target) :=
      (moved.map Prod.fst).nodup_iff.mpr unique
    exact (ih still).trans moved

theorem ofList_perm {entries : List (String × α)} (unique : Keyed.Unique entries) :
    (ofList entries).Perm entries := by
  have laid : (merge [] entries).Perm (entries ++ []) := merge_perm (by rwa [List.append_nil])
  rwa [List.append_nil] at laid

theorem unique_of_sorted {fields : List (String × α)} (sorted : Sorted fields) :
    Keyed.Unique fields :=
  List.pairwise_map.mpr (sorted.imp fun {a b} lt (same : a.1 = b.1) =>
    String.lt_irrefl b.1 (same ▸ lt))

theorem insert_of_above {key : String} {fields : List (String × α)}
    (above : ∀ entry ∈ fields, entry.1 < key) (value : α) :
    insert key value fields = fields ++ [(key, value)] := by
  induction fields with
  | nil => rfl
  | cons first rest ih =>
    obtain ⟨own, others⟩ := List.forall_mem_cons.mp above
    rw [insert_cons, if_neg (String.lt_asymm own), if_neg fun same => String.lt_irrefl _ (same ▸ own),
      ih others, List.cons_append]

theorem ofList_eq_self {fields : List (String × α)} (sorted : Sorted fields) :
    ofList fields = fields := by
  have laid {target source : List (String × α)} (sorted : Sorted (target ++ source)) :
      merge target source = target ++ source := by
    induction source generalizing target with
    | nil => exact (List.append_nil target).symm
    | cons entry source ih =>
      have above : ∀ e ∈ target, e.1 < entry.1 := fun e he =>
        (List.pairwise_append.mp sorted).2.2 e he entry List.mem_cons_self
      rw [merge_cons, insert_of_above above, ih (by rwa [← List.append_cons]), ← List.append_cons]
  exact laid sorted

theorem get?_of_mem {fields : List (String × α)} (sorted : Sorted fields) {entry : String × α}
    (h : entry ∈ fields) : get? entry.1 fields = some entry.2 := by
  induction fields with
  | nil => cases h
  | cons first rest ih =>
    obtain ⟨least, behind⟩ := List.pairwise_cons.mp sorted
    rw [get?_cons]
    cases h with
    | head => rw [if_neg (String.lt_irrefl _), if_pos rfl]
    | tail _ h =>
      have above := least entry h
      rw [if_neg (String.lt_asymm above), if_neg fun same => String.lt_irrefl _ (same ▸ above),
        ih behind h]

/-- entries in order are told apart by what is found under the keys -/
theorem ext {fields fields' : List (String × α)} (sorted : Sorted fields) (sorted' : Sorted fields')
    (same : ∀ key, get? key fields = get? key fields') : fields = fields' := by
  have nodup {fields : List (String × α)} (sorted : Sorted fields) : fields.Nodup :=
    sorted.imp fun {a b} lt (same : a = b) => String.lt_irrefl b.1 (same ▸ lt)
  have perm : fields.Perm fields' := by
    refine (List.perm_ext_iff_of_nodup (nodup sorted) (nodup sorted')).mpr fun entry =>
      ⟨fun h => ?_, fun h => ?_⟩
    · exact mem_of_get? ((same entry.1).symm.trans (get?_of_mem sorted h))
    · exact mem_of_get? ((same entry.1).trans (get?_of_mem sorted' h))
  exact perm.eq_of_pairwise (fun _ _ _ _ lt gt => absurd gt (String.lt_asymm lt)) sorted sorted'

theorem get?_ofList {entries : List (String × α)} (unique : Keyed.Unique entries)
    {entry : String × α} (h : entry ∈ entries) : get? entry.1 (ofList entries) = some entry.2 :=
  get?_of_mem (sorted_ofList entries) ((ofList_perm unique).mem_iff.mpr h)

theorem map_insert (f : α → β) (key : String) (value : α) (fields : List (String × α)) :
    (insert key value fields).map (Prod.map id f) =
      insert key (f value) (fields.map (Prod.map id f)) := by
  induction fields with
  | nil => rfl
  | cons first rest ih =>
    rw [List.map_cons, insert_cons, insert_cons]
    show _ = if key < first.1 then _ else if key = first.1 then _ else _
    split
    · rfl
    · split
      · rfl
      · rw [List.map_cons, ih]

/-- the order does not depend on the values -/
theorem map_ofList (f : α → β) (entries : List (String × α)) :
    (ofList entries).map (Prod.map id f) = ofList (entries.map (Prod.map id f)) := by
  have laid (target : List (String × α)) : (merge target entries).map (Prod.map id f) =
      merge (target.map (Prod.map id f)) (entries.map (Prod.map id f)) := by
    induction entries generalizing target with
    | nil => rfl
    | cons entry entries ih => rw [merge_cons, ih, map_insert, List.map_cons, merge_cons]; rfl
  exact laid []

theorem erase_cons (key : String) (entry : String × α) (rest : List (String × α)) :
    erase key (entry :: rest) =
      if key < entry.1 then entry :: rest else if key = entry.1 then rest
      else entry :: erase key rest := rfl

theorem erase_sublist (key : String) (fields : List (String × α)) :
    (erase key fields).Sublist fields := by
  induction fields with
  | nil => exact .refl _
  | cons first rest ih =>
    rw [erase_cons]
    split
    · exact .refl _
    · split
      · exact List.sublist_cons_self ..
      · exact ih.cons_cons first

theorem sorted_erase {fields : List (String × α)} (sorted : Sorted fields) (key : String) :
    Sorted (erase key fields) := List.Pairwise.sublist (erase_sublist key fields) sorted

theorem get?_of_below {key : String} {fields : List (String × α)}
    (below : ∀ entry ∈ fields, key < entry.1) : get? key fields = none := by
  cases fields with
  | nil => rfl
  | cons first rest => rw [get?_cons, if_pos (below first List.mem_cons_self)]

theorem get?_cons_of_ne {entry : String × α} {rest : List (String × α)} (sorted : Sorted (entry :: rest))
    {key : String} (different : key ≠ entry.1) : get? key (entry :: rest) = get? key rest := by
  rw [get?_cons, if_neg different]
  split
  · next below =>
    have least := (List.pairwise_cons.mp sorted).1
    exact (get?_of_below fun e he => String.lt_trans below (least e he)).symm
  · rfl

theorem get?_erase_self {fields : List (String × α)} (sorted : Sorted fields) (key : String) :
    get? key (erase key fields) = none := by
  induction fields with
  | nil => rfl
  | cons first rest ih =>
    obtain ⟨least, behind⟩ := List.pairwise_cons.mp sorted
    rw [erase_cons]
    split
    · next below => rw [get?_cons, if_pos below]
    · next notBelow =>
      split
      · next same => exact get?_of_below (same ▸ least)
      · next other => rw [get?_cons, if_neg notBelow, if_neg other, ih behind]

theorem get?_erase_of_ne {fields : List (String × α)} (sorted : Sorted fields)
    {key other : String} (different : other ≠ key) :
    get? other (erase key fields) = get? other fields := by
  induction fields with
  | nil => rfl
  | cons first rest ih =>
    obtain ⟨least, behind⟩ := List.pairwise_cons.mp sorted
    rw [erase_cons]
    split
    · rfl
    · split
      · next same =>
        rw [get?_cons]
        split
        · next below => exact get?_of_below fun e he => String.lt_trans below (least e he)
        · rw [if_neg (same ▸ different)]
      · rw [get?_cons, get?_cons, ih behind]

theorem insert_erase {fields : List (String × α)} (sorted : Sorted fields) {key : String} {value : α}
    (found : get? key fields = some value) : insert key value (erase key fields) = fields := by
  refine ext (sorted_insert (sorted_erase sorted key) key value) sorted fun other => ?_
  by_cases same : other = key
  · rw [same, get?_insert_self, found]
  · rw [get?_insert_of_ne same, get?_erase_of_ne sorted same]

end Fields

end SignalFlow
