import SignalFlow.Proofs.Config.Substitution
import SignalFlow.Proofs.FirstSeen
import Mathlib.Data.Fintype.EquivFin
/-!
# Keys of mappings

* `Value.Distinct`   in each mapping of the value, no key is equal to an earlier one;
* `Value.same`       on such values, equality of keys is an equivalence;
* `Value.rebuilt`    a mapping of some entries: each key once, where it stands first, with the value that
                     stands last under it.

Putting the entries of a list one after the other gives `Value.rebuilt` of the list (`Value.putAll_eq_rebuilt`),
and what is read from a text is distinct (`distinct_of_read?`).
-/

namespace SignalFlow

/-- two lists of one length: if each of the first has its like in the second, and no two have it in the same
place, then nothing in the second is left over -/
theorem exists_of_apart {α β : Type} {R : α → β → Prop} {as : List α} {bs : List β}
    (length : as.length = bs.length) (each : ∀ a ∈ as, ∃ b ∈ bs, R a b)
    (apart : as.Pairwise fun a a' => ∀ b, R a b → ¬ R a' b) : ∀ b ∈ bs, ∃ a ∈ as, R a b := by
  have found (i : Fin as.length) : ∃ j : Fin bs.length, R (as.get i) (bs.get j) := by
    obtain ⟨b, hb, like⟩ := each _ (List.get_mem as i)
    obtain ⟨j, rfl⟩ := List.mem_iff_get.mp hb
    exact ⟨j, like⟩
  choose place like using found
  have apart' {i j : Fin as.length} (lt : i < j) (same : place i = place j) : False :=
    List.pairwise_iff_get.mp apart i j lt _ (like i) (same ▸ like j)
  have injective : Function.Injective place := by
    intro i j same
    rcases Nat.lt_trichotomy i j with lt | same' | gt
    · cases apart' lt same
    · exact Fin.ext same'
    · cases apart' gt same.symm
  have surjective := (Finite.injective_iff_surjective_of_equiv (finCongr length)).mp injective
  intro b hb
  obtain ⟨j, rfl⟩ := List.mem_iff_get.mp hb
  obtain ⟨i, rfl⟩ := surjective j
  exact ⟨_, List.get_mem as i, like i⟩

namespace Yaml

namespace Value

/-- in each mapping of the value, no key is equal to an earlier one -/
inductive Distinct : Value → Prop
  | scalar {v : Value} : v.isScalar = true → Distinct v
  | sequence {items : List Value} : (∀ v ∈ items, Distinct v) → Distinct (.sequence items)
  | mapping {entries : List (Value × Value)} :
      (entries.Pairwise fun a b => b.1.same a.1 = false) → (∀ entry ∈ entries, Distinct entry.1) →
      (∀ entry ∈ entries, Distinct entry.2) → Distinct (.mapping entries)
  | tagged {tag : String} {v : Value} : Distinct v → Distinct (.tagged tag v)

/-! ## what is equal to a value -/

theorem sameItems_iff {a b : List Value} :
    sameItems a b = true ↔ List.Forall₂ (fun v w => same v w = true) a b := by
  induction a generalizing b with
  | nil =>
    cases b with
    | nil => exact ⟨fun _ => .nil, fun _ => by rw [sameItems]⟩
    | cons w b => exact ⟨fun h => (nomatch h), fun h => (nomatch h)⟩
  | cons v a ih =>
    cases b with
    | nil => exact ⟨fun h => (nomatch h), fun h => (nomatch h)⟩
    | cons w b => rw [sameItems, Bool.and_eq_true, List.forall₂_cons, ih]

theorem within_iff {a b : List (Value × Value)} :
    within a b = true ↔
      ∀ entry ∈ a, ∃ other ∈ b, entry.1.same other.1 = true ∧ entry.2.same other.2 = true := by
  induction a with
  | nil => simp [within]
  | cons entry a ih =>
    obtain ⟨key, value⟩ := entry
    rw [within, Bool.and_eq_true, List.forall_mem_cons, ih, List.any_eq_true]
    simp only [Bool.and_eq_true]

section
variable {v : Value}

theorem same_sequence {items : List Value} :
    (Value.sequence items).same v = true ↔
      ∃ others, v = .sequence others ∧ List.Forall₂ (fun v w => same v w = true) items others := by
  cases v with
  | sequence others => simp [same, sameItems_iff]
  | _ => simp [same]

theorem same_mapping {entries : List (Value × Value)} :
    (Value.mapping entries).same v = true ↔
      ∃ others, v = .mapping others ∧ entries.length = others.length ∧
        ∀ entry ∈ entries, ∃ other ∈ others, entry.1.same other.1 = true ∧ entry.2.same other.2 = true := by
  cases v with
  | mapping others => simp [same, within_iff]
  | _ => simp [same]

theorem same_tagged {tag : String} {content : Value} :
    (Value.tagged tag content).same v = true ↔ ∃ other, v = .tagged tag other ∧ content.same other = true := by
  cases v with
  | tagged tag' other =>
    rw [same, Bool.and_eq_true, decide_eq_true_eq]
    exact ⟨fun ⟨own, same⟩ => ⟨other, own ▸ rfl, same⟩, fun ⟨_, e, same⟩ => by cases e; exact ⟨rfl, same⟩⟩
  | _ => simp [same]

end

/-! ## floating point numbers -/

theorem sameFloat_iff {x y : Double} :
    sameFloat x y = true ↔ (x.isNaN = true ∧ y.isNaN = true) ∨
      x.isNaN = false ∧ y.isNaN = false ∧ (x = y ∨ x.isZero = true ∧ y.isZero = true) := by
  obtain ⟨bits⟩ := x
  obtain ⟨bits'⟩ := y
  simp [sameFloat, Double.same, and_assoc]

theorem sameFloat_self (x : Double) : sameFloat x x = true := by
  rw [sameFloat_iff]
  cases x.isNaN with
  | true => exact .inl ⟨rfl, rfl⟩
  | false => exact .inr ⟨rfl, rfl, .inl rfl⟩

theorem sameFloat_symm {x y : Double} (h : sameFloat x y = true) : sameFloat y x = true := by
  rw [sameFloat_iff] at h ⊢
  rcases h with ⟨nan, nan'⟩ | ⟨own, other, rfl | ⟨zero, zero'⟩⟩
  · exact .inl ⟨nan', nan⟩
  · exact .inr ⟨own, own, .inl rfl⟩
  · exact .inr ⟨other, own, .inr ⟨zero', zero⟩⟩

theorem sameFloat_trans {x y z : Double} (h : sameFloat x y = true) (h' : sameFloat y z = true) :
    sameFloat x z = true := by
  rw [sameFloat_iff] at h h' ⊢
  rcases h with ⟨nan, nan'⟩ | ⟨own, other, same⟩
  · rcases h' with ⟨-, last⟩ | ⟨other, -⟩
    · exact .inl ⟨nan, last⟩
    · cases nan'.symm.trans other
  · rcases h' with ⟨nan', -⟩ | ⟨-, last, same'⟩
    · cases nan'.symm.trans other
    · refine .inr ⟨own, last, ?_⟩
      rcases same with rfl | ⟨zero, zero'⟩
      · exact same'
      · rcases same' with rfl | ⟨-, last⟩
        · exact .inr ⟨zero, zero'⟩
        · exact .inr ⟨zero, last⟩

/-! ## equality is an equivalence -/

section
variable {v w u : Value}

theorem same_scalar (scalar : v.isScalar = true) (h : v.same w = true) :
    v = w ∨ ∃ x y, v = .float x ∧ w = .float y ∧ sameFloat x y = true := by
  cases v with
  | sequence | mapping | tagged => cases scalar
  | null =>
    cases w with
    | null => exact .inl rfl
    | _ => simp [same] at h
  | float x =>
    cases w with
    | float y => exact .inr ⟨x, y, rfl, rfl, h⟩
    | _ => simp [same] at h
  | bool a =>
    cases w with
    | bool b => exact .inl (congrArg _ (of_decide_eq_true h))
    | _ => simp [same] at h
  | int a =>
    cases w with
    | int b => exact .inl (congrArg _ (of_decide_eq_true h))
    | _ => simp [same] at h
  | string a =>
    cases w with
    | string b => exact .inl (congrArg _ (of_decide_eq_true h))
    | _ => simp [same] at h

theorem same_self_of_scalar (scalar : v.isScalar = true) : v.same v = true := by
  cases v with
  | sequence | mapping | tagged => cases scalar
  | null => rfl
  | float x => exact sameFloat_self x
  | bool | int | string => exact decide_eq_true rfl

theorem Distinct.same_self (distinct : Distinct v) : v.same v = true := by
  induction distinct with
  | scalar scalar => exact same_self_of_scalar scalar
  | @sequence items _ ih => exact same_sequence.mpr ⟨items, rfl, List.forall₂_same.mpr ih⟩
  | @mapping entries _ _ _ keys values =>
    exact same_mapping.mpr ⟨entries, rfl, rfl,
      fun entry he => ⟨entry, he, keys entry he, values entry he⟩⟩
  | tagged _ ih => exact same_tagged.mpr ⟨_, rfl, ih⟩

theorem Distinct.same_trans (distinct : Distinct v) (h : v.same w = true) (h' : w.same u = true) :
    v.same u = true := by
  induction distinct generalizing w u with
  | scalar scalar =>
    rcases same_scalar scalar h with rfl | ⟨x, y, rfl, rfl, same⟩
    · exact h'
    · rcases same_scalar rfl h' with rfl | ⟨_, z, ⟨⟩, rfl, same'⟩
      · exact h
      · exact sameFloat_trans same same'
  | sequence _ ih =>
    obtain ⟨others, rfl, each⟩ := same_sequence.mp h
    obtain ⟨last, rfl, each'⟩ := same_sequence.mp h'
    obtain ⟨length, each⟩ := List.forall₂_iff_get.mp each
    obtain ⟨length', each'⟩ := List.forall₂_iff_get.mp each'
    refine same_sequence.mpr ⟨last, rfl, List.forall₂_iff_get.mpr
      ⟨length.trans length', fun i own behind => ?_⟩⟩
    have middle : i < others.length := length ▸ own
    exact ih _ (List.get_mem ..) (each i own middle) (each' i middle behind)
  | mapping _ _ _ keys values =>
    obtain ⟨others, rfl, length, each⟩ := same_mapping.mp h
    obtain ⟨last, rfl, length', each'⟩ := same_mapping.mp h'
    refine same_mapping.mpr ⟨last, rfl, length.trans length', fun entry he => ?_⟩
    obtain ⟨other, ho, key, value⟩ := each entry he
    obtain ⟨final, hf, key', value'⟩ := each' other ho
    exact ⟨final, hf, keys entry he key key', values entry he value value'⟩
  | tagged _ ih =>
    obtain ⟨other, rfl, same⟩ := same_tagged.mp h
    obtain ⟨last, rfl, same'⟩ := same_tagged.mp h'
    exact same_tagged.mpr ⟨last, rfl, ih same same'⟩

theorem Distinct.same_symm (distinct : Distinct v) (h : v.same w = true) : w.same v = true := by
  induction distinct generalizing w with
  | scalar scalar =>
    rcases same_scalar scalar h with rfl | ⟨x, y, rfl, rfl, same⟩
    · exact h
    · exact sameFloat_symm same
  | sequence _ ih =>
    obtain ⟨others, rfl, each⟩ := same_sequence.mp h
    obtain ⟨length, each⟩ := List.forall₂_iff_get.mp each
    exact same_sequence.mpr ⟨_, rfl, List.forall₂_iff_get.mpr
      ⟨length.symm, fun i own other => ih _ (List.get_mem ..) (each i other own)⟩⟩
  | @mapping entries apart distinct _ keys values =>
    obtain ⟨others, rfl, length, each⟩ := same_mapping.mp h
    have apart : entries.Pairwise fun a b => ∀ other : Value × Value,
        a.1.same other.1 = true ∧ a.2.same other.2 = true →
          ¬ (b.1.same other.1 = true ∧ b.2.same other.2 = true) := by
      refine apart.imp_of_mem fun {a b} ha hb new other ⟨first, _⟩ ⟨second, _⟩ => ?_
      have meet := (distinct b hb).same_trans second (keys a ha first)
      cases meet.symm.trans new
    refine same_mapping.mpr ⟨entries, rfl, length.symm, fun other ho => ?_⟩
    obtain ⟨entry, he, key, value⟩ := exists_of_apart length each apart other ho
    exact ⟨entry, he, keys entry he key, values entry he value⟩
  | tagged _ ih =>
    obtain ⟨other, rfl, same⟩ := same_tagged.mp h
    exact same_tagged.mpr ⟨_, rfl, ih same⟩

end

/-! ## entries put one after the other -/

/-- the value that stands last under a key -/
def lastUnder? (key : Value) (entries : List (Value × Value)) : Option Value :=
  (entries.reverse.find? fun entry => entry.1.same key).map (·.2)

/-- the mapping of some entries: each key once, where it stands first, with the value that stands last
under it -/
def rebuilt (entries : List (Value × Value)) : List (Value × Value) :=
  ((entries.map (·.1)).eraseDupsBy same).filterMap fun key =>
    (lastUnder? key entries).map fun value => (key, value)

/-- the entries put one after the other -/
def putAll (entries : List (Value × Value)) : List (Value × Value) :=
  entries.foldl (fun done entry => put entry.1 entry.2 done) []

theorem lastUnder?_append (key : Value) (entries : List (Value × Value)) (entry : Value × Value) :
    lastUnder? key (entries ++ [entry]) =
      if entry.1.same key then some entry.2 else lastUnder? key entries := by
  unfold lastUnder?
  rw [List.reverse_append, List.reverse_singleton, List.singleton_append, List.find?_cons]
  cases entry.1.same key <;> rfl

theorem putAll_append (entries : List (Value × Value)) (entry : Value × Value) :
    putAll (entries ++ [entry]) = put entry.1 entry.2 (putAll entries) := by
  unfold putAll
  rw [List.foldl_append]
  rfl

theorem keys_put (key value : Value) (entries : List (Value × Value)) :
    (put key value entries).map (·.1) = enlist same (entries.map (·.1)) key := by
  induction entries with
  | nil => rfl
  | cons entry rest ih =>
    obtain ⟨k, v⟩ := entry
    unfold put
    rw [enlist, List.map_cons, List.any_cons]
    cases own : key.same k with
    | true => rfl
    | false =>
      rw [Bool.false_or, if_neg Bool.false_ne_true, List.map_cons, ih, enlist]
      split <;> rfl

theorem keys_putAll (entries : List (Value × Value)) :
    (putAll entries).map (·.1) = (entries.map (·.1)).eraseDupsBy same := by
  rw [← foldl_enlist]
  induction entries using List.reverseRecOn with
  | nil => rfl
  | append_singleton entries entry ih =>
    rw [putAll_append, keys_put, ih, List.map_append, List.foldl_append]
    rfl

theorem apart_putAll (entries : List (Value × Value)) :
    (putAll entries).Pairwise fun a b => b.1.same a.1 = false := by
  refine List.pairwise_map.mp (?_ : ((putAll entries).map (·.1)).Pairwise fun a b => b.same a = false)
  rw [keys_putAll]
  exact pairwise_eraseDupsBy _

theorem put_of_new {key value : Value} {entries : List (Value × Value)}
    (new : ∀ entry ∈ entries, key.same entry.1 = false) :
    put key value entries = entries ++ [(key, value)] := by
  induction entries with
  | nil => rfl
  | cons entry rest ih =>
    obtain ⟨own, others⟩ := List.forall_mem_cons.mp new
    rw [put, if_neg (Bool.eq_false_iff.mp own), ih others]
    rfl

theorem putAll_of_apart {entries : List (Value × Value)}
    (apart : entries.Pairwise fun a b => b.1.same a.1 = false) : putAll entries = entries := by
  induction entries using List.reverseRecOn with
  | nil => rfl
  | append_singleton entries entry ih =>
    obtain ⟨front, -, new⟩ := List.pairwise_append.mp apart
    rw [putAll_append, ih front, put_of_new fun other ho => new other ho entry (List.mem_singleton_self _)]

theorem mem_put {key value : Value} {entries : List (Value × Value)} {entry : Value × Value}
    (distinct : key.Distinct) (keys : ∀ other ∈ entries, other.1.Distinct)
    (apart : entries.Pairwise fun a b => b.1.same a.1 = false) (h : entry ∈ put key value entries) :
    key.same entry.1 = true ∧ entry.2 = value ∨ key.same entry.1 = false ∧ entry ∈ entries := by
  induction entries with
  | nil =>
    rw [List.mem_singleton.mp h]
    exact .inl ⟨distinct.same_self, rfl⟩
  | cons first rest ih =>
    obtain ⟨k, v⟩ := first
    obtain ⟨-, keys⟩ := List.forall_mem_cons.mp keys
    obtain ⟨new, apart⟩ := List.pairwise_cons.mp apart
    unfold put at h
    cases own : key.same k with
    | true =>
      rw [own, if_pos rfl] at h
      rcases List.mem_cons.mp h with rfl | h
      · exact .inl ⟨own, rfl⟩
      · -- another entry under the key would have a key equal to that of the first
        refine .inr ⟨Bool.eq_false_iff.mpr fun other => ?_, List.mem_cons_of_mem _ h⟩
        have meet := (keys entry h).same_trans (distinct.same_symm other) own
        cases meet.symm.trans (new entry h)
    | false =>
      rw [own, if_neg Bool.false_ne_true] at h
      rcases List.mem_cons.mp h with rfl | h
      · exact .inr ⟨own, List.mem_cons_self⟩
      · exact (ih keys apart h).imp_right (And.imp_right (List.mem_cons_of_mem _))

section
variable {entries : List (Value × Value)}

theorem mem_keys_putAll {entry : Value × Value} (h : entry ∈ putAll entries) :
    ∃ first ∈ entries, first.1 = entry.1 := by
  have listed : entry.1 ∈ (putAll entries).map (·.1) := List.mem_map_of_mem h
  rw [keys_putAll] at listed
  exact List.mem_map.mp (mem_of_mem_eraseDupsBy listed)

theorem lastUnder?_putAll (distinct : ∀ entry ∈ entries, entry.1.Distinct) :
    ∀ entry ∈ putAll entries, lastUnder? entry.1 entries = some entry.2 := by
  induction entries using List.reverseRecOn with
  | nil => exact fun _ h => nomatch h
  | append_singleton entries last ih =>
    obtain ⟨front, own⟩ := List.forall_mem_append.mp distinct
    intro entry h
    have keys : ∀ other ∈ putAll entries, other.1.Distinct := fun other ho => by
      obtain ⟨first, hf, same⟩ := mem_keys_putAll ho
      exact same ▸ front first hf
    rw [putAll_append] at h
    rw [lastUnder?_append]
    rcases mem_put (own last (List.mem_singleton_self _)) keys (apart_putAll entries) h with
      ⟨same, value⟩ | ⟨other, there⟩
    · rw [if_pos same, value]
    · rw [if_neg (Bool.eq_false_iff.mp other)]
      exact ih front entry there

/-- **Entries put one after the other**: each key stands where it came first, with the value that came
last. -/
theorem putAll_eq_rebuilt (distinct : ∀ entry ∈ entries, entry.1.Distinct) :
    putAll entries = rebuilt entries := by
  have value := lastUnder?_putAll distinct
  rw [rebuilt, ← keys_putAll, List.filterMap_map]
  generalize putAll entries = done at value
  induction done with
  | nil => rfl
  | cons entry done ih =>
    obtain ⟨own, others⟩ := List.forall_mem_cons.mp value
    rw [List.filterMap_cons, ← ih others, Function.comp_apply, own]
    rfl

theorem distinct_rebuilt (keys : ∀ entry ∈ entries, entry.1.Distinct)
    (values : ∀ entry ∈ entries, entry.2.Distinct) : (Value.mapping (rebuilt entries)).Distinct := by
  rw [← putAll_eq_rebuilt keys]
  refine .mapping (apart_putAll entries) (fun entry he => ?_) (fun entry he => ?_)
  · obtain ⟨first, hf, same⟩ := mem_keys_putAll he
    exact same ▸ keys first hf
  · obtain ⟨last, found, same⟩ := Option.map_eq_some_iff.mp (lastUnder?_putAll keys entry he)
    exact same ▸ values last (List.mem_reverse.mp (List.mem_of_find?_eq_some found))

end

/-! ## what is read -/

theorem isScalar_ofInteger? {n : Int} {v : Value} (h : ofInteger? n = some (some v)) :
    v.isScalar = true := by
  unfold ofInteger? at h
  split at h
  · cases h
    rfl
  · split at h <;> cases h

theorem isScalar_ofPlain? {text : String} {v : Value} (h : ofPlain? text = some v) :
    v.isScalar = true := by
  unfold ofPlain? at h
  split at h
  · cases h
    rfl
  · split at h
    · cases h
      rfl
    · split at h
      · next value found =>
        subst h
        obtain ⟨n, -, fits⟩ := Option.bind_eq_some_iff.mp found
        exact isScalar_ofInteger? fits
      · split at h
        · cases h
          rfl
        · split at h <;> cases h <;> rfl

theorem distinct_sequence {items : List Value} :
    (Value.sequence items).Distinct ↔ ∀ v ∈ items, v.Distinct := by
  constructor
  · intro distinct
    cases distinct with
    | scalar scalar => cases scalar
    | sequence distinct => exact distinct
  · exact .sequence

theorem distinct_mapping {entries : List (Value × Value)} :
    (Value.mapping entries).Distinct ↔ (entries.Pairwise fun a b => b.1.same a.1 = false) ∧
      (∀ entry ∈ entries, entry.1.Distinct) ∧ ∀ entry ∈ entries, entry.2.Distinct := by
  constructor
  · intro distinct
    cases distinct with
    | scalar scalar => cases scalar
    | mapping apart keys values => exact ⟨apart, keys, values⟩
  · exact fun ⟨apart, keys, values⟩ => .mapping apart keys values

theorem distinct_empty : (Value.mapping []).Distinct :=
  .mapping .nil (fun _ h => nomatch h) fun _ h => nomatch h

theorem Distinct.append {read : List (Value × Value)} {key value : Value}
    (distinct : (Value.mapping read).Distinct) (new : hasKey key read = false) (own : key.Distinct)
    (content : value.Distinct) : (Value.mapping (read ++ [(key, value)])).Distinct := by
  obtain ⟨apart, keys, values⟩ := distinct_mapping.mp distinct
  have other : ∀ entry ∈ read, key.same entry.1 = false := fun entry he =>
    Bool.eq_false_iff.mpr (List.any_eq_false.mp new entry he)
  refine .mapping (List.pairwise_append.mpr ⟨apart, List.pairwise_singleton .., ?_⟩)
    (List.forall_mem_append.mpr ⟨keys, ?_⟩) (List.forall_mem_append.mpr ⟨values, ?_⟩)
  all_goals simp only [List.forall_mem_singleton]
  · exact other
  · exact own
  · exact content

end Value

open SignalFlow.Yaml.Value

namespace Document

theorem isScalar_scalarValue? {properties : Properties} {plain tagDone : Bool} {text : String} {v : Value}
    (h : scalarValue? properties plain tagDone text = some v) : v.isScalar = true := by
  have untagged {v : Value} (h : (if plain then ofPlain? text else some (.string text)) = some v) :
      v.isScalar = true := by
    split at h
    · exact isScalar_ofPlain? h
    · cases h
      rfl
  simp only [scalarValue?] at h
  split at h
  · split at h
    · obtain ⟨b, -, rfl⟩ := Option.map_eq_some_iff.mp h
      rfl
    · split at h
      · obtain ⟨n, -, fits⟩ := Option.bind_eq_some_iff.mp (Option.join_eq_some_iff.mp h)
        exact isScalar_ofInteger? fits
      · split at h
        · obtain ⟨x, -, rfl⟩ := Option.map_eq_some_iff.mp h
          rfl
        · split at h
          · split at h <;> cases h
            rfl
          · split at h
            · exact untagged h
            · cases h
              rfl
  · exact untagged h

/-- what is built from the events in `n` steps is distinct -/
structure Distinctly (doc : Document) (n : Nat) : Prop where
  value {tagDone : Bool} {depth place jumps : Nat} {built : Built Value} :
    doc.value n tagDone depth place jumps = some built → built.result.Distinct
  items {depth place jumps : Nat} {built : Built (List Value)} :
    doc.items n depth place jumps = some built → (Value.sequence built.result).Distinct
  entries {depth place jumps : Nat} {read : List (Value × Value)} {built : Built (List (Value × Value))} :
    (Value.mapping read).Distinct → doc.entries n depth read place jumps = some built →
      (Value.mapping built.result).Distinct

section
variable {doc : Document} {n : Nat} (before : doc.Distinctly n)
include before

theorem Distinctly.value_succ {tagDone : Bool} {depth place jumps : Nat} {built : Built Value}
    (h : doc.value (n + 1) tagDone depth place jumps = some built) : built.result.Distinct := by
  unfold Document.value at h
  split at h
  · cases h
  · -- an alias: the node that it stands for
    split at h
    · cases h
    · split at h
      · cases h
      · obtain ⟨target, read, rfl⟩ := Option.map_eq_some_iff.mp h
        exact (before.value read :)
  · cases h
  · cases h
  · split at h
    · obtain ⟨content, read, rfl⟩ := Option.map_eq_some_iff.mp h
      exact .tagged (before.value read)
    · split at h
      · obtain ⟨v, read, rfl⟩ := Option.map_eq_some_iff.mp h
        exact .scalar (isScalar_scalarValue? read)
      · split at h
        · cases h
        · obtain ⟨items, read, rfl⟩ := Option.map_eq_some_iff.mp h
          exact before.items read
      · split at h
        · cases h
        · obtain ⟨entries, read, rfl⟩ := Option.map_eq_some_iff.mp h
          exact before.entries distinct_empty read
      · cases h

theorem Distinctly.items_succ {depth place jumps : Nat} {built : Built (List Value)}
    (h : doc.items (n + 1) depth place jumps = some built) : (Value.sequence built.result).Distinct := by
  unfold Document.items at h
  split at h
  · cases h
    exact .sequence fun _ h => nomatch h
  · split at h
    · cases h
    · next first read =>
      obtain ⟨rest, others, rfl⟩ := Option.map_eq_some_iff.mp h
      exact .sequence
        (List.forall_mem_cons.mpr ⟨before.value read, distinct_sequence.mp (before.items others)⟩)

theorem Distinctly.entries_succ {depth place jumps : Nat} {read : List (Value × Value)}
    {built : Built (List (Value × Value))} (distinct : (Value.mapping read).Distinct)
    (h : doc.entries (n + 1) depth read place jumps = some built) :
    (Value.mapping built.result).Distinct := by
  unfold Document.entries at h
  split at h
  · cases h
    exact distinct
  · split at h
    · cases h
    · next key named =>
      split at h
      · cases h
      · next new =>
        split at h
        · cases h
        · next v content =>
          have longer := distinct.append (Bool.eq_false_iff.mpr new) (before.value named)
            (before.value content)
          exact before.entries longer h

end

theorem distinctly (doc : Document) (n : Nat) : doc.Distinctly n := by
  induction n with
  | zero => constructor <;> simp [Document.value, Document.items, Document.entries]
  | succ n ih => exact ⟨ih.value_succ, ih.items_succ, ih.entries_succ⟩

end Document

/-- **What is read is distinct**: no mapping in it has a key twice. -/
theorem distinct_of_read? {text : String} {v : Value} (read : read? text = some v) : v.Distinct := by
  simp only [read?, Option.bind_eq_bind, Option.bind_eq_some_iff] at read
  obtain ⟨tokens, -, events, -, doc, -, built⟩ := read
  unfold Document.toValue? at built
  split at built
  · cases built
    exact .scalar rfl
  · obtain ⟨whole, value, rfl⟩ := Option.map_eq_some_iff.mp built
    exact (doc.distinctly _).value value

end Yaml

end SignalFlow
