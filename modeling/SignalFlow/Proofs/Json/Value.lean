import SignalFlow.Json.Value
/-!
# Values that JSON can hold

* `Value.proper`   no number in it is a NaN, and the keys of each object in it stand in order.

Of these, each is equal to itself (`Value.same_self`): what is not is a NaN.
-/

namespace SignalFlow

instance {α : Type u} (fields : List (String × α)) : Decidable (Fields.Sorted fields) :=
  inferInstanceAs (Decidable (fields.Pairwise fun a b => a.1 < b.1))

def Number.proper : Number → Bool
  | .int _ => true
  | .float x => !x.isNaN

namespace Value

mutual

/-- no number in it is a NaN, and the keys of each object in it stand in order -/
def proper : Value → Bool
  | .number n => n.proper
  | .array items => properItems items
  | .object fields => decide (Fields.Sorted fields) && properFields fields
  | .null | .bool _ | .string _ => true

def properItems : List Value → Bool
  | [] => true
  | v :: rest => proper v && properItems rest

def properFields : List (String × Value) → Bool
  | [] => true
  | (_, v) :: rest => proper v && properFields rest

end

theorem properItems_iff {items : List Value} :
    properItems items = true ↔ ∀ v ∈ items, v.proper = true := by
  induction items with
  | nil => simp [properItems]
  | cons v rest ih => rw [properItems, Bool.and_eq_true, List.forall_mem_cons, ih]

theorem properFields_iff {fields : List (String × Value)} :
    properFields fields = true ↔ ∀ entry ∈ fields, entry.2.proper = true := by
  induction fields with
  | nil => simp [properFields]
  | cons entry rest ih => rw [properFields, Bool.and_eq_true, List.forall_mem_cons, ih]

theorem proper_object {fields : List (String × Value)} :
    (Value.object fields).proper = true ↔
      Fields.Sorted fields ∧ ∀ entry ∈ fields, entry.2.proper = true := by
  rw [proper, Bool.and_eq_true, decide_eq_true_eq, properFields_iff]

theorem proper_array {items : List Value} :
    (Value.array items).proper = true ↔ ∀ v ∈ items, v.proper = true := by
  rw [proper, properItems_iff]

end Value

theorem Number.same_self {n : Number} (h : n.proper = true) : n.same n = true := by
  cases n with
  | int value => exact decide_eq_true rfl
  | float x =>
    rw [Number.same, Double.same, show (!x.isNaN) = true from h, beq_self_eq_true]
    rfl

namespace Value

mutual

theorem same_self : ∀ v : Value, v.proper = true → same v v = true
  | .null, _ => rfl
  | .bool _, _ | .string _, _ => decide_eq_true rfl
  | .number _, h => Number.same_self h
  | .array items, h => sameItems_self items h
  | .object fields, h => sameFields_self fields (Bool.and_eq_true_iff.mp h).2

theorem sameItems_self : ∀ items : List Value, properItems items = true →
    sameItems items items = true
  | [], _ => rfl
  | v :: rest, h => by
    obtain ⟨own, others⟩ := Bool.and_eq_true_iff.mp h
    rw [sameItems, same_self v own, sameItems_self rest others]
    rfl

theorem sameFields_self : ∀ fields : List (String × Value), properFields fields = true →
    sameFields fields fields = true
  | [], _ => rfl
  | (key, v) :: rest, h => by
    obtain ⟨own, others⟩ := Bool.and_eq_true_iff.mp h
    rw [sameFields, same_self v own, sameFields_self rest others, decide_eq_true rfl]
    rfl

end

end Value

end SignalFlow
