/-!
# Keyed: entries in the order in which their keys first came

`put` writes over the entry with the same key where it stands and puts a new key at the end.
-/

namespace SignalFlow

/-- entries in the order in which their keys first came -/
abbrev Keyed (α : Type u) := List (String × α)

namespace Keyed

variable {α : Type u}

def get? (key : String) : List (String × α) → Option α
  | [] => none
  | (k, v) :: rest => if k = key then some v else get? key rest

def put (key : String) (value : α) : List (String × α) → List (String × α)
  | [] => [(key, value)]
  | (k, v) :: rest => if k = key then (k, value) :: rest else (k, v) :: put key value rest

/-- the entries put one after the other -/
def ofList (entries : List (String × α)) : List (String × α) :=
  entries.foldl (fun kept entry => put entry.1 entry.2 kept) []

def Unique (entries : List (String × α)) : Prop := (entries.map (·.1)).Nodup

@[simp] theorem get?_nil (key : String) : get? key ([] : List (String × α)) = none := rfl

theorem get?_put_self (key : String) (value : α) (entries : List (String × α)) :
    get? key (put key value entries) = some value := by
  induction entries with
  | nil => simp [put, get?]
  | cons entry rest ih =>
    rw [put]
    split
    · next same => simp [get?, same]
    · next other => simp [get?, other, ih]

theorem get?_put_of_ne {key other : String} (value : α) (entries : List (String × α))
    (different : other ≠ key) : get? other (put key value entries) = get? other entries := by
  induction entries with
  | nil => simp [put, get?, different.symm]
  | cons entry rest ih =>
    rw [put]
    split
    · next same => simp [get?, same, different.symm]
    · simp [get?, ih]

theorem mem_of_get? {key : String} {value : α} {entries : List (String × α)}
    (found : get? key entries = some value) : (key, value) ∈ entries := by
  induction entries with
  | nil => cases found
  | cons entry rest ih =>
    rw [get?] at found
    split at found
    · next same =>
      subst same
      cases found
      exact List.mem_cons_self
    · exact List.mem_cons_of_mem _ (ih found)

theorem get?_of_mem {entry : String × α} {entries : List (String × α)} (unique : Unique entries)
    (h : entry ∈ entries) : get? entry.1 entries = some entry.2 := by
  induction entries with
  | nil => cases h
  | cons first rest ih =>
    obtain ⟨absent, behind⟩ := List.nodup_cons.mp unique
    cases h with
    | head => simp [get?]
    | tail _ h =>
      have other : first.1 ≠ entry.1 := fun same => absent (List.mem_map.mpr ⟨entry, h, same.symm⟩)
      rw [get?, if_neg other, ih behind h]

end Keyed

end SignalFlow
