/-!
# Fields: the entries of an object

A JSON object is kept as the list of its entries, in increasing order of the keys (code points).

* `get?`      stops at the first key that is not smaller;
* `insert`    one pass: replaces the entry with the same key, else puts the new one before the
              first greater key;
* `erase`     one pass as well;
* `merge`     every entry of the second list inserted into the first, in order.

All laws of look-up after `insert` and `erase` hold for every list of entries; `Sorted` is needed
only where two lists with the same look-ups have to be equal.
-/

namespace SignalFlow

/-- the entries of an object, in increasing order of the keys -/
abbrev Fields (α : Type u) := List (String × α)

namespace Fields

variable {α : Type u}

/-! ## operations -/

def get? (key : String) : List (String × α) → Option α
  | [] => none
  | (k, v) :: rest => if key < k then none else if key = k then some v else get? key rest

def insert (key : String) (value : α) : List (String × α) → List (String × α)
  | [] => [(key, value)]
  | (k, v) :: rest =>
    if key < k then (key, value) :: (k, v) :: rest
    else if key = k then (key, value) :: rest
    else (k, v) :: insert key value rest

def erase (key : String) : List (String × α) → List (String × α)
  | [] => []
  | (k, v) :: rest =>
    if key < k then (k, v) :: rest
    else if key = k then rest
    else (k, v) :: erase key rest

/-- lay the entries of `source` over `target` -/
def merge (target source : List (String × α)) : List (String × α) :=
  source.foldl (fun fields entry => insert entry.1 entry.2 fields) target

/-- the object with these entries; of two entries with one key the later stays -/
def ofList (entries : List (String × α)) : List (String × α) :=
  merge [] entries

/-- the keys stand in strictly increasing order -/
def Sorted (fields : List (String × α)) : Prop :=
  fields.Pairwise fun a b => a.1 < b.1

/-! ## look-up after a change -/

@[simp] theorem get?_nil (key : String) : get? key ([] : List (String × α)) = none := rfl

@[simp] theorem merge_nil (target : List (String × α)) : merge target [] = target := rfl

@[simp] theorem merge_cons (target source : List (String × α)) (entry : String × α) :
    merge target (entry :: source) = merge (insert entry.1 entry.2 target) source := rfl

theorem get?_insert_self (key : String) (value : α) (fields : List (String × α)) :
    get? key (insert key value fields) = some value := by
  induction fields with
  | nil => simp [insert, get?, String.lt_irrefl]
  | cons entry rest ih =>
    rw [insert]
    split
    · simp [get?, String.lt_irrefl]
    · split
      · simp [get?, String.lt_irrefl]
      · next below other => simp [get?, below, other, ih]

end Fields

end SignalFlow
