import SignalFlow.Definition.Analyze
/-!
# The shape of the definitions that a check accepts

* `Chain.WellFormed`   the grammar of a list of items, sequential or in a group: an action with or
                       without an output map behind it, or, in a sequential list only, a group;
* `Chain.placed`       the actions of a definition in order, each with whether it is a direct member
                       of a group;
* `Chain.groups`       the groups of a definition, as lists of their members.

`Chain.wellFormed_of_analyze`: what `analyze` accepts is well-formed. Proofs about accepted
definitions go by induction on `WellFormed`, which has one case for each thing that can be compiled.
-/

namespace SignalFlow

namespace Chain

/-- the list does not begin with an output map -/
def Clear (items : List Chain) : Prop := ∀ outputs rest, items ≠ .paths outputs :: rest

theorem clear_nil : Clear [] := fun _ _ h => nomatch h

theorem clear_cons {item : Chain} (rest : List Chain) (h : ∀ outputs, item ≠ .paths outputs) :
    Clear (item :: rest) := fun outputs _ e => h outputs (List.cons.inj e).1

/-- the grammar of the items of a list; the flag says whether they are the members of a group -/
inductive WellFormed : Bool → List Chain → Prop
  | nil {concurrent : Bool} : WellFormed concurrent []
  | step {concurrent : Bool} {a : Action} {rest : List Chain} :
      Clear rest → WellFormed concurrent rest → WellFormed concurrent (.action a :: rest)
  | mapped {concurrent : Bool} {a : Action} {outputs : List (String × List Chain)}
      {rest : List Chain} :
      (∀ entry ∈ outputs, a.declares entry.1 = true) →
      (∀ entry ∈ outputs, WellFormed false entry.2) →
      Clear rest → WellFormed concurrent rest →
      WellFormed concurrent (.action a :: .paths outputs :: rest)
  | group {members rest : List Chain} :
      WellFormed true members → Clear rest → WellFormed false rest →
      WellFormed false (.parallel members :: rest)

/-! ## from the check to the grammar -/

section
variable {signal : String} {position : Position} {concurrent : Bool} {index : Nat}
  {previous : Option Chain}

theorem checkItems_cons {item : Chain} {rest : List Chain}
    (h : checkItems signal position concurrent index previous (item :: rest) = .ok ()) :
    checkItem signal (position.item index) concurrent previous item = .ok () ∧
      checkItems signal position concurrent (index + 1) (some item) rest = .ok () := by
  rw [checkItems] at h
  split at h
  · cases h
  · next first => exact ⟨first, h⟩

theorem checkOutputs_cons {here : Position} {a : Action} {output : String} {items : List Chain}
    {rest : List (String × List Chain)}
    (h : checkOutputs signal here a ((output, items) :: rest) = .ok ()) :
    a.declares output = true ∧ checkItems signal (here.output output) false 0 none items = .ok () ∧
      checkOutputs signal here a rest = .ok () := by
  rw [checkOutputs] at h
  split at h
  · next declared =>
    split at h
    · cases h
    · next inside => exact ⟨declared, inside, h⟩
  · cases h

theorem clear_of_checkItems {items : List Chain}
    (h : checkItems signal position concurrent index previous items = .ok ())
    (other : ∀ a, previous ≠ some (.action a)) : Clear items := by
  rintro outputs rest rfl
  have first := (checkItems_cons h).1
  rw [checkItem] at first
  · cases first
  · exact other

end

/-- what a check says of one item by itself; `previous` is the item before it -/
def Fits (concurrent : Bool) (previous : Option Chain) : Chain → Prop
  | .action _ => True
  | .parallel members => concurrent = false ∧ WellFormed true members
  | .paths outputs => ∃ a, previous = some (.action a) ∧
      ∀ entry ∈ outputs, a.declares entry.1 = true ∧ WellFormed false entry.2
  | .unresolved _ | .invalid _ => False

mutual

theorem fits_of_checkItem (signal : String) (here : Position) (concurrent : Bool)
    (previous : Option Chain) :
    ∀ item : Chain, checkItem signal here concurrent previous item = .ok () →
      Fits concurrent previous item
  | .action _, _ => trivial
  | .parallel members, h => by
    rw [checkItem] at h
    split at h
    · cases h
    · next sequential =>
      have own := clear_of_checkItems h (fun _ e => nomatch e)
      exact ⟨Bool.eq_false_iff.mpr sequential,
        wellFormed_of_checkItems signal here true 0 none members own h⟩
  | .paths outputs, h => by
    rw [checkItem.eq_def] at h
    dsimp only at h
    split at h
    · next a => exact ⟨a, rfl, wellFormed_of_checkOutputs signal here a outputs h⟩
    · cases h
  | .unresolved _, h => nomatch h
  | .invalid _, h => nomatch h

theorem wellFormed_of_checkItems (signal : String) (position : Position) (concurrent : Bool)
    (index : Nat) (previous : Option Chain) :
    ∀ items : List Chain, Clear items →
      checkItems signal position concurrent index previous items = .ok () →
      WellFormed concurrent items
  | [], _, _ => .nil
  | .action a :: .paths outputs :: rest, _, h => by
    obtain ⟨first, behind⟩ := checkItems_cons (checkItems_cons h).2
    obtain ⟨_, before, lists⟩ := fits_of_checkItem signal _ concurrent _ (.paths outputs) first
    cases before
    have clear := clear_of_checkItems behind (fun _ e => nomatch e)
    exact .mapped (fun entry he => (lists entry he).1) (fun entry he => (lists entry he).2) clear
      (wellFormed_of_checkItems signal position concurrent _ _ rest clear behind)
  | [.action _], _, _ => .step clear_nil .nil
  | .action a :: .action b :: rest, _, h => by
    have clear : Clear (.action b :: rest) := clear_cons rest (fun _ e => nomatch e)
    exact .step clear
      (wellFormed_of_checkItems signal position concurrent _ _ _ clear (checkItems_cons h).2)
  | .action a :: .parallel members :: rest, _, h => by
    have clear : Clear (.parallel members :: rest) := clear_cons rest (fun _ e => nomatch e)
    exact .step clear
      (wellFormed_of_checkItems signal position concurrent _ _ _ clear (checkItems_cons h).2)
  | .action a :: .unresolved name :: rest, _, h => nomatch (checkItems_cons (checkItems_cons h).2).1
  | .action a :: .invalid value :: rest, _, h => nomatch (checkItems_cons (checkItems_cons h).2).1
  | .parallel members :: rest, _, h => by
    obtain ⟨first, behind⟩ := checkItems_cons h
    obtain ⟨rfl, inside⟩ := fits_of_checkItem signal _ concurrent _ (.parallel members) first
    have clear := clear_of_checkItems behind (fun _ e => nomatch e)
    exact .group inside clear (wellFormed_of_checkItems signal position false _ _ rest clear behind)
  | .paths outputs :: rest, clear, _ => absurd rfl (clear outputs rest)
  | .unresolved _ :: _, _, h => nomatch (checkItems_cons h).1
  | .invalid _ :: _, _, h => nomatch (checkItems_cons h).1

theorem wellFormed_of_checkOutputs (signal : String) (here : Position) (a : Action) :
    ∀ outputs : List (String × List Chain), checkOutputs signal here a outputs = .ok () →
      ∀ entry ∈ outputs, a.declares entry.1 = true ∧ WellFormed false entry.2
  | [], _, _, he => nomatch he
  | (output, items) :: rest, h, entry, he => by
    obtain ⟨declared, inside, behind⟩ := checkOutputs_cons h
    cases he with
    | head =>
      have clear := clear_of_checkItems inside (fun _ e => nomatch e)
      exact ⟨declared, wellFormed_of_checkItems signal _ false 0 none items clear inside⟩
    | tail _ he => exact wellFormed_of_checkOutputs signal here a rest behind entry he

end

/-- **What a check accepts is well-formed.** -/
theorem wellFormed_of_analyze {signal : String} {definition : List Chain}
    (accepted : analyze signal definition = .ok ()) : WellFormed false definition :=
  wellFormed_of_checkItems signal [] false 0 none definition
    (clear_of_checkItems accepted (fun _ e => nomatch e)) accepted

/-! ## what a definition holds -/

mutual

/-- the actions in an item in order, each with whether it is a direct member of a group -/
def placedOf (concurrent : Bool) : Chain → List (Action × Bool)
  | .action a => [(a, concurrent)]
  | .parallel members => placed true members
  | .paths outputs => placedUnder outputs
  | .unresolved _ | .invalid _ => []

/-- the actions in a list of items; the flag says whether the list is the members of a group -/
def placed (concurrent : Bool) : List Chain → List (Action × Bool)
  | [] => []
  | item :: rest => placedOf concurrent item ++ placed concurrent rest

/-- the actions in the lists of an output map -/
def placedUnder : List (String × List Chain) → List (Action × Bool)
  | [] => []
  | (_, items) :: rest => placed false items ++ placedUnder rest

end

mutual

/-- the groups in an item, each as the list of its members -/
def groupsOf : Chain → List (List Chain)
  | .parallel members => members :: groups members
  | .paths outputs => groupsUnder outputs
  | .action _ | .unresolved _ | .invalid _ => []

/-- the groups in a list of items -/
def groups : List Chain → List (List Chain)
  | [] => []
  | item :: rest => groupsOf item ++ groups rest

/-- the groups in the lists of an output map -/
def groupsUnder : List (String × List Chain) → List (List Chain)
  | [] => []
  | (_, items) :: rest => groups items ++ groupsUnder rest

end

/-- is it an action? -/
def isAction : Chain → Bool
  | .action _ => true
  | _ => false

/-- the number of steps that a group runs concurrently; output maps do not count -/
def groupSize (members : List Chain) : Nat := members.countP isAction

theorem groups_subset_groupsUnder {outputs : List (String × List Chain)}
    {entry : String × List Chain} (h : entry ∈ outputs) :
    groups entry.2 ⊆ groupsUnder outputs := by
  induction outputs with
  | nil => cases h
  | cons first rest ih =>
    rw [groupsUnder]
    cases h with
    | head => exact List.subset_append_left ..
    | tail _ h => exact List.Subset.trans (ih h) (List.subset_append_right ..)

end Chain

end SignalFlow
