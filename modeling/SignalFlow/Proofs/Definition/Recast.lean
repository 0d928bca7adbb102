import SignalFlow.Proofs.Definition.Faults
import SignalFlow.Proofs.Definition.ReadBack
/-!
# Other bodies in a definition

* `Recast`          another body for each step that runs through at once;
* `Action.recast`   the action with the other body: its identity, its name and its outputs stay;
* `Chain.recast`    a definition with such actions;
* `Branch.recast`   a branch with such actions, its own and those under its outputs;
* `Tree.recast`     a tree of such branches.

A check accepts a definition with other bodies if it accepts the definition (`analyze_recast`), and what
is compiled is the tree with other bodies (`compile_recast`).
-/

namespace SignalFlow

open Chain Branch

/-- another body for each step that runs through at once -/
abbrev Recast := Action → (Args → SyncProgram) → Args → SyncProgram

/-- the bodies as they are -/
def Recast.same : Recast := fun _ step => step

/-- the action with the other body -/
def Action.recast (f : Recast) (a : Action) : Action :=
  { a with
    body := match a.body with
      | .sync step => .sync (f a step)
      | .async step => .async step }

/-! ## definitions -/

namespace Chain

mutual

def recast (f : Recast) : Chain → Chain
  | action a => action (a.recast f)
  | parallel members => parallel (recastAll f members)
  | paths outputs => paths (recastPaths f outputs)
  | unresolved name => unresolved name
  | invalid value => invalid value

def recastAll (f : Recast) : List Chain → List Chain
  | [] => []
  | item :: rest => recast f item :: recastAll f rest

def recastPaths (f : Recast) : List (String × List Chain) → List (String × List Chain)
  | [] => []
  | (output, items) :: rest => (output, recastAll f items) :: recastPaths f rest

end

end Chain

/-! ## trees -/

namespace Branch

mutual

def recast (f : Recast) : Branch → Branch
  | .mk spec outputs => .mk { spec with action := spec.action.recast f } (recastMap f outputs)

def recastMap (f : Recast) :
    Option (List (String × List (Item Branch))) → Option (List (String × List (Item Branch)))
  | none => none
  | some outputs => some (recastOutputs f outputs)

def recastOutputs (f : Recast) :
    List (String × List (Item Branch)) → List (String × List (Item Branch))
  | [] => []
  | (output, items) :: rest => (output, recastItems f items) :: recastOutputs f rest

def recastItems (f : Recast) : List (Item Branch) → List (Item Branch)
  | [] => []
  | .step b :: rest => .step (recast f b) :: recastItems f rest
  | .group members :: rest => .group (recastMembers f members) :: recastItems f rest

def recastMembers (f : Recast) : List Branch → List Branch
  | [] => []
  | b :: rest => recast f b :: recastMembers f rest

end

end Branch

def Tree.recast (f : Recast) (tree : Tree) : Tree :=
  { actions := tree.actions.map (·.recast f)
    branches := recastItems f tree.branches
    specs := tree.specs.map (·.recast f) }

section
variable (f : Recast)

/-! ## actions -/

theorem Action.recast_of_async {a : Action} (async : a.isAsync = true) : a.recast f = a := by
  obtain ⟨identity, name, outputs, defaultOutput, body⟩ := a
  cases body with
  | sync => cases async
  | async => rfl

theorem Action.recast_body {a : Action} {step : Args → SyncProgram} (body : a.body = .sync step) :
    (a.recast f).body = .sync (f a step) := by
  unfold Action.recast
  rw [body]

theorem Action.recast_same (a : Action) : a.recast .same = a := by
  obtain ⟨identity, name, outputs, defaultOutput, body⟩ := a
  cases body <;> rfl

theorem Action.recast_resolve (a : Action) (path : Option String) :
    (a.recast f).resolve path = a.resolve path := rfl

/-! ## branches -/

namespace Branch

theorem recastItems_append (front rest : List (Item Branch)) :
    recastItems f (front ++ rest) = recastItems f front ++ recastItems f rest := by
  induction front with
  | nil => rfl
  | cons item front ih =>
    cases item with
    | step b => simp only [List.cons_append, recastItems, ih]
    | group members => simp only [List.cons_append, recastItems, ih]

theorem recast_id (b : Branch) : (b.recast f).id = b.id := by
  cases b
  rfl

theorem recast_action (b : Branch) : (b.recast f).action = b.action.recast f := by
  cases b
  rfl

theorem get?_recastOutputs (output : String) (outputs : List (String × List (Item Branch))) :
    Keyed.get? output (recastOutputs f outputs) =
      (Keyed.get? output outputs).map (recastItems f) := by
  induction outputs with
  | nil => rfl
  | cons entry rest ih =>
    obtain ⟨name, items⟩ := entry
    rw [recastOutputs, Keyed.get?, Keyed.get?]
    split
    · rfl
    · exact ih

theorem next_recast (b : Branch) (output : Option String) :
    (b.recast f).next output = recastItems f (b.next output) := by
  obtain ⟨spec, outputs⟩ := b
  cases output with
  | none => rfl
  | some name =>
    cases outputs with
    | none => rfl
    | some outputs =>
      show (Keyed.get? name (recastOutputs f outputs)).getD [] =
        recastItems f ((Keyed.get? name outputs).getD [])
      rw [get?_recastOutputs]
      cases Keyed.get? name outputs <;> rfl

theorem filterMap_recastItems (items : List (Item Branch)) :
    (recastItems f items).filterMap Item.step? =
      recastMembers f (items.filterMap Item.step?) := by
  induction items with
  | nil => rfl
  | cons item items ih =>
    cases item with
    | step b => exact congrArg (recast f b :: ·) ih
    | group members => exact ih

mutual

theorem recast_same : ∀ b : Branch, b.recast .same = b
  | .mk spec outputs => by rw [recast, Action.recast_same, recastMap_same outputs]

theorem recastMap_same :
    ∀ outputs : Option (List (String × List (Item Branch))), recastMap .same outputs = outputs
  | none => rfl
  | some outputs => by rw [recastMap, recastOutputs_same outputs]

theorem recastOutputs_same :
    ∀ outputs : List (String × List (Item Branch)), recastOutputs .same outputs = outputs
  | [] => rfl
  | (output, items) :: rest => by
    rw [recastOutputs, recastItems_same items, recastOutputs_same rest]

theorem recastItems_same : ∀ items : List (Item Branch), recastItems .same items = items
  | [] => rfl
  | .step b :: rest => by rw [recastItems, recast_same b, recastItems_same rest]
  | .group members :: rest => by
    rw [recastItems, recastMembers_same members, recastItems_same rest]

theorem recastMembers_same : ∀ bs : List Branch, recastMembers .same bs = bs
  | [] => rfl
  | b :: rest => by rw [recastMembers, recast_same b, recastMembers_same rest]

end

end Branch

theorem Tree.recast_same (tree : Tree) : tree.recast .same = tree := by
  obtain ⟨actions, branches, specs⟩ := tree
  unfold Tree.recast
  simp only [Action.recast_same, recastItems_same, Branch.recast_same, List.map_id']

/-! ## checking and compiling -/

namespace Chain

theorem clear_recast {rest : List Chain} (clear : Clear rest) : Clear (recastAll f rest) := by
  cases rest with
  | nil => exact clear_nil
  | cons item rest =>
    cases item with
    | paths outputs => exact absurd rfl (clear outputs rest)
    | action | parallel | unresolved | invalid => exact clear_cons _ fun _ e => nomatch e

theorem mem_recastPaths {outputs : List (String × List Chain)} {entry : String × List Chain}
    (h : entry ∈ recastPaths f outputs) :
    ∃ original ∈ outputs, entry = (original.1, recastAll f original.2) := by
  induction outputs with
  | nil => cases h
  | cons first rest ih =>
    cases h with
    | head => exact ⟨first, List.mem_cons_self, rfl⟩
    | tail _ h =>
      obtain ⟨original, among, same⟩ := ih h
      exact ⟨original, List.mem_cons_of_mem _ among, same⟩

theorem WellFormed.recast {concurrent : Bool} {list : List Chain} (h : WellFormed concurrent list) :
    WellFormed concurrent (recastAll f list) := by
  induction h with
  | nil => exact .nil
  | step clear _ ih => exact .step (clear_recast f clear) ih
  | mapped declared _ clear _ lists ih =>
    refine .mapped (fun entry he => ?_) (fun entry he => ?_) (clear_recast f clear) ih
    · obtain ⟨original, among, rfl⟩ := mem_recastPaths f he
      exact declared original among
    · obtain ⟨original, among, rfl⟩ := mem_recastPaths f he
      exact lists original among
  | group _ clear _ ihInside ih => exact .group ihInside (clear_recast f clear) ih

end Chain

/-- **A check does not look at bodies.** -/
theorem analyze_recast {signal : String} {definition : List Chain}
    (accepted : analyze signal definition = .ok ()) :
    analyze signal (recastAll f definition) = .ok () :=
  checkItems_of_wellFormed ((wellFormed_of_analyze accepted).recast f) [] 0 none

namespace Tree

theorem place_recast (table : List Action) (a : Action) :
    place (table.map (·.recast f)) (a.recast f) =
      ((place table a).1.map (·.recast f), (place table a).2) := by
  have same : (table.map (·.recast f)).findIdx? (·.sameAs (a.recast f)) =
      table.findIdx? (·.sameAs a) := List.findIdx?_map ..
  unfold place
  rw [same]
  cases table.findIdx? (·.sameAs a) with
  | some index => rfl
  | none =>
    simp only [List.map_append, List.map_cons, List.map_nil, List.length_map]

theorem branchAt_recast (concurrent : Bool) (here : Position) (next : Nat) (table : List Action)
    (a : Action) (outputs : Option (List (String × List (Item Branch)))) :
    branchAt concurrent here next (table.map (·.recast f)) (a.recast f) (recastMap f outputs) =
      (branchAt concurrent here next table a outputs).recast f := by
  unfold branchAt
  rw [place_recast]
  rfl

/-- a part of a tree with other bodies -/
def Part.recast {α : Type} (g : α → α) (part : Part α) : Part α :=
  ⟨part.table.map (·.recast f), g part.result, part.specs.map (·.recast f)⟩

theorem compileOutputs_recast {outputs : List (String × List Chain)}
    (lists : ∀ entry ∈ outputs, ∀ position index next table,
      compileItems false position index next (table.map (·.recast f)) (recastAll f entry.2) =
        (compileItems false position index next table entry.2).recast f (recastItems f))
    (here : Position) (next : Nat) (table : List Action) :
    compileOutputs here next (table.map (·.recast f)) (recastPaths f outputs) =
      (compileOutputs here next table outputs).recast f (recastOutputs f) := by
  induction outputs generalizing next table with
  | nil => rfl
  | cons entry rest ih =>
    obtain ⟨output, items⟩ := entry
    have own := lists (output, items) List.mem_cons_self (here.output output) 0 next table
    rw [recastPaths, compileOutputs_cons, compileOutputs_cons, own]
    simp only [Part.recast, List.length_map,
      ih fun e he => lists e (List.mem_cons_of_mem _ he), List.map_append, recastOutputs]

theorem compileItems_recast {concurrent : Bool} {list : List Chain}
    (h : WellFormed concurrent list) (position : Position) (index next : Nat)
    (table : List Action) :
    compileItems concurrent position index next (table.map (·.recast f)) (recastAll f list) =
      (compileItems concurrent position index next table list).recast f (recastItems f) := by
  induction h generalizing position index next table with
  | nil => rfl
  | @step concurrent a rest clear _ ih =>
    rw [recastAll, Chain.recast, compileItems_action _ _ _ _ _ _ (clear_recast f clear),
      compileItems_action _ _ _ _ _ _ clear]
    have own := branchAt_recast f concurrent (position.item index) next table a none
    rw [recastMap] at own
    simp only [place_recast, ih, own]
    rfl
  | @mapped concurrent a outputs rest _ _ _ _ lists ih =>
    have below := compileOutputs_recast f lists (position.item index) (next + 1) (place table a).1
    rw [recastAll, Chain.recast, recastAll, Chain.recast, compileItems_mapped, compileItems_mapped]
    dsimp only
    generalize compileOutputs (position.item index) (next + 1) (place table a).1 outputs = part
      at below ⊢
    have own := branchAt_recast f concurrent (position.item index) next table a (some part.result)
    rw [recastMap] at own
    simp only [place_recast, below, Part.recast, List.length_map, ih, own, List.map_append,
      List.map_cons, recastItems]
  | @group members rest _ _ _ ihInside ih =>
    have inside := ihInside (position.item index) 0 next table
    rw [recastAll, Chain.recast, compileItems_group, compileItems_group, Bool.not_false]
    generalize compileItems true (position.item index) 0 next table members = part at inside ⊢
    simp only [inside, Part.recast, List.length_map, ih, List.map_append, filterMap_recastItems,
      recastItems]

/-- **What is compiled is the tree with other bodies.** -/
theorem compile_recast {signal : String} {definition : List Chain}
    (accepted : analyze signal definition = .ok ()) :
    compile (recastAll f definition) = (compile definition).recast f := by
  have part := compileItems_recast f (wellFormed_of_analyze accepted) [] 0 0 []
  rw [List.map_nil] at part
  unfold compile
  rw [part]
  rfl

end Tree

end

end SignalFlow
