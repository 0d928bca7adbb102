import SignalFlow.Proofs.Definition.Faults
import SignalFlow.Proofs.Definition.ReadBack
/-!
# Concurrent steps in groups of their own

* `Chain.regroup`   a definition in which each chosen concurrent action of a sequential list has become a
                    group of its own, its output map with it;
* `Branch.bare`     a branch without its position and its mark, the concurrent steps of its sequential lists
                    as groups of one;
* `Tree.bare`       a tree of such branches.

A check accepts a regrouped definition if it accepts the definition (`analyze_regroup`), and the trees that
the two are compiled to are the same bare tree (`compile_regroup`).
-/

namespace SignalFlow

open Chain Branch

/-! ## definitions -/

namespace Chain

/-- what is written of an action, in a group of its own or not -/
def setApart (alone : Bool) (own : List Chain) : List Chain := if alone then [.parallel own] else own

/-- is the action at this place of a list chosen to become a group of its own? -/
def isAlone (chosen : Position → Bool) (concurrent : Bool) (here : Position) (a : Action) : Bool :=
  !concurrent && a.isAsync && chosen here

section
variable (chosen : Position → Bool)

mutual

/-- the item with the chosen actions below it in groups of their own -/
def regroupItem (here : Position) : Chain → Chain
  | .parallel members => .parallel (regroup true here 0 members)
  | .paths outputs => .paths (regroupPaths here outputs)
  | other => other

/-- the list with the chosen actions in groups of their own; `index` counts the items before it, output maps
included, and the flag says whether they are the members of a group -/
def regroup (concurrent : Bool) (position : Position) (index : Nat) : List Chain → List Chain
  | [] => []
  | .action a :: .paths outputs :: rest =>
    setApart (isAlone chosen concurrent (position.item index) a)
        [.action a, .paths (regroupPaths (position.item (index + 1)) outputs)]
      ++ regroup concurrent position (index + 2) rest
  | .action a :: rest =>
    setApart (isAlone chosen concurrent (position.item index) a) [.action a]
      ++ regroup concurrent position (index + 1) rest
  | item :: rest =>
    regroupItem (position.item index) item :: regroup concurrent position (index + 1) rest

def regroupPaths (here : Position) : List (String × List Chain) → List (String × List Chain)
  | [] => []
  | (output, items) :: rest =>
    (output, regroup false (here.output output) 0 items) :: regroupPaths here rest

end

end

end Chain

/-! ## trees -/

namespace Branch

mutual

/-- the branch without its position and its mark -/
def bare : Branch → Branch
  | .mk spec outputs => .mk { spec with position := [], isAsync := false } (bareMap outputs)

def bareMap :
    Option (List (String × List (Item Branch))) → Option (List (String × List (Item Branch)))
  | none => none
  | some outputs => some (bareOutputs outputs)

def bareOutputs : List (String × List (Item Branch)) → List (String × List (Item Branch))
  | [] => []
  | (output, items) :: rest => (output, bareItems items) :: bareOutputs rest

/-- the items of a sequential list, its concurrent steps as groups of one -/
def bareItems : List (Item Branch) → List (Item Branch)
  | [] => []
  | .step b :: rest =>
    (if b.action.isAsync then .group [bare b] else .step (bare b)) :: bareItems rest
  | .group members :: rest => .group (bareMembers members) :: bareItems rest

def bareMembers : List Branch → List Branch
  | [] => []
  | b :: rest => bare b :: bareMembers rest

end

end Branch

/-- the tree of the bare branches -/
def Tree.bare (tree : Tree) : Tree :=
  { actions := tree.actions
    branches := bareItems tree.branches
    specs := tree.specs.map (·.bare) }

/-! ## branches -/

namespace Branch

theorem bareItems_append (front rest : List (Item Branch)) :
    bareItems (front ++ rest) = bareItems front ++ bareItems rest := by
  induction front with
  | nil => rfl
  | cons item front ih =>
    cases item with
    | step b => simp only [List.cons_append, bareItems, ih]
    | group members => simp only [List.cons_append, bareItems, ih]

theorem bare_id (b : Branch) : b.bare.id = b.id := by
  cases b
  rfl

theorem bare_action (b : Branch) : b.bare.action = b.action := by
  cases b
  rfl

theorem get?_bareOutputs (output : String) (outputs : List (String × List (Item Branch))) :
    Keyed.get? output (bareOutputs outputs) = (Keyed.get? output outputs).map bareItems := by
  induction outputs with
  | nil => rfl
  | cons entry rest ih =>
    obtain ⟨name, items⟩ := entry
    rw [bareOutputs, Keyed.get?, Keyed.get?]
    split
    · rfl
    · exact ih

theorem next_bare (b : Branch) (output : Option String) :
    b.bare.next output = bareItems (b.next output) := by
  obtain ⟨spec, outputs⟩ := b
  cases output with
  | none => rfl
  | some name =>
    cases outputs with
    | none => rfl
    | some outputs =>
      show (Keyed.get? name (bareOutputs outputs)).getD [] =
        bareItems ((Keyed.get? name outputs).getD [])
      rw [get?_bareOutputs]
      cases Keyed.get? name outputs <;> rfl

theorem flatMap_bareItems (bs : List Branch) :
    (bareItems (bs.map Item.step)).flatMap Item.members = bareMembers bs := by
  induction bs with
  | nil => rfl
  | cons b bs ih =>
    rw [List.map_cons, bareItems, List.flatMap_cons, ih, bareMembers]
    split <;> rfl

end Branch

/-! ## checking and compiling -/

namespace Chain

variable {chosen : Position → Bool} {concurrent : Bool} {position : Position} {index : Nat}

theorem regroup_action (a : Action) {rest : List Chain} (clear : Clear rest) :
    regroup chosen concurrent position index (.action a :: rest) =
      setApart (isAlone chosen concurrent (position.item index) a) [.action a]
        ++ regroup chosen concurrent position (index + 1) rest := by
  cases rest with
  | nil => rfl
  | cons item rest =>
    cases item with
    | paths outputs => exact absurd rfl (clear outputs rest)
    | action | parallel | unresolved | invalid => rfl

theorem regroup_group (members rest : List Chain) :
    regroup chosen concurrent position index (.parallel members :: rest) =
      .parallel (regroup chosen true (position.item index) 0 members)
        :: regroup chosen concurrent position (index + 1) rest := rfl

theorem sequential_of_isAlone {here : Position} {a : Action}
    (alone : isAlone chosen concurrent here a = true) : concurrent = false ∧ a.isAsync = true := by
  unfold isAlone at alone
  simp only [Bool.and_eq_true, Bool.not_eq_true'] at alone
  exact alone.1

theorem clear_setApart {alone : Bool} {a : Action} {own rest : List Chain} :
    Clear (setApart alone (.action a :: own) ++ rest) := by
  cases alone with
  | true => exact clear_cons _ (by simp)
  | false => exact clear_cons _ (by simp)

theorem WellFormed.clear_regroup {list : List Chain} (h : WellFormed concurrent list)
    (chosen : Position → Bool) (position : Position) (index : Nat) :
    Clear (regroup chosen concurrent position index list) := by
  cases h with
  | nil => exact clear_nil
  | step clear _ =>
    rw [regroup_action _ clear]
    exact clear_setApart
  | mapped => exact clear_setApart
  | group => exact clear_cons _ fun _ e => nomatch e

theorem mem_regroupPaths {here : Position} {outputs : List (String × List Chain)}
    {entry : String × List Chain} (h : entry ∈ regroupPaths chosen here outputs) :
    ∃ original ∈ outputs,
      entry = (original.1, regroup chosen false (here.output original.1) 0 original.2) := by
  induction outputs with
  | nil => cases h
  | cons first rest ih =>
    cases h with
    | head => exact ⟨first, List.mem_cons_self, rfl⟩
    | tail _ h =>
      obtain ⟨original, among, same⟩ := ih h
      exact ⟨original, List.mem_cons_of_mem _ among, same⟩

/-- an action, with its output map or without, may stand in a group of its own -/
theorem WellFormed.setApart {here : Position} {a : Action} {own rest : List Chain}
    (alone : WellFormed true own)
    (together : WellFormed concurrent rest → WellFormed concurrent (own ++ rest)) (clear : Clear rest)
    (behind : WellFormed concurrent rest) :
    WellFormed concurrent (setApart (isAlone chosen concurrent here a) own ++ rest) := by
  cases apart : isAlone chosen concurrent here a with
  | true =>
    obtain ⟨rfl, -⟩ := sequential_of_isAlone apart
    exact .group alone clear behind
  | false => exact together behind

theorem WellFormed.regroup {list : List Chain} (h : WellFormed concurrent list)
    (chosen : Position → Bool) (position : Position) (index : Nat) :
    WellFormed concurrent (regroup chosen concurrent position index list) := by
  induction h generalizing position index with
  | nil => exact .nil
  | step clear h ih =>
    rw [regroup_action _ clear]
    have clear := h.clear_regroup chosen position (index + 1)
    exact .setApart (.step clear_nil .nil) (.step clear) clear (ih ..)
  | @mapped concurrent a outputs rest declared _ _ h lists ih =>
    have clear := h.clear_regroup chosen position (index + 2)
    have declared' : ∀ entry ∈ regroupPaths chosen (position.item (index + 1)) outputs,
        a.declares entry.1 = true := by
      intro entry he
      obtain ⟨original, among, rfl⟩ := mem_regroupPaths he
      exact declared original among
    have lists' : ∀ entry ∈ regroupPaths chosen (position.item (index + 1)) outputs,
        WellFormed false entry.2 := by
      intro entry he
      obtain ⟨original, among, rfl⟩ := mem_regroupPaths he
      exact lists original among ..
    exact .setApart (.mapped declared' lists' clear_nil .nil) (.mapped declared' lists' clear) clear
      (ih ..)
  | group _ _ h ihInside ih => exact .group (ihInside ..) (h.clear_regroup _ _ _) (ih ..)

end Chain

/-- **A check accepts concurrent actions in groups of their own.** -/
theorem analyze_regroup {signal : String} {definition : List Chain}
    (accepted : analyze signal definition = .ok ()) (chosen : Position → Bool) :
    analyze signal (regroup chosen false [] 0 definition) = .ok () :=
  checkItems_of_wellFormed ((wellFormed_of_analyze accepted).regroup chosen [] 0) [] 0 none

namespace Tree

/-- two parts of trees that are the same bare part -/
structure Part.Matches {α : Type} (g : α → α) (part' part : Part α) : Prop where
  table : part'.table = part.table
  result : g part'.result = g part.result
  specs : part'.specs.map (·.bare) = part.specs.map (·.bare)

theorem Part.Matches.length {α : Type} {g : α → α} {part' part : Part α} (same : part'.Matches g part) :
    part'.specs.length = part.specs.length := by
  rw [← List.length_map (·.bare), same.specs, List.length_map]

section
variable {b b' : Branch} {below below' : List Branch} {after after' : Part (List (Item Branch))}
  (one : b'.bare = b.bare) (under : below'.map (·.bare) = below.map (·.bare))
  (behind : after'.Matches bareItems after)
include one under behind

theorem Part.Matches.step :
    Part.Matches bareItems
      ⟨after'.table, .step b' :: after'.result, b' :: (below' ++ after'.specs)⟩
      ⟨after.table, .step b :: after.result, b :: (below ++ after.specs)⟩ := by
  have action : b'.action = b.action := by rw [← bare_action b', one, bare_action]
  refine ⟨behind.table, ?_, ?_⟩
  · rw [bareItems, bareItems, one, action, behind.result]
  · rw [List.map_cons, List.map_cons, List.map_append, List.map_append, one, under, behind.specs]

/-- a concurrent branch in a group of its own is the branch without -/
theorem Part.Matches.apart (async : b.action.isAsync = true) :
    Part.Matches bareItems
      ⟨after'.table, .group [b'] :: after'.result, (b' :: below') ++ after'.specs⟩
      ⟨after.table, .step b :: after.result, b :: (below ++ after.specs)⟩ := by
  refine ⟨behind.table, ?_, ?_⟩
  · rw [bareItems, bareItems, if_pos async, bareMembers, bareMembers, one, behind.result]
  · rw [List.cons_append, List.map_cons, List.map_cons, List.map_append, List.map_append, one, under,
      behind.specs]

end

theorem Part.Matches.group {members' members below' below : List Branch}
    {after' after : Part (List (Item Branch))} (behind : after'.Matches bareItems after)
    (all : bareMembers members' = bareMembers members)
    (under : below'.map (·.bare) = below.map (·.bare)) :
    Part.Matches bareItems ⟨after'.table, .group members' :: after'.result, below' ++ after'.specs⟩
      ⟨after.table, .group members :: after.result, below ++ after.specs⟩ := by
  refine ⟨behind.table, ?_, ?_⟩
  · rw [bareItems, bareItems, all, behind.result]
  · rw [List.map_append, List.map_append, under, behind.specs]

/-- where a branch is, and whether it stands in a group, is nothing to the bare branch -/
theorem bare_branchAt (concurrent' concurrent : Bool) (here' here : Position) (next : Nat)
    (table : List Action) (a : Action) {outputs' outputs : Option (List (String × List (Item Branch)))}
    (same : bareMap outputs' = bareMap outputs) :
    (branchAt concurrent' here' next table a outputs').bare =
      (branchAt concurrent here next table a outputs).bare := by
  unfold branchAt Branch.bare
  rw [same]

section
variable (chosen : Position → Bool)

theorem compileOutputs_regroup {outputs : List (String × List Chain)}
    (lists : ∀ entry ∈ outputs, ∀ written position' position next table,
      (compileItems false position' 0 next table (regroup chosen false written 0 entry.2)).Matches
        bareItems (compileItems false position 0 next table entry.2))
    (written here' here : Position) (next : Nat) (table : List Action) :
    (compileOutputs here' next table (regroupPaths chosen written outputs)).Matches bareOutputs
      (compileOutputs here next table outputs) := by
  induction outputs generalizing next table with
  | nil => exact ⟨rfl, rfl, rfl⟩
  | cons entry rest ih =>
    obtain ⟨output, items⟩ := entry
    have own := lists (output, items) List.mem_cons_self (written.output output)
      (here'.output output) (here.output output) next table
    have behind := ih (fun e he => lists e (List.mem_cons_of_mem _ he))
    rw [regroupPaths, compileOutputs_cons, compileOutputs_cons]
    dsimp only at own ⊢
    rw [own.table, own.length]
    refine ⟨(behind ..).table, ?_, ?_⟩
    · rw [bareOutputs, bareOutputs, own.result, (behind ..).result]
    · rw [List.map_append, List.map_append, own.specs, (behind ..).specs]

omit chosen in
/-- groups whose members are compiled to one bare part are, with what follows them -/
theorem compileItems_group_matches {members' members rest' rest : List Chain}
    (inside' : WellFormed true members') (inside : WellFormed true members)
    (position' position : Position) (index' index next : Nat) (table : List Action)
    (own : (compileItems true (position'.item index') 0 next table members').Matches bareItems
      (compileItems true (position.item index) 0 next table members))
    (behind : ∀ next table, (compileItems false position' (index' + 1) next table rest').Matches bareItems
      (compileItems false position (index + 1) next table rest)) :
    (compileItems false position' index' next table (.parallel members' :: rest')).Matches bareItems
      (compileItems false position index next table (.parallel members :: rest)) := by
  rw [compileItems_group, compileItems_group, Bool.not_false]
  obtain ⟨bs', compiled'⟩ := compileItems_members inside' (position'.item index') 0 next table
  obtain ⟨bs, compiled⟩ := compileItems_members inside (position.item index) 0 next table
  have all : bareMembers bs' = bareMembers bs := by
    have result := own.result
    rw [compiled', compiled] at result
    rw [← flatMap_bareItems, result, flatMap_bareItems]
  dsimp only
  rw [own.table, own.length, compiled', compiled, filterMap_step?, filterMap_step?]
  exact (behind ..).group all own.specs

theorem compileItems_regroup {concurrent : Bool} {list : List Chain} (h : WellFormed concurrent list)
    (written : Position) (place' : Nat) (position' position : Position) (index' index next : Nat)
    (table : List Action) :
    (compileItems concurrent position' index' next table
      (regroup chosen concurrent written place' list)).Matches bareItems
        (compileItems concurrent position index next table list) := by
  induction h generalizing written place' position' position index' index next table with
  | nil => exact ⟨rfl, rfl, rfl⟩
  | @step concurrent a rest clear h ih =>
    have clear' := h.clear_regroup chosen written (place' + 1)
    have nothing : ([] : List Branch).map (·.bare) = ([] : List Branch).map (·.bare) := rfl
    rw [regroup_action _ clear, compileItems_action _ _ _ _ _ _ clear]
    cases apart : isAlone chosen concurrent (written.item place') a with
    | false =>
      rw [setApart, if_neg Bool.false_ne_true, List.singleton_append,
        compileItems_action _ _ _ _ _ _ clear']
      exact .step (bare_branchAt _ _ _ _ _ _ _ rfl) nothing (ih ..)
    | true =>
      obtain ⟨rfl, async⟩ := sequential_of_isAlone apart
      exact .apart (bare_branchAt _ _ _ _ _ _ _ rfl) nothing (ih ..) async
  | @mapped concurrent a outputs rest _ _ _ h lists ih =>
    have under := fun position' position => compileOutputs_regroup chosen
      (fun entry he written position' position => lists entry he written 0 position' position 0 0)
      (written.item (place' + 1)) position' position (next + 1) (place table a).1
    have map := fun position' position => congrArg some (under position' position).result
    rw [regroup, compileItems_mapped]
    cases apart : isAlone chosen concurrent (written.item place') a with
    | false =>
      rw [setApart, if_neg Bool.false_ne_true, List.cons_append, List.singleton_append,
        compileItems_mapped]
      have below := under (position'.item index') (position.item index)
      dsimp only
      rw [below.table, below.length]
      exact .step (bare_branchAt _ _ _ _ _ _ _ (map ..)) below.specs (ih ..)
    | true =>
      obtain ⟨rfl, async⟩ := sequential_of_isAlone apart
      have below := under ((position'.item index').item 0) (position.item index)
      rw [setApart, if_pos rfl, List.singleton_append, compileItems_group, compileItems_mapped]
      simp only [compileItems, List.append_nil]
      rw [below.table, List.length_cons, below.length, Nat.add_assoc next 1, Nat.add_comm 1]
      exact .apart (bare_branchAt _ _ _ _ _ _ _ (map ..)) below.specs (ih ..) async
  | @group members rest inside _ _ ihInside ih =>
    rw [regroup_group]
    exact compileItems_group_matches (inside.regroup ..) inside position' position index' index next table
      (ihInside ..) fun next table => ih ..

/-- **Regrouped, a definition is compiled to the same bare tree.** -/
theorem compile_regroup {signal : String} {definition : List Chain}
    (accepted : analyze signal definition = .ok ()) (chosen : Position → Bool) :
    (compile (regroup chosen false [] 0 definition)).bare = (compile definition).bare := by
  have same := compileItems_regroup chosen (wellFormed_of_analyze accepted) [] 0 [] [] 0 0
    0 []
  unfold compile Tree.bare
  dsimp only
  rw [same.table, same.result, same.specs]

end

end Tree

end SignalFlow
