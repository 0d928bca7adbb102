import SignalFlow.Definition.Tree
import SignalFlow.Proofs.Definition.WellFormed
/-!
# The branches of a compiled definition

* `Branch.under`      the branches under the outputs of a branch, at any depth;
* `Branch.all`        a branch and those below it;
* `Branch.allOf`      the branches in a list of items, depth first.

`Tree.compileItems_action`, `Tree.compileItems_mapped` and `Tree.compileItems_group` say what each
form of `Chain.WellFormed` is compiled to. Main statements: the numbers of the branches are
`0, 1, 2, …` (`Tree.ids_compile`), and in a definition that was accepted the branches by number are
the branches of the outermost list, depth first (`Tree.specs_compile`); so a number leads to its
branch (`Tree.specs_getElem?`) and no number stands twice (`Tree.nodup_ids`).
-/

namespace SignalFlow

namespace Branch

mutual

/-- a branch and those below it -/
def all : Branch → List Branch
  | mk spec (some outputs) => mk spec (some outputs) :: allUnder outputs
  | mk spec none => [mk spec none]

/-- the branches in the lists of an output map -/
def allUnder : List (String × List (Item Branch)) → List Branch
  | [] => []
  | (_, items) :: rest => allOf items ++ allUnder rest

/-- the branches in a list of items -/
def allOf : List (Item Branch) → List Branch
  | [] => []
  | .step b :: rest => all b ++ allOf rest
  | .group members :: rest => allOfMembers members ++ allOf rest

/-- the branches in the members of a group -/
def allOfMembers : List Branch → List Branch
  | [] => []
  | b :: rest => all b ++ allOfMembers rest

end

/-- the branches under the outputs of a branch -/
def under (b : Branch) : List Branch := allUnder (b.outputs.getD [])

theorem all_eq (b : Branch) : all b = b :: b.under := by
  obtain ⟨spec, outputs⟩ := b
  cases outputs with
  | none => rfl
  | some outputs => rfl

theorem mem_all_self (b : Branch) : b ∈ all b := by rw [all_eq]; exact List.mem_cons_self

theorem allOfMembers_eq (bs : List Branch) : allOfMembers bs = bs.flatMap all := by
  induction bs with
  | nil => rfl
  | cons b bs ih => rw [allOfMembers, ih, List.flatMap_cons]

theorem allOf_cons (item : Item Branch) (rest : List (Item Branch)) :
    allOf (item :: rest) = allOfMembers item.members ++ allOf rest := by
  cases item with
  | step b => simp [allOf, allOfMembers, Item.members]
  | group members => rfl

theorem allOf_append (front rest : List (Item Branch)) :
    allOf (front ++ rest) = allOf front ++ allOf rest := by
  induction front with
  | nil => rfl
  | cons item front ih => rw [List.cons_append, allOf_cons, allOf_cons, ih, List.append_assoc]

theorem allOf_map_step (bs : List Branch) : allOf (bs.map .step) = allOfMembers bs := by
  induction bs with
  | nil => rfl
  | cons b bs ih => rw [List.map_cons, allOf, allOfMembers, ih]

theorem all_sublist_allOfMembers {b : Branch} {bs : List Branch} (h : b ∈ bs) :
    (all b).Sublist (allOfMembers bs) := by
  induction bs with
  | nil => cases h
  | cons first bs ih =>
    rw [allOfMembers]
    cases h with
    | head => exact List.sublist_append_left ..
    | tail _ h => exact (ih h).trans (List.sublist_append_right ..)

theorem all_sublist_allOf {item : Item Branch} {items : List (Item Branch)} (h : item ∈ items)
    {b : Branch} (hb : b ∈ item.members) : (all b).Sublist (allOf items) := by
  induction items with
  | nil => cases h
  | cons first rest ih =>
    rw [allOf_cons]
    cases h with
    | head => exact (all_sublist_allOfMembers hb).trans (List.sublist_append_left ..)
    | tail _ h => exact (ih h).trans (List.sublist_append_right ..)

theorem mem_allOf {items : List (Item Branch)} {c : Branch} :
    c ∈ allOf items ↔ ∃ item ∈ items, ∃ b ∈ item.members, c ∈ all b := by
  induction items with
  | nil => simp [allOf]
  | cons item rest ih => simp [allOf_cons, allOfMembers_eq, ih]

theorem allUnder_eq (outputs : List (String × List (Item Branch))) :
    allUnder outputs = outputs.flatMap fun entry => allOf entry.2 := by
  induction outputs with
  | nil => rfl
  | cons entry rest ih => rw [allUnder, ih, List.flatMap_cons]

theorem allUnder_of_mem {outputs : List (String × List (Item Branch))}
    {entry : String × List (Item Branch)} (h : entry ∈ outputs) :
    (allOf entry.2).Sublist (allUnder outputs) := by
  induction outputs with
  | nil => cases h
  | cons first rest ih =>
    rw [allUnder]
    cases h with
    | head => exact List.sublist_append_left ..
    | tail _ h => exact (ih h).trans (List.sublist_append_right ..)

theorem next_of_get? {b : Branch} {name : String} {items : List (Item Branch)}
    {outputs : List (String × List (Item Branch))} (found : b.outputs = some outputs)
    (got : Keyed.get? name outputs = some items) : b.next (some name) = items := by
  simp [next, found, got]

theorem next_eq (b : Branch) (output : Option String) :
    b.next output = [] ∨ ∃ name items outputs, output = some name ∧ b.outputs = some outputs ∧
      Keyed.get? name outputs = some items ∧ b.next output = items := by
  cases output with
  | none => exact .inl rfl
  | some name =>
    cases h : b.outputs with
    | none => left; simp [next, h]
    | some outputs =>
      cases found : Keyed.get? name outputs with
      | none => left; simp [next, h, found]
      | some items => exact .inr ⟨name, items, outputs, rfl, rfl, found, next_of_get? h found⟩

theorem allOf_next_sublist (b : Branch) (output : Option String) :
    (allOf (b.next output)).Sublist b.under := by
  rcases b.next_eq output with h | ⟨name, items, outputs, -, found, taken, h⟩
  · rw [h]; exact List.nil_sublist _
  · rw [h, under, found]; exact allUnder_of_mem (Keyed.mem_of_get? taken)

end Branch

namespace Tree

open Chain

/-! ## what is compiled to what -/

/-- the branch that an occurrence of an action is compiled to -/
def branchAt (concurrent : Bool) (here : Position) (next : Nat) (table : List Action) (a : Action)
    (outputs : Option (List (String × List (Item Branch)))) : Branch :=
  .mk ⟨next, a.name, here, concurrent, (place table a).2, a⟩ outputs

section
variable (concurrent : Bool) (position : Position) (index next : Nat) (table : List Action)

theorem compileItems_action (a : Action) {rest : List Chain} (clear : Clear rest) :
    compileItems concurrent position index next table (.action a :: rest) =
      let b := branchAt concurrent (position.item index) next table a none
      let after := compileItems concurrent position (index + 1) (next + 1) (place table a).1 rest
      ⟨after.table, .step b :: after.result, b :: after.specs⟩ := by
  cases rest with
  | nil => rfl
  | cons item rest =>
    cases item with
    | paths outputs => exact absurd rfl (clear outputs rest)
    | action _ | parallel _ | unresolved _ | invalid _ => rfl

theorem compileItems_mapped (a : Action) (outputs : List (String × List Chain))
    (rest : List Chain) :
    compileItems concurrent position index next table (.action a :: .paths outputs :: rest) =
      let here := position.item index
      let below := compileOutputs here (next + 1) (place table a).1 outputs
      let b := branchAt concurrent here next table a (some below.result)
      let after := compileItems concurrent position (index + 1) (next + 1 + below.specs.length)
        below.table rest
      ⟨after.table, .step b :: after.result, b :: (below.specs ++ after.specs)⟩ := rfl

theorem compileItems_group (members rest : List Chain) :
    compileItems concurrent position index next table (.parallel members :: rest) =
      let inside := compileItems (!concurrent) (position.item index) 0 next table members
      let after := compileItems concurrent position (index + 1) (next + inside.specs.length)
        inside.table rest
      ⟨after.table, .group (inside.result.filterMap Item.step?) :: after.result,
        inside.specs ++ after.specs⟩ := rfl

theorem compileOutputs_cons (output : String) (items : List Chain)
    (rest : List (String × List Chain)) :
    compileOutputs position next table ((output, items) :: rest) =
      let inside := compileItems false (position.output output) 0 next table items
      let after := compileOutputs position (next + inside.specs.length) inside.table rest
      ⟨after.table, (output, inside.result) :: after.result, inside.specs ++ after.specs⟩ := rfl

end

/-! ## numbers -/

theorem range'_cons_append {next m n : Nat} :
    next :: (List.range' (next + 1) m ++ List.range' (next + 1 + m) n) =
      List.range' next (m + n + 1) := by
  rw [List.range'_append_1, List.range'_succ]

mutual

theorem ids_compileItems (concurrent : Bool) (position : Position) (index next : Nat)
    (table : List Action) : ∀ items : List Chain,
      let part := compileItems concurrent position index next table items
      part.specs.map Branch.id = List.range' next part.specs.length
  | [] => rfl
  | .action a :: rest => by
    have behind := fun table next => ids_compileItems concurrent position (index + 1) next table rest
    rw [compileItems]
    cases rest with
    | nil => rfl
    | cons following rest =>
      have inside := ids_compileMap (position.item index) (next + 1) (place table a).1 following
      simp only [List.map_cons, List.map_append, List.length_cons, List.length_append] at inside behind ⊢
      rw [inside, behind]
      exact range'_cons_append
  | .parallel members :: rest => by
    rw [compileItems_group]
    have inside := ids_compileItems (!concurrent) (position.item index) 0 next table members
    simp only [List.map_append, List.length_append] at inside ⊢
    rw [inside, ids_compileItems concurrent position (index + 1) _ _ rest, List.range'_append_1]
  | .paths _ :: rest => ids_compileItems concurrent position index next table rest
  | .unresolved _ :: rest => ids_compileItems concurrent position index next table rest
  | .invalid _ :: rest => ids_compileItems concurrent position index next table rest

theorem ids_compileMap (here : Position) (next : Nat) (table : List Action) : ∀ following : Chain,
    let part := compileMap here next table following
    part.specs.map Branch.id = List.range' next part.specs.length
  | .paths outputs => ids_compileOutputs here next table outputs
  | .action _ | .parallel _ | .unresolved _ | .invalid _ => rfl

theorem ids_compileOutputs (here : Position) (next : Nat) (table : List Action) :
    ∀ outputs : List (String × List Chain),
      let part := compileOutputs here next table outputs
      part.specs.map Branch.id = List.range' next part.specs.length
  | [] => rfl
  | (output, items) :: rest => by
    rw [compileOutputs_cons]
    have inside := ids_compileItems false (here.output output) 0 next table items
    simp only [List.map_append, List.length_append] at inside ⊢
    rw [inside, ids_compileOutputs here _ _ rest, List.range'_append_1]

end

/-- **The branches are numbered `0, 1, 2, …`**, whether or not the definition was accepted. -/
theorem ids_compile (definition : List Chain) :
    (compile definition).specs.map Branch.id = List.range (compile definition).size := by
  rw [List.range_eq_range']
  exact ids_compileItems false [] 0 0 [] definition

/-! ## the branches by number -/

theorem compileItems_members {members : List Chain} (h : WellFormed true members)
    (position : Position) (index next : Nat) (table : List Action) :
    ∃ bs : List Branch,
      (compileItems true position index next table members).result = bs.map .step := by
  generalize e : true = concurrent at h
  induction h generalizing index next table with
  | nil => exact ⟨[], rfl⟩
  | step clear _ ih =>
    subst e
    rw [compileItems_action _ _ _ _ _ _ clear]
    obtain ⟨bs, h⟩ := ih (index + 1) (next + 1) (place table _).1 rfl
    exact ⟨_ :: bs, congrArg (Item.step _ :: ·) h⟩
  | mapped _ _ _ _ _ ih =>
    subst e
    rw [compileItems_mapped]
    obtain ⟨bs, h⟩ := ih (index + 1) _ _ rfl
    exact ⟨_ :: bs, congrArg (Item.step _ :: ·) h⟩
  | group => cases e

theorem filterMap_step? (bs : List Branch) : (bs.map Item.step).filterMap Item.step? = bs := by
  induction bs with
  | nil => rfl
  | cons b bs ih => simp [Item.step?, ih]

theorem specs_compileOutputs {outputs : List (String × List Chain)}
    (lists : ∀ entry ∈ outputs, ∀ position index next table,
      let part := compileItems false position index next table entry.2
      part.specs = Branch.allOf part.result)
    (here : Position) (next : Nat) (table : List Action) :
    let part := compileOutputs here next table outputs
    part.specs = Branch.allUnder part.result := by
  induction outputs generalizing next table with
  | nil => rfl
  | cons entry rest ih =>
    rw [compileOutputs_cons]
    simp only [Branch.allUnder]
    rw [lists entry List.mem_cons_self, ih (fun e he => lists e (List.mem_cons_of_mem _ he))]

theorem specs_compileItems {concurrent : Bool} {items : List Chain}
    (h : WellFormed concurrent items) (position : Position) (index next : Nat)
    (table : List Action) :
    let part := compileItems concurrent position index next table items
    part.specs = Branch.allOf part.result := by
  induction h generalizing position index next table with
  | nil => rfl
  | step clear _ ih =>
    rw [compileItems_action _ _ _ _ _ _ clear]
    simp only [Branch.allOf, branchAt, Branch.all, List.cons_append, List.nil_append, ih]
  | mapped _ _ _ _ lists ih =>
    rw [compileItems_mapped]
    simp only [Branch.allOf, branchAt, Branch.all, List.cons_append]
    rw [specs_compileOutputs lists, ih]
  | @group members rest inside _ _ ihInside ih =>
    rw [compileItems_group]
    simp only [Bool.not_false, Branch.allOf]
    rw [ihInside, ih]
    obtain ⟨bs, hbs⟩ := compileItems_members inside (position.item index) 0 next table
    rw [hbs, filterMap_step?, Branch.allOf_map_step]

theorem id_of_specs {definition : List Chain} {n : Nat} {b : Branch}
    (found : (compile definition).specs[n]? = some b) : b.id = n := by
  have inside : n < (compile definition).size := (List.getElem?_eq_some_iff.mp found).1
  have number := congrArg (·[n]?) (ids_compile definition)
  simpa [found, inside] using number

section
variable {signal : String} {definition : List Chain}
  (accepted : analyze signal definition = .ok ())
include accepted

/-- **The branches by number are the branches of the outermost list, depth first.** -/
theorem specs_compile :
    (compile definition).specs = Branch.allOf (compile definition).branches :=
  specs_compileItems (wellFormed_of_analyze accepted) [] 0 0 []

theorem nodup_ids :
    ((Branch.allOf (compile definition).branches).map Branch.id).Nodup := by
  rw [← specs_compile accepted, ids_compile]
  exact List.nodup_range

theorem id_lt_size {b : Branch} (h : b ∈ Branch.allOf (compile definition).branches) :
    b.id < (compile definition).size := by
  rw [← specs_compile accepted] at h
  have member := List.mem_map_of_mem (f := Branch.id) h
  rw [ids_compile] at member
  exact List.mem_range.mp member

theorem specs_getElem? {b : Branch} (h : b ∈ Branch.allOf (compile definition).branches) :
    (compile definition).specs[b.id]? = some b := by
  rw [← specs_compile accepted] at h
  obtain ⟨n, found⟩ := List.mem_iff_getElem?.mp h
  rw [id_of_specs found, found]

end

end Tree

end SignalFlow
