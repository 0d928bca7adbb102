import SignalFlow.Proofs.Definition.Branches
import SignalFlow.Proofs.Definition.Faults
/-!
# Definitions written as data

* `Chain.Written`     the grammar of the items of a definition in JSON: a name of the catalog with or
                      without an output map behind it, or, in a sequential list only, a group;
* `Chain.listed?`     the items that a definition in JSON consists of;
* `Tree.data`         a compiled definition in JSON: a branch is the name of its action, followed by its
                      output map if it has one, a group is a list.

`Chain.wellFormed_itemsOfJson`: data read with a catalog is well-formed exactly when it was written by
this grammar. `Tree.data_compile`: what was accepted is written again as it was.
-/

namespace SignalFlow

/-! ## catalogs -/

/-- every action stands under its own name -/
def Catalog.Named (catalog : Catalog) : Prop :=
  ∀ name a, catalog.get? name = some a → a.name = name

theorem Catalog.Named.register {catalog : Catalog} (named : catalog.Named) (action : Action) :
    (catalog.register action).Named := by
  intro name a found
  by_cases same : name = action.name
  · subst same
    rw [get?_register] at found
    cases found
    rfl
  · exact named name a ((Keyed.get?_put_of_ne action catalog.entries same).symm.trans found)

/-- a catalog is built by registering actions, so each stands under its name -/
theorem Catalog.named_ofList (actions : List Action) : (ofList actions).Named := by
  have kept (catalog : Catalog) (named : catalog.Named) : (actions.foldl register catalog).Named := by
    induction actions generalizing catalog with
    | nil => exact named
    | cons action actions ih => exact ih _ (named.register action)
  exact kept {} fun _ _ found => nomatch found

namespace Chain

/-! ## the grammar -/

/-- the items of a list written as data; the flag says whether they are the members of a group -/
inductive Written (catalog : Catalog) : Bool → List Value → Prop
  | nil {concurrent : Bool} : Written catalog concurrent []
  | step {concurrent : Bool} {name : String} {a : Action} {rest : List Value} :
      catalog.get? name = some a → Written catalog concurrent rest →
      Written catalog concurrent (.string name :: rest)
  | mapped {concurrent : Bool} {name : String} {a : Action} {outputs : List (String × Value)}
      {rest : List Value} :
      catalog.get? name = some a →
      (∀ entry ∈ outputs, a.declares entry.1 = true ∧ entry.2.isArray = true) →
      (∀ output items, (output, .array items) ∈ outputs → Written catalog false items) →
      Written catalog concurrent rest →
      Written catalog concurrent (.string name :: .object outputs :: rest)
  | group {members rest : List Value} :
      Written catalog true members → Written catalog false rest →
      Written catalog false (.array members :: rest)

/-- the items of a definition: those of a list, or a name as the only one -/
def listed? : Value → Option (List Value)
  | .array items => some items
  | .string name => some [.string name]
  | _ => none

/-! ## what data is read as -/

section
variable {catalog : Catalog}

theorem ofJson_string {name : String} {a : Action} (found : catalog.get? name = some a) :
    ofJson catalog (.string name) = .action a := by
  rw [ofJson, named, found]

theorem pathsOfJson_eq (outputs : List (String × Value)) :
    pathsOfJson catalog outputs =
      outputs.map fun entry => (entry.1, listOfJson catalog entry.2) := by
  induction outputs with
  | nil => rfl
  | cons entry outputs ih =>
    obtain ⟨output, v⟩ := entry
    rw [List.map_cons, ← ih]
    cases v <;> rfl

theorem ofJson_object {outputs : List (String × Value)}
    (lists : ∀ entry ∈ outputs, entry.2.isArray = true) :
    ofJson catalog (.object outputs) =
      .paths (outputs.map fun entry => (entry.1, listOfJson catalog entry.2)) := by
  rw [ofJson, if_pos (List.all_eq_true.mpr lists), pathsOfJson_eq]

theorem ofJson_cases (catalog : Catalog) (v : Value) :
    (∃ name a, v = .string name ∧ catalog.get? name = some a ∧ ofJson catalog v = .action a) ∨
    (∃ items, v = .array items ∧ ofJson catalog v = .parallel (itemsOfJson catalog items)) ∨
    (∃ outputs, v = .object outputs ∧ (∀ entry ∈ outputs, entry.2.isArray = true) ∧
      ofJson catalog v = .paths (outputs.map fun entry => (entry.1, listOfJson catalog entry.2))) ∨
    (∃ name, ofJson catalog v = .unresolved name) ∨
    ∃ w, ofJson catalog v = .invalid w := by
  cases v with
  | string name =>
    cases found : catalog.get? name with
    | some a => exact .inl ⟨name, a, rfl, found, ofJson_string found⟩
    | none => exact .inr (.inr (.inr (.inl ⟨name, by rw [ofJson, named, found]⟩)))
  | array items => exact .inr (.inl ⟨items, rfl, rfl⟩)
  | object outputs =>
    by_cases lists : ∀ entry ∈ outputs, entry.2.isArray = true
    · exact .inr (.inr (.inl ⟨outputs, rfl, lists, ofJson_object lists⟩))
    · refine .inr (.inr (.inr (.inr ⟨.object outputs, ?_⟩)))
      rw [ofJson, if_neg fun all => lists (List.all_eq_true.mp all)]
  | null | bool _ | number _ => exact .inr (.inr (.inr (.inr ⟨_, rfl⟩)))

theorem ofJson_eq_action {v : Value} {a : Action} (read : ofJson catalog v = .action a) :
    ∃ name, v = .string name ∧ catalog.get? name = some a := by
  obtain ⟨name, b, rfl, found, eq⟩ | ⟨_, _, eq⟩ | ⟨_, _, _, eq⟩ | ⟨_, eq⟩ | ⟨_, eq⟩ :=
    ofJson_cases catalog v
  all_goals rw [eq] at read; cases read
  exact ⟨name, rfl, found⟩

theorem ofJson_eq_parallel {v : Value} {members : List Chain}
    (read : ofJson catalog v = .parallel members) :
    ∃ items, v = .array items ∧ itemsOfJson catalog items = members := by
  obtain ⟨_, _, _, _, eq⟩ | ⟨items, rfl, eq⟩ | ⟨_, _, _, eq⟩ | ⟨_, eq⟩ | ⟨_, eq⟩ :=
    ofJson_cases catalog v
  all_goals rw [eq] at read; cases read
  exact ⟨items, rfl, rfl⟩

theorem ofJson_eq_paths {v : Value} {outputs : List (String × List Chain)}
    (read : ofJson catalog v = .paths outputs) :
    ∃ entries, v = .object entries ∧ (∀ entry ∈ entries, entry.2.isArray = true) ∧
      (entries.map fun entry => (entry.1, listOfJson catalog entry.2)) = outputs := by
  obtain ⟨_, _, _, _, eq⟩ | ⟨_, _, eq⟩ | ⟨entries, rfl, lists, eq⟩ | ⟨_, eq⟩ | ⟨_, eq⟩ :=
    ofJson_cases catalog v
  all_goals rw [eq] at read; cases read
  exact ⟨entries, rfl, lists, rfl⟩

theorem itemsOfJson_eq_cons {items : List Value} {item : Chain} {rest : List Chain}
    (read : itemsOfJson catalog items = item :: rest) :
    ∃ v more, items = v :: more ∧ ofJson catalog v = item ∧ itemsOfJson catalog more = rest := by
  cases items with
  | nil => cases read
  | cons v more =>
    cases read
    exact ⟨v, more, rfl, rfl, rfl⟩

/-! ## from the grammar of data to that of definitions and back -/

theorem Written.clear {concurrent : Bool} {items : List Value}
    (h : Written catalog concurrent items) : Clear (itemsOfJson catalog items) := by
  cases h with
  | nil => exact clear_nil
  | step found _ | mapped found _ _ _ =>
    rw [itemsOfJson, ofJson_string found]
    exact clear_cons _ fun _ same => by cases same
  | group _ _ => exact clear_cons _ fun _ same => by cases same

theorem wellFormed_of_written {concurrent : Bool} {items : List Value}
    (h : Written catalog concurrent items) :
    WellFormed concurrent (itemsOfJson catalog items) := by
  induction h with
  | nil => exact .nil
  | step found rest ih =>
    rw [itemsOfJson, ofJson_string found]
    exact .step rest.clear ih
  | mapped found fits _ rest inner ih =>
    rw [itemsOfJson, itemsOfJson, ofJson_string found, ofJson_object fun entry he => (fits entry he).2]
    refine .mapped (List.forall_mem_map.mpr fun entry he => (fits entry he).1)
      (List.forall_mem_map.mpr fun entry he => ?_) rest.clear ih
    obtain ⟨output, v⟩ := entry
    cases v with
    | array items => exact inner output items he
    | null | bool _ | number _ | string _ | object _ => cases (fits _ he).2
  | group _ rest inner ih => exact .group inner rest.clear ih

theorem written_of_wellFormed {concurrent : Bool} {items : List Value}
    (h : WellFormed concurrent (itemsOfJson catalog items)) : Written catalog concurrent items := by
  generalize read : itemsOfJson catalog items = definition at h
  induction h generalizing items with
  | nil =>
    cases items with
    | nil => exact .nil
    | cons _ _ => cases read
  | step _ _ ih =>
    obtain ⟨v, more, rfl, first, behind⟩ := itemsOfJson_eq_cons read
    obtain ⟨name, rfl, found⟩ := ofJson_eq_action first
    exact .step found (ih behind)
  | mapped declared _ _ _ inner ih =>
    obtain ⟨v, following, rfl, first, next⟩ := itemsOfJson_eq_cons read
    obtain ⟨w, more, rfl, second, behind⟩ := itemsOfJson_eq_cons next
    obtain ⟨name, rfl, found⟩ := ofJson_eq_action first
    obtain ⟨entries, rfl, lists, rfl⟩ := ofJson_eq_paths second
    rw [List.forall_mem_map] at declared inner
    exact .mapped found (fun entry he => ⟨declared entry he, lists entry he⟩)
      (fun output items he => inner _ he rfl) (ih behind)
  | group _ _ _ inner ih =>
    obtain ⟨v, more, rfl, first, behind⟩ := itemsOfJson_eq_cons read
    obtain ⟨members, rfl, within⟩ := ofJson_eq_parallel first
    exact .group (inner within) (ih behind)

/-- **Data is read as a well-formed list exactly when it was written by the grammar.** -/
theorem wellFormed_itemsOfJson {concurrent : Bool} {items : List Value} :
    WellFormed concurrent (itemsOfJson catalog items) ↔ Written catalog concurrent items :=
  ⟨written_of_wellFormed, wellFormed_of_written⟩

theorem listOfJson_of_listed? {v : Value} {items : List Value} (listed : listed? v = some items) :
    listOfJson catalog v = itemsOfJson catalog items := by
  cases v with
  | array _ | string _ =>
    cases listed
    rfl
  | null | bool _ | number _ | object _ => cases listed

/-- neither a list nor a name is a definition -/
theorem not_wellFormed_of_listed? {v : Value} (unlisted : listed? v = none) :
    ¬ WellFormed false (listOfJson catalog v) := by
  intro h
  cases v with
  | array _ | string _ => cases unlisted
  | null | bool _ | number _ => cases h
  | object outputs =>
    rw [listOfJson, ofJson] at h
    · split at h <;> cases h
    · exact fun _ e => nomatch e

theorem wellFormed_listOfJson {v : Value} :
    WellFormed false (listOfJson catalog v) ↔
      ∃ items, listed? v = some items ∧ Written catalog false items := by
  cases listed : listed? v with
  | none => simp [not_wellFormed_of_listed? listed]
  | some items => simp [listOfJson_of_listed? listed, wellFormed_itemsOfJson]

end

end Chain

/-! ## compiled definitions as data -/

namespace Tree

open Chain

mutual

/-- the name of the action and, if one follows it, the output map -/
def dataOfBranch : Branch → List Value
  | .mk spec (some outputs) => [.string spec.name, .object (dataOfOutputs outputs)]
  | .mk spec none => [.string spec.name]

def dataOfOutputs : List (String × List (Item Branch)) → List (String × Value)
  | [] => []
  | (output, items) :: rest => (output, .array (dataOfItems items)) :: dataOfOutputs rest

def dataOfItems : List (Item Branch) → List Value
  | [] => []
  | .step b :: rest => dataOfBranch b ++ dataOfItems rest
  | .group members :: rest => .array (dataOfMembers members) :: dataOfItems rest

def dataOfMembers : List Branch → List Value
  | [] => []
  | b :: rest => dataOfBranch b ++ dataOfMembers rest

end

/-- a compiled definition written as data -/
def data (tree : Tree) : List Value := dataOfItems tree.branches

theorem dataOfItems_map_step (bs : List Branch) : dataOfItems (bs.map .step) = dataOfMembers bs := by
  induction bs with
  | nil => rfl
  | cons b bs ih => rw [List.map_cons, dataOfItems, dataOfMembers, ih]

section
variable {catalog : Catalog}

theorem dataOfOutputs_compileOutputs {outputs : List (String × Value)}
    (lists : ∀ entry ∈ outputs, entry.2.isArray = true)
    (inner : ∀ output items, (output, .array items) ∈ outputs → ∀ position index next table,
      dataOfItems (compileItems false position index next table (itemsOfJson catalog items)).result =
        items)
    (here : Position) (next : Nat) (table : List Action) :
    dataOfOutputs (compileOutputs here next table
      (outputs.map fun entry => (entry.1, listOfJson catalog entry.2))).result = outputs := by
  induction outputs generalizing next table with
  | nil => rfl
  | cons entry outputs ih =>
    obtain ⟨output, v⟩ := entry
    obtain ⟨own, others⟩ := List.forall_mem_cons.mp lists
    rw [List.map_cons, compileOutputs_cons, dataOfOutputs,
      ih others fun output items he => inner output items (List.mem_cons_of_mem _ he)]
    cases v with
    | array items => rw [listOfJson, inner output items List.mem_cons_self]
    | null | bool _ | number _ | string _ | object _ => cases own

theorem dataOfItems_compileItems (named : catalog.Named) {concurrent : Bool} {items : List Value}
    (h : Written catalog concurrent items) (position : Position) (index next : Nat)
    (table : List Action) :
    dataOfItems (compileItems concurrent position index next table
      (itemsOfJson catalog items)).result = items := by
  induction h generalizing position index next table with
  | nil => rfl
  | step found rest ih =>
    rw [itemsOfJson, ofJson_string found, compileItems_action _ _ _ _ _ _ rest.clear]
    simp only [dataOfItems, branchAt, dataOfBranch, named _ _ found, ih, List.cons_append,
      List.nil_append]
  | mapped found fits _ _ inner ih =>
    have lists := fun entry he => (fits entry he).2
    rw [itemsOfJson, itemsOfJson, ofJson_string found, ofJson_object lists, compileItems_mapped]
    simp only [dataOfItems, branchAt, dataOfBranch, named _ _ found, ih,
      dataOfOutputs_compileOutputs lists inner, List.cons_append, List.nil_append]
  | @group members rest written _ inner ih =>
    rw [itemsOfJson, ofJson, compileItems_group]
    have steps := inner (position.item index) 0 next table
    obtain ⟨bs, hbs⟩ :=
      compileItems_members (wellFormed_of_written written) (position.item index) 0 next table
    rw [hbs, dataOfItems_map_step] at steps
    simp only [Bool.not_false, dataOfItems, hbs, filterMap_step?, steps, ih]

/-- **A definition in JSON is accepted exactly when it is written by the grammar**, whatever catalog its
names are looked up in; and what was accepted is compiled to a tree that is written as it was, a name
alone as a list of one. -/
theorem data_compile (actions : List Action) (signal : String) (v : Value) :
    let catalog := Catalog.ofList actions
    let definition := listOfJson catalog v
    (analyze signal definition = .ok () ↔
      ∃ items, listed? v = some items ∧ Written catalog false items) ∧
    (analyze signal definition = .ok () → listed? v = some (compile definition).data) := by
  intro catalog definition
  have accepts : analyze signal definition = .ok () ↔
      ∃ items, listed? v = some items ∧ Written catalog false items := by
    rw [← wellFormed_listOfJson]
    exact ⟨wellFormed_of_analyze, fun h => checkItems_of_wellFormed h [] 0 none⟩
  refine ⟨accepts, fun accepted => ?_⟩
  obtain ⟨items, listed, written⟩ := accepts.mp accepted
  have read : definition = itemsOfJson catalog items := listOfJson_of_listed? listed
  have again : (compile definition).data = items := by
    rw [read]
    exact dataOfItems_compileItems (Catalog.named_ofList actions) written [] 0 0 []
  rw [again, listed]

/-- an output map with an empty list, and a group with an output map inside -/
theorem data_compile_group :
    let load : Action := ⟨0, "load", ["found", "lost"], none, .sync fun _ => .finish (.ok .next)⟩
    let send : Action := ⟨1, "send", [], none, .async fun _ => .finish (.ok .next)⟩
    let v := Value.array [.string "load",
      .object [("found", .array [.string "send"]), ("lost", .array [])],
      .array [.string "send", .object [("done", .array [.array [.string "load"]])], .string "load"]]
    let definition := listOfJson (.ofList [load, send]) v
    analyze "page" definition = .ok () ∧ v = .array (compile definition).data := by
  intro load send v definition
  have accepted : analyze "page" definition = .ok () := rfl
  have again := (data_compile [load, send] "page" v).2 accepted
  exact ⟨accepted, congrArg Value.array (Option.some.inj again)⟩

end

end Tree

end SignalFlow
