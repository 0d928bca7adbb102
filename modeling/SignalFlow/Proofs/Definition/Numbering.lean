import SignalFlow.Proofs.Definition.ReadBack
import Mathlib.Data.List.Nodup
import Mathlib.Data.List.Perm.Subperm
/-!
# Numbers and positions in a compiled definition

* `Tree.nodes`    the branches that stand in the lists of a tree: in the outermost list, in its
                  groups and in the lists under the outputs of any branch;
* `Tree.reach`   the branch that a position leads to: an index into a list, an index into a group,
                  the word `outputs` and the name of an output;
* `Chain.maps`    the output maps of a definition.

`Tree.numbered_compile`: in what is compiled, accepted or not, a number below the size leads to each
branch, none stands twice, and they rise in the order of reading. In what was accepted they are
`0, 1, 2, …`, and a position leads to the branch that has it.
-/

namespace SignalFlow

namespace Chain

mutual

/-- the output maps in an item -/
def mapsOf : Chain → List (List (String × List Chain))
  | .parallel members => maps members
  | .paths outputs => outputs :: mapsUnder outputs
  | .action _ | .unresolved _ | .invalid _ => []

/-- the output maps in a list of items -/
def maps : List Chain → List (List (String × List Chain))
  | [] => []
  | item :: rest => mapsOf item ++ maps rest

/-- the output maps in the lists of an output map -/
def mapsUnder : List (String × List Chain) → List (List (String × List Chain))
  | [] => []
  | (_, items) :: rest => maps items ++ mapsUnder rest

end

theorem maps_subset_mapsUnder {outputs : List (String × List Chain)}
    {entry : String × List Chain} (h : entry ∈ outputs) : maps entry.2 ⊆ mapsUnder outputs := by
  induction outputs with
  | nil => cases h
  | cons first rest ih =>
    rw [mapsUnder]
    cases h with
    | head => exact List.subset_append_left ..
    | tail _ h => exact List.Subset.trans (ih h) (List.subset_append_right ..)

end Chain

namespace Tree

open Chain

/-! ## the branches in the lists -/

/-- the branches that stand in a list, on their own or in a group -/
def direct (items : List (Item Branch)) : List Branch := items.flatMap Item.members

/-- the branches that stand in the lists of an output map -/
def directUnder (outputs : List (String × List (Item Branch))) : List Branch :=
  outputs.flatMap fun entry => direct entry.2

/-- the branches that stand in the lists under the outputs of some branches -/
def listed (specs : List Branch) : List Branch :=
  specs.flatMap fun b => directUnder (b.outputs.getD [])

/-- the branches that stand in the lists of a tree -/
def nodes (tree : Tree) : List Branch := direct tree.branches ++ listed tree.specs

theorem filterMap_step?_sublist (items : List (Item Branch)) :
    (items.filterMap Item.step?).Sublist (direct items) := by
  induction items with
  | nil => exact List.Sublist.slnil
  | cons item rest ih =>
    cases item with
    | step b => exact ih.cons_cons b
    | group members => exact ih.trans (List.sublist_append_right ..)

theorem subperm_append_append {a b c d x y : List Branch} (h : (a ++ c).Subperm x)
    (h' : (b ++ d).Subperm y) : ((a ++ b) ++ (c ++ d)).Subperm (x ++ y) := by
  have swap : ((a ++ b) ++ (c ++ d)).Perm ((a ++ c) ++ (b ++ d)) := by
    rw [List.append_assoc, List.append_assoc]
    exact (List.perm_append_comm_assoc b c d).append_left a
  exact swap.subperm.trans (h.append h')

mutual

/-- each branch stands in one list at most -/
theorem subperm_compileItems (concurrent : Bool) (position : Position) (index next : Nat)
    (table : List Action) : ∀ items : List Chain,
      let part := compileItems concurrent position index next table items
      (direct part.result ++ listed part.specs).Subperm part.specs
  | [] => List.Subperm.refl _
  | [.action a] => by
    rw [compileItems_action _ _ _ _ _ _ clear_nil]
    exact List.Subperm.refl _
  | .action a :: following :: rest => by
    have inside := subperm_compileMap (position.item index) (next + 1) (place table a).1 following
    have behind := fun next table =>
      subperm_compileItems concurrent position (index + 1) next table (following :: rest)
    rw [compileItems]
    simp only [direct, listed, List.flatMap_cons, List.flatMap_append] at inside behind ⊢
    rw [← List.append_assoc (directUnder _)]
    exact (List.subperm_cons _).mpr
      ((List.perm_append_comm_assoc ..).subperm.trans (inside.append (behind _ _)))
  | .parallel members :: rest => by
    have inside := subperm_compileItems (!concurrent) (position.item index) 0 next table members
    rw [compileItems_group]
    have kept := (filterMap_step?_sublist
      (compileItems (!concurrent) (position.item index) 0 next table members).result).subperm
    have behind := fun next table =>
      subperm_compileItems concurrent position (index + 1) next table rest
    simp only [direct, listed, List.flatMap_cons, List.flatMap_append] at inside kept behind ⊢
    exact subperm_append_append ((kept.append (List.Subperm.refl _)).trans inside) (behind _ _)
  | .paths _ :: rest => subperm_compileItems concurrent position index next table rest
  | .unresolved _ :: rest => subperm_compileItems concurrent position index next table rest
  | .invalid _ :: rest => subperm_compileItems concurrent position index next table rest

theorem subperm_compileMap (here : Position) (next : Nat) (table : List Action) :
    ∀ following : Chain,
      let part := compileMap here next table following
      (directUnder (part.result.getD []) ++ listed part.specs).Subperm part.specs
  | .paths outputs => subperm_compileOutputs here next table outputs
  | .action _ | .parallel _ | .unresolved _ | .invalid _ => List.Subperm.refl _

theorem subperm_compileOutputs (here : Position) (next : Nat) (table : List Action) :
    ∀ outputs : List (String × List Chain),
      let part := compileOutputs here next table outputs
      (directUnder part.result ++ listed part.specs).Subperm part.specs
  | [] => List.Subperm.refl _
  | (output, items) :: rest => by
    have inside := subperm_compileItems false (here.output output) 0 next table items
    have behind := fun next table => subperm_compileOutputs here next table rest
    rw [compileOutputs_cons]
    simp only [directUnder, listed, List.flatMap_cons, List.flatMap_append] at inside behind ⊢
    exact subperm_append_append inside (behind _ _)

end

/-! ## the order of reading -/

theorem allOfMembers_filterMap_step? (items : List (Item Branch)) :
    (Branch.allOfMembers (items.filterMap Item.step?)).Sublist (Branch.allOf items) := by
  induction items with
  | nil => exact List.Sublist.slnil
  | cons item rest ih =>
    cases item with
    | step b => exact (List.Sublist.refl _).append ih
    | group members => exact ih.trans (List.sublist_append_right ..)

mutual

/-- what is read depth first is read in the order of the numbers -/
theorem sublist_compileItems (concurrent : Bool) (position : Position) (index next : Nat)
    (table : List Action) : ∀ items : List Chain,
      let part := compileItems concurrent position index next table items
      (Branch.allOf part.result).Sublist part.specs
  | [] => List.Sublist.slnil
  | [.action a] => by
    rw [compileItems_action _ _ _ _ _ _ clear_nil]
    exact List.Sublist.refl _
  | .action a :: following :: rest => by
    have inside := sublist_compileMap (position.item index) (next + 1) (place table a).1 following
    rw [compileItems]
    simp only [Branch.allOf, Branch.all_eq, List.cons_append]
    exact (inside.append
      (sublist_compileItems concurrent position (index + 1) _ _ (following :: rest))).cons_cons _
  | .parallel members :: rest => by
    have inside := sublist_compileItems (!concurrent) (position.item index) 0 next table members
    rw [compileItems_group]
    exact ((allOfMembers_filterMap_step? _).trans inside).append
      (sublist_compileItems concurrent position (index + 1) _ _ rest)
  | .paths _ :: rest => sublist_compileItems concurrent position index next table rest
  | .unresolved _ :: rest => sublist_compileItems concurrent position index next table rest
  | .invalid _ :: rest => sublist_compileItems concurrent position index next table rest

theorem sublist_compileMap (here : Position) (next : Nat) (table : List Action) :
    ∀ following : Chain,
      let part := compileMap here next table following
      (Branch.allUnder (part.result.getD [])).Sublist part.specs
  | .paths outputs => sublist_compileOutputs here next table outputs
  | .action _ | .parallel _ | .unresolved _ | .invalid _ => List.Sublist.slnil

theorem sublist_compileOutputs (here : Position) (next : Nat) (table : List Action) :
    ∀ outputs : List (String × List Chain),
      let part := compileOutputs here next table outputs
      (Branch.allUnder part.result).Sublist part.specs
  | [] => List.Sublist.slnil
  | (output, items) :: rest => by
    rw [compileOutputs_cons]
    exact (sublist_compileItems false (here.output output) 0 next table items).append
      (sublist_compileOutputs here _ _ rest)

end

/-! ## positions -/

mutual

/-- the branch that a position leads to from a list -/
def reachIn : Position → List (Item Branch) → Option Branch
  | .index i :: rest, items =>
    match items[i]? with
    | some (.step b) => reachUnder rest b
    | some (.group members) => reachIn rest (members.map .step)
    | none => none
  | _, _ => none

/-- the branch that the rest of a position leads to from a branch -/
def reachUnder : Position → Branch → Option Branch
  | [], b => some b
  | .key word :: .key name :: rest, b =>
    if word = "outputs" then reachIn rest (b.next (some name)) else none
  | _, _ => none

end

/-- the branch that a position leads to -/
def reach (tree : Tree) (position : Position) : Option Branch := reachIn position tree.branches

section
variable (front rest : List (Item Branch)) (position : Position)

theorem reachIn_step (b : Branch) :
    reachIn (.index front.length :: position) (front ++ .step b :: rest) =
      reachUnder position b := by
  simp [reachIn]

theorem reachIn_group (members : List Branch) :
    reachIn (.index front.length :: position) (front ++ .group members :: rest) =
      reachIn position (members.map .step) := by
  simp [reachIn]

end

theorem names_compileOutputs (here : Position) (next : Nat) (table : List Action)
    (outputs : List (String × List Chain)) :
    (compileOutputs here next table outputs).result.map (·.1) = outputs.map (·.1) := by
  induction outputs generalizing next table with
  | nil => rfl
  | cons entry rest ih => rw [compileOutputs_cons, List.map_cons, List.map_cons, ih]

/-- no output map of the branch has two lists for one output -/
def Distinct (b : Branch) : Prop := ∀ outputs, b.outputs = some outputs → Keyed.Unique outputs

mutual

theorem distinct_compileItems (concurrent : Bool) (position : Position) (index next : Nat)
    (table : List Action) : ∀ items : List Chain, (∀ outputs ∈ maps items, Keyed.Unique outputs) →
      ∀ b ∈ (compileItems concurrent position index next table items).specs, Distinct b
  | [], _ => fun _ h => nomatch h
  | [.action a], _ => by
    rw [compileItems_action _ _ _ _ _ _ clear_nil]
    exact List.forall_mem_singleton.mpr nofun
  | .action a :: following :: rest, unique => by
    obtain ⟨-, others⟩ := List.forall_mem_append.mp unique
    obtain ⟨map, inside⟩ := distinct_compileMap (position.item index) (next + 1) (place table a).1
      following (List.forall_mem_append.mp others).1
    rw [compileItems]
    exact List.forall_mem_cons.mpr ⟨map, List.forall_mem_append.mpr ⟨inside,
      distinct_compileItems concurrent position (index + 1) _ _ (following :: rest) others⟩⟩
  | .parallel members :: rest, unique => by
    obtain ⟨own, others⟩ := List.forall_mem_append.mp unique
    rw [compileItems_group]
    exact List.forall_mem_append.mpr
      ⟨distinct_compileItems (!concurrent) (position.item index) 0 next table members own,
        distinct_compileItems concurrent position (index + 1) _ _ rest others⟩
  | .paths _ :: rest, unique | .unresolved _ :: rest, unique | .invalid _ :: rest, unique =>
    distinct_compileItems concurrent position index next table rest
      (List.forall_mem_append.mp unique).2

theorem distinct_compileMap (here : Position) (next : Nat) (table : List Action) :
    ∀ following : Chain, (∀ outputs ∈ mapsOf following, Keyed.Unique outputs) →
      let part := compileMap here next table following
      (∀ outputs, part.result = some outputs → Keyed.Unique outputs) ∧
        ∀ b ∈ part.specs, Distinct b
  | .paths outputs, unique => by
    obtain ⟨own, inside⟩ := List.forall_mem_cons.mp unique
    refine ⟨?_, distinct_compileOutputs here next table outputs inside⟩
    rintro _ ⟨⟩
    rwa [Keyed.Unique, names_compileOutputs]
  | .action _, _ | .parallel _, _ | .unresolved _, _ | .invalid _, _ =>
    ⟨nofun, fun _ h => nomatch h⟩

theorem distinct_compileOutputs (here : Position) (next : Nat) (table : List Action) :
    ∀ outputs : List (String × List Chain), (∀ map ∈ mapsUnder outputs, Keyed.Unique map) →
      ∀ b ∈ (compileOutputs here next table outputs).specs, Distinct b
  | [], _ => fun _ h => nomatch h
  | (output, items) :: rest, unique => by
    obtain ⟨own, others⟩ := List.forall_mem_append.mp unique
    rw [compileOutputs_cons]
    exact List.forall_mem_append.mpr
      ⟨distinct_compileItems false (here.output output) 0 next table items own,
        distinct_compileOutputs here _ _ rest others⟩

end

/-- behind `position`, a branch is placed where the list leads to it -/
def Led (position : Position) (items : List (Item Branch)) (b : Branch) : Prop :=
  ∃ rest, b.spec.position = position ++ rest ∧ reachIn rest items = some b

theorem led_compileOutputs {outputs : List (String × List Chain)}
    (lists : ∀ entry ∈ outputs, ∀ position next table,
      ∀ b ∈ Branch.allOf (compileItems false position 0 next table entry.2).result,
        Led position (compileItems false position 0 next table entry.2).result b)
    (here : Position) (next : Nat) (table : List Action) :
    ∀ entry ∈ (compileOutputs here next table outputs).result, ∀ b ∈ Branch.allOf entry.2,
      Led (here.output entry.1) entry.2 b := by
  induction outputs generalizing next table with
  | nil => exact fun _ h => nomatch h
  | cons entry rest ih =>
    rw [compileOutputs_cons]
    exact List.forall_mem_cons.mpr ⟨lists entry List.mem_cons_self _ _ _,
      ih (fun e he => lists e (List.mem_cons_of_mem _ he)) _ _⟩

section
variable {position : Position} {front behind : List (Item Branch)}

theorem Led.under {b c : Branch} (name : String) (here : b.spec.position = position.item front.length)
    (led : Led (b.spec.position.output name) (b.next (some name)) c) :
    Led position (front ++ .step b :: behind) c := by
  obtain ⟨rest, at_, found⟩ := led
  refine ⟨.index front.length :: .key "outputs" :: .key name :: rest, ?_, ?_⟩
  · rw [at_, here, Position.output, Position.item, List.append_assoc, List.append_assoc]
    rfl
  · rw [reachIn_step, reachUnder, if_pos rfl, found]

theorem Led.member {members : List Branch} {c : Branch}
    (led : Led (position.item front.length) (members.map .step) c) :
    Led position (front ++ .group members :: behind) c := by
  obtain ⟨rest, at_, found⟩ := led
  refine ⟨.index front.length :: rest, ?_, ?_⟩
  · rw [at_, Position.item, List.append_assoc]
    rfl
  · rw [reachIn_group, found]

end

/-- a list leads to its branches, whatever stands before it -/
theorem led_compileItems {concurrent : Bool} {items : List Chain}
    (h : WellFormed concurrent items) (unique : ∀ outputs ∈ maps items, Keyed.Unique outputs)
    (position : Position) (index next : Nat) (table : List Action) (front : List (Item Branch))
    (before : front.length = index) :
    ∀ b ∈ Branch.allOf (compileItems concurrent position index next table items).result,
      Led position (front ++ (compileItems concurrent position index next table items).result) b := by
  induction h generalizing position index next table front with
  | nil => exact fun _ h => nomatch h
  | step clear _ ih =>
    subst before
    rw [compileItems_action _ _ _ _ _ _ clear]
    intro b hb
    rcases List.mem_cons.mp hb with rfl | behind
    · exact ⟨[.index front.length], rfl, reachIn_step front _ [] _⟩
    · rw [List.append_cons]
      exact ih unique _ _ _ _ _ List.length_append b behind
  | @mapped _ a outputs rest _ _ _ _ lists ih =>
    subst before
    rw [compileItems_mapped]
    intro b hb
    have own : Keyed.Unique outputs := unique outputs List.mem_cons_self
    obtain ⟨inside, after⟩ := List.forall_mem_append.mp (List.forall_mem_cons.mp unique).2
    rcases List.mem_append.mp hb with here | behind
    · rcases List.mem_cons.mp here with rfl | under
      · exact ⟨[.index front.length], rfl, reachIn_step front _ [] _⟩
      · rw [Branch.allUnder_eq] at under
        obtain ⟨entry, he, member⟩ := List.mem_flatMap.mp under
        have led := led_compileOutputs (fun entry he position next table =>
          lists entry he (fun o ho => inside o (maps_subset_mapsUnder he ho)) position 0 next table []
            rfl) _ _ _ entry he b member
        have names : Keyed.Unique (compileOutputs (position.item front.length) (next + 1)
            (place table a).1 outputs).result := by
          rwa [Keyed.Unique, names_compileOutputs]
        refine Led.under entry.1 rfl ?_
        rwa [Branch.next_of_get? rfl (Keyed.get?_of_mem names he)]
    · rw [List.append_cons]
      exact ih after _ _ _ _ _ List.length_append b behind
  | @group members rest inside _ _ ihInside ih =>
    subst before
    rw [compileItems_group]
    intro b hb
    obtain ⟨own, after⟩ := List.forall_mem_append.mp unique
    obtain ⟨bs, compiled⟩ := compileItems_members inside (position.item front.length) 0 next table
    have led := ihInside own (position.item front.length) 0 next table [] rfl
    rw [compiled, List.nil_append, Branch.allOf_map_step] at led
    simp only [Bool.not_false, compiled, filterMap_step?] at hb ⊢
    rcases List.mem_append.mp hb with member | behind
    · exact (led b member).member
    · rw [List.append_cons]
      exact ih after _ _ _ _ _ List.length_append b behind

/-! ## main statement -/

/-- each branch in the lists of a tree is one of those by number, and none is there twice -/
theorem subperm_nodes (definition : List Chain) :
    (compile definition).nodes.Subperm (compile definition).specs :=
  subperm_compileItems false [] 0 0 [] definition

theorem nodup_nodes (definition : List Chain) :
    ((compile definition).nodes.map Branch.id).Nodup := by
  obtain ⟨listed, same, sublist⟩ := subperm_nodes definition
  refine (same.map Branch.id).nodup_iff.mp ((sublist.map Branch.id).nodup ?_)
  rw [ids_compile]
  exact List.nodup_range

theorem getElem?_id {definition : List Chain} {b : Branch} (h : b ∈ (compile definition).specs) :
    (compile definition).specs[b.id]? = some b := by
  obtain ⟨n, found⟩ := List.mem_iff_getElem?.mp h
  rw [id_of_specs found, found]

theorem pairwise_ids (definition : List Chain) :
    ((Branch.allOf (compile definition).branches).map Branch.id).Pairwise (· < ·) := by
  have read : (Branch.allOf (compile definition).branches).Sublist (compile definition).specs :=
    sublist_compileItems false [] 0 0 [] definition
  refine List.Pairwise.sublist (read.map Branch.id) ?_
  rw [ids_compile]
  exact List.pairwise_lt_range

section
variable {signal : String} {definition : List Chain}
  (accepted : analyze signal definition = .ok ())
  (unique : ∀ outputs ∈ maps definition, Keyed.Unique outputs)
include accepted unique

/-- a position leads to the branch that has it -/
theorem reach_position {b : Branch} (h : b ∈ (compile definition).specs) :
    (compile definition).reach b.spec.position = some b := by
  rw [specs_compile accepted] at h
  obtain ⟨rest, at_, found⟩ :=
    led_compileItems (wellFormed_of_analyze accepted) unique [] 0 0 [] [] rfl b h
  rw [reach, at_]
  exact found

theorem nodup_positions : ((compile definition).specs.map (·.spec.position)).Nodup := by
  refine List.Nodup.map_on (fun b hb c hc same => ?_) (List.Nodup.of_map Branch.id ?_)
  · have led := reach_position accepted unique hb
    rw [same, reach_position accepted unique hc] at led
    exact (Option.some.inj led).symm
  · rw [ids_compile]
    exact List.nodup_range

end

/-- **Compiled definitions are well formed.** Whether or not a definition was accepted: each branch in
a list has a number below the size that leads to it, no number stands in two places, reading depth
first meets the numbers in rising order, and each branch points to an action with the identity of its
own. If it was accepted, the numbers that are read are `0, 1, 2, …`, no two branches have one position,
and the position of a branch leads to that branch. -/
theorem numbered_compile (definition : List Chain) :
    (((compile definition).nodes.map Branch.id).Nodup ∧
      (∀ b ∈ (compile definition).nodes, b.id < (compile definition).size ∧
        (compile definition).specs[b.id]? = some b) ∧
      ((Branch.allOf (compile definition).branches).map Branch.id).Pairwise (· < ·) ∧
      ∀ b ∈ (compile definition).specs, ∃ a : Action,
        (compile definition).actions[b.spec.actionIndex]? = some a ∧ a.sameAs b.action = true) ∧
    ∀ signal : String, analyze signal definition = .ok () →
      (∀ outputs ∈ maps definition, Keyed.Unique outputs) →
      (Branch.allOf (compile definition).branches).map Branch.id =
          List.range (compile definition).size ∧
        ((compile definition).specs.map (·.spec.position)).Nodup ∧
        ∀ b ∈ (compile definition).specs,
          (compile definition).reach b.spec.position = some b := by
  refine ⟨⟨nodup_nodes definition, fun b hb => ?_, pairwise_ids definition, fun b hb => ?_⟩,
    fun signal accepted unique => ⟨?_, nodup_positions accepted unique,
      fun b hb => reach_position accepted unique hb⟩⟩
  · have found := getElem?_id ((subperm_nodes definition).subset hb)
    exact ⟨(List.getElem?_eq_some_iff.mp found).1, found⟩
  · obtain ⟨c, -, found, same⟩ := indexed_compile hb
    exact ⟨c.action, found, same⟩
  · rw [← specs_compile accepted, ids_compile]

/-- an output map that takes no index, and under a member of a group a list with a group in it -/
theorem numbered_compile_nested :
    let load : Action := ⟨0, "load", ["found", "missing"], none, .sync fun _ => .finish (.ok .next)⟩
    let send : Action := ⟨1, "send", ["done"], none, .async fun _ => .finish (.ok .next)⟩
    let definition := [Chain.action load, .paths [("missing", []), ("found", [.action send])],
      .parallel [.action send, .paths [("done", [.parallel [.action load, .action send]])],
        .action load]]
    analyze "page" definition = .ok () ∧ (∀ outputs ∈ maps definition, Keyed.Unique outputs) ∧
      (compile definition).specs.map (·.spec.position.text) = ["[0]", "[0, outputs, found, 0]",
        "[1, 0]", "[1, 0, outputs, done, 0, 0]", "[1, 0, outputs, done, 0, 1]", "[1, 1]"] ∧
      ∀ b ∈ (compile definition).specs,
        (compile definition).reach b.spec.position = some b := by
  intro load send definition
  have accepted : analyze "page" definition = .ok () := rfl
  have unique : ∀ outputs ∈ maps definition, Keyed.Unique outputs := by
    simp [definition, maps, mapsOf, mapsUnder, Keyed.Unique]
  obtain ⟨-, ordered⟩ := numbered_compile definition
  exact ⟨accepted, unique, by decide +kernel, (ordered "page" accepted unique).2.2⟩

end Tree

end SignalFlow
