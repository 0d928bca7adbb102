import SignalFlow.Proofs.Definition.ReadBack
import SignalFlow.Proofs.FirstSeen
/-!
# The table of actions

* `Chain.kept`      the actions of a definition that are compiled, in the order of writing;
* `Tree.Recorded`   what the compiled part of a definition records of them.

`Tree.table_compile`: whatever the definition, the table holds each identity once, in the order in which it
is first met, and branches share a place in it exactly if their actions have one identity.
-/

namespace SignalFlow

namespace Chain

mutual

/-- the actions of a list that are compiled; an output map counts only if it stands behind an action -/
def kept : List Chain → List Action
  | [] => []
  | .action a :: rest =>
    let below := match rest with
      | following :: _ => keptMap following
      | [] => []
    a :: (below ++ kept rest)
  | .parallel members :: rest => kept members ++ kept rest
  | _ :: rest => kept rest

/-- those of what follows an action, if it is an output map -/
def keptMap : Chain → List Action
  | .paths outputs => keptUnder outputs
  | _ => []

def keptUnder : List (String × List Chain) → List Action
  | [] => []
  | (_, items) :: rest => kept items ++ keptUnder rest

end

mutual

theorem kept_subset (concurrent : Bool) :
    ∀ items : List Chain, kept items ⊆ (placed concurrent items).map Prod.fst
  | [] => List.Subset.refl _
  | [.action a] => List.Subset.refl _
  | .action a :: following :: rest => by
    have map := keptMap_subset concurrent following
    have behind := kept_subset concurrent (following :: rest)
    have first : (placedOf concurrent following).map Prod.fst ⊆
        (placed concurrent (following :: rest)).map Prod.fst := by
      rw [placed, List.map_append]
      exact List.subset_append_left ..
    rw [kept, placed, placedOf, List.map_append]
    exact List.cons_subset_cons _ (List.append_subset.mpr ⟨List.Subset.trans map first, behind⟩)
  | .parallel members :: rest => by
    rw [kept, placed, placedOf, List.map_append]
    exact List.append_subset.mpr ⟨List.subset_append_of_subset_left _ (kept_subset true members),
      List.subset_append_of_subset_right _ (kept_subset concurrent rest)⟩
  | .paths _ :: rest | .unresolved _ :: rest | .invalid _ :: rest => by
    rw [placed, List.map_append]
    exact List.subset_append_of_subset_right _ (kept_subset concurrent rest)

theorem keptMap_subset (concurrent : Bool) :
    ∀ item : Chain, keptMap item ⊆ (placedOf concurrent item).map Prod.fst
  | .paths outputs => keptUnder_subset outputs
  | .action _ | .parallel _ | .unresolved _ | .invalid _ => List.nil_subset _

theorem keptUnder_subset : ∀ outputs : List (String × List Chain),
    keptUnder outputs ⊆ (placedUnder outputs).map Prod.fst
  | [] => List.Subset.refl _
  | (_, items) :: rest => by
    rw [keptUnder, placedUnder, List.map_append]
    exact List.append_subset.mpr ⟨List.subset_append_of_subset_left _ (kept_subset false items),
      List.subset_append_of_subset_right _ (keptUnder_subset rest)⟩

end

end Chain

namespace Tree

open Chain

/-- what the branches record of the actions that they are compiled from, and the table that `before` has
become with them -/
structure Recorded (actions before after : List Action) (specs : List Branch) : Prop where
  written : specs.map Branch.action = actions
  table : after = actions.foldl (enlist Action.sameAs) before
  named : ∀ b ∈ specs, b.spec.name = b.action.name

theorem place_fst (table : List Action) (a : Action) :
    (place table a).1 = enlist Action.sameAs table a := by
  have same : (fun c : Action => c.sameAs a) = a.sameAs := by
    funext c
    exact decide_eq_decide.mpr eq_comm
  unfold place enlist
  rw [same]
  cases found : table.findIdx? a.sameAs with
  | some index =>
    obtain ⟨inside, like, -⟩ := List.findIdx?_eq_some_iff_getElem.mp found
    rw [if_pos (List.any_eq_true.mpr ⟨_, List.getElem_mem inside, like⟩)]
  | none =>
    have new := List.findIdx?_eq_none_iff.mp found
    rw [if_neg fun old => ?_]
    obtain ⟨c, hc, like⟩ := List.any_eq_true.mp old
    rw [new c hc] at like
    cases like

theorem Recorded.nil (table : List Action) : Recorded [] table table [] :=
  ⟨rfl, rfl, fun _ h => nomatch h⟩

theorem Recorded.append {actions others first second third : List Action} {front rest : List Branch}
    (h : Recorded actions first second front) (h' : Recorded others second third rest) :
    Recorded (actions ++ others) first third (front ++ rest) where
  written := by rw [List.map_append, h.written, h'.written]
  table := by rw [List.foldl_append, ← h.table, h'.table]
  named := List.forall_mem_append.mpr ⟨h.named, h'.named⟩

theorem Recorded.branchAt (concurrent : Bool) (here : Position) (next : Nat) (table : List Action)
    (a : Action) (outputs : Option (List (String × List (Item Branch)))) :
    Recorded [a] table (place table a).1 [branchAt concurrent here next table a outputs] :=
  ⟨rfl, place_fst table a, List.forall_mem_singleton.mpr rfl⟩

mutual

theorem recorded_compileItems (concurrent : Bool) (position : Position) (index next : Nat)
    (table : List Action) : ∀ items : List Chain,
      let part := compileItems concurrent position index next table items
      Recorded (kept items) table part.table part.specs
  | [] => .nil table
  | [.action a] => by
    rw [compileItems_action _ _ _ _ _ _ clear_nil]
    exact (Recorded.branchAt ..).append (.nil _)
  | .action a :: following :: rest => by
    have first := Recorded.branchAt concurrent (position.item index) next table a
      (compileMap (position.item index) (next + 1) (place table a).1 following).result
    have inside := recorded_compileMap (position.item index) (next + 1) (place table a).1 following
    rw [compileItems, kept]
    exact first.append (inside.append
      (recorded_compileItems concurrent position (index + 1) _ _ (following :: rest)))
  | .parallel members :: rest => by
    rw [compileItems_group, kept]
    exact (recorded_compileItems (!concurrent) (position.item index) 0 next table members).append
      (recorded_compileItems concurrent position (index + 1) _ _ rest)
  | .paths _ :: rest => recorded_compileItems concurrent position index next table rest
  | .unresolved _ :: rest => recorded_compileItems concurrent position index next table rest
  | .invalid _ :: rest => recorded_compileItems concurrent position index next table rest

theorem recorded_compileMap (here : Position) (next : Nat) (table : List Action) :
    ∀ following : Chain,
      let part := compileMap here next table following
      Recorded (keptMap following) table part.table part.specs
  | .paths outputs => recorded_compileOutputs here next table outputs
  | .action _ | .parallel _ | .unresolved _ | .invalid _ => .nil table

theorem recorded_compileOutputs (here : Position) (next : Nat) (table : List Action) :
    ∀ outputs : List (String × List Chain),
      let part := compileOutputs here next table outputs
      Recorded (keptUnder outputs) table part.table part.specs
  | [] => .nil table
  | (output, items) :: rest => by
    rw [compileOutputs_cons, keptUnder]
    exact (recorded_compileItems false (here.output output) 0 next table items).append
      (recorded_compileOutputs here _ _ rest)

end

theorem recorded_compile (definition : List Chain) :
    Recorded (kept definition) [] (compile definition).actions (compile definition).specs :=
  recorded_compileItems false [] 0 0 [] definition

theorem actions_compile (definition : List Chain) :
    (compile definition).actions = (kept definition).eraseDupsBy Action.sameAs := by
  rw [(recorded_compile definition).table, foldl_enlist]

theorem nodup_identities (definition : List Chain) :
    ((compile definition).actions.map Action.identity).Nodup := by
  rw [actions_compile]
  refine List.pairwise_map.mpr ((pairwise_eraseDupsBy _).imp fun {a b} apart same => ?_)
  exact of_decide_eq_false apart same.symm

section
variable {definition : List Chain} {b c : Branch}

/-- branches share a place in the table exactly if their actions have one identity -/
theorem actionIndex_eq_iff (hb : b ∈ (compile definition).specs)
    (hc : c ∈ (compile definition).specs) :
    b.spec.actionIndex = c.spec.actionIndex ↔ b.action.identity = c.action.identity := by
  obtain ⟨first, -, foundFirst, own⟩ := indexed_compile hb
  obtain ⟨second, -, foundSecond, other⟩ := indexed_compile hc
  have own : first.action.identity = b.action.identity := of_decide_eq_true own
  have other : second.action.identity = c.action.identity := of_decide_eq_true other
  constructor
  · intro same
    rw [same, foundSecond] at foundFirst
    rw [← own, ← other, Option.some.inj foundFirst]
  · intro same
    have inside := (List.getElem?_eq_some_iff.mp foundFirst).1
    refine (List.getElem?_inj (by rwa [List.length_map]) (nodup_identities definition)).mp ?_
    rw [List.getElem?_map, List.getElem?_map, foundFirst, foundSecond, Option.map_some,
      Option.map_some, own, other, same]

theorem action_mem_kept (hb : b ∈ (compile definition).specs) : b.action ∈ kept definition :=
  (recorded_compile definition).written ▸ List.mem_map_of_mem hb

theorem exists_placed (hb : b ∈ (compile definition).specs) :
    ∃ p ∈ placed false definition, p.1 = b.action :=
  List.mem_map.mp (kept_subset false definition (action_mem_kept hb))

/-- the place of a branch in the table is that of its action, an identity standing for one action -/
theorem getElem?_actionIndex (hb : b ∈ (compile definition).specs) :
    ∃ a, (compile definition).actions[b.spec.actionIndex]? = some a ∧
      a.identity = b.action.identity ∧ (Coherent definition → a = b.action) := by
  obtain ⟨c, hc, found, same⟩ := indexed_compile hb
  refine ⟨c.action, found, of_decide_eq_true same, fun coherent => ?_⟩
  obtain ⟨p, hp, first⟩ := exists_placed hc
  obtain ⟨q, hq, second⟩ := exists_placed hb
  rw [← first, ← second] at same ⊢
  exact coherent p hp q hq same

end

/-- **The table of actions is what is seen first.** Whether or not a definition was accepted: its branches
by number are the actions that are compiled, in the order of writing, and each has the name of its action.
The table is the list of these actions with every later one of an identity left out, so no identity stands
in it twice; the place of a branch leads to the identity that was written, and so, identities standing for
actions, to the action. Two uses of one identity share a place and two identities never do, whatever their
names and outputs, also if the one action was made from the other by changing its outputs. -/
theorem table_compile (definition : List Chain) :
    (compile definition).specs.map Branch.action = kept definition ∧
    (∀ b ∈ (compile definition).specs, b.spec.name = b.action.name) ∧
    (compile definition).actions = (kept definition).eraseDupsBy Action.sameAs ∧
    ((compile definition).actions.map Action.identity).Nodup ∧
    (∀ b ∈ (compile definition).specs, ∃ a,
      (compile definition).actions[b.spec.actionIndex]? = some a ∧
        a.identity = b.action.identity ∧ (Coherent definition → a = b.action)) ∧
    ∀ b ∈ (compile definition).specs, ∀ c ∈ (compile definition).specs,
      (b.spec.actionIndex = c.spec.actionIndex ↔ b.action.identity = c.action.identity) ∧
      ∀ identity, identity ≠ b.action.identity →
        ((∃ outputs, c.action = b.action.withOutputs identity outputs) ∨
          ∃ output, c.action = b.action.withDefaultOutput identity output) →
        b.spec.actionIndex ≠ c.spec.actionIndex := by
  have recorded := recorded_compile definition
  refine ⟨recorded.written, recorded.named, actions_compile definition, nodup_identities definition,
    fun b hb => getElem?_actionIndex hb, fun b hb c hc => ⟨actionIndex_eq_iff hb hc, ?_⟩⟩
  rintro identity fresh derived shared
  have same := (actionIndex_eq_iff hb hc).mp shared
  have own : c.action.identity = identity := by
    obtain ⟨outputs, made⟩ | ⟨output, made⟩ := derived <;> rw [made] <;> rfl
  exact fresh (own.symm.trans same.symm)

/-- an action and one made from it, used twice in a definition that is refused: a group in a group is
compiled, and an output map without an action before it is not -/
theorem table_compile_refused :
    let load : Action := ⟨0, "load", ["found"], none, .sync fun _ => .finish (.ok .next)⟩
    let other := load.withOutputs 1 ["found"]
    let send : Action := ⟨2, "send", [], none, .async fun _ => .finish (.ok .next)⟩
    let definition := [Chain.paths [("found", [.action send])], .action other,
      .paths [("found", [.action load])], .parallel [.parallel [.action other], .action load]]
    analyze "page" definition ≠ .ok () ∧ other.name = load.name ∧ other.outputs = load.outputs ∧
      (compile definition).actions.map Action.identity = [1, 0] ∧
      (compile definition).specs.map (·.spec.actionIndex) = [0, 1, 0, 1] ∧
      ∀ b ∈ (compile definition).specs, ∀ c ∈ (compile definition).specs,
        b.spec.actionIndex = c.spec.actionIndex ↔ b.action.identity = c.action.identity := by
  intro load other send definition
  obtain ⟨-, -, -, -, -, shared⟩ := table_compile definition
  exact ⟨nofun, rfl, rfl, rfl, rfl, fun b hb c hc => (shared b hb c hc).1⟩

end Tree

end SignalFlow
