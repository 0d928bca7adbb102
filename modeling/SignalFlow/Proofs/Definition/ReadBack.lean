import SignalFlow.Proofs.Definition.Branches
/-!
# Reading a compiled definition back

* `Tree.Tabled`      how a part of a compiled definition uses the table of actions: the table only
                     grows, by actions that occur in the part, and each branch points to an action
                     with the identity of its own;
* `Tree.readBack`    the definition that a tree stands for: a branch is its action out of the table,
                     followed by an output map if it has one, a group is a group of its members;
* `Chain.viewed`     a definition with its actions seen through a view, such as their identities;
* `Chain.Coherent`   an identity stands for one action in the definition.

`Tree.readBack_compile`: reading back undoes compiling, on every definition that is accepted. Nothing
is lost and nothing is invented, and a branch is marked as concurrent exactly when its action is a
direct member of a group. The table keeps one action for each identity, so an action comes back as far
as its identity tells; that is all of it, since an identity is what actions are told apart by.
-/

namespace SignalFlow

namespace Chain

/-- two occurrences of one identity are one action -/
def Coherent (definition : List Chain) : Prop :=
  ∀ p ∈ placed false definition, ∀ q ∈ placed false definition, p.1.sameAs q.1 = true → p.1 = q.1

mutual

/-- an item with its actions seen through a view -/
def viewed (view : Action → Action) : Chain → Chain
  | .action a => .action (view a)
  | .parallel members => .parallel (viewedItems view members)
  | .paths outputs => .paths (viewedOutputs view outputs)
  | .unresolved name => .unresolved name
  | .invalid value => .invalid value

def viewedItems (view : Action → Action) : List Chain → List Chain
  | [] => []
  | item :: rest => viewed view item :: viewedItems view rest

def viewedOutputs (view : Action → Action) :
    List (String × List Chain) → List (String × List Chain)
  | [] => []
  | (output, items) :: rest => (output, viewedItems view items) :: viewedOutputs view rest

end

mutual

theorem viewed_id : ∀ item : Chain, viewed id item = item
  | .action _ | .unresolved _ | .invalid _ => rfl
  | .parallel members => by rw [viewed, viewedItems_id members]
  | .paths outputs => by rw [viewed, viewedOutputs_id outputs]

theorem viewedItems_id : ∀ items : List Chain, viewedItems id items = items
  | [] => rfl
  | item :: rest => by rw [viewedItems, viewed_id item, viewedItems_id rest]

theorem viewedOutputs_id : ∀ outputs : List (String × List Chain), viewedOutputs id outputs = outputs
  | [] => rfl
  | (output, items) :: rest => by rw [viewedOutputs, viewedItems_id items, viewedOutputs_id rest]

end

end Chain

namespace Tree

open Chain

/-! ## the table of actions -/

/-- how branches use the table that grew from `before` to `after` while they were compiled -/
structure Tabled (before after : List Action) (specs : List Branch) : Prop where
  grows : before <+: after
  known : ∀ a ∈ after, a ∈ before ∨ a ∈ specs.map Branch.action
  indexed : ∀ b ∈ specs, ∃ a, after[b.spec.actionIndex]? = some a ∧ a.sameAs b.action = true

theorem getElem?_of_prefix {before after : List Action} (h : before <+: after) {i : Nat} {a : Action}
    (found : before[i]? = some a) : after[i]? = some a := by
  obtain ⟨more, rfl⟩ := h
  have inside : i < before.length := (List.getElem?_eq_some_iff.mp found).1
  rw [List.getElem?_append_left inside, found]

theorem Tabled.nil (table : List Action) : Tabled table table [] :=
  ⟨List.prefix_rfl, fun _ h => .inl h, fun _ h => nomatch h⟩

theorem Tabled.append {first second third : List Action} {front rest : List Branch}
    (h : Tabled first second front) (h' : Tabled second third rest) :
    Tabled first third (front ++ rest) := by
  refine ⟨h.grows.trans h'.grows, fun a ha => ?_, fun b hb => ?_⟩
  · rw [List.map_append, List.mem_append]
    rcases h'.known a ha with old | new
    · exact (h.known a old).imp_right .inl
    · exact .inr (.inr new)
  · rcases List.mem_append.mp hb with hb | hb
    · obtain ⟨a, found, same⟩ := h.indexed b hb
      exact ⟨a, getElem?_of_prefix h'.grows found, same⟩
    · exact h'.indexed b hb

theorem place_spec (table : List Action) (a : Action) :
    table <+: (place table a).1 ∧ (∀ c ∈ (place table a).1, c ∈ table ∨ c = a) ∧
      ∃ c, (place table a).1[(place table a).2]? = some c ∧ c.sameAs a = true := by
  unfold place
  cases found : table.findIdx? (·.sameAs a) with
  | some index =>
    obtain ⟨inside, same, -⟩ := List.findIdx?_eq_some_iff_getElem.mp found
    exact ⟨List.prefix_rfl, fun _ h => .inl h, _, List.getElem?_eq_getElem inside, same⟩
  | none =>
    refine ⟨List.prefix_append .., fun c hc => ?_, a, by simp, by simp [Action.sameAs]⟩
    exact (List.mem_append.mp hc).imp_right List.mem_singleton.mp

theorem Tabled.place (concurrent : Bool) (here : Position) (next : Nat) (table : List Action)
    (a : Action) (outputs : Option (List (String × List (Item Branch)))) :
    Tabled table (place table a).1 [branchAt concurrent here next table a outputs] := by
  obtain ⟨grows, known, c, found, same⟩ := place_spec table a
  refine ⟨grows, fun c hc => (known c hc).imp_right (fun e => ?_), fun b hb => ?_⟩
  · rw [e]
    exact List.mem_singleton_self a
  · rw [List.mem_singleton.mp hb]
    exact ⟨c, found, same⟩

mutual

theorem tabled_compileItems (concurrent : Bool) (position : Position) (index next : Nat)
    (table : List Action) : ∀ items : List Chain,
      let part := compileItems concurrent position index next table items
      Tabled table part.table part.specs
  | [] => .nil table
  | [.action a] => by
    rw [compileItems_action _ _ _ _ _ _ clear_nil]
    exact (Tabled.place ..).append (.nil _)
  | .action a :: following :: rest => by
    have first := Tabled.place concurrent (position.item index) next table a
      (compileMap (position.item index) (next + 1) (place table a).1 following).result
    have inside := tabled_compileMap (position.item index) (next + 1) (place table a).1 following
    rw [compileItems]
    exact first.append (inside.append
      (tabled_compileItems concurrent position (index + 1) _ _ (following :: rest)))
  | .parallel members :: rest => by
    rw [compileItems_group]
    exact (tabled_compileItems (!concurrent) (position.item index) 0 next table members).append
      (tabled_compileItems concurrent position (index + 1) _ _ rest)
  | .paths _ :: rest => tabled_compileItems concurrent position index next table rest
  | .unresolved _ :: rest => tabled_compileItems concurrent position index next table rest
  | .invalid _ :: rest => tabled_compileItems concurrent position index next table rest

theorem tabled_compileMap (here : Position) (next : Nat) (table : List Action) :
    ∀ following : Chain,
      let part := compileMap here next table following
      Tabled table part.table part.specs
  | .paths outputs => tabled_compileOutputs here next table outputs
  | .action _ | .parallel _ | .unresolved _ | .invalid _ => .nil table

theorem tabled_compileOutputs (here : Position) (next : Nat) (table : List Action) :
    ∀ outputs : List (String × List Chain),
      let part := compileOutputs here next table outputs
      Tabled table part.table part.specs
  | [] => .nil table
  | (output, items) :: rest => by
    rw [compileOutputs_cons]
    exact (tabled_compileItems false (here.output output) 0 next table items).append
      (tabled_compileOutputs here _ _ rest)

end

/-! ## the marks of concurrent branches -/

/-- what is written of a branch in the definition: its action, and whether it is in a group -/
def placement (b : Branch) : Action × Bool := (b.action, b.spec.isAsync)

theorem placements_compileOutputs {outputs : List (String × List Chain)}
    (lists : ∀ entry ∈ outputs, ∀ position index next table,
      (compileItems false position index next table entry.2).specs.map placement =
        placed false entry.2)
    (here : Position) (next : Nat) (table : List Action) :
    (compileOutputs here next table outputs).specs.map placement = placedUnder outputs := by
  induction outputs generalizing next table with
  | nil => rfl
  | cons entry rest ih =>
    rw [compileOutputs_cons, placedUnder, List.map_append, lists entry List.mem_cons_self,
      ih (fun e he => lists e (List.mem_cons_of_mem _ he))]

theorem placements_compileItems {concurrent : Bool} {items : List Chain}
    (h : WellFormed concurrent items) (position : Position) (index next : Nat)
    (table : List Action) :
    (compileItems concurrent position index next table items).specs.map placement =
      placed concurrent items := by
  induction h generalizing position index next table with
  | nil => rfl
  | step clear _ ih =>
    rw [compileItems_action _ _ _ _ _ _ clear, List.map_cons, ih]
    rfl
  | mapped _ _ _ _ lists ih =>
    rw [compileItems_mapped, List.map_cons, List.map_append, ih, placements_compileOutputs lists]
    rfl
  | group _ _ _ ihInside ih =>
    rw [compileItems_group, List.map_append, Bool.not_false, ihInside, ih]
    rfl

/-! ## reading back -/

/-- the item that an occurrence of an action stands for; an index out of the table stands for none -/
def readAction (table : List Action) (spec : Spec) : Chain :=
  match table[spec.actionIndex]? with
  | some a => .action a
  | none => .unresolved spec.name

mutual

def readBranch (table : List Action) : Branch → List Chain
  | .mk spec (some outputs) => [readAction table spec, .paths (readOutputs table outputs)]
  | .mk spec none => [readAction table spec]

def readOutputs (table : List Action) :
    List (String × List (Item Branch)) → List (String × List Chain)
  | [] => []
  | (output, items) :: rest => (output, readItems table items) :: readOutputs table rest

def readItems (table : List Action) : List (Item Branch) → List Chain
  | [] => []
  | .step b :: rest => readBranch table b ++ readItems table rest
  | .group members :: rest => .parallel (readMembers table members) :: readItems table rest

def readMembers (table : List Action) : List Branch → List Chain
  | [] => []
  | b :: rest => readBranch table b ++ readMembers table rest

end

/-- the definition that a tree stands for -/
def readBack (tree : Tree) : List Chain := readItems tree.actions tree.branches

theorem readItems_map_step (table : List Action) (bs : List Branch) :
    readItems table (bs.map .step) = readMembers table bs := by
  induction bs with
  | nil => rfl
  | cons b bs ih => rw [List.map_cons, readItems, readMembers, ih]

section
variable {view : Action → Action} {final : List Action}

/-- seen through the view, the table leads back to the action of each branch -/
def Resolved (view : Action → Action) (final : List Action) (specs : List Branch) : Prop :=
  ∀ b ∈ specs, ∃ a, final[b.spec.actionIndex]? = some a ∧ view a = view b.action

theorem Resolved.cons {b : Branch} {rest : List Branch} (h : Resolved view final (b :: rest)) :
    viewed view (readAction final b.spec) = .action (view b.action) ∧ Resolved view final rest := by
  refine ⟨?_, fun c hc => h c (List.mem_cons_of_mem _ hc)⟩
  obtain ⟨a, found, same⟩ := h b List.mem_cons_self
  rw [readAction, found, viewed, same]

theorem readOutputs_compileOutputs {outputs : List (String × List Chain)}
    (lists : ∀ entry ∈ outputs, ∀ position index next table,
      let part := compileItems false position index next table entry.2
      Resolved view final part.specs →
        viewedItems view (readItems final part.result) = viewedItems view entry.2)
    (here : Position) (next : Nat) (table : List Action)
    (resolved : Resolved view final (compileOutputs here next table outputs).specs) :
    viewedOutputs view (readOutputs final (compileOutputs here next table outputs).result) =
      viewedOutputs view outputs := by
  induction outputs generalizing next table with
  | nil => rfl
  | cons entry rest ih =>
    rw [compileOutputs_cons] at resolved ⊢
    obtain ⟨inside, behind⟩ := List.forall_mem_append.mp resolved
    rw [readOutputs, viewedOutputs, lists entry List.mem_cons_self _ _ _ _ inside,
      ih (fun e he => lists e (List.mem_cons_of_mem _ he)) _ _ behind, viewedOutputs]

theorem readItems_compileItems {concurrent : Bool} {items : List Chain}
    (h : WellFormed concurrent items) (position : Position) (index next : Nat)
    (table : List Action)
    (resolved :
      Resolved view final (compileItems concurrent position index next table items).specs) :
    viewedItems view (readItems final
      (compileItems concurrent position index next table items).result) = viewedItems view items := by
  induction h generalizing position index next table with
  | nil => rfl
  | step clear _ ih =>
    rw [compileItems_action _ _ _ _ _ _ clear] at resolved ⊢
    obtain ⟨own, behind⟩ := resolved.cons
    rw [readItems, viewedItems, viewed, ← ih _ _ _ _ behind]
    exact congrArg (· :: _) own
  | mapped _ _ _ _ lists ih =>
    rw [compileItems_mapped] at resolved ⊢
    obtain ⟨own, behind⟩ := resolved.cons
    obtain ⟨inside, behind⟩ := List.forall_mem_append.mp behind
    rw [readItems, viewedItems, viewedItems, viewed, viewed, ← ih _ _ _ _ behind, branchAt,
      readBranch, ← readOutputs_compileOutputs lists _ _ _ inside]
    exact congrArg (· :: _) own
  | @group members rest members' _ _ ihInside ih =>
    rw [compileItems_group] at resolved ⊢
    obtain ⟨inside, behind⟩ := List.forall_mem_append.mp resolved
    have read := ihInside (position.item index) 0 next table inside
    obtain ⟨bs, hbs⟩ := compileItems_members members' (position.item index) 0 next table
    rw [hbs, readItems_map_step] at read
    simp only [Bool.not_false] at behind ⊢
    rw [readItems, hbs, filterMap_step?, viewedItems, viewedItems, viewed, viewed, read,
      ih _ _ _ _ behind]

end

theorem indexed_compile {definition : List Chain} {b : Branch}
    (hb : b ∈ (compile definition).specs) :
    ∃ c ∈ (compile definition).specs,
      (compile definition).actions[b.spec.actionIndex]? = some c.action ∧
        c.action.sameAs b.action = true := by
  have tabled : Tabled [] (compile definition).actions (compile definition).specs :=
    tabled_compileItems false [] 0 0 [] definition
  obtain ⟨a, found, same⟩ := tabled.indexed b hb
  rcases tabled.known a (List.mem_of_getElem? found) with old | new
  · cases old
  · obtain ⟨c, hc, rfl⟩ := List.mem_map.mp new
    exact ⟨c, hc, found, same⟩

section
variable {signal : String} {definition : List Chain}
  (accepted : analyze signal definition = .ok ())
include accepted

theorem placements_compile :
    (compile definition).specs.map placement = placed false definition :=
  placements_compileItems (wellFormed_of_analyze accepted) [] 0 0 []

/-- a view that does not tell two actions of one identity apart sees the definition again -/
theorem viewed_readBack {view : Action → Action}
    (blind : ∀ b ∈ (compile definition).specs, ∀ c ∈ (compile definition).specs,
      c.action.sameAs b.action = true → view c.action = view b.action) :
    viewedItems view (compile definition).readBack = viewedItems view definition := by
  refine readItems_compileItems (wellFormed_of_analyze accepted) [] 0 0 [] fun b hb => ?_
  obtain ⟨c, hc, found, same⟩ := indexed_compile hb
  exact ⟨c.action, found, blind b hb c hc same⟩

end

/-- **Compiling loses nothing and invents nothing.** An accepted definition is read back with the same
nesting, outputs and identities, and so, identities standing for actions, as it was written; the number
of a branch leads to that branch; and its mark says whether its action is a direct member of a group. -/
theorem readBack_compile {signal : String} {definition : List Chain}
    (accepted : analyze signal definition = .ok ()) :
    (∀ view : Action → Action, (∀ a c, a.sameAs c = true → view a = view c) →
      viewedItems view (compile definition).readBack = viewedItems view definition) ∧
    (Coherent definition → (compile definition).readBack = definition) ∧
    ((compile definition).specs = Branch.allOf (compile definition).branches ∧
      (compile definition).specs.map Branch.id = List.range (compile definition).size) ∧
    (compile definition).specs.map (fun b =>
        ((compile definition).actions[b.spec.actionIndex]?.map Action.identity, b.spec.isAsync)) =
      (placed false definition).map fun p => (some p.1.identity, p.2) := by
  refine ⟨fun view blind => viewed_readBack accepted fun b _ c _ same => blind _ _ same,
    fun coherent => ?_, ⟨specs_compile accepted, ids_compile definition⟩, ?_⟩
  · have occurs : ∀ b ∈ (compile definition).specs, placement b ∈ placed false definition := by
      intro b hb
      rw [← placements_compile accepted]
      exact List.mem_map_of_mem hb
    have read : viewedItems id (compile definition).readBack = viewedItems id definition :=
      viewed_readBack accepted fun b hb c hc same =>
        coherent (placement c) (occurs c hc) (placement b) (occurs b hb) same
    rwa [viewedItems_id, viewedItems_id] at read
  · rw [← placements_compile accepted, List.map_map]
    refine List.map_congr_left fun b hb => ?_
    obtain ⟨c, -, found, same⟩ := indexed_compile hb
    have identity : c.action.identity = b.action.identity := of_decide_eq_true same
    rw [found, Option.map_some, identity]
    rfl

/-- two actions, an empty output map, a group with an output map inside, and an action used twice -/
theorem readBack_compile_group :
    let load : Action := ⟨0, "load", ["found"], none, .sync fun _ => .finish (.ok .next)⟩
    let send : Action := ⟨1, "send", [], none, .async fun _ => .finish (.ok .next)⟩
    let definition := [Chain.action load, .paths [("found", [.action send])],
      .parallel [.action send, .paths [("done", [.action load, .paths []])], .action load]]
    analyze "page" definition = .ok () ∧ (compile definition).readBack = definition ∧
      (compile definition).specs.map (·.spec.isAsync) = [false, false, true, false, true] := by
  intro load send definition
  have accepted : analyze "page" definition = .ok () := rfl
  have coherent : Coherent definition := by
    intro p hp q hq same
    simp only [definition, placed, placedOf, placedUnder, List.cons_append, List.nil_append,
      List.mem_cons, List.not_mem_nil, or_false] at hp hq
    rcases hp with rfl | rfl | rfl | rfl | rfl <;> rcases hq with rfl | rfl | rfl | rfl | rfl <;>
      first | rfl | exact absurd same (by decide)
  obtain ⟨-, read, -, -⟩ := readBack_compile accepted
  exact ⟨accepted, read coherent, rfl⟩

end Tree

end SignalFlow
