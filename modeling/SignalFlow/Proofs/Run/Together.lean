import SignalFlow.Proofs.Definition.Numbering
import SignalFlow.Proofs.Run.Beside
import SignalFlow.Proofs.Run.Completions
import SignalFlow.Proofs.Run.Effects
import SignalFlow.Proofs.Run.Errors
import SignalFlow.Proofs.Run.Order
/-!
# The members of a group begin together

* `Tree.items`      the items of all lists of a tree, each standing there once (`Tree.item_unique`);
* `Walk.Enters`     a walk comes to a group, and its members begin on the arguments of that moment.

A branch of a group stands nowhere else, so if it has begun, then because the group was entered
(`Walk.Step.enters`), in some poll since the run was started (`Run.Later.entered`). From that moment on the
slots of the members show its arguments.

`Run.Later.begun_together`: between two polls no member of a group has begun, or all have, on one copy of
the arguments.
-/

namespace SignalFlow

open Branch Walk Relation

/-! ## the items of a tree -/

namespace Tree

/-- the items of all lists of a tree -/
def items (tree : Tree) : List (Item Branch) :=
  tree.branches ++ tree.specs.flatMap fun b => (b.outputs.getD []).flatMap (·.2)

theorem nodes_eq (tree : Tree) : tree.nodes = tree.items.flatMap Item.members := by
  simp only [nodes, listed, directUnder, direct, items, List.flatMap_append, List.flatMap_assoc]

theorem item_unique {definition : List Chain} {item other : Item Branch}
    (h : item ∈ (compile definition).items) (h' : other ∈ (compile definition).items) {b c : Branch}
    (hb : b ∈ item.members) (hc : c ∈ other.members) (same : b.id = c.id) : item = other := by
  obtain ⟨i, hi⟩ := List.mem_iff_getElem?.mp h
  obtain ⟨j, hj⟩ := List.mem_iff_getElem?.mp h'
  by_cases place : i = j
  · subst place
    exact Option.some.inj (hi.symm.trans hj)
  · have unique : Unique ((compile definition).items.flatMap Item.members) := by
      rw [← nodes_eq]
      exact List.pairwise_map.mp (nodup_nodes definition)
    exact absurd same (unique.parts hi hj place b hb c hc)

section
variable {tree : Tree} {list : List (Item Branch)} (read : tree.specs = allOf tree.branches)
include read

theorem Holds.subset (held : tree.Holds list) : list ⊆ tree.items ∧ allOf list ⊆ tree.specs := by
  induction held with
  | outermost => exact ⟨List.subset_append_left .., read ▸ List.Subset.refl _⟩
  | @under list items item b outputs output _ hi hb found mem ih =>
    have own := (all_sublist_allOf hi hb).subset
    refine ⟨fun inner h => List.mem_append_right _ ?_, fun c hc => ?_⟩
    · refine List.mem_flatMap.mpr ⟨b, ih.2 (own (mem_all_self b)), ?_⟩
      rw [found]
      exact List.mem_flatMap.mpr ⟨_, mem, h⟩
    · exact ih.2 (own ((under_sublist b).subset ((allOf_sublist_under found mem).subset hc)))

theorem Holds.everywhere (held : tree.Holds list) : Everywhere (· ∈ tree.items) list := by
  induction weight : itemsWeight list using Nat.strongRecOn generalizing list with
  | ind bound ih =>
    refine .of_forall fun item hi => ⟨(held.subset read).1 hi, fun b hb output => ?_⟩
    have lighter := Nat.lt_of_lt_of_le (itemsWeight_next_lt b output) (weight_le_itemsWeight hi hb)
    rcases b.next_eq output with none | ⟨name, items, outputs, -, found, got, next⟩
    · rw [none]
      exact .nil
    · exact ih _ (weight ▸ lighter) (next ▸ .under held hi hb found (Keyed.mem_of_get? got)) rfl

end

end Tree

theorem members_sublist_allOf {items : List (Item Branch)} {item : Item Branch} (hi : item ∈ items) :
    item.members.Sublist (allOf items) := by
  obtain ⟨front, rest, rfl⟩ := List.append_of_mem hi
  rw [allOf_append, allOf_cons]
  exact ((sublist_allOfMembers item.members).trans (List.sublist_append_left ..)).trans
    (List.sublist_append_right ..)

/-- the members of an item of an orderly list have all begun, or none has -/
theorem Orderly.whole {slot : Nat → Slot} {items : List (Item Branch)} {item : Item Branch}
    (orderly : Orderly slot items) (hi : item ∈ items) :
    Fresh slot item.members ∨ ∀ b ∈ item.members, (slot b.id).args.isSome = true := by
  induction orderly with
  | fresh fresh =>
    exact .inl fun b hb => fresh b ((all_sublist_allOf hi hb).subset (mem_all_self b))
  | past finished _ ih =>
    cases hi with
    | head =>
      refine .inr fun b hb => ?_
      obtain ⟨entered, -⟩ := finished b hb
      exact entered.executed.seen
    | tail _ hi => exact ih hi
  | here partly _ fresh _ =>
    cases hi with
    | head => exact .inr fun b hb => (partly b hb).elim (·.begun.seen) (·.executed.seen)
    | tail _ hi => exact .inl fun b hb => fresh b ((all_sublist_allOf hi hb).subset (mem_all_self b))

/-! ## entering a group -/

namespace Walk

/-- a walk comes to a group none of whose members has begun, and they begin in order, each with a copy of
the arguments of this moment and a body that is given no others -/
inductive Enters (members : List Branch) (moment : Shared) : Doing
  | mk (rest : List (Item Branch)) (store : Store) : Fresh moment.slot members →
      Enters members moment (ready (.group members :: rest)) ⟨store, moment⟩
        (joinedOf (members.map fun b => awaiting b (b.action.started moment.args store)) rest)
        ⟨store, members.foldl Shared.begin moment⟩

section
variable {s : Setting} {signal : Signal} {members : List Branch} {walk walk' : Walk} {w w' : World}
  {moment : Shared} {b : Branch}

theorem Enters.step (h : Enters members moment walk w walk' w') : Step s walk w walk' w' := by
  cases h with
  | mk rest store _ =>
    have move : Move s _ _ _ _ := .group members rest ⟨store, moment⟩
    rw [start_members, start_world] at move
    exact .move move

/-- what is known of a walk that may come to the group -/
structure Heads (signal : Signal) (slot : Nat → Slot) (walk : Walk) : Prop where
  stands : Stands (allOf signal.tree.branches) slot walk
  items : walk.Throughout (· ∈ signal.tree.items) fun _ => True

theorem Heads.member {slot : Nat → Slot} {members : List Walk} {queue : Option (List Nat)}
    {rest : List (Item Branch)} {m : Walk} (h : Heads signal slot (joined members queue rest))
    (hm : m ∈ members) : Heads signal slot m := by
  refine ⟨h.stands.member hm, ?_⟩
  cases h.items with
  | joined _ inside _ => exact inside m hm

theorem Heads.next {slot : Nat → Slot} {item : Item Branch} {rest : List (Item Branch)}
    (h : Heads signal slot (ready (item :: rest))) : item ∈ signal.tree.items := by
  cases h.items with
  | ready everywhere =>
    cases everywhere with
    | cons own _ _ => exact own

variable {definition : List Chain} (tree : signal.tree = Tree.compile definition)
  (group : .group members ∈ signal.tree.items) (hb : b ∈ members)
include tree group hb

/-- a branch that stands in a group begins only when the group is entered -/
theorem Move.enters (heads : Heads signal w.shared.slot walk) (move : Move s walk w walk' w')
    (before : (w.shared.slot b.id).args = none) (after : (w'.shared.slot b.id).args.isSome = true) :
    Enters members w.shared walk w walk' w' := by
  -- the item that began something with this number is the group
  have whole {item : Item Branch} {rest : List (Item Branch)}
      (heads : Heads signal w.shared.slot (ready (item :: rest)))
      (frame : Frame item.members w.shared w'.shared) : item = .group members := by
    by_contra other
    have same := frame.same b.id fun c hc own => other
      (Tree.item_unique (tree ▸ heads.next) (tree ▸ group) hc hb own)
    rw [same, before] at after
    cases after
  cases move with
  | sync rest _ body => cases whole heads (frame_runSync _)
  | lone rest _ body => cases whole heads (frame_start _ _)
  | group bs rest =>
    cases whole heads (frame_start _ _)
    have fresh := heads.stands.next.2
    rw [start_members, start_world]
    exact .mk rest w.store fresh
  | settle ended =>
    rw [(Setting.settle_ends _).sameLogs.args, before] at after
    cases after

theorem Step.enters (heads : Heads signal w.shared.slot walk) (step : Step s walk w walk' w')
    (before : (w.shared.slot b.id).args = none) (after : (w'.shared.slot b.id).args.isSome = true) :
    Inside (Enters members w.shared) walk w walk' w' := by
  rcases step.moved with inside | ⟨waiting, rfl⟩
  · exact inside.imp (fun heads hm => heads.member hm)
      (fun u u' heads move => move.enters tree group hb heads before after) heads
  · have same : (w.shared.slot b.id).args.isSome = true := after
    rw [before] at same
    cases same

theorem Steps.enters (numbered : Numbered signal.tree.size (allOf signal.tree.branches))
    (track : walk.OnTrack signal w) (items : walk.Throughout (· ∈ signal.tree.items) fun _ => True)
    (steps : Steps s walk w walk' w') (before : (w.shared.slot b.id).args = none)
    (after : (w'.shared.slot b.id).args.isSome = true) :
    ∃ moment, Passes s (Enters members moment) walk w walk' w' := by
  induction steps with
  | refl =>
    rw [before] at after
    cases after
  | @head walk next _ w x _ first behind ih =>
    cases mid : (x.shared.slot b.id).args with
    | none =>
      obtain ⟨moment, passes⟩ := ih (track.step numbered first)
        (first.throughout (fun _ _ _ _ _ => trivial) items) mid after
      exact ⟨moment, passes.after first.steps⟩
    | some args =>
      exact ⟨w.shared, .of_inside (first.enters tree group hb ⟨track.stands, items⟩ before
        (by rw [mid]; rfl)) behind⟩

end

end Walk

/-! ## runs -/

namespace Run

variable {name : String} {policy : Policy} {definition : List Chain} {signal : Signal}
  {id : String} {startedAt : Timestamp} {input : Signal.Input} {first run : Run}
  {members : List Branch} {list : List (Item Branch)}

/-- if a member of a group has begun, then the group was entered -/
theorem Later.entered (created : Signal.create name policy definition = .ok signal)
    (started : signal.start id startedAt input = .ok first) (later : Later first run)
    (group : .group members ∈ signal.tree.items) {b : Branch} (hb : b ∈ members)
    (begun : (run.shared.slot b.id).args.isSome = true) :
    ∃ moment, Since first (fun _ => Enters members moment) run := by
  obtain ⟨accepted, made⟩ := Signal.create_eq created
  have tree : signal.tree = Tree.compile definition := by rw [made]
  have everywhere : Everywhere (· ∈ signal.tree.items) signal.tree.branches :=
    Tree.Holds.everywhere (tree ▸ Tree.specs_compile accepted) .outermost
  induction later with
  | now =>
    obtain ⟨-, initial⟩ := start_shared started
    rw [initial, Shared.slot_initial] at begun
    cases begun
  | @poll run isOpen elapsed store later ih =>
    cases settled : run.settled with
    | some _ =>
      rw [atRest_of_settled (by rw [settled]; rfl)] at begun ⊢
      exact ih begun
    | none =>
      cases before : (run.shared.slot b.id).args with
      | some args =>
        obtain ⟨moment, since⟩ := ih (by rw [before]; rfl)
        exact ⟨moment, since.later (.poll isOpen elapsed store .now)⟩
      | none =>
        have reachable := later.reachable (.start started)
        have like := (poll_becomes settled isOpen elapsed store).2.like
        rw [like.sameLogs.args] at begun
        obtain ⟨moment, passes⟩ := (poll_steps _ run.walk ⟨store, run.shared⟩).enters tree group hb
          (Signal.numbered created) (reachable.onTrack created settled store)
          (reachable.throughout (fun _ _ _ _ _ => trivial) everywhere) before begun
        exact ⟨moment, run, isOpen, elapsed, store, later, settled, passes, .now⟩
  | wake address _ ih =>
    obtain ⟨moment, since⟩ := ih begun
    exact ⟨moment, since.later (.wake address .now)⟩
  | @gateOpened run gate _ ih =>
    obtain ⟨waiting, same⟩ := shared_gateOpened run gate
    rw [same] at begun
    obtain ⟨moment, since⟩ := ih begun
    exact ⟨moment, since.later (.gateOpened gate .now)⟩

/-- **The members of a group begin together, on the same arguments.** Between two polls, whether the run is
under way, stalled or settled, either no member of a group has begun or all have, wherever in the definition
the group stands. They have then begun at the moment at which a walk of the run came to the group: each has
seen the arguments of the run as they were, which no member had added a payload to, and the journal lists
the members one right after the other. -/
theorem Later.begun_together (created : Signal.create name policy definition = .ok signal)
    (started : signal.start id startedAt input = .ok first) (later : Later first run)
    (held : signal.tree.Holds list) (group : .group members ∈ list) :
    (∀ b ∈ members, run.shared.slot b.id = {}) ∨
    ∃ moment : Shared, Since first (fun _ => Enters members moment) run ∧
      (∀ b ∈ members, (run.shared.slot b.id).args = some moment.args) ∧
      moment.args = overlaid first.shared.args moment.journal ∧
      (∀ c ∈ completions moment.journal, ∀ b ∈ members, c.id ≠ b.id) ∧
      moment.journal ++ members.map (fun b => .began b.id moment.args) <+: run.shared.journal := by
  have reachable : Reachable signal first := .start started
  have numbered := Signal.numbered created
  have read : signal.tree.specs = allOf signal.tree.branches := by
    obtain ⟨accepted, rfl⟩ := Signal.create_eq created
    exact Tree.specs_compile accepted
  obtain ⟨among, inside⟩ := held.subset read
  rw [read] at inside
  obtain ⟨orderly, unique⟩ :=
    held.orderly numbered.unique ((later.reachable reachable).sound created).orderly
  rcases orderly.whole group with fresh | begun
  · exact .inl fresh
  cases members with
  | nil => exact .inl fun _ hb => nomatch hb
  | cons b others =>
    right
    obtain ⟨moment, since⟩ := later.entered created started (among group) List.mem_cons_self
      (begun b List.mem_cons_self)
    refine ⟨moment, since, ?_⟩
    obtain ⟨s, u, x, u', x', -, -, enters, -, length, front, back⟩ :=
      since.moment created (fun _ _ _ _ _ => Enters.step) reachable
    cases enters with
    | mk rest store fresh =>
      have own : (b :: others).Sublist (allOf list) := members_sublist_allOf group
      have slots : Numbered moment.slots.length (b :: others) :=
        ⟨unique.sublist own, fun c hc => length ▸ numbered.inside c (inside (own.subset hc))⟩
      have accounts : Accounts policy (allOf signal.tree.branches) first.shared.args moment :=
        (accounts_start started ..).row front
      refine ⟨fun c hc => ?_, accounts.args, fun c hc d hd same => ?_, ?_⟩
      · have shown := slot_start (w := ⟨store, moment⟩) slots hc
        rw [start_world] at shown
        exact Slot.args_of_moves (moves_of_changes numbered.unique (inside (own.subset hc)) back)
          (congrArg Slot.args shown)
      · have ended := (accounts.ended c.id).mp (List.mem_map_of_mem hc)
        rw [same, fresh d hd] at ended
        cases ended
      · have listed := journal_start (b :: others) ⟨store, moment⟩
        rw [start_world] at listed
        exact listed ▸ journal_prefix_row back

/-- a group under an output of a member whose sibling waits: a member of it that has run through at once
shows its other member nothing -/
theorem begun_together_nested :
    let ask : Action := ⟨0, "ask", [], none, .async fun _ => .wait "door" (.finish (.ok .next))⟩
    let load : Action := ⟨1, "load", ["found"], none, .sync fun _ =>
      .finish (.ok (.via "found" (.object [("n", .null)])))⟩
    let note : Action := ⟨2, "note", [], none, .sync fun _ =>
      .finish (.ok (.ofPayload (.object [("m", .null)])))⟩
    let definition := [Chain.parallel [.action ask, .action load,
      .paths [("found", [.parallel [.action note, .action ask]])]]]
    ∃ signal first run list members, Signal.create "page" .reject definition = .ok signal ∧
      signal.start "r" default (.data .null) = .ok first ∧ Later first run ∧
      signal.tree.Holds list ∧ .group members ∈ list ∧
      (completions run.shared.journal).map Completion.id = [1, 2] ∧
      members.map (fun b => (run.shared.slot b.id).args.map (·.map Prod.fst)) =
        [some ["n"], some ["n"]] ∧
      ∃ moment, Since first (fun _ => Enters members moment) run ∧
        ∀ b ∈ members, (run.shared.slot b.id).args = some moment.args := by
  intro ask load note definition
  let signal : Signal := ⟨"page", Tree.compile definition, .reject⟩
  have created : Signal.create "page" .reject definition = .ok signal := rfl
  let first : Run :=
    { id := "r", signal, startedAt := default
      shared := .initial [] signal.tree.size, walk := .ready signal.tree.branches }
  let members : List Branch := signal.tree.specs.drop 2
  have started : signal.start "r" default (.data .null) = .ok first := rfl
  have later : Later first _ := Later.now.poll (fun _ => false) 0 default
  have held : signal.tree.Holds [.group members] := .under .outermost (List.mem_singleton_self _)
    (List.mem_cons_of_mem _ List.mem_cons_self) rfl List.mem_cons_self
  have group : Item.group members ∈ [Item.group members] := List.mem_singleton_self _
  have seen : members.map (fun b => ((first.poll (fun _ => false) 0 default).1.shared.slot b.id).args.map
      (·.map Prod.fst)) = [some ["n"], some ["n"]] := by decide +kernel
  refine ⟨signal, first, _, _, members, created, started, later, held, group, by decide +kernel, seen, ?_⟩
  rcases later.begun_together created started held group with fresh | ⟨moment, since, same, -⟩
  · have shown : some ["n"] ∈ members.map _ := seen ▸ List.mem_cons_self
    obtain ⟨b, hb, shown⟩ := List.mem_map.mp shown
    rw [fresh b hb] at shown
    cases shown
  · exact ⟨moment, since, same⟩

end Run

end SignalFlow
