import Mathlib.Data.List.Forall2
import SignalFlow.Proofs.Trace.Taken
/-!
# A snapshot is the tree with the slots of the run

* `Item.Rel`      two items of one kind, with related members;
* `Keyed.Rel`     two entries under one key, with related values;
* `Record.Shows`  a record shows a branch: what is fixed about it, the slot of its number, and under the
                  same outputs in the same order lists of records that show its lists item by item.

`Run.Reachable.snapshot_shows`: the records of a snapshot are nested as the branches of the tree are, by
number they are those of its branches, and looking one up by name finds the first.
-/

namespace SignalFlow

open Branch

/-- two items of one kind, with related members -/
inductive Item.Rel {β γ : Type} (R : β → γ → Prop) : Item β → Item γ → Prop
  | step {b : β} {c : γ} : R b c → Rel R (.step b) (.step c)
  | group {bs : List β} {cs : List γ} : List.Forall₂ R bs cs → Rel R (.group bs) (.group cs)

/-- two entries under one key, with related values -/
inductive Keyed.Rel {β γ : Type} (R : β → γ → Prop) : String × β → String × γ → Prop
  | mk (key : String) {b : β} {c : γ} : R b c → Rel R (key, b) (key, c)

namespace Record

/-- the record shows the branch, with the slot of its number, and so do those under its outputs -/
inductive Shows (slot : Nat → Slot) : Branch → Record → Prop
  | mk {spec : Spec} {outputs : Option (List (String × List (Item Branch)))}
      {records : Option (List (String × List (Item Record)))} :
      Option.Rel (List.Forall₂ (Keyed.Rel (List.Forall₂ (Item.Rel (Shows slot))))) outputs records →
      Shows slot (.mk spec outputs) (.mk spec.occurrence (slot spec.id) records)

section
variable (shared : Shared)

mutual

theorem shows_ofBranch : ∀ b : Branch, Shows shared.slot b (ofBranch shared.slots b)
  | .mk _ none => .mk .none
  | .mk _ (some outputs) => .mk (.some (shows_ofOutputs outputs))

theorem shows_ofOutputs : ∀ outputs : List (String × List (Item Branch)),
    List.Forall₂ (Keyed.Rel (List.Forall₂ (Item.Rel (Shows shared.slot)))) outputs
      (ofOutputs shared.slots outputs)
  | [] => .nil
  | (output, items) :: rest => .cons (.mk output (shows_ofItems items)) (shows_ofOutputs rest)

theorem shows_ofItems : ∀ items : List (Item Branch),
    List.Forall₂ (Item.Rel (Shows shared.slot)) items (ofItems shared.slots items)
  | [] => .nil
  | .step b :: rest => .cons (.step (shows_ofBranch b)) (shows_ofItems rest)
  | .group members :: rest => .cons (.group (shows_ofMembers members)) (shows_ofItems rest)

theorem shows_ofMembers : ∀ members : List Branch,
    List.Forall₂ (Shows shared.slot) members (ofMembers shared.slots members)
  | [] => .nil
  | b :: rest => .cons (shows_ofBranch b) (shows_ofMembers rest)

end

end

theorem Shows.keys {slot : Nat → Slot} {b : Branch} {r : Record} (shows : Shows slot b r) :
    r.outputs.map (·.map Prod.fst) = b.outputs.map (·.map Prod.fst) := by
  cases shows with
  | @mk spec outputs records rel =>
    cases rel with
    | none => rfl
    | some each =>
      refine congrArg some ?_
      induction each with
      | nil => rfl
      | cons own _ ih =>
        cases own with
        | mk key _ => exact congrArg (key :: ·) ih

end Record

/-- the first branch with a property is the one with the lowest number -/
theorem Tree.find?_specs {definition : List Chain} {p : Branch → Bool} {b : Branch} :
    (compile definition).specs.find? p = some b ↔ b ∈ (compile definition).specs ∧ p b = true ∧
      ∀ c ∈ (compile definition).specs, p c = true → b.id ≤ c.id := by
  have number {n : Nat} (inside : n < (compile definition).specs.length) :
      (compile definition).specs[n].id = n := id_of_specs (List.getElem?_eq_getElem inside)
  rw [List.find?_eq_some_iff_getElem]
  constructor
  · rintro ⟨has, i, inside, rfl, before⟩
    refine ⟨List.getElem_mem inside, has, fun c hc has' => Nat.le_of_not_lt fun lower => ?_⟩
    obtain ⟨j, inside', rfl⟩ := List.getElem_of_mem hc
    rw [number, number] at lower
    have none := before j lower
    rw [has'] at none
    cases none
  · rintro ⟨hb, has, lowest⟩
    obtain ⟨i, inside, rfl⟩ := List.getElem_of_mem hb
    refine ⟨has, i, inside, rfl, fun j lower => ?_⟩
    cases has' : p (compile definition).specs[j] with
    | false => rfl
    | true =>
      have above := lowest _ (List.getElem_mem (Nat.lt_trans lower inside)) has'
      rw [number, number] at above
      exact absurd lower (Nat.not_lt_of_le above)

namespace Run

variable {name : String} {policy : Policy} {definition : List Chain} {signal : Signal} {run : Run}

theorem find?_snapshot (created : Signal.create name policy definition = .ok signal)
    (belongs : run.signal = signal) (step : String) : run.snapshot.find? step =
      (signal.tree.specs.find? (·.spec.name = step)).map (Record.ofBranch run.shared.slots) := by
  have names : (fun r : Record => decide (r.name = step)) ∘ Record.ofBranch run.shared.slots =
      fun b : Branch => decide (b.spec.name = step) := by
    funext b
    show decide ((Record.ofBranch run.shared.slots b).occurrence.name = step) = _
    rw [Record.occurrence_ofBranch]
    rfl
  rw [Trace.find?, records_snapshot created belongs, List.find?_map, names]

/-- **A snapshot is the tree with the slots of the run.** Its records are nested as the branches are, in
groups and in lists under outputs. There are as many as branches, and the one of each number shows what is
fixed about the branch of this number, the names of its outputs and the slot of this number. So looking up a
name finds the record of the branch with this name that has the lowest number, and nothing if no branch has
the name. -/
theorem Reachable.snapshot_shows (created : Signal.create name policy definition = .ok signal)
    (reachable : Reachable signal run) :
    List.Forall₂ (Item.Rel (Record.Shows run.shared.slot)) signal.tree.branches run.snapshot.branches ∧
    run.snapshot.records.length = signal.tree.size ∧
    (∀ (i : Nat) b r, signal.tree.specs[i]? = some b → run.snapshot.records[i]? = some r →
      r.occurrence = b.spec.occurrence ∧ run.shared.slots[i]? = some r.slot ∧
        r.outputs.map (·.map Prod.fst) = b.outputs.map (·.map Prod.fst)) ∧
    ∀ step : String,
      (∀ r, run.snapshot.find? step = some r ↔ ∃ b ∈ signal.tree.specs,
        run.snapshot.records[b.id]? = some r ∧ b.spec.name = step ∧
          ∀ c ∈ signal.tree.specs, c.spec.name = step → b.id ≤ c.id) ∧
      (run.snapshot.find? step = none ↔ ∀ b ∈ signal.tree.specs, b.spec.name ≠ step) := by
  have sound := reachable.sound created
  have records := records_snapshot created sound.belongs
  have nested : run.snapshot.branches = Record.ofItems run.shared.slots signal.tree.branches := by
    rw [← sound.belongs]
    rfl
  obtain ⟨accepted, rfl⟩ := Signal.create_eq created
  refine ⟨?_, ?_, fun i b r hb hr => ?_, fun step => ⟨fun r => ?_, ?_⟩⟩
  · rw [nested]
    exact Record.shows_ofItems run.shared _
  · rw [records, List.length_map]
    rfl
  · rw [records, List.getElem?_map, hb, Option.map_some] at hr
    cases hr
    have inside : i < run.shared.slots.length :=
      sound.length ▸ (List.getElem?_eq_some_iff.mp hb).1
    refine ⟨Record.occurrence_ofBranch _ b, ?_, (Record.shows_ofBranch run.shared b).keys⟩
    rw [Record.slot_ofBranch, Tree.id_of_specs hb, Shared.slot, List.getElem?_eq_getElem inside]
    rfl
  · rw [find?_snapshot created sound.belongs, Option.map_eq_some_iff]
    refine exists_congr fun b => ?_
    have shown (hb : b ∈ (Tree.compile definition).specs) :
        run.snapshot.records[b.id]? = some r ↔ Record.ofBranch run.shared.slots b = r := by
      have own : (Tree.compile definition).specs[b.id]? = some b :=
        Tree.specs_getElem? accepted (Tree.specs_compile accepted ▸ hb)
      rw [records, List.getElem?_map, own, Option.map_some, Option.some.injEq]
    simp only [Tree.find?_specs, decide_eq_true_eq]
    constructor
    · rintro ⟨⟨hb, named, lowest⟩, same⟩
      exact ⟨hb, (shown hb).mpr same, named, lowest⟩
    · rintro ⟨hb, found, named, lowest⟩
      exact ⟨⟨hb, named, lowest⟩, (shown hb).mp found⟩
  · rw [find?_snapshot created sound.belongs, Option.map_eq_none_iff, List.find?_eq_none]
    simp only [decide_eq_true_eq, ne_eq]

/-- a name that comes twice, the first time under an output of a member of a group -/
theorem snapshot_shows_twice :
    let choose : Action := ⟨0, "choose", ["left"], none, .sync fun _ => .finish (.ok (.via "left" .null))⟩
    let ask : Action := ⟨1, "ask", [], none, .async fun _ => .wait "door" (.finish (.ok .next))⟩
    let definition := [Chain.parallel [.action choose, .paths [("left", [.action ask])]], .action ask]
    ∃ signal run r, Signal.create "page" .reject definition = .ok signal ∧ Reachable signal run ∧
      run.snapshot.records.map (·.slot.hasExecuted) = [true, true, true] ∧
      run.snapshot.find? "ask" = some r ∧ r.occurrence.position.text = "[0, 0, outputs, left, 0]" ∧
      run.snapshot.find? "load" = none := by
  intro choose ask definition
  let signal : Signal := ⟨"page", Tree.compile definition, .reject⟩
  have created : Signal.create "page" .reject definition = .ok signal := rfl
  have reachable := signal.reachable_afterGate "door"
  have executed : (signal.afterGate "door").snapshot.records.map (·.slot.hasExecuted) =
      [true, true, true] := by decide +kernel
  have first : ∀ c ∈ signal.tree.specs, c.spec.name = "ask" → 1 ≤ c.id := by decide +kernel
  -- from here on it matters only that such a run can be reached
  generalize signal.afterGate "door" = run at reachable executed
  obtain ⟨r, hr, -⟩ : ∃ r, run.snapshot.records[1]? = some r ∧ r.slot.hasExecuted = true := by
    have second : (run.snapshot.records.map (·.slot.hasExecuted))[1]? = some true := by rw [executed]; rfl
    rw [List.getElem?_map] at second
    exact Option.map_eq_some_iff.mp second
  obtain ⟨-, -, shown, found⟩ := reachable.snapshot_shows created
  refine ⟨signal, run, r, created, reachable, executed,
    ((found "ask").1 r).mpr ⟨_, List.mem_cons_of_mem _ List.mem_cons_self, hr, rfl, first⟩, ?_,
    (found "load").2.mpr (by decide +kernel)⟩
  rw [(shown 1 _ r rfl hr).1]
  decide +kernel

end Run

end SignalFlow
