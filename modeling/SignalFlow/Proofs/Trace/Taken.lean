import SignalFlow.Proofs.Run.Order
/-!
# A completed trace shows the paths that were taken

* `Record.ofBranch`  the records of a snapshot, by number, are those of the branches (`records_snapshot`);
* `Trace.took`       the output that the step of a number took, as a trace shows it;
* `Tree.Active`      the branches of the outermost list, and those in the list under the output that an
                     active branch took.

`Run.Reachable.completed_active`: in the trace of a run that was completed, the branches that have
executed are the active ones, and all others are untouched.
-/

namespace SignalFlow

open Branch

/-! ## the records of a snapshot -/

namespace Record

mutual

theorem all_ofBranch (slots : List Slot) :
    ∀ b : Branch, (ofBranch slots b).all = (Branch.all b).map (ofBranch slots)
  | .mk spec none => rfl
  | .mk spec (some outputs) => by
    rw [Branch.all, List.map_cons, ← allOfOutputs_ofOutputs slots outputs]
    rfl

theorem allOfOutputs_ofOutputs (slots : List Slot) :
    ∀ outputs : List (String × List (Item Branch)),
      allOfOutputs (ofOutputs slots outputs) = (allUnder outputs).map (ofBranch slots)
  | [] => rfl
  | (output, items) :: rest => by
    rw [ofOutputs, allOfOutputs, allUnder, List.map_append, allOfItems_ofItems slots items,
      allOfOutputs_ofOutputs slots rest]

theorem allOfItems_ofItems (slots : List Slot) :
    ∀ items : List (Item Branch),
      allOfItems (ofItems slots items) = (allOf items).map (ofBranch slots)
  | [] => rfl
  | .step b :: rest => by
    rw [ofItems, allOfItems, allOf, List.map_append, all_ofBranch slots b,
      allOfItems_ofItems slots rest]
  | .group members :: rest => by
    rw [ofItems, allOfItems, allOf, List.map_append, allOfMembers_ofMembers slots members,
      allOfItems_ofItems slots rest]

theorem allOfMembers_ofMembers (slots : List Slot) :
    ∀ members : List Branch,
      allOfMembers (ofMembers slots members) = (Branch.allOfMembers members).map (ofBranch slots)
  | [] => rfl
  | b :: rest => by
    rw [ofMembers, allOfMembers, Branch.allOfMembers, List.map_append, all_ofBranch slots b,
      allOfMembers_ofMembers slots rest]

end

theorem slot_ofBranch (shared : Shared) (b : Branch) :
    (ofBranch shared.slots b).slot = shared.slot b.id := by
  cases b
  rfl

theorem occurrence_ofBranch (slots : List Slot) (b : Branch) :
    (ofBranch slots b).occurrence = b.spec.occurrence := by
  cases b
  rfl

end Record

/-- the output that the step of a number took -/
def Trace.took (trace : Trace) (n : Nat) : Option String :=
  trace.records[n]?.bind fun r => r.slot.outputPath

/-! ## active branches -/

/-- the branches that a run comes to when each step takes this output -/
inductive Tree.Active (tree : Tree) (took : Nat → Option String) : Branch → Prop
  | outermost {item : Item Branch} {b : Branch} :
      item ∈ tree.branches → b ∈ item.members → Active tree took b
  | under {p b : Branch} {outputs : List (String × List (Item Branch))} {output : String}
      {items : List (Item Branch)} {item : Item Branch} :
      Active tree took p → took p.id = some output → p.outputs = some outputs →
      Keyed.get? output outputs = some items → item ∈ items → b ∈ item.members →
      Active tree took b

section
variable {tree : Tree} {slot : Nat → Slot} {items : List (Item Branch)} {b c : Branch}

theorem Tree.Active.taken (active : tree.Active (fun id => (slot id).outputPath) b)
    {item : Item Branch} (hi : item ∈ b.taken slot) (hc : c ∈ item.members) :
    tree.Active (fun id => (slot id).outputPath) c := by
  rcases b.next_eq (slot b.id).outputPath with none | ⟨output, list, outputs, took, same, got, next⟩
  · rw [Branch.taken, none] at hi
    cases hi
  · rw [Branch.taken, next] at hi
    exact .under active took same got hi hc

theorem Done.finished (done : Done slot tree.branches)
    (active : tree.Active (fun id => (slot id).outputPath) b) : Finished slot b := by
  induction active with
  | outermost hi hb => exact done _ hi _ hb
  | @under p b outputs output items item _ took same got hi hb ih =>
    obtain ⟨_, inside⟩ := ih
    have next : p.taken slot = items := by
      rw [Branch.taken, took]
      exact next_of_get? same got
    exact inside item (next ▸ hi) b hb

theorem Finished.active_or (finished : Finished slot b) (unique : Unique (all b))
    (active : tree.Active (fun id => (slot id).outputPath) b) :
    ∀ c ∈ all b, tree.Active (fun id => (slot id).outputPath) c ∨ slot c.id = {} := by
  induction finished with
  | @mk b entered _ ih =>
    rw [all_eq] at unique ⊢
    have below : Unique b.under := (List.pairwise_cons.mp unique).2
    refine List.forall_mem_cons.mpr ⟨.inl active, fun c hc => ?_⟩
    by_cases inside : c ∈ allOf (b.taken slot)
    · obtain ⟨item, hi, d, hd, hc⟩ := mem_allOf.mp inside
      have own := below.sublist ((all_sublist_allOf hi hd).trans (allOf_next_sublist b _))
      exact ih item hi d hd own (active.taken hi hd) c hc
    · refine .inr (entered.elsewhere c hc fun d hd same => inside ?_)
      rwa [← below.eq ((taken_sublist slot b).subset hd) hc same]

theorem Done.active_or (done : Done slot tree.branches) (unique : Unique (allOf tree.branches)) :
    ∀ c ∈ allOf tree.branches,
      tree.Active (fun id => (slot id).outputPath) c ∨ slot c.id = {} := by
  intro c hc
  obtain ⟨item, hi, b, hb, hc⟩ := mem_allOf.mp hc
  exact (done item hi b hb).active_or (unique.sublist (all_sublist_allOf hi hb))
    (.outermost hi hb) c hc

end

/-! ## completed runs -/

namespace Run

variable {name : String} {policy : Policy} {definition : List Chain} {signal : Signal} {run : Run}

/-- the records of a snapshot, by number, are those of the branches -/
theorem records_snapshot (created : Signal.create name policy definition = .ok signal)
    (belongs : run.signal = signal) :
    run.snapshot.records = signal.tree.specs.map (Record.ofBranch run.shared.slots) := by
  obtain ⟨accepted, rfl⟩ := Signal.create_eq created
  rw [Tree.specs_compile accepted]
  unfold Trace.records Run.snapshot Shared.snapshot
  rw [belongs]
  exact Record.allOfItems_ofItems ..

theorem took_snapshot (created : Signal.create name policy definition = .ok signal)
    (sound : Sound signal run) :
    run.snapshot.took = fun id => (run.shared.slot id).outputPath := by
  funext n
  rw [Trace.took, records_snapshot created sound.belongs, List.getElem?_map]
  cases found : signal.tree.specs[n]? with
  | none =>
    have outside : run.shared.slots.length ≤ n :=
      sound.length ▸ List.getElem?_eq_none_iff.mp found
    rw [Shared.slot, List.getElem?_eq_none outside]
    rfl
  | some b =>
    obtain ⟨_, rfl⟩ := Signal.create_eq created
    have number : b.id = n := Tree.id_of_specs found
    rw [Option.map_some, Option.bind_some, Record.slot_ofBranch, number]

/-- **The trace of a completed run shows exactly the paths that were taken**, whatever the order of
polls and of the completions between them. -/
theorem Reachable.completed_active (created : Signal.create name policy definition = .ok signal)
    (reachable : Reachable signal run) {trace : Trace}
    (completed : run.settled = some (.completed trace)) :
    trace.records.length = signal.tree.size ∧
    ∀ (n : Nat) b r, signal.tree.specs[n]? = some b → trace.records[n]? = some r →
      r.occurrence = b.spec.occurrence ∧
      (r.slot.hasExecuted = true ↔ signal.tree.Active trace.took b) ∧
      (¬ signal.tree.Active trace.took b → r.slot = {}) ∧
      r.slot.isExecuting = false := by
  have sound := reachable.sound created
  have unique := (Signal.numbered created).unique
  obtain ⟨rfl, done⟩ := sound.completed completed
  rw [took_snapshot created sound, records_snapshot created sound.belongs]
  refine ⟨List.length_map _, fun n b r hb hr => ?_⟩
  rw [List.getElem?_map, hb, Option.map_some] at hr
  cases hr
  rw [Record.slot_ofBranch, Record.occurrence_ofBranch]
  have member : b ∈ allOf signal.tree.branches := by
    obtain ⟨accepted, rfl⟩ := Signal.create_eq created
    exact Tree.specs_compile accepted ▸ List.mem_of_getElem? hb
  rcases done.active_or unique b member with active | fresh
  · have executed : (run.shared.slot b.id).Executed := by
      obtain ⟨entered, _⟩ := done.finished active
      exact entered.executed
    exact ⟨rfl, ⟨fun _ => active, fun _ => executed.ended⟩, fun other => absurd active other,
      executed.idle⟩
  · have pending : (run.shared.slot b.id).hasExecuted = false := by rw [fresh]
    have other : ¬ signal.tree.Active (fun id => (run.shared.slot id).outputPath) b := by
      intro active
      obtain ⟨entered, _⟩ := done.finished active
      exact Bool.false_ne_true (pending.symm.trans entered.executed.ended)
    refine ⟨rfl, ⟨fun ended => ?_, fun active => absurd active other⟩, fun _ => fresh, by rw [fresh]⟩
    exact absurd (pending.symm.trans ended) Bool.false_ne_true

/-- the trace of a run, if it was completed -/
def trace? (run : Run) : Option Trace :=
  match run.settled with
  | some (.completed trace) => some trace
  | _ => none

theorem settled_of_trace? {trace : Trace} (h : run.trace? = some trace) :
    run.settled = some (.completed trace) := by
  unfold trace? at h
  split at h
  · next found => rw [found, Option.some.inj h]
  · cases h

/-- an action that takes one of its two outputs, beside another in a group -/
theorem completed_active_group :
    let choose : Action := ⟨0, "choose", [], some "left", .sync fun _ => .finish (.ok .next)⟩
    let ask : Action := ⟨1, "ask", [], none, .async fun _ => .wait "door" (.finish (.ok .next))⟩
    let definition := [Chain.parallel [.action ask,
      .action choose, .paths [("left", [.action ask]), ("right", [.action choose])]]]
    ∃ signal run trace left right, Signal.create "page" .reject definition = .ok signal ∧
      Reachable signal run ∧ run.settled = some (.completed trace) ∧
      trace.records.map (·.slot.hasExecuted) = [true, true, true, false] ∧
      signal.tree.specs[2]? = some left ∧ signal.tree.Active trace.took left ∧
      signal.tree.specs[3]? = some right ∧ ¬ signal.tree.Active trace.took right := by
  intro choose ask definition
  let signal : Signal := ⟨"page", Tree.compile definition, .reject⟩
  have created : Signal.create "page" .reject definition = .ok signal := rfl
  have reachable := signal.reachable_afterGate "door"
  have ended : (signal.afterGate "door").trace?.isSome = true := by decide +kernel
  have executed : (signal.afterGate "door").snapshot.records.map (·.slot.hasExecuted) =
      [true, true, true, false] := by
    decide +kernel
  -- from here on it matters only that such a run can be reached
  generalize signal.afterGate "door" = later at reachable ended executed
  obtain ⟨trace, found⟩ := Option.isSome_iff_exists.mp ended
  have completed := settled_of_trace? found
  rw [← ((reachable.sound created).completed completed).1] at executed
  have shown : ∀ (n : Nat) v, [true, true, true, false][n]? = some v →
      ∃ r, trace.records[n]? = some r ∧ r.slot.hasExecuted = v := by
    intro n v h
    rw [← executed, List.getElem?_map] at h
    exact Option.map_eq_some_iff.mp h
  obtain ⟨r, hr, ended⟩ := shown 2 true rfl
  obtain ⟨r', hr', pending⟩ := shown 3 false rfl
  have each := (reachable.completed_active created completed).2
  refine ⟨signal, later, trace, _, _, created, reachable, completed, executed, rfl,
    (each 2 _ r rfl hr).2.1.mp ended, rfl, fun active => ?_⟩
  exact Bool.false_ne_true (pending.symm.trans ((each 3 _ r' rfl hr').2.1.mpr active))

end Run

end SignalFlow
