import SignalFlow.Proofs.Run.Completes
import SignalFlow.Proofs.Run.Turns
import SignalFlow.Proofs.Trace.Taken
/-!
# Schedules

* `Run.sceneOn`        the scene of a run on a store;
* `Record.untimed`     what a record shows beside the time that its step took.

Whatever turns a run takes until it is completed, its walk is completed with the scene that it leaves
(`Run.completes_turns`), and there is only one such scene. `Run.Reachable.completed_unique`: where the
members of a group have nothing under their outputs and lay nothing under one key, the arguments, the
store and the records of a completed run do not depend on when it was polled and which bodies were ready
first.
-/

namespace SignalFlow

open Branch Chain Walk SignalFlow.Tree

/-! ## flat groups -/

theorem next_compileOutputs {outputs : List (String × List Chain)}
    (flat : ∀ entry ∈ outputs, entry.2 = []) (here : Position) (next : Nat) (table : List Action)
    (output : String) :
    (Keyed.get? output (compileOutputs here next table outputs).result).getD [] = [] := by
  induction outputs generalizing next table with
  | nil => rfl
  | cons entry rest ih =>
    obtain ⟨name, list⟩ := entry
    obtain ⟨own, others⟩ := List.forall_mem_cons.mp flat
    dsimp only at own
    subst own
    rw [compileOutputs_cons, Keyed.get?]
    split
    · rfl
    · exact ih others ..

theorem flat_members {members : List Chain} (h : WellFormed true members)
    (flat : ∀ outputs, .paths outputs ∈ members → ∀ entry ∈ outputs, entry.2 = [])
    (position : Position) (index next : Nat) (table : List Action) :
    ∀ item ∈ (compileItems true position index next table members).result,
      ∀ b ∈ item.members, ∀ output, b.next output = [] := by
  generalize e : true = concurrent at h
  induction h generalizing index next table with
  | nil => exact fun _ hi => nomatch hi
  | step clear _ ih =>
    subst e
    rw [compileItems_action _ _ _ _ _ _ clear]
    have behind := ih (fun outputs h => flat outputs (List.mem_cons_of_mem _ h)) (index + 1)
      (next + 1)
    refine List.forall_mem_cons.mpr ⟨List.forall_mem_singleton.mpr fun output => ?_, behind _ rfl⟩
    cases output <;> rfl
  | @mapped _ a outputs rest _ _ _ _ _ ih =>
    subst e
    rw [compileItems_mapped]
    have own := flat outputs (List.mem_cons_of_mem _ List.mem_cons_self)
    have behind := ih (fun outputs h =>
      flat outputs (List.mem_cons_of_mem _ (List.mem_cons_of_mem _ h))) (index + 1)
    refine List.forall_mem_cons.mpr ⟨List.forall_mem_singleton.mpr fun output => ?_, behind _ _ rfl⟩
    cases output with
    | none => rfl
    | some output => exact next_compileOutputs own _ _ _ output
  | group => cases e

theorem flat_compile {list : List Chain} (h : WellFormed false list)
    (flat : ∀ group ∈ groups list, ∀ outputs, .paths outputs ∈ group →
      ∀ entry ∈ outputs, entry.2 = []) : Everywhere Item.Flat (compile list).branches := by
  refine everywhere_compileItems h (fun _ => trivial) (fun group hg inside => ?_) [] 0 0 []
  intro position next table bs same b hb output
  have members := flat_members inside (flat group hg) position 0 next table
  rw [same] at members
  exact members (.step b) (List.mem_map_of_mem hb) b (List.mem_singleton_self b) output

/-- what a record shows beside the time that its step took -/
def Record.untimed (r : Record) : Occurrence × Slot := (r.occurrence, r.slot.untimed)

namespace Run

variable {name : String} {policy : Policy} {definition : List Chain} {signal : Signal}
  {run : Run}

/-! ## turns -/

def sceneOn (run : Run) (store : Store) : Scene := World.scene ⟨store, run.shared⟩

theorem turns_of_settled (settled : run.settled.isSome = true) (turns : List Turn) (store : Store) :
    (Run.turns turns run store).1.settled = run.settled ∧
      (Run.turns turns run store).1.sceneOn (Run.turns turns run store).2 = run.sceneOn store := by
  have same : (Run.turns turns run store).2 = store := by
    induction turns generalizing run with
    | nil => rfl
    | cons turn rest ih =>
      have fixed := (Later.now.turn store turn).fixed settled
      have kept : (run.turn store turn).2 = store := by
        cases turn with
        | poll isOpen elapsed =>
          show (run.poll isOpen elapsed store).2 = store
          rw [atRest_of_settled settled]
        | wake address => rfl
        | gateOpened gate => rfl
      show (Run.turns rest (run.turn store turn).1 (run.turn store turn).2).2 = store
      rw [kept]
      exact ih (fixed.settled ▸ settled)
  have fixed := (Later.now.turns turns store).fixed settled
  refine ⟨fixed.settled, ?_⟩
  unfold sceneOn World.scene
  rw [same]
  congr 1
  · exact fixed.args
  · unfold Shared.slot
    rw [fixed.slots]

theorem gateOpened_steps (run : Run) (gate : String) (s : Setting) (store : Store) :
    ∃ waiting, (run.gateOpened gate).shared = { run.shared with waiting } ∧
      Steps s run.walk ⟨store, (run.gateOpened gate).shared⟩ (run.gateOpened gate).walk
        ⟨store, (run.gateOpened gate).shared⟩ := by
  refine gateOpened_keeps (P := fun after => ∃ waiting, after.shared = { run.shared with waiting } ∧
    Steps s run.walk ⟨store, after.shared⟩ after.walk ⟨store, after.shared⟩) gate
    (fun waiting => ⟨waiting, rfl, .refl ..⟩) ?_
  intro after address ⟨waiting, same, steps⟩
  exact ⟨waiting, same, steps.trans (wake_steps s address after.walk _)⟩

section
variable (created : Signal.create name policy definition = .ok signal) {r : Scene}
  (free : Everywhere (Free r) signal.tree.branches)
include created free

theorem Sound.completes {isOpen : String → Bool} {elapsed : Nat} {store : Store} {walk : Walk}
    {w : World} (sound : Sound signal run) (pending : run.settled = none)
    (steps : Steps (run.setting isOpen elapsed) run.walk ⟨store, run.shared⟩ walk w)
    (h : Completes policy walk w.scene r) : Completes policy run.walk (run.sceneOn store) r := by
  have same : (run.setting isOpen elapsed).policy = policy := by
    rw [sound.setting, (Signal.create_eq created).2]
  rw [← same] at h ⊢
  exact steps.completes (sound.length ▸ Signal.numbered created) (sound.trail pending) free h

theorem Sound.completes_wake {store : Store} (address : Address) (sound : Sound signal run)
    (pending : run.settled = none)
    (h : Completes policy (run.wake address).walk (run.sceneOn store) r) :
    Completes policy run.walk (run.sceneOn store) r :=
  sound.completes created free pending
    (wake_steps (run.setting (fun _ => false) 0) address run.walk ⟨store, run.shared⟩) h

theorem Sound.completes_gateOpened {store : Store} (gate : String) (sound : Sound signal run)
    (pending : run.settled = none)
    (h : Completes policy (run.gateOpened gate).walk ((run.gateOpened gate).sceneOn store) r) :
    Completes policy run.walk (run.sceneOn store) r := by
  obtain ⟨waiting, same, steps⟩ := run.gateOpened_steps gate (run.setting (fun _ => false) 0) store
  have sound' : Sound signal { run with shared := { run.shared with waiting } } :=
    ⟨sound.belongs, sound.length, sound.standing⟩
  have scene : (run.gateOpened gate).sceneOn store = run.sceneOn store := by
    unfold sceneOn
    rw [same]
    rfl
  rw [same] at steps
  rw [scene] at h
  exact sound'.completes created free pending steps h

/-- a poll after which the run goes on, or is complete -/
theorem Sound.completes_poll {store : Store} (isOpen : String → Bool) (elapsed : Nat)
    (sound : Sound signal run) (pending : run.settled = none)
    (onward : (run.poll isOpen elapsed store).1.settled = none →
      Completes policy (run.poll isOpen elapsed store).1.walk
        ((run.poll isOpen elapsed store).1.sceneOn (run.poll isOpen elapsed store).2) r)
    (ended : (run.poll isOpen elapsed store).1.settled.isSome = true →
      (∃ trace, (run.poll isOpen elapsed store).1.settled = some (.completed trace)) ∧
        (run.poll isOpen elapsed store).1.sceneOn (run.poll isOpen elapsed store).2 = r) :
    Completes policy run.walk (run.sceneOn store) r := by
  have steps := poll_steps (run.setting isOpen elapsed) run.walk ⟨store, run.shared⟩
  obtain ⟨left, becomes⟩ := poll_becomes pending isOpen elapsed store
  refine sound.completes created free pending steps ?_
  rw [left] at onward ended
  generalize run.walk.poll (run.setting isOpen elapsed) ⟨store, run.shared⟩ = polled
    at becomes onward ended ⊢
  generalize (run.poll isOpen elapsed store).1 = after at becomes onward ended
  cases becomes with
  | rejected found =>
    obtain ⟨⟨_, other⟩, -⟩ := ended rfl
    cases other
  | @completed after fine done same =>
    obtain ⟨-, scene⟩ := ended rfl
    have shown : polled.world.scene = r := by
      rw [← scene, same]
      rfl
    rw [eq_of_isDone done, shown]
    exact .done r
  | pending fine _ => exact onward pending

/-- **Whatever turns a run takes until it is completed, its walk is completed with the scene that it
leaves.** -/
theorem completes_turns (turns : List Turn) {store : Store} {trace : Trace}
    (reachable : Reachable signal run) (pending : run.settled = none)
    (completed : (Run.turns turns run store).1.settled = some (.completed trace))
    (left : (Run.turns turns run store).1.sceneOn (Run.turns turns run store).2 = r) :
    Completes policy run.walk (run.sceneOn store) r := by
  induction turns generalizing run store with
  | nil => cases pending.symm.trans completed
  | cons turn rest ih =>
    have sound := reachable.sound created
    cases turn with
    | poll isOpen elapsed =>
      have onward := fun pending => ih (reachable.poll isOpen elapsed store) pending completed left
      refine sound.completes_poll created free isOpen elapsed pending onward fun settled => ?_
      obtain ⟨same, scene⟩ := turns_of_settled settled rest (run.poll isOpen elapsed store).2
      exact ⟨⟨trace, same.symm.trans completed⟩, scene.symm.trans left⟩
    | wake address =>
      exact sound.completes_wake created free address pending
        (ih (reachable.wake address) pending completed left)
    | gateOpened gate =>
      have still : (run.gateOpened gate).settled = none :=
        gateOpened_keeps (P := fun after => after.settled = none) gate (fun _ => pending)
          fun _ _ pending => pending
      exact sound.completes_gateOpened created free gate pending
        (ih (reachable.gateOpened gate) still completed left)

end

/-- **Schedule independence of groups.** Let no member of a group have anything under its outputs. Of any
two rows of turns that a run may take with nobody else on the store, if it is completed in both and the
payloads of the members of each group have no key in common, both lead to the same arguments, the same
store and, but for the time that steps took, the same records. -/
theorem Reachable.completed_unique (created : Signal.create name policy definition = .ok signal)
    (flat : ∀ group ∈ groups definition, ∀ outputs, .paths outputs ∈ group →
      ∀ entry ∈ outputs, entry.2 = [])
    (reachable : Reachable signal run) (store : Store) (first second : List Turn)
    {trace trace' : Trace}
    (completed : (turns first run store).1.settled = some (.completed trace))
    (apart : Everywhere (Item.Apart (turns first run store).1.shared.slot) signal.tree.branches)
    (completed' : (turns second run store).1.settled = some (.completed trace'))
    (apart' : Everywhere (Item.Apart (turns second run store).1.shared.slot) signal.tree.branches) :
    let one := turns first run store
    let other := turns second run store
    one.1.shared.args = other.1.shared.args ∧ one.2 = other.2 ∧
      trace.records.map Record.untimed = trace'.records.map Record.untimed := by
  intro one other
  have compiled : Everywhere Item.Flat signal.tree.branches := by
    obtain ⟨accepted, same⟩ := Signal.create_eq created
    rw [same]
    exact flat_compile (wellFormed_of_analyze accepted) flat
  have same : one.1.sceneOn one.2 = other.1.sceneOn other.2 := by
    cases settled : run.settled with
    | some _ =>
      have fixed := fun turns => (turns_of_settled (by rw [settled]; rfl) turns store).2
      exact (fixed first).trans (fixed second).symm
    | none =>
      have h := completes_turns created (compiled.and apart) first reachable settled completed rfl
      have h' := completes_turns created (compiled.and apart') second reachable settled completed' rfl
      exact h'.unique h
  have shown {trace : Trace} {turns : List Turn}
      (completed : (Run.turns turns run store).1.settled = some (.completed trace)) :
      trace.records.map Record.untimed = signal.tree.specs.map fun b =>
        (b.spec.occurrence,
          ((Run.turns turns run store).1.sceneOn (Run.turns turns run store).2).slot b.id) := by
    have later := (Later.now.turns turns store).reachable reachable
    have sound := later.sound created
    rw [(sound.completed completed).1, records_snapshot created sound.belongs, List.map_map]
    refine List.map_congr_left fun b _ => ?_
    show (_, _) = (_, _)
    rw [Record.occurrence_ofBranch, Record.slot_ofBranch]
    rfl
  refine ⟨congrArg Scene.args same, congrArg Scene.store same, ?_⟩
  rw [shown completed, shown completed']
  show signal.tree.specs.map (fun b => (b.spec.occurrence, (one.1.sceneOn one.2).slot b.id)) = _
  rw [same]

/-- two members that read and wait at different gates, opened in either order, before a step that writes
what both have found to the store -/
theorem completed_unique_reversed :
    let ask : Action := ⟨0, "ask", [], none, .async fun _ =>
      .wait "door" (.finish (.ok (.ofPayload (.object [("a", .bool true)]))))⟩
    let load : Action := ⟨1, "load", ["found"], some "found", .async fun _ =>
      .wait "window" (.get ["n"] fun found =>
        .finish (.ok (.ofPayload (.object [("b", .ofOption found)]))))⟩
    let put : Action := ⟨2, "put", [], none, .sync fun args =>
      .call ["n"] (.set (.object args)) fun _ => .finish (.ok .next)⟩
    let definition := [Chain.parallel [.action ask, .action load, .paths [("found", [])]], .action put]
    let poll (gates : List String) : Turn := .poll (fun gate => gates.contains gate) 0
    let first := [poll [], .gateOpened "door", poll ["door"], .gateOpened "window",
      poll ["door", "window"]]
    let second := [poll ["window"], poll ["door", "window"]]
    ∃ signal run, Signal.create "page" .reject definition = .ok signal ∧
      signal.start "r" default (.data .null) = .ok run ∧
      let one := turns first run default
      let other := turns second run default
      (completions one.1.shared.journal).map Completion.id = [0, 1, 2] ∧
      (completions other.1.shared.journal).map Completion.id = [1, 0, 2] ∧
      one.2.contains ["n", "a"] = true ∧
      one.1.shared.args = other.1.shared.args ∧ one.2 = other.2 := by
  intro ask load put definition poll first second
  let signal : Signal := ⟨"page", Tree.compile definition, .reject⟩
  have created : Signal.create "page" .reject definition = .ok signal := rfl
  let run : Run :=
    { id := "r", signal, startedAt := default
      shared := .initial [] signal.tree.size, walk := .ready signal.tree.branches }
  have started : signal.start "r" default (.data .null) = .ok run := rfl
  have flat : ∀ group ∈ groups definition, ∀ outputs, .paths outputs ∈ group →
      ∀ entry ∈ outputs, entry.2 = [] := by
    simp [definition, groups, groupsOf, groupsUnder]
  obtain ⟨x, y, z, branches, behind⟩ : ∃ x y z, signal.tree.branches = [.group [x, y], .step z] ∧
      ∀ output, z.next output = [] := by
    refine ⟨_, _, _, rfl, fun output => ?_⟩
    cases output <;> rfl
  have everywhere (slot : Nat → Slot) (all : ∀ item ∈ signal.tree.branches, item.Apart slot) :
      Everywhere (Item.Apart slot) signal.tree.branches := by
    have accepted : analyze "page" definition = .ok () := rfl
    have compiled : Everywhere Item.Flat signal.tree.branches :=
      flat_compile (wellFormed_of_analyze accepted) flat
    rw [branches] at all compiled ⊢
    obtain ⟨group, lone⟩ := List.forall_mem_cons.mp all
    cases compiled with
    | cons own _ _ =>
      refine .cons group (fun b hb output => ?_) (.cons (lone _ (List.mem_singleton_self _))
        (List.forall_mem_singleton.mpr fun output => ?_) .nil)
      · rw [own b hb output]
        exact .nil
      · rw [behind output]
        exact .nil
  obtain ⟨trace, found⟩ := Option.isSome_iff_exists.mp
    (show (turns first run default).1.trace?.isSome = true by decide +kernel)
  obtain ⟨trace', found'⟩ := Option.isSome_iff_exists.mp
    (show (turns second run default).1.trace?.isSome = true by decide +kernel)
  obtain ⟨args, stores, -⟩ := (Reachable.start started).completed_unique created flat default first
    second (settled_of_trace? found) (everywhere _ (by decide +kernel)) (settled_of_trace? found')
    (everywhere _ (by decide +kernel))
  exact ⟨signal, _, created, started, by decide +kernel, by decide +kernel, by decide +kernel, args,
    stores⟩

end Run

end SignalFlow
