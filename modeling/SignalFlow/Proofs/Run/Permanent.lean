import SignalFlow.Proofs.Engine.Recorded
import SignalFlow.Proofs.Run.Apart
import SignalFlow.Proofs.Run.Effects
import SignalFlow.Proofs.Run.Stalled
import SignalFlow.Proofs.Trace.Taken
/-!
# A stall is permanent

* `Walk.Stuck`    the walk, or a member of it at any depth, has stalled or failed;
* `Walk.Fails`    the body of a step in a sequential list fails, and leaves a log;
* `Run.Blocked`   a run that is stuck as long as it is under way, and was not completed.

A walk that is stuck stays so and is never done (`Walk.Step.stuck`), and no effect writes to the slot
of a step that has begun in a sequential list (`Effect.slot`). `Run.Past.permanent`: so a run in which
a step has stalled can only be rejected, by a concurrent branch that stands apart.
-/

namespace SignalFlow

open Branch Walk

/-! ## walks that are stuck -/

/-- the walk, or a member of it at any depth, has stalled or failed -/
def Walk.Stuck (walk : Walk) : Prop := ∃ leaf : Walk, leaf.Ended ∧ leaf.In walk

section
variable {s : Setting} {L : Doing} {walk walk' : Walk} {w w' : World} {m : Walk}
  {members : List Walk} {queue : Option (List Nat)} {rest : List (Item Branch)}

theorem Walk.Stuck.inner (h : (joined members queue rest).Stuck) : ∃ m ∈ members, m.Stuck := by
  obtain ⟨leaf, ended, has⟩ := h
  obtain ⟨m, hm, has⟩ := in_joined ended has
  exact ⟨m, hm, leaf, ended, has⟩

theorem Walk.Stuck.joined (h : m.Stuck) (hm : m ∈ members) : (joined members queue rest).Stuck := by
  obtain ⟨leaf, ended, has⟩ := h
  exact ⟨leaf, ended, .inside queue rest hm has⟩

theorem Walk.Stuck.not_ready {items : List (Item Branch)} (h : (ready items).Stuck) : False := by
  obtain ⟨leaf, ended, has⟩ := h
  cases has with
  | own => exact ended

theorem Walk.Stuck.not_awaiting {b : Branch} {program : AsyncProgram}
    (h : (awaiting b program).Stuck) : False := by
  obtain ⟨leaf, ended, has⟩ := h
  cases has with
  | own => exact ended

theorem Walk.Stuck.not_done (h : walk.Stuck) : walk.isDone = false := by
  rw [Bool.eq_false_iff]
  intro done
  exact (eq_of_isDone done ▸ h).not_ready

/-- **A walk that is stuck stays so**: what has stalled or failed is left in its place, or its group
ends with an error. -/
theorem Walk.Step.stuck (step : Step s walk w walk' w') (h : walk.Stuck) : walk'.Stuck := by
  induction step with
  | move move =>
    cases move with
    | sync | lone | group => exact h.not_ready.elim
    | settle => exact h.not_awaiting.elim
  | suspend => exact h.not_awaiting.elim
  | @member members index m m' _ _ queue rest found _ ih =>
    obtain ⟨n, hn, stuck⟩ := h.inner
    have there : index < members.length := (List.getElem?_eq_some_iff.mp found).1
    obtain ⟨j, hj⟩ := List.mem_iff_getElem?.mp hn
    by_cases same : index = j
    · subst same
      cases found.symm.trans hj
      exact (ih stuck).joined (List.mem_set there m')
    · rw [← List.getElem?_set_ne same] at hj
      exact stuck.joined (List.mem_of_getElem? hj)
  | requeue =>
    obtain ⟨n, hn, stuck⟩ := h.inner
    exact stuck.joined hn
  | @raise _ error => exact ⟨failed error, trivial, .own⟩
  | join _ _ _ all =>
    obtain ⟨n, hn, stuck⟩ := h.inner
    exact absurd (all n hn) (Bool.eq_false_iff.mp stuck.not_done)

theorem Walk.Steps.stuck (steps : Steps s walk w walk' w') (h : walk.Stuck) : walk'.Stuck := by
  induction steps with
  | refl => exact h
  | head first _ ih => exact ih (first.stuck h)

theorem Walk.Inside.stuck (h : Inside L walk w walk' w')
    (each : ∀ u x u' x', L u x u' x' → u'.Stuck) : walk'.Stuck := by
  induction h with
  | here own => exact each _ _ _ _ own
  | @member members index m m' _ _ queue rest found _ ih =>
    have there : index < members.length := (List.getElem?_eq_some_iff.mp found).1
    exact ih.joined (List.mem_set there m')

end

/-! ## steps that fail -/

/-- the body of a step in a sequential list runs, fails, and leaves this log -/
inductive Walk.Fails (s : Setting) (b : Branch) (log : List Mutation) : Doing
  | mk {step : Args → SyncProgram} {w : World} {message : String} (rest : List (Item Branch)) :
      b.action.body = .sync step →
      b.action.Fails ((step w.shared.args).run { store := w.store, writable := true }).2 message →
      ((step w.shared.args).run { store := w.store, writable := true }).1.log = log →
      Fails s b log (ready (.step b :: rest)) w ((s.runSync b step w).2.walk b rest)
        (s.runSync b step w).1

section
variable {s : Setting} {b : Branch} {result : StepResult} {shared : Shared} {u u' : Walk}
  {x x' : World} {log : List Mutation}

theorem Setting.conclude_stall {message : String} (stall : s.policy = .stall)
    (fails : b.action.Fails result message) : s.conclude b result shared = (shared, .stall) := by
  have stepFailed (message : String) : s.stepFailed b message shared = (shared, .stall) := by
    unfold Setting.stepFailed
    rw [stall]
  unfold conclude
  cases fails with
  | error => exact stepFailed message
  | @undeclared outcome output undeclared =>
    dsimp only
    rw [undeclared.resolve]
    exact stepFailed _

theorem Walk.Fails.step (fails : Walk.Fails s b log u x u' x') : Step s u x u' x' := by
  cases fails with
  | mk rest body _ _ => exact .move (.sync rest x body)

/-- a step that has failed stalls, and its slot shows it executing, with its log -/
theorem Walk.Fails.stalls (fails : Walk.Fails s b log u x u' x') (stall : s.policy = .stall) :
    u' = stalled b ∧ (b.id < x.shared.slots.length → ∃ args,
      x'.shared.slot b.id = { args := some args, isExecuting := true, mutations := log }) := by
  cases fails with
  | mk rest body failed logged =>
    subst logged
    simp only [Setting.runSync, Setting.conclude_stall stall failed]
    exact ⟨rfl, fun inside => ⟨_, Shared.slot_begin_log inside _⟩⟩

theorem Signal.Blames.of_stall {signal : Signal} {error : RunError} (stall : signal.policy = .stall)
    (blames : signal.Blames b result error) :
    b.Concurrent ∧
      ((∃ message, error =
          .asyncStepFailed ⟨signal.name, b.spec.name, b.spec.position⟩ message) ∨
        ∃ output, error = .undeclaredOutput ⟨signal.name, b.spec.name, b.spec.position⟩ output) := by
  cases blames with
  | stepFailed _ _ _ cause =>
    rw [stall] at cause
    rcases cause with reject | ⟨output, -⟩
    · cases reject
    · cases output
  | asyncStepFailed message concurrent => exact ⟨concurrent, .inl ⟨message, rfl⟩⟩
  | undeclaredOutput concurrent _ => exact ⟨concurrent, .inr ⟨_, rfl⟩⟩

/-- a walk that was left stalled was so by a body that failed -/
theorem Walk.Makes.fails {c : Branch} (made : Makes s b result (.stalled c) u x u' x') :
    c = b ∧ ∃ log, Walk.Fails s b log u x u' x' := by
  obtain ⟨finished, left⟩ := made
  cases finished with
  | run rest body _ =>
    obtain ⟨stall, same⟩ := After.eq_stall left
    obtain ⟨-, message, failed⟩ := Setting.fails_of_stall stall
    exact ⟨same, _, .mk rest body failed rfl⟩
  | settle came => exact absurd (After.eq_stall left).1 (s.settle_ne_stall b result x.shared)

end

/-! ## the state of a run under way -/

section
variable {s : Setting} {bs : List Branch} {b : Branch} {shared : Shared} {w w' : World}

theorem Setting.Ends.isExecuting {ended : Shared × After} {error? : Option RunError}
    (h : s.Ends b shared ended error?) : ended.1.isExecuting = shared.isExecuting := by
  cases h <;> rfl

theorem isExecuting_start (bs : List Branch) (w : World) :
    (start bs w).1.shared.isExecuting = w.shared.isExecuting := by
  induction bs generalizing w with
  | nil => rfl
  | cons b bs ih => exact ih { w with shared := w.shared.begin b }

theorem Effect.isExecuting (effect : Effect s bs w w') :
    w'.shared.isExecuting = w.shared.isExecuting := by
  cases effect with
  | begin => exact isExecuting_start _ w
  | run => exact (Setting.conclude_ends _).isExecuting
  | settle => exact (Setting.settle_ends _).isExecuting
  | wait => rfl

end

namespace Run

/-- it is stuck as long as it is under way, and was not completed -/
structure Blocked (run : Run) : Prop where
  never : ∀ trace, run.settled ≠ some (.completed trace)
  stuck : run.settled = none → run.walk.Stuck

variable {name : String} {policy : Policy} {definition : List Chain} {signal : Signal}
  {run after : Run} {b : Branch} {log : List Mutation}

theorem Reachable.isExecuting (created : Signal.create name policy definition = .ok signal)
    (reachable : Reachable signal run) (pending : run.settled = none) :
    run.shared.isExecuting = true := by
  have shows : run.Shows (fun shared => shared.isExecuting = true) :=
    reachable.shows created (fun _ _ _ effect executing => effect.isExecuting.trans executing)
      fun _ => rfl
  exact shows.pending pending

theorem Becomes.blocked {elapsed : Nat} {polled : Polled} (pending : run.settled = none)
    (becomes : Becomes run elapsed polled after) (stuck : polled.walk.Stuck) : after.Blocked := by
  cases becomes with
  | rejected =>
    refine ⟨fun _ completed => ?_, fun pending => ?_⟩
    · cases completed
    · cases pending
  | completed _ done => exact absurd done (Bool.eq_false_iff.mp stuck.not_done)
  | pending =>
    refine ⟨fun _ completed => ?_, fun _ => stuck⟩
    cases pending.symm.trans completed

theorem Blocked.wake (blocked : run.Blocked) (address : Address) : (run.wake address).Blocked :=
  ⟨blocked.never, fun pending => (wake_steps (run.setting (fun _ => false) 0) address run.walk
    ⟨default, run.shared⟩).stuck (blocked.stuck pending)⟩

/-- **A run that is blocked stays so**, whatever becomes of it. -/
theorem Later.blocked (later : Later run after) (blocked : run.Blocked) : after.Blocked := by
  induction later with
  | now => exact blocked
  | @poll after isOpen elapsed store _ ih =>
    cases settled : after.settled with
    | some _ =>
      rw [atRest_of_settled (by rw [settled]; rfl)]
      exact ih
    | none =>
      have steps := poll_steps (after.setting isOpen elapsed) after.walk ⟨store, after.shared⟩
      exact (poll_becomes settled isOpen elapsed store).2.blocked settled
        (steps.stuck (ih.stuck settled))
  | wake address _ ih => exact ih.wake address
  | gateOpened gate _ ih =>
    exact gateOpened_keeps gate (fun _ => ⟨ih.never, ih.stuck⟩) fun _ address blocked =>
      blocked.wake address

theorem Blocked.log_turn (blocked : run.Blocked) (engine : Engine) (turn : Turn) :
    (engine.turn run turn).1.log = engine.log := by
  have next : (engine.turn run turn).2.Blocked := by
    rw [(engine.turn_eq run turn).1]
    exact (Later.turn .now engine.store turn).blocked blocked
  rw [Engine.log_turn]
  split
  · rfl
  · cases found : (engine.turn run turn).2.trace? with
    | none => rfl
    | some trace => exact absurd (settled_of_trace? found) (next.never trace)

theorem Past.reachable {L : Setting → Doing} (past : Past signal L run) : Reachable signal run := by
  obtain ⟨before, isOpen, elapsed, store, reachable, -, -, later⟩ := past
  exact later.reachable (reachable.poll isOpen elapsed store)

/-- a step that is stalled has failed in some poll in the past of the run, and left a log -/
theorem Reachable.stalled_fails (reachable : Reachable signal run) (has : (Walk.stalled b).In run.walk) :
    ∃ log, Past signal (fun s => Walk.Fails s b log) run := by
  have ended : (Walk.stalled b).Ended := trivial
  obtain ⟨c, result, past⟩ := reachable.made ended has
  obtain ⟨s, u, x, u', x', made, put⟩ := past.place
  obtain ⟨rfl, log, fails⟩ := made.fails
  exact ⟨log, put (fun s => Walk.Fails s b log) fails⟩

/-! ## main statement -/

section
variable (created : Signal.create name .stall definition = .ok signal)
  (past : Past signal (fun s => Walk.Fails s b log) run)
include created past

theorem Past.sequential : b ∈ allOf signal.tree.branches ∧ ¬ b.Concurrent := by
  obtain ⟨s, u, x, u', x', -, -, fails, stands, -, -⟩ :=
    past.moment created fun s u x u' x' h => h.step
  cases fails with
  | mk rest body _ _ =>
    obtain ⟨hb, sequential⟩ := stands.sequential
    exact ⟨hb, not_concurrent sequential body⟩

theorem Past.blocked : run.Blocked := by
  obtain ⟨before, isOpen, elapsed, store, reachable, pending, ⟨top, x, top', x', -, inside, last⟩,
    later⟩ := past
  have stall : (before.setting isOpen elapsed).policy = .stall := by
    rw [(reachable.sound created).setting, (Signal.create_eq created).2]
  have stuck : top'.Stuck := inside.stuck fun u x u' x' fails =>
    ⟨stalled b, trivial, (fails.stalls stall).1 ▸ .own⟩
  exact later.blocked
    ((poll_becomes pending isOpen elapsed store).2.blocked pending (last.stuck stuck))

theorem Past.slot : run.Shows fun shared => ∃ args,
    shared.slot b.id = { args := some args, isExecuting := true, mutations := log } := by
  have numbered := Signal.numbered created
  obtain ⟨hb, sequential⟩ := past.sequential created
  refine past.shows created ?_ (fun _ _ _ _ _ h => h.step) fun s u x u' x' stall fails _ length => ?_
  · rintro s w w' effect ⟨args, own⟩
    have begun : (w.shared.slot b.id).Begun := own ▸ ⟨rfl, rfl⟩
    exact ⟨args, (effect.slot numbered.unique hb sequential begun).trans own⟩
  · exact (fails.stalls stall).2 (length ▸ numbered.inside b hb)

theorem Past.begun : (run.shared.slot b.id).Begun := by
  obtain ⟨shared, ⟨args, own⟩, like⟩ := (past.slot created).like
  exact (like.slot b.id).begun (own ▸ ⟨rfl, rfl⟩)

theorem Past.record (pending : run.settled = none) : run.snapshot.isExecuting = true ∧
    ∃ record, run.snapshot.records[b.id]? = some record ∧ record.occurrence = b.spec.occurrence ∧
      record.slot.isExecuting = true ∧ record.slot.hasExecuted = false ∧
      record.slot.mutations = log := by
  have reachable := past.reachable
  obtain ⟨args, own⟩ := (past.slot created).pending pending
  refine ⟨reachable.isExecuting created pending, Record.ofBranch run.shared.slots b, ?_, ?_⟩
  · rw [records_snapshot created (reachable.sound created).belongs, List.getElem?_map]
    obtain ⟨accepted, rfl⟩ := Signal.create_eq created
    rw [Tree.specs_getElem? accepted (past.sequential created).1, Option.map_some]
  · rw [Record.occurrence_ofBranch, Record.slot_ofBranch, own]
    exact ⟨rfl, rfl, rfl, rfl⟩

theorem Past.fresh_behind {front behind : List (Item Branch)} {item : Item Branch}
    (held : signal.tree.Holds (front ++ item :: behind)) (around : b ∈ allOfMembers item.members) :
    Fresh run.shared.slot (allOf behind) := by
  have unique := (Signal.numbered created).unique
  obtain ⟨orderly, own⟩ := held.orderly unique (past.reachable.sound created).orderly
  rw [List.append_cons] at orderly own
  rw [allOf_append] at own
  refine orderly.fresh_behind own.append.1 ?_ (past.begun created)
  rw [allOf_append, allOf_cons]
  exact List.mem_append_right _ (List.mem_append_left _ around)

theorem Past.blamed {error : RunError} (rejected : run.settled = some (.rejected error)) :
    ∃ c ∈ signal.tree.specs, ∃ result, signal.Blames c result error ∧ c.Concurrent ∧
      signal.tree.Apart b c ∧
      ((∃ message, error =
          .asyncStepFailed ⟨signal.name, c.spec.name, c.spec.position⟩ message) ∨
        ∃ output, error = .undeclaredOutput ⟨signal.name, c.spec.name, c.spec.position⟩ output) := by
  have reachable := past.reachable
  have unique := (Signal.numbered created).unique
  obtain ⟨hb, sequential⟩ := past.sequential created
  obtain ⟨c, hc, args, result, -, blames, -, kept⟩ := reachable.blamed created rejected
  obtain ⟨concurrent, shape⟩ := blames.of_stall (by rw [(Signal.create_eq created).2])
  have inside : c ∈ allOf signal.tree.branches := by
    obtain ⟨accepted, rfl⟩ := Signal.create_eq created
    rwa [← Tree.specs_compile accepted]
  obtain ⟨seen, pending⟩ := kept run .now
  have begun : (run.shared.slot c.id).Begun := ⟨by rw [seen]; rfl, pending⟩
  have other : b.id ≠ c.id := fun same => sequential (unique.eq hb inside same ▸ concurrent)
  exact ⟨c, hc, result, blames, concurrent, Tree.Holds.outermost.apart unique
    (reachable.sound created).orderly hb inside (past.begun created) begun other, shape⟩

end

/-- **A stall is permanent.** Once a step in a sequential list has failed under the policy to stall, no
poll of the run ever completes it and no trace of it is recorded. As long as it is under way it shows
itself executing, and the step too, with the log that it left. In no list around the step does anything
behind it ever begin. And if the run is settled, then by the error of a concurrent branch that stands
under another member of a group around the step. -/
theorem Past.permanent (created : Signal.create name .stall definition = .ok signal)
    (past : Past signal (fun s => Walk.Fails s b log) run) :
    b ∈ signal.tree.specs ∧ ∀ after, Later run after →
      ((∀ trace, after.settled ≠ some (.completed trace)) ∧
        ∀ (engine : Engine) turn, (engine.turn after turn).1.log = engine.log) ∧
      (after.settled = none → after.snapshot.isExecuting = true ∧
        ∃ record, after.snapshot.records[b.id]? = some record ∧
          record.occurrence = b.spec.occurrence ∧ record.slot.isExecuting = true ∧
          record.slot.hasExecuted = false ∧ record.slot.mutations = log) ∧
      (∀ front item behind, signal.tree.Holds (front ++ item :: behind) →
        b ∈ allOfMembers item.members → ∀ c ∈ allOf behind, after.shared.slot c.id = {}) ∧
      ∀ error, after.settled = some (.rejected error) →
        ∃ c ∈ signal.tree.specs, ∃ result, signal.Blames c result error ∧ c.Concurrent ∧
          signal.tree.Apart b c ∧
          ((∃ message, error =
              .asyncStepFailed ⟨signal.name, c.spec.name, c.spec.position⟩ message) ∨
            ∃ output, error =
              .undeclaredOutput ⟨signal.name, c.spec.name, c.spec.position⟩ output) := by
  refine ⟨?_, fun after later => ?_⟩
  · have inside := (past.sequential created).1
    obtain ⟨accepted, rfl⟩ := Signal.create_eq created
    rwa [Tree.specs_compile accepted]
  · have past := past.later later
    have blocked := past.blocked created
    exact ⟨⟨blocked.never, blocked.log_turn⟩, past.record created,
      fun front item behind held around => past.fresh_behind created held around,
      fun error => past.blamed created⟩

/-- a step stalls in the list under one member of a group, and the other member fails later -/
theorem permanent_member :
    let load : Action := ⟨0, "load", [], none, .sync fun _ => .finish (.ok (.via "found" .null))⟩
    let save : Action := ⟨1, "save", [], none, .sync fun _ =>
      .call ["saved"] (.set .null) fun _ => .finish (.error "locked")⟩
    let send : Action := ⟨2, "send", [], none, .async fun _ => .wait "door" (.finish (.error "full"))⟩
    let definition := [Chain.parallel [.action load,
      .paths [("found", [.action save, .action load])], .action send], .action load]
    ∃ signal run b log after, Signal.create "page" .stall definition = .ok signal ∧
      Past signal (fun s => Walk.Fails s b log) run ∧ Later run after ∧
      b.spec.position.text = "[0, 0, outputs, found, 0]" ∧ log.map Mutation.method = [.set] ∧
      run.settled = none ∧ run.snapshot.isExecuting = true ∧
      ∃ error, after.settled = some (.rejected error) ∧
        ∃ c ∈ signal.tree.specs, c.Concurrent ∧ signal.tree.Apart b c := by
  intro load save send definition
  let signal : Signal := ⟨"page", Tree.compile definition, .stall⟩
  let first : Run := { id := "r", signal, startedAt := default
                       shared := .initial [] signal.tree.size, walk := .ready signal.tree.branches }
  let run : Run := (first.poll (fun _ => false) 0 default).1
  have created : Signal.create "page" .stall definition = .ok signal := rfl
  have started : signal.start "r" default (.data .null) = .ok first := rfl
  have reachable : Reachable signal run := (Reachable.start started).poll ..
  obtain ⟨b, m, rest, walk, id, position⟩ : ∃ b m rest, run.walk = .joined [.stalled b, m] none rest ∧
      b.id = 1 ∧ b.spec.position.text = "[0, 0, outputs, found, 0]" :=
    ⟨_, _, _, rfl, rfl, by decide +kernel⟩
  have has : (Walk.stalled b).In run.walk := walk ▸ .inside none rest List.mem_cons_self .own
  obtain ⟨log, past⟩ := reachable.stalled_fails has
  have pending : run.settled = none := rfl
  have logged : run.snapshot.records[1]?.map (fun r => r.slot.mutations.map Mutation.method) =
      some [.set] := by decide +kernel
  have later : Later run (signal.afterGate "door") :=
    (Later.now.gateOpened "door").poll (fun name => name == "door") 0 default
  obtain ⟨error, rejected⟩ : ∃ error, (signal.afterGate "door").rejection? = some error :=
    Option.isSome_iff_exists.mp (by decide +kernel)
  have rejected := settled_of_rejection? rejected
  obtain ⟨-, permanent⟩ := past.permanent created
  obtain ⟨-, live, -, -⟩ := permanent run .now
  obtain ⟨executing, record, found, -, -, -, mutations⟩ := live pending
  obtain ⟨-, -, -, settles⟩ := permanent _ later
  obtain ⟨c, hc, -, -, concurrent, apart, -⟩ := settles error rejected
  rw [id] at found
  rw [found, Option.map_some, mutations] at logged
  exact ⟨signal, run, b, log, _, created, past, later, position, Option.some.inj logged, pending,
    executing, error, rejected, c, hc, concurrent, apart⟩

end Run

end SignalFlow
