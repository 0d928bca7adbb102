import SignalFlow.Proofs.Run.Later
/-!
# The changes that the state of a run goes through

* `Action.Gives`     the body of an action can come to this result;
* `Branch.Yields`    the output and the payload that the policy makes of a result;
* `Slot.Running`     a step has begun, and has neither ended nor been given up;
* `Shared.Change`    one change: a step begins, files its log, finishes or is given up, or nothing is
                     changed but marks and durations.

Every act is a row of such changes (`Did.changes`), so whatever becomes of a run is one
(`Run.Later.changes`). What is shown of a single change below holds of all runs.
-/

namespace SignalFlow

open Branch Walk Relation

/-! ## results of bodies -/

/-- a body can end with this result, if it is answered so -/
inductive AsyncProgram.CanEnd (result : StepResult) : AsyncProgram → Prop
  | finish : CanEnd result (.finish result)
  | get {next : Option Value → AsyncProgram} (path : Path) (found : Option Value) :
      CanEnd result (next found) → CanEnd result (.get path next)
  | wait {next : AsyncProgram} (gate : String) : CanEnd result next → CanEnd result (.wait gate next)
  | pause {next : AsyncProgram} : CanEnd result next → CanEnd result (.pause next)

/-- the body of the action can come to this result on these arguments -/
def Action.Gives (a : Action) (args : Args) (result : StepResult) : Prop :=
  match a.body with
  | .sync step => ∃ view : View, ((step args).run view).2 = result
  | .async step => (step args).CanEnd result

section
variable {program left : AsyncProgram} {isOpen : String → Bool} {store : Store}
  {result : StepResult}

theorem AsyncProgram.CanEnd.of_finished (h : program.resume isOpen store = .finished result) :
    program.CanEnd result := by
  induction program with
  | finish own =>
    cases h
    exact .finish
  | get path next ih => exact .get path _ (ih _ h)
  | wait gate next ih =>
    rw [resume] at h
    split at h
    · exact .wait gate (ih h)
    · cases h
  | pause next => cases h

theorem AsyncProgram.CanEnd.of_suspended {gate : Option String}
    (h : program.resume isOpen store = .suspended gate left) (ends : left.CanEnd result) :
    program.CanEnd result := by
  induction program with
  | finish own => cases h
  | get path next ih => exact .get path _ (ih _ h)
  | wait gate next ih =>
    rw [resume] at h
    split at h
    · exact .wait gate (ih h)
    · cases h
      exact ends
  | pause next =>
    cases h
    exact .pause ends

end

/-- a step that has not ended, and a body that is what is left of its own -/
structure Attended (b : Branch) (program : AsyncProgram) (slot : Slot) : Prop where
  executing : slot.isExecuting = true
  own : ∃ args, slot.args = some args ∧
    ∀ result, program.CanEnd result → b.action.Gives args result

theorem kept_attended : Kept Attended where
  begun b args store := by
    refine ⟨rfl, args, rfl, fun result ends => ?_⟩
    unfold Action.started at ends
    unfold Action.Gives
    cases body : b.action.body with
    | sync step =>
      rw [body] at ends
      cases ends
      exact ⟨_, rfl⟩
    | async step =>
      rw [body] at ends
      exact ends
  suspended := by
    intro b program slot isOpen store gate left ⟨executing, args, seen, gives⟩ suspended
    exact ⟨executing, args, seen, fun result ends => gives result (ends.of_suspended suspended)⟩

/-! ## outcomes -/

/-- what the policy makes of the result of a step: the output it takes and the payload it ends with.
A step that failed in a sequential list ends with its message if it may take the output `error` -/
inductive Branch.Yields (policy : Policy) (b : Branch) :
    StepResult → Option String → Value → Prop
  | outcome {outcome : Outcome} {output : Option String} :
      b.action.resolve outcome.path = .ok output →
      Yields policy b (.ok outcome) output outcome.payload
  | failed (message : String) : policy = .errorOutput → b.action.isAsync = false →
      b.action.declares "error" = true →
      Yields policy b (.error message) (some "error") (.object [("error", .string message)])
  | undeclared {outcome : Outcome} {name : String} : policy = .errorOutput →
      b.action.isAsync = false → b.action.declares "error" = true →
      b.action.resolve outcome.path = .error name →
      Yields policy b (.ok outcome) (some "error")
        (.object [("error", .string ("took undeclared output '" ++ name ++ "'"))])

section
variable {policy : Policy} {b : Branch} {result : StepResult} {output : Option String}
  {payload : Value}

theorem Action.declares_of_resolve {a : Action} {path : Option String} {name : String}
    (h : a.resolve path = .ok (some name)) : a.declares name = true := by
  unfold Action.resolve at h
  split at h
  · split at h
    · next declared =>
      cases h
      exact declared
    · cases h
  · cases h

theorem Branch.Yields.declared (h : b.Yields policy result output payload) :
    ∀ name, output = some name → b.action.declares name = true := by
  rintro name rfl
  cases h with
  | outcome resolved => exact Action.declares_of_resolve resolved
  | failed _ _ _ declared => exact declared
  | undeclared _ _ declared _ => exact declared

theorem Branch.Yields.unique {output' : Option String} {payload' : Value}
    (h : b.Yields policy result output payload)
    (h' : b.Yields policy result output' payload') : output' = output ∧ payload' = payload := by
  cases h with
  | outcome resolved =>
    cases h' with
    | outcome resolved' =>
      cases resolved.symm.trans resolved'
      exact ⟨rfl, rfl⟩
    | undeclared _ _ _ other => cases resolved.symm.trans other
  | failed message =>
    cases h' with
    | failed => exact ⟨rfl, rfl⟩
  | undeclared _ _ _ other =>
    cases h' with
    | outcome resolved => cases resolved.symm.trans other
    | undeclared _ _ _ other' =>
      cases other.symm.trans other'
      exact ⟨rfl, rfl⟩

end

/-- what a step leaves behind that has come to a result, and where the walk goes on -/
inductive Setting.Leaves (s : Setting) (b : Branch) (result : StepResult) (shared : Shared) :
    Shared × After → Prop
  | outcome {output : Option String} {payload : Value} :
      b.Yields s.policy result output payload →
      Leaves s b result shared (s.advance b output payload shared)
  | stall : Leaves s b result shared (shared, .stall)
  | givenUp (error : RunError) :
      Leaves s b result shared (shared.abandon b s.elapsed, .fail error)

section
variable {s : Setting} {b : Branch} {shared : Shared}

theorem Setting.stepFailed_leaves (result : StepResult) (message : String)
    (yields : s.policy = .errorOutput → b.action.declares "error" = true →
      b.Yields s.policy result (some "error") (errorPayload message)) :
    s.Leaves b result shared (s.stepFailed b message shared) := by
  unfold stepFailed
  cases policy : s.policy with
  | stall => exact .stall
  | reject => exact .givenUp _
  | errorOutput =>
    dsimp only
    split
    · next declared => exact .outcome (yields policy declared)
    · exact .givenUp _

theorem Setting.conclude_leaves (sequential : b.action.isAsync = false) (result : StepResult) :
    s.Leaves b result shared (s.conclude b result shared) := by
  unfold conclude
  cases result with
  | error message =>
    exact stepFailed_leaves _ message fun policy declared => .failed message policy sequential declared
  | ok outcome =>
    dsimp only
    cases resolved : b.action.resolve outcome.path with
    | error name =>
      exact stepFailed_leaves _ (Setting.undeclared name) fun policy declared =>
        .undeclared policy sequential declared resolved
    | ok output => exact .outcome (.outcome resolved)

theorem Setting.settle_leaves (result : StepResult) :
    s.Leaves b result shared (s.settle b result shared) := by
  unfold settle
  cases result with
  | error message => exact .givenUp _
  | ok outcome =>
    dsimp only
    cases resolved : b.action.resolve outcome.path with
    | error name => exact .givenUp _
    | ok output => exact .outcome (.outcome resolved)

end

/-! ## changes -/

/-- a step has begun, and has neither ended nor been given up -/
structure Slot.Running (slot : Slot) : Prop where
  seen : slot.args.isSome = true
  executing : slot.isExecuting = true
  pending : slot.hasExecuted = false

/-- one change of the state of a run, to a step among these branches -/
inductive Shared.Change (policy : Policy) (bs : List Branch) (shared : Shared) : Shared → Prop
  | begin {b : Branch} : b ∈ bs → b.id < shared.slots.length → shared.slot b.id = {} →
      Change policy bs shared (shared.begin b)
  | log {b : Branch} (log : List Mutation) : b ∈ bs → b.id < shared.slots.length →
      (shared.slot b.id).Running →
      Change policy bs shared (shared.updateSlot b.id fun slot => { slot with mutations := log })
  | finish {b : Branch} {args : Args} {result : StepResult} {output : Option String}
      {payload : Value} (elapsed : Nat) : b ∈ bs → b.id < shared.slots.length →
      (shared.slot b.id).Running → (shared.slot b.id).args = some args →
      b.action.Gives args result → b.Yields policy result output payload →
      Change policy bs shared (shared.finish b output payload elapsed)
  | abandon {b : Branch} (elapsed : Nat) : b ∈ bs → b.id < shared.slots.length →
      (shared.slot b.id).Running → Change policy bs shared (shared.abandon b elapsed)
  | like {after : Shared} : shared.Like after → Change policy bs shared after

section
variable {s : Setting} {bs : List Branch} {w w' : World} {b : Branch} {shared after : Shared}

theorem Setting.Leaves.changes {result : StepResult} {args : Args} {ended : Shared × After}
    (h : s.Leaves b result shared ended) (hb : b ∈ bs) (inside : b.id < shared.slots.length)
    (running : (shared.slot b.id).Running) (seen : (shared.slot b.id).args = some args)
    (gives : b.action.Gives args result) :
    ReflTransGen (Shared.Change s.policy bs) shared ended.1 := by
  cases h with
  | outcome yields => exact .single (.finish s.elapsed hb inside running seen gives yields)
  | stall => exact .refl
  | givenUp => exact .single (.abandon s.elapsed hb inside running)

theorem Did.changes (did : Did Attended s bs w w') :
    ReflTransGen (Shared.Change s.policy bs) w.shared w'.shared := by
  obtain ⟨act, told, due, vouched, rfl⟩ := did
  cases act with
  | begin b => exact .single (.begin due.1 due.2.1 due.2.2)
  | run b step =>
    obtain ⟨hb, inside, fresh⟩ := due
    have first : Frame [b] w.shared (w.shared.begin b) := Shared.frame_begin
    have length : b.id < (w.shared.begin b).slots.length := first.length ▸ inside
    show ReflTransGen _ w.shared (s.runSync b step w).1.shared
    unfold Setting.runSync
    generalize ran : (step w.shared.args).run { store := w.store, writable := true } = both
    obtain ⟨view, result⟩ := both
    dsimp only
    have running : ((w.shared.begin b).slot b.id).Running := by
      rw [Shared.slot_begin inside]
      exact ⟨rfl, rfl, rfl⟩
    have logged := Shared.slot_begin_log inside view.log
    have sequential : b.action.isAsync = false := by
      unfold Action.isAsync
      rw [told]
    have gives : b.action.Gives w.shared.args result := by
      unfold Action.Gives
      rw [told]
      exact ⟨_, congrArg Prod.snd ran⟩
    have leaves : s.Leaves b result ((w.shared.begin b).updateSlot b.id fun slot =>
        { slot with mutations := view.log }) _ := Setting.conclude_leaves sequential result
    have ended := leaves.changes hb (by rw [Shared.length_updateSlot]; exact length)
      (by rw [logged]; exact ⟨rfl, rfl, rfl⟩) (congrArg Slot.args logged) gives
    exact .head (.begin hb inside fresh) (.head (.log view.log hb length running) ended)
  | settle b result =>
    obtain ⟨hb, inside, begun⟩ := due
    obtain ⟨program, finished, executing, args, seen, gives⟩ := vouched
    exact (Setting.settle_leaves result).changes hb inside ⟨begun.seen, executing, begun.pending⟩ seen
      (gives result (.of_finished finished))
  | wait waiting => exact .single (.like ⟨rfl, rfl, rfl, fun _ => .inl rfl⟩)

theorem Did.all_changes (did : ReflTransGen (Did Attended s bs) w w') :
    ReflTransGen (Shared.Change s.policy bs) w.shared w'.shared := by
  induction did with
  | refl => exact .refl
  | tail _ last ih => exact ih.trans last.changes

end

namespace Run

variable {name : String} {policy : Policy} {definition : List Chain} {signal : Signal}
  {first run after : Run}

theorem Later.reachable (reachable : Reachable signal run) (later : Later run after) :
    Reachable signal after := by
  induction later with
  | now => exact reachable
  | poll isOpen elapsed store _ ih => exact ih.poll isOpen elapsed store
  | wake address _ ih => exact ih.wake address
  | gateOpened gate _ ih => exact ih.gateOpened gate

/-- a reachable run has become of one that was started -/
theorem Reachable.later (reachable : Reachable signal run) :
    ∃ first id startedAt input, signal.start id startedAt input = .ok first ∧ Later first run := by
  induction reachable with
  | @start id startedAt input run started => exact ⟨run, id, startedAt, input, started, .now⟩
  | poll isOpen elapsed store _ ih =>
    obtain ⟨first, id, startedAt, input, started, later⟩ := ih
    exact ⟨first, id, startedAt, input, started, later.poll isOpen elapsed store⟩
  | wake address _ ih =>
    obtain ⟨first, id, startedAt, input, started, later⟩ := ih
    exact ⟨first, id, startedAt, input, started, later.wake address⟩
  | gateOpened gate _ ih =>
    obtain ⟨first, id, startedAt, input, started, later⟩ := ih
    exact ⟨first, id, startedAt, input, started, later.gateOpened gate⟩

/-- **Whatever becomes of a run is a row of changes.** -/
theorem Later.changes (created : Signal.create name policy definition = .ok signal)
    (reachable : Reachable signal run) (later : Later run after) :
    ReflTransGen (Shared.Change policy (allOf signal.tree.branches)) run.shared after.shared := by
  induction later with
  | now => exact .refl
  | @poll after isOpen elapsed store later ih =>
    cases settled : after.settled with
    | some _ =>
      rw [Run.poll, settled]
      exact ih
    | none =>
      have reached := later.reachable reachable
      have sound := reached.sound created
      obtain ⟨did, -⟩ := sound.poll_did kept_attended (Signal.numbered created) settled
        (reached.watched kept_attended created settled) isOpen elapsed store
      have same : (after.setting isOpen elapsed).policy = policy := by
        rw [sound.setting, (Signal.create_eq created).2]
      have changes := Did.all_changes did
      rw [same] at changes
      exact (ih.trans changes).tail (.like (poll_becomes settled isOpen elapsed store).2.like)
  | wake address _ ih => exact ih
  | @gateOpened after gate _ ih =>
    obtain ⟨waiting, same⟩ := shared_gateOpened after gate
    rw [same]
    exact ih.tail (.like ⟨rfl, rfl, rfl, fun _ => .inl rfl⟩)

variable {P : Shared → Prop} (created : Signal.create name policy definition = .ok signal)
  (each : ∀ shared after, Shared.Change policy (allOf signal.tree.branches) shared after →
    P shared → P after)
include created each

theorem Later.invariant (reachable : Reachable signal run) (later : Later run after)
    (now : P run.shared) : P after.shared := by
  have changes := later.changes created reachable
  generalize after.shared = final at changes
  induction changes with
  | refl => exact now
  | tail _ last ih => exact each _ _ last ih

theorem Reachable.invariant (first : ∀ args, P (.initial args signal.tree.size))
    (reachable : Reachable signal run) : P run.shared := by
  obtain ⟨origin, id, startedAt, input, started, later⟩ := reachable.later
  refine later.invariant created each (.start started) ?_
  obtain ⟨args, -, rfl⟩ := Signal.start_eq started
  exact first args

end Run

end SignalFlow
