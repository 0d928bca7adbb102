import SignalFlow.Proofs.Run.Moments
import SignalFlow.Proofs.Trace.Taken
/-!
# The errors of runs

* `Action.Undeclared`  the output that an outcome leads to is one that the action may not take;
* `Action.Fails`       the result of a sequential step is a failure, with this message;
* `Signal.Blames`      an error names a branch, and is the one that the result of its body calls for.

The kind of an error depends on where its branch stands, on whether its body may wait, on the policy and
on the outputs that its action declares (`Walk.Makes.blames`). `Run.Reachable.error_sound`: the error of
a run that was rejected blames a branch of it that has begun and never ends, and the run is closed.
-/

namespace SignalFlow

open Branch Walk Relation

/-! ## what a result calls for -/

/-- the outcome leads to an output that the action may not take -/
def Action.Undeclared (a : Action) (outcome : Outcome) (output : String) : Prop :=
  (outcome.path <|> a.defaultOutput) = some output ∧ a.declares output = false

/-- the result of a sequential step is a failure with this message -/
inductive Action.Fails (a : Action) : StepResult → String → Prop
  | error (message : String) : Fails a (.error message) message
  | undeclared {outcome : Outcome} {output : String} : a.Undeclared outcome output →
      Fails a (.ok outcome) ("took undeclared output '" ++ output ++ "'")

/-- the error names the branch, and is the one that the result of its body calls for -/
inductive Signal.Blames (signal : Signal) (b : Branch) : StepResult → RunError → Prop
  | stepFailed {result : StepResult} {message : String} :
      b.spec.isAsync = false → b.action.isAsync = false → b.action.Fails result message →
      signal.policy = .reject ∨ signal.policy = .errorOutput ∧ b.action.declares "error" = false →
      Blames signal b result (.stepFailed ⟨signal.name, b.spec.name, b.spec.position⟩ message)
  | asyncStepFailed (message : String) : b.Concurrent →
      Blames signal b (.error message)
        (.asyncStepFailed ⟨signal.name, b.spec.name, b.spec.position⟩ message)
  | undeclaredOutput {outcome : Outcome} {output : String} : b.Concurrent →
      b.action.Undeclared outcome output →
      Blames signal b (.ok outcome)
        (.undeclaredOutput ⟨signal.name, b.spec.name, b.spec.position⟩ output)

section
variable {s : Setting} {signal : Signal} {b : Branch} {result : StepResult} {error : RunError}
  {shared : Shared}

theorem Action.undeclared_of_resolve {a : Action} {outcome : Outcome} {output : String}
    (h : a.resolve outcome.path = .error output) : a.Undeclared outcome output := by
  unfold Action.resolve at h
  split at h
  · next taken =>
    split at h
    · cases h
    · next forbidden =>
      cases h
      exact ⟨taken, Bool.eq_false_iff.mpr forbidden⟩
  · cases h

theorem Action.Undeclared.resolve {a : Action} {outcome : Outcome} {output : String}
    (h : a.Undeclared outcome output) : a.resolve outcome.path = .error output := by
  unfold Action.resolve
  rw [h.1]
  exact if_neg (Bool.eq_false_iff.mp h.2)

theorem Action.fails_of_resolve {a : Action} {outcome : Outcome} {output : String}
    (h : a.resolve outcome.path = .error output) :
    a.Fails (.ok outcome) (Setting.undeclared output) := .undeclared (undeclared_of_resolve h)

theorem Setting.blames_stepFailed {message : String} (name : s.signal = signal.name)
    (policy : s.policy = signal.policy) (sequential : b.spec.isAsync = false)
    (sync : b.action.isAsync = false) (fails : b.action.Fails result message)
    (failed : s.stepError? b message = some error) : signal.Blames b result error := by
  unfold stepError? site at failed
  rw [name, policy] at failed
  cases own : signal.policy with
  | stall => rw [own] at failed; cases failed
  | reject =>
    rw [own] at failed
    cases failed
    exact .stepFailed sequential sync fails (.inl own)
  | errorOutput =>
    rw [own] at failed
    dsimp only at failed
    split at failed
    · cases failed
    · next forbidden =>
      cases failed
      exact .stepFailed sequential sync fails (.inr ⟨own, Bool.eq_false_iff.mpr forbidden⟩)

theorem Setting.blames_syncError (name : s.signal = signal.name) (policy : s.policy = signal.policy)
    (sequential : b.spec.isAsync = false) (sync : b.action.isAsync = false)
    (failed : s.syncError? b result = some error) : signal.Blames b result error := by
  cases result with
  | error message => exact blames_stepFailed name policy sequential sync (.error message) failed
  | ok outcome =>
    unfold syncError? at failed
    dsimp only at failed
    split at failed
    · next output resolved =>
      exact blames_stepFailed name policy sequential sync (Action.fails_of_resolve resolved) failed
    · cases failed

theorem Setting.blames_memberError (name : s.signal = signal.name) (concurrent : b.Concurrent)
    (failed : s.memberError? b result = some error) : signal.Blames b result error := by
  unfold memberError? site at failed
  rw [name] at failed
  cases result with
  | error message =>
    cases failed
    exact .asyncStepFailed message concurrent
  | ok outcome =>
    dsimp only at failed
    split at failed
    · next output resolved =>
      cases failed
      exact .undeclaredOutput concurrent (Action.undeclared_of_resolve resolved)
    · cases failed

theorem Setting.syncError_of_fails {message : String} (fails : b.action.Fails result message) :
    s.syncError? b result = s.stepError? b message := by
  cases fails with
  | error => rfl
  | undeclared undeclared =>
    unfold syncError?
    dsimp only
    rw [undeclared.resolve]
    rfl

theorem Signal.Blames.syncError (blames : signal.Blames b result error) (sequential : ¬ b.Concurrent)
    (name : s.signal = signal.name) (policy : s.policy = signal.policy) :
    s.syncError? b result = some error := by
  cases blames with
  | stepFailed _ _ fails cause =>
    rw [Setting.syncError_of_fails fails, Setting.stepError?, Setting.site, name, policy]
    rcases cause with reject | ⟨output, forbidden⟩
    · rw [reject]
    · rw [output, forbidden]
      rfl
  | asyncStepFailed _ concurrent | undeclaredOutput concurrent _ => exact absurd concurrent sequential

theorem Signal.Blames.memberError (blames : signal.Blames b result error) (concurrent : b.Concurrent)
    (name : s.signal = signal.name) : s.memberError? b result = some error := by
  unfold Setting.memberError? Setting.site
  cases blames with
  | stepFailed sequential sync _ _ =>
    rcases concurrent with member | waits
    · exact absurd member (Bool.eq_false_iff.mp sequential)
    · exact absurd waits (Bool.eq_false_iff.mp sync)
  | asyncStepFailed => rw [name]
  | undeclaredOutput _ undeclared =>
    dsimp only
    rw [undeclared.resolve, name]

theorem Setting.Ends.failed {ended : Shared × After} {error? : Option RunError}
    (h : s.Ends b shared ended error?) (fail : ended.2 = .fail error) :
    error? = some error ∧ ended.1 = shared.abandon b s.elapsed := by
  cases h with
  | outcome | stall => cases fail
  | givenUp =>
    cases fail
    exact ⟨rfl, rfl⟩

theorem After.eq_fail {after : After} {rest : List (Item Branch)}
    (h : after.walk b rest = .failed error) : after = .fail error := by
  cases after with
  | follow | stall => cases h
  | fail =>
    cases h
    rfl

/-! ## the branch that is blamed -/

/-- a step that has begun on these arguments, and was given up -/
structure Slot.GivenUp (args : Args) (slot : Slot) : Prop where
  seen : slot.args = some args
  idle : slot.isExecuting = false
  pending : slot.hasExecuted = false

theorem Shared.givenUp_abandon {args : Args} (inside : b.id < shared.slots.length)
    (seen : (shared.slot b.id).args = some args) (pending : (shared.slot b.id).hasExecuted = false)
    (elapsed : Nat) : ((shared.abandon b elapsed).slot b.id).GivenUp args := by
  have own := Shared.slot_updateSlot inside fun slot =>
    { slot with duration := some elapsed, isExecuting := false }
  exact ⟨(congrArg Slot.args own).trans seen, congrArg Slot.isExecuting own,
    (congrArg Slot.hasExecuted own).trans pending⟩

/-- **A walk that fails blames the branch whose body has ended.** -/
theorem Walk.Makes.blames {bs : List Branch} {u u' : Walk} {x x' : World}
    (made : Makes s b result (.failed error) u x u' x') (stands : Stands bs x.shared.slot u)
    (inside : ∀ b ∈ bs, b.id < x.shared.slots.length) (name : s.signal = signal.name)
    (policy : s.policy = signal.policy) :
    b ∈ bs ∧ signal.Blames b result error ∧
      ∃ args, b.action.Gives args result ∧ (x'.shared.slot b.id).GivenUp args := by
  obtain ⟨finished, left⟩ := made
  cases finished with
  | @run step _ rest body came =>
    obtain ⟨hb, sequential⟩ := stands.sequential
    have sync : b.action.isAsync = false := by rw [Action.isAsync, body]
    have gives : b.action.Gives x.shared.args result := by
      unfold Action.Gives
      rw [body]
      exact ⟨_, came⟩
    have fail := After.eq_fail left
    clear left
    unfold Setting.runSync at fail ⊢
    generalize (step x.shared.args).run { store := x.store, writable := true } = ran at came fail ⊢
    obtain ⟨view, own⟩ := ran
    obtain rfl : result = own := came.symm
    dsimp only at fail ⊢
    obtain ⟨failed, left⟩ := (Setting.conclude_ends result).failed fail
    refine ⟨hb, Setting.blames_syncError name policy sequential sync failed, _, gives, ?_⟩
    -- the log goes into the slot before the step is given up
    rw [left]
    have first : Frame [b] x.shared (x.shared.begin b) := Shared.frame_begin
    have length : b.id < (x.shared.begin b).slots.length := first.length ▸ inside b hb
    have logged := Shared.slot_begin_log (inside b hb) view.log
    exact Shared.givenUp_abandon (by rw [Shared.length_updateSlot]; exact length)
      (congrArg Slot.args logged) (congrArg Slot.hasExecuted logged) s.elapsed
  | @settle program _ came =>
    obtain ⟨own, begun⟩ := stands.open
    have concurrent : b.Concurrent := by
      cases stands.marked with
      | awaiting _ concurrent _ => exact concurrent
    obtain ⟨-, args, seen, gives⟩ := stands.watched b program .own
    obtain ⟨failed, abandoned⟩ := (Setting.settle_ends result).failed (After.eq_fail left)
    refine ⟨own, Setting.blames_memberError name concurrent failed, args,
      gives result (.of_finished came), ?_⟩
    show ((s.settle b result x.shared).1.slot b.id).GivenUp args
    rw [abandoned]
    exact Shared.givenUp_abandon (inside b own) seen begun.pending s.elapsed

/-- **A body that ends with a result that an error blames leaves its walk failed.** -/
theorem Walk.Finishes.makes {bs : List Branch} {u u' : Walk} {x x' : World}
    (finishes : Finishes s b result u x u' x') (stands : Stands bs x.shared.slot u)
    (blames : signal.Blames b result error) (name : s.signal = signal.name)
    (policy : s.policy = signal.policy) : Makes s b result (.failed error) u x u' x' := by
  have fails {shared : Shared} {ended : Shared × After} (rest : List (Item Branch))
      (ends : s.Ends b shared ended (some error)) : ended.2.walk b rest = .failed error := by
    cases ends with
    | givenUp => rfl
  refine ⟨finishes, ?_⟩
  cases finishes with
  | @run step _ rest body came =>
    have sequential := Branch.not_concurrent stands.sequential.2 body
    have failed := blames.syncError sequential name policy
    unfold Setting.runSync
    generalize (step x.shared.args).run { store := x.store, writable := true } = ran at came ⊢
    obtain ⟨view, own⟩ := ran
    obtain rfl : own = result := came
    exact fails rest (failed ▸ Setting.conclude_ends own)
  | settle _ =>
    cases stands.marked with
    | awaiting _ concurrent _ =>
      exact fails [] (blames.memberError concurrent name ▸ Setting.settle_ends result)

end

/-- nothing but writes to its slot comes of a branch -/
theorem moves_of_changes {policy : Policy} {bs : List Branch} {b : Branch} {shared after : Shared}
    (unique : Unique bs) (hb : b ∈ bs)
    (changes : ReflTransGen (Shared.Change policy bs) shared after) :
    ReflTransGen (Slot.Move b.action) (shared.slot b.id) (after.slot b.id) := by
  induction changes with
  | refl => exact .refl
  | tail _ last ih => exact ih.trans (last.moves unique hb)

/-! ## closed runs -/

namespace Run

section
variable {name : String} {policy : Policy} {definition : List Chain} {signal : Signal}
  {run after : Run} {error : RunError}

theorem Reachable.snapshot_settled (reachable : Reachable signal run)
    (settled : run.settled.isSome = true) :
    run.snapshot.isExecuting = false ∧ run.snapshot.duration.isSome = true := by
  obtain ⟨before, isOpen, elapsed, store, -, pending, same, later⟩ := reachable.settling settled
  have becomes := (poll_becomes pending isOpen elapsed store).2
  rw [later.snapshot (same ▸ settled)]
  rw [← same] at settled
  generalize (before.poll isOpen elapsed store).1 = after at becomes settled ⊢
  cases becomes with
  | rejected => exact ⟨rfl, rfl⟩
  | completed _ _ e =>
    subst e
    exact ⟨rfl, rfl⟩
  | pending =>
    rw [pending] at settled
    cases settled

theorem Reachable.records_rejected (created : Signal.create name policy definition = .ok signal)
    (reachable : Reachable signal run) (rejected : run.settled = some (.rejected error)) :
    ∀ record ∈ run.snapshot.records, record.slot.isExecuting = false := by
  have settled : run.settled.isSome = true := by rw [rejected]; rfl
  obtain ⟨before, isOpen, elapsed, store, reached, pending, same, later⟩ := reachable.settling settled
  have belongs := ((reached.poll isOpen elapsed store).sound created).belongs
  have becomes := (poll_becomes pending isOpen elapsed store).2
  rw [later.snapshot (same ▸ settled), records_snapshot created belongs]
  rw [rejected] at same
  generalize (before.poll isOpen elapsed store).1 = after at becomes same ⊢
  intro record hr
  obtain ⟨b, _, rfl⟩ := List.mem_map.mp hr
  rw [Record.slot_ofBranch]
  cases becomes with
  | rejected =>
    unfold Shared.slot Shared.close
    dsimp only
    rw [List.getElem?_map]
    cases (Walk.poll _ _ _).world.shared.slots[b.id]? <;> rfl
  | completed => cases same
  | pending =>
    rw [pending] at same
    cases same

/-- the error of a run that was rejected blames a branch that has begun, and never has an outcome -/
theorem Reachable.blamed (created : Signal.create name policy definition = .ok signal)
    (reachable : Reachable signal run) (rejected : run.settled = some (.rejected error)) :
    ∃ b ∈ signal.tree.specs, ∃ args result, b.action.Gives args result ∧
      signal.Blames b result error ∧ Past signal (fun s => Finishes s b result) run ∧
      ∀ after, Later run after → (after.shared.slot b.id).args = some args ∧
        (after.shared.slot b.id).hasExecuted = false := by
  obtain ⟨b, result, past⟩ := reachable.rejected_made rejected
  obtain ⟨s, u, x, u', x', own, same, made, stands, length, changes⟩ :=
    past.moment created fun s u x u' x' h => .move h.1.move
  have numbered := Signal.numbered created
  have signals : s.signal = signal.name ∧ s.policy = signal.policy := by
    rw [own, same, (Signal.create_eq created).2]
    exact ⟨rfl, rfl⟩
  obtain ⟨hb, blames, args, gives, closed⟩ := made.blames stands
    (fun b hb => length ▸ numbered.inside b hb) signals.1 signals.2
  -- nothing is written to the slot of a step that was given up
  have kept (after : Run) (later : Later run after) :
      after.shared.slot b.id = x'.shared.slot b.id := by
    refine Slot.eq_of_moves (a := b.action) ?_ (by rw [closed.seen]; rfl) closed.idle
    exact (moves_of_changes numbered.unique hb changes).trans (later.moves created reachable hb)
  obtain ⟨accepted, rfl⟩ := Signal.create_eq created
  refine ⟨b, Tree.specs_compile accepted ▸ hb, args, result, gives, blames,
    past.mono fun _ _ _ _ _ h => h.1, fun after later => ?_⟩
  rw [kept after later]
  exact ⟨closed.seen, closed.pending⟩

/-- **Errors are sound, and a rejected run is closed.** The error of a run that was rejected blames a
branch of it, for a result that the body of the branch came to in some poll of the run. The branch has
begun and has no outcome, and never will have one. From then on the run stays as it is: it is not
executing, it has a duration, and no step of it is executing. -/
theorem Reachable.error_sound (created : Signal.create name policy definition = .ok signal)
    (reachable : Reachable signal run) (rejected : run.settled = some (.rejected error)) :
    (∃ b ∈ signal.tree.specs, ∃ args result, b.action.Gives args result ∧
      signal.Blames b result error ∧ Past signal (fun s => Finishes s b result) run ∧
      ∀ after, Later run after → (after.shared.slot b.id).args = some args ∧
        (after.shared.slot b.id).hasExecuted = false) ∧
    ∀ after, Later run after → after.settled = run.settled ∧ after.snapshot = run.snapshot ∧
      after.snapshot.isExecuting = false ∧ after.snapshot.duration.isSome = true ∧
      ∀ record ∈ after.snapshot.records, record.slot.isExecuting = false := by
  have settled : run.settled.isSome = true := by rw [rejected]; rfl
  refine ⟨reachable.blamed created rejected, fun after later => ?_⟩
  have same := later.snapshot settled
  obtain ⟨idle, timed⟩ := reachable.snapshot_settled settled
  have records := reachable.records_rejected created rejected
  rw [← same] at idle timed records
  exact ⟨(later.fixed settled).settled, same, idle, timed, records⟩

end

/-- a step has stalled under the output of one member of a group when the other member fails -/
theorem error_sound_stalled :
    let load : Action := ⟨0, "load", [], none, .sync fun _ => .finish (.ok (.via "found" .null))⟩
    let save : Action := ⟨1, "save", [], none, .sync fun _ => .finish (.error "locked")⟩
    let send : Action := ⟨2, "send", [], none, .async fun _ => .wait "door" (.finish (.error "full"))⟩
    let definition := [Chain.parallel [.action load, .paths [("found", [.action save])],
      .action send]]
    let error := RunError.asyncStepFailed ⟨"page", "send", [.index 0, .index 1]⟩ "full"
    ∃ signal run, Signal.create "page" .stall definition = .ok signal ∧ Reachable signal run ∧
      run.settled = some (.rejected error) ∧
      (∃ b ∈ signal.tree.specs, ∃ result, signal.Blames b result error ∧
        Past signal (fun s => Finishes s b result) run) ∧
      ∀ after, Later run after → after.snapshot.isExecuting = false ∧
        ∀ record ∈ after.snapshot.records, record.slot.isExecuting = false := by
  intro load save send definition error
  let signal : Signal := ⟨"page", Tree.compile definition, .stall⟩
  have created : Signal.create "page" .stall definition = .ok signal := rfl
  have reachable := signal.reachable_afterGate "door"
  have rejected : (signal.afterGate "door").settled = some (.rejected error) :=
    settled_of_rejection? (by decide +kernel)
  obtain ⟨⟨b, hb, _, result, -, blames, past, -⟩, closed⟩ := reachable.error_sound created rejected
  refine ⟨signal, _, created, reachable, rejected, ⟨b, hb, result, blames, past⟩,
    fun after later => ?_⟩
  obtain ⟨-, -, idle, -, records⟩ := closed after later
  exact ⟨idle, records⟩

end Run

end SignalFlow
