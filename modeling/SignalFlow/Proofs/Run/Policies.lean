import SignalFlow.Proofs.Run.Errors
import SignalFlow.Proofs.Run.Recast
/-!
# Policies for failed steps

* `SyncProgram.mapResult`   a body that makes the same requests, and ends with another result;
* `Action.explicit`         the outcome that takes the place of a failure: the message as a payload, on
                            the way through the output `error`;
* `Recast.handled`          the bodies that end so.

`Signal.explicit_follows`: to run a definition with failures made outcomes is to run it with these
bodies, under any policy; and the policies differ only where a step of a sequential list fails. Where
the bodies cannot fail, no schedule makes them (`Run.Reachable.fineVisits`).
-/

namespace SignalFlow

open Branch Chain Walk

/-! ## failures as outcomes -/

/-- the body that makes the same requests and ends with another result -/
def SyncProgram.mapResult (g : StepResult → StepResult) : SyncProgram → SyncProgram
  | finish result => finish (g result)
  | get path next => get path fun answer => (next answer).mapResult g
  | call path change next => call path change fun answer => (next answer).mapResult g
  | writable next => writable fun answer => (next answer).mapResult g
  | mutations next => mutations fun answer => (next answer).mapResult g

theorem SyncProgram.run_mapResult (g : StepResult → StepResult) (program : SyncProgram)
    (view : View) : (program.mapResult g).run view = ((program.run view).1, g (program.run view).2) := by
  induction program generalizing view with
  | finish result => rfl
  | get path next ih => exact ih _ view
  | call path change next ih => exact ih _ _
  | writable next ih => exact ih _ view
  | mutations next ih => exact ih _ view

/-- a failure as an outcome -/
def Outcome.ofFailure (message : String) : Outcome :=
  .error (.object [("error", .string message)])

/-- the result with its failure made an outcome -/
def Action.explicit (a : Action) : StepResult → StepResult
  | .error message => .ok (.ofFailure message)
  | .ok outcome =>
    match a.resolve outcome.path with
    | .error output => .ok (.ofFailure ("took undeclared output '" ++ output ++ "'"))
    | .ok _ => .ok outcome

/-- the bodies that make outcomes of their failures -/
def Recast.handled : Recast := fun a step args => (step args).mapResult a.explicit

section
variable {s s' : Setting} {b : Branch}

/-- a failure that is an outcome is merged as the policy that makes an outcome of it would -/
theorem Setting.conclude_ofFailure (policy : s.policy = .errorOutput) (like : s.Like s')
    (declared : b.action.declares "error" = true) (f : Recast) (message : String)
    (shared : Shared) :
    s'.conclude (b.recast f) (.ok (.ofFailure message)) shared =
      ((s.stepFailed b message shared).1, (s.stepFailed b message shared).2.recast f) := by
  have resolved : (b.recast f).action.resolve (some "error") = .ok (some "error") := by
    rw [recast_action, Action.recast_resolve]
    exact if_pos declared
  unfold conclude stepFailed
  rw [policy, Outcome.ofFailure, Outcome.error, Outcome.via]
  dsimp only
  rw [resolved, if_pos declared]
  exact advance_recast like b (some "error") (errorPayload message) shared

theorem Setting.conclude_explicit (policy : s.policy = .errorOutput) (like : s.Like s')
    (declared : b.action.declares "error" = true) (f : Recast) (result : StepResult)
    (shared : Shared) :
    s'.conclude (b.recast f) (b.action.explicit result) shared =
      ((s.conclude b result shared).1, (s.conclude b result shared).2.recast f) := by
  cases result with
  | error message => exact conclude_ofFailure policy like declared f message shared
  | ok outcome =>
    rw [Action.explicit, conclude]
    cases resolved : b.action.resolve outcome.path with
    | error output => exact conclude_ofFailure policy like declared f (undeclared output) shared
    | ok output =>
      have same : (b.recast f).action.resolve outcome.path = .ok output := by
        rw [recast_action, Action.recast_resolve, resolved]
      dsimp only
      rw [conclude, same]
      exact advance_recast like b output outcome.payload shared

/-- a step that makes an outcome of its failure ends as the step ends under the policy that does -/
theorem Setting.runSync_handled (policy : s.policy = .errorOutput) (like : s.Like s')
    (declared : b.action.declares "error" = true) (step : Args → SyncProgram) (w : World) :
    s'.runSync (b.recast .handled) (Recast.handled b.action step) w =
      ((s.runSync b step w).1, (s.runSync b step w).2.recast .handled) := by
  have begun : w.shared.begin (b.recast .handled) = w.shared.begin b := by
    unfold Shared.begin
    rw [recast_id]
  have same : Recast.handled b.action step w.shared.args =
      (step w.shared.args).mapResult b.action.explicit := rfl
  unfold runSync
  rw [same, SyncProgram.run_mapResult, begun, recast_id]
  dsimp only
  rw [conclude_explicit policy like declared]

theorem Setting.conclude_fine (like : s.Like s') {result : StepResult}
    (fine : ∀ message, ¬ b.action.Fails result message) (shared : Shared) :
    s'.conclude b result shared = s.conclude b result shared := by
  cases result with
  | error message => exact absurd (.error message) (fine message)
  | ok outcome =>
    unfold conclude advance
    rw [like.elapsed]
    dsimp only
    split
    · next output resolved => exact absurd (Action.fails_of_resolve resolved) (fine _)
    · rfl

end

/-! ## signals -/

theorem After.recast_same (after : After) : after.recast .same = after := by
  cases after with
  | follow items => rw [After.recast, recastItems_same]
  | stall | fail => rfl

/-- sequential steps that may take the output `error`, and no other steps than those that may wait in
groups -/
def Branch.Explicit (b : Branch) : Prop :=
  b.action.isAsync = false → b.spec.isAsync = false ∧ b.action.declares "error" = true

theorem Recast.agrees_handled {s s' : Setting} (policy : s.policy = .errorOutput)
    (like : s.Like s') :
    Recast.handled.Agrees s s' (fun item => item.Marked false ∧ ∀ b ∈ item.members, b.Explicit)
      (fun b => b.action.isAsync = true) (fun _ _ => True) where
  like := like
  splits := by
    rintro item ⟨marked, explicit⟩ splits b hb
    rcases marked.concurrent splits b hb with member | async
    · by_contra sync
      have sequential := (explicit b hb (Bool.eq_false_iff.mpr sync)).1
      rw [sequential] at member
      cases member
    · exact async
  fixed := fun b async => Action.recast_of_async .handled async
  runs := by
    rintro b step w ⟨-, explicit⟩ body -
    have sync : b.action.isAsync = false := by rw [Action.isAsync, body]
    have declared := (explicit b (List.mem_singleton_self b) sync).2
    exact Setting.runSync_handled policy like declared step w

theorem Recast.agrees_same {s s' : Setting} (like : s.Like s') :
    Recast.same.Agrees s s' (fun _ => True) (fun _ => True)
      (fun b result => ∀ message, ¬ b.action.Fails result message) where
  like := like
  splits := fun _ _ _ _ _ => trivial
  fixed := fun b _ => Action.recast_same b.action
  runs := by
    intro b step w _ _ fine
    rw [Branch.recast_same, After.recast_same]
    unfold Setting.runSync Recast.same
    dsimp only
    rw [Setting.conclude_fine like fine]

section
variable {s : Setting} {good : Branch → StepResult → Prop} {P : Item Branch → Prop}
  {walk walk' : Walk} {w w' : World}
  (each : ∀ b step, P (.step b) → b.action.body = .sync step →
    ∀ args view, good b ((step args).run view).2)
include each

theorem Walk.good_of_inside {b : Branch} {result : StepResult}
    (inside : Inside (Runs s b result) walk w walk' w')
    (h : walk.Throughout P fun _ => True) : good b result := by
  induction inside with
  | here runs =>
    obtain ⟨finishes, items, rfl⟩ := runs
    cases finishes with
    | run rest body came =>
      cases h with
      | ready everywhere =>
        cases everywhere with
        | cons own _ _ => exact came ▸ each b _ own body _ _
  | member queue rest found _ ih =>
    cases h with
    | joined _ inside _ => exact ih (inside _ (List.mem_of_getElem? found))

theorem Run.Reachable.fineVisits {signal : Signal} {run : Run}
    (everywhere : Everywhere P signal.tree.branches) (reachable : Run.Reachable signal run)
    (schedule : List Visit) (store : Store) : Run.FineVisits good schedule run store := by
  induction schedule generalizing run store with
  | nil => trivial
  | cons visit rest ih =>
    refine ⟨?_, ih (reachable.turn (visit.others store) visit.turn) _⟩
    have splits : ∀ item, P item → item.Splits → ∀ b ∈ item.members, True :=
      fun _ _ _ _ _ => trivial
    have h := reachable.throughout splits everywhere
    cases visit.turn with
    | poll isOpen elapsed =>
      exact fun _ b result ⟨u, x, u', x', first, inside, _⟩ =>
        Walk.good_of_inside each inside (first.throughout splits h)
    | wake | gateOpened => trivial

end

namespace Signal

theorem create_recast {name : String} {definition : List Chain}
    (accepted : analyze name definition = .ok ()) (f : Recast) (policy policy' : Policy) :
    create name policy' (recastAll f definition) =
      .ok (recast f policy' ⟨name, Tree.compile definition, policy⟩) := by
  rw [create, analyze_recast f accepted, Tree.compile_recast f accepted]
  rfl

/-- **The policy that makes outcomes of failures is the explicit outcome.** Let the sequential steps
of an accepted definition be all of its steps that run through at once, and let them be allowed to take
the output `error`. Then, on any schedule, a run under that policy goes through the same stores and states
and ends in the same way as a run, under any policy, with the bodies that make outcomes of their failures.
Of any accepted definition, the runs under two policies are the same as long as no sequential step fails. -/
theorem explicit_follows {name : String} {definition : List Chain}
    (accepted : analyze name definition = .ok ()) (policy policy' : Policy) :
    ((∀ p ∈ placed false definition, p.1.isAsync = false →
        p.2 = false ∧ p.1.declares "error" = true) →
      ∃ signal signal', create name .errorOutput definition = .ok signal ∧
        create name policy (recastAll .handled definition) = .ok signal' ∧
        signal.Follows (fun _ _ => True) signal') ∧
    ∃ signal signal', create name policy definition = .ok signal ∧
      create name policy' definition = .ok signal' ∧
      signal.Follows (fun b result => ∀ message, ¬ b.action.Fails result message) signal' := by
  have created (policy : Policy) :
      create name policy definition = .ok ⟨name, Tree.compile definition, policy⟩ := by
    rw [create, accepted]
  refine ⟨fun explicit => ?_, ?_⟩
  · refine ⟨_, _, created .errorOutput, create_recast accepted .handled .errorOutput policy, ?_⟩
    have each : ∀ b ∈ allOf (Tree.compile definition).branches, b.Explicit := by
      intro b hb
      have among : Tree.placement b ∈ placed false definition := by
        rw [← Tree.placements_compile accepted, Tree.specs_compile accepted]
        exact List.mem_map_of_mem hb
      exact explicit (Tree.placement b) among
    exact follows_recast (created .errorOutput)
      (fun _ _ => Recast.agrees_handled rfl ⟨rfl, rfl, rfl⟩)
      ((marked_compile accepted).and (everywhere_members each))
  · have everywhere : Everywhere (fun _ => True) (Tree.compile definition).branches :=
      (marked_compile accepted).mono fun _ _ => trivial
    have follows : Signal.Follows _ _ (recast .same policy' ⟨name, Tree.compile definition, policy⟩) :=
      follows_recast (created policy) (fun _ _ => Recast.agrees_same ⟨rfl, rfl, rfl⟩) everywhere
    refine ⟨_, _, created policy, created policy', ?_⟩
    rwa [recast, Tree.recast_same] at follows

/-- a step that changes the store and fails, and under its output `error` one that takes an output it
does not declare; and a step that cannot fail -/
theorem explicit_follows_failing :
    let save : Action := ⟨0, "save", ["saved", "error"], none, .sync fun _ =>
      .call ["count"] (.set (.string "one")) fun _ => .finish (.error "locked")⟩
    let report : Action := ⟨1, "report", ["error"], none, .sync fun _ =>
      .finish (.ok (.via "sent" .null))⟩
    let load : Action := ⟨2, "load", [], none, .sync fun _ => .finish (.ok .next)⟩
    let failing := [Chain.action save, .paths [("error", [.action report])]]
    let poll : Visit := ⟨id, .poll (fun _ => false) 0⟩
    (∀ p ∈ placed false failing, p.1.isAsync = false → p.2 = false ∧ p.1.declares "error" = true) ∧
    (∃ signal run signal' run', create "page" .errorOutput failing = .ok signal ∧
      signal.start "r" default (.data .null) = .ok run ∧
      create "page" .stall (recastAll .handled failing) = .ok signal' ∧
      signal'.start "r" default (.data .null) = .ok run' ∧
      (Run.visits [poll] run default).1.trace?.isSome = true ∧
      Run.Matches (Run.visits [poll] run default).1 (Run.visits [poll] run' default).1) ∧
    ∃ signal run signal' run', create "page" .stall [.action load] = .ok signal ∧
      signal.start "r" default (.data .null) = .ok run ∧
      create "page" .reject [.action load] = .ok signal' ∧
      signal'.start "r" default (.data .null) = .ok run' ∧
      (Run.visits [poll] run default).1.trace?.isSome = true ∧
      Run.Matches (Run.visits [poll] run default).1 (Run.visits [poll] run' default).1 := by
  intro save report load failing poll
  have explicit : ∀ p ∈ placed false failing,
      p.1.isAsync = false → p.2 = false ∧ p.1.declares "error" = true := by
    intro p hp _
    simp only [failing, placed, placedOf, placedUnder, List.cons_append, List.nil_append,
      List.mem_cons, List.not_mem_nil, or_false] at hp
    rcases hp with rfl | rfl <;> exact ⟨rfl, rfl⟩
  refine ⟨explicit, ?_, ?_⟩
  · obtain ⟨follows, -⟩ := @explicit_follows "page" failing rfl .stall .stall
    obtain ⟨signal, signal', created, created', same⟩ := follows explicit
    cases created
    obtain ⟨run', started', alike⟩ := (same "r" default (.data .null)).2 _ rfl
    obtain ⟨-, matches'⟩ := alike [poll] default ⟨fun _ _ _ _ => trivial, trivial⟩
    exact ⟨_, _, _, run', rfl, rfl, created', started', by decide +kernel, matches'⟩
  · obtain ⟨-, signal, signal', created, created', same⟩ :=
      @explicit_follows "page" [.action load] rfl .stall .reject
    cases created
    have started : Signal.start ⟨"page", Tree.compile [.action load], .stall⟩ "r" default
      (.data .null) = .ok _ := rfl
    obtain ⟨run', started', alike⟩ := (same "r" default (.data .null)).2 _ started
    have everywhere : Everywhere (fun item => ∀ b ∈ item.members, b.action = load)
        (Tree.compile [.action load]).branches := by
      refine everywhere_members ?_
      rintro _ (_ | ⟨_, ⟨⟩⟩)
      rfl
    have never (b : Branch) (step : Args → SyncProgram) (own : ∀ c ∈ [b], c.action = load)
        (body : b.action.body = .sync step) (args : Args) (view : View) (message : String) :
        ¬ b.action.Fails ((step args).run view).2 message := by
      rw [own b (List.mem_singleton_self b)] at body ⊢
      cases body
      rintro (_ | ⟨⟨⟩, _⟩)
    have fine : Run.FineVisits (fun b result => ∀ message, ¬ b.action.Fails result message) [poll] _
      default := Run.Reachable.fineVisits never everywhere (.start started) [poll] default
    obtain ⟨-, matches'⟩ := alike [poll] default fine
    exact ⟨_, _, _, run', rfl, rfl, created', started', by decide +kernel, matches'⟩

end Signal

end SignalFlow
