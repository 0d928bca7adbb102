import SignalFlow.Proofs.Run.Resting
import SignalFlow.Proofs.Run.Stalled
/-!
# Runs that are pending

* `Walk.Held`       a body waits at a gate that knows of it, or a step is stalled;
* `Walk.Suspends`   a body is suspended;
* `Run.BlockedBy`   a branch that a run waits for: its body waits at a gate, or its step is stalled;
* `Run.Announced`   a run that is told of every gate that is opened.

Nobody is forgotten in a run under way (`Run.Reachable.tended`), and in a run that is told of every gate
whoever waits does so at a gate that is closed (`Run.Announced.closed`). So no run is pending without a
reason (`Run.Reachable.pending_reason`).
-/

namespace SignalFlow

open Branch Walk

namespace Walk

/-! ## reasons to wait -/

/-- a body waits at a gate that knows where it is, or a step is stalled -/
inductive Held (waiting : List (String × Address)) : Address → Walk → Prop
  | waits {gate : String} {here : Address} (b : Branch) (left : AsyncProgram) :
      (gate, here) ∈ waiting → Held waiting here (awaiting b (.wait gate left))
  | stalled (here : Address) (b : Branch) : Held waiting here (stalled b)

/-- the body of a branch is suspended -/
inductive Suspends (s : Setting) (b : Branch) : Doing
  | mk {program left : AsyncProgram} {gate : Option String} {w : World}
      (waiting : List (String × Address)) :
      program.resume s.isOpen w.store = .suspended gate left →
      Suspends s b (awaiting b program) w (awaiting b left) { w with shared := { w.shared with waiting } }

/-- a body is suspended, or a step stalls -/
def Halting (s : Setting) : Doing := fun walk w walk' w' =>
  (∃ b, Suspends s b walk w walk' w') ∨
    ∃ b c result, Makes s b result (.stalled c) walk w walk' w'

section
variable {s : Setting} {walk walk' : Walk} {w w' : World} {waiting waiting' : List (String × Address)}
  {here : Address}

theorem Held.mono (more : waiting ⊆ waiting') (h : Held waiting here walk) :
    Held waiting' here walk := by
  cases h with
  | waits b left there => exact .waits b left (more there)
  | stalled here b => exact .stalled here b

theorem held_waitAt {b : Branch} {program left : AsyncProgram} {gate : String}
    (suspended : program.resume s.isOpen w.store = .suspended (some gate) left) (here : Address) :
    Held (w.shared.waitAt gate here).waiting here (awaiting b left) := by
  obtain ⟨-, next, rfl⟩ := AsyncProgram.waits_of_suspended suspended
  exact .waits b next (Shared.mem_waitAt w.shared gate here)

theorem suspends_waitAt {b : Branch} {program left : AsyncProgram} {gate : String}
    (suspended : program.resume s.isOpen w.store = .suspended (some gate) left) (here : Address) :
    Suspends s b (awaiting b program) w (awaiting b left)
      { w with shared := w.shared.waitAt gate here } := by
  obtain ⟨waiting, same⟩ := w.shared.waitAt_eq gate here
  rw [same]
  exact .mk waiting suspended

theorem covers_held (s : Setting) :
    Covers s (fun _ _ _ _ => False) True fun shared => Held shared.waiting where
  mono extends' := Held.mono extends'.kept
  waits here suspended _ := held_waitAt suspended here
  pauses _ _ := trivial
  stalls here _ _ _ := .stalled here _

theorem covers_awake (s : Setting) :
    Covers s (fun walk w walk' w' => ∃ b, Suspends s b walk w walk' w') False
      fun shared => Held shared.waiting where
  mono extends' := Held.mono extends'.kept
  waits here suspended _ := held_waitAt suspended here
  pauses suspended free := free ⟨_, .mk _ suspended⟩
  stalls here _ _ _ := .stalled here _

theorem covers_nothing (s : Setting) :
    Covers s (Halting s) False fun _ _ _ => False where
  mono _ := id
  waits here suspended free := free (.inl ⟨_, suspends_waitAt suspended here⟩)
  pauses suspended free := free (.inl ⟨_, .mk _ suspended⟩)
  stalls := by
    rintro walk w _ w' b here move free rfl
    have ended : (Walk.stalled b).Ended := trivial
    obtain ⟨c, result, made⟩ := move.made ended .own
    exact free (.inr ⟨c, _, result, made⟩)

theorem avoids_nothing : Avoids s (fun _ _ _ _ => False) walk w walk' w' := by
  rintro ⟨u, x, u', x', -, inside, -⟩
  obtain ⟨-, -, -, -, own, -⟩ := inside.place
  exact own

theorem In.awaits {b : Branch} {program : AsyncProgram} (h : (awaiting b program).In walk) :
    Awaits b program walk := by
  induction h with
  | own => exact .own
  | inside queue rest hm _ ih => exact .inside queue rest hm ih

end

end Walk

theorem kept_isAsync : Kept fun b program _ =>
    b.action.isAsync = true ∨ ∃ result, program = .finish result where
  begun b args store := by
    unfold Action.started Action.isAsync
    cases b.action.body with
    | async step => exact .inl rfl
    | sync step => exact .inr ⟨_, rfl⟩
  suspended := by
    rintro b program slot isOpen store gate left (async | ⟨result, rfl⟩) suspended
    · exact .inl async
    · cases suspended

namespace Run

/-- a run that is told of every gate that is opened; `isOpen` says which gates are open by now -/
inductive Announced (signal : Signal) : (String → Bool) → Run → Prop
  | start {isOpen : String → Bool} {id : String} {startedAt : Timestamp} {input : Signal.Input}
      {run : Run} : signal.start id startedAt input = .ok run → Announced signal isOpen run
  | poll {isOpen : String → Bool} {run : Run} (elapsed : Nat) (store : Store) :
      Announced signal isOpen run → Announced signal isOpen (run.poll isOpen elapsed store).1
  | wake {isOpen : String → Bool} {run : Run} (address : Address) :
      Announced signal isOpen run → Announced signal isOpen (run.wake address)
  | opens {isOpen isOpen' : String → Bool} {run : Run} (gate : String) :
      (∀ name, isOpen' name = true → isOpen name = true ∨ name = gate) →
      Announced signal isOpen run → Announced signal isOpen' (run.gateOpened gate)
  | closes {isOpen isOpen' : String → Bool} {run : Run} :
      (∀ name, isOpen' name = true → isOpen name = true) →
      Announced signal isOpen run → Announced signal isOpen' run

/-- a run waits for a branch: its body waits at a gate that knows where it is, or its step is stalled -/
inductive BlockedBy (signal : Signal) (b : Branch) (run : Run) : Prop
  | waits {gate : String} {left : AsyncProgram} {here : Address} : b.action.isAsync = true →
      (awaiting b (.wait gate left)).At here run.walk → (gate, here) ∈ run.shared.waiting →
      BlockedBy signal b run
  | stalls : signal.policy = .stall → (stalled b).In run.walk → StepFailed signal b run →
      BlockedBy signal b run

section
variable {signal : Signal} {run : Run}

/-! ## gates that are opened -/

theorem shared_foldl_wake (there : List (String × Address)) (run : Run) :
    (there.foldl (fun run entry => run.wake entry.2) run).shared = run.shared := by
  induction there generalizing run with
  | nil => rfl
  | cons entry there ih => exact ih (run.wake entry.2)

theorem waiting_gateOpened (run : Run) (gate : String) :
    (run.gateOpened gate).shared.waiting = run.shared.waiting.filter fun entry => entry.1 ≠ gate := by
  unfold gateOpened
  rw [List.partition_eq_filter_filter]
  dsimp only
  rw [shared_foldl_wake]
  exact List.filter_congr fun entry _ => (decide_not ..).symm

/-- those who are told go on, the others wait as before -/
theorem tended_foldl_wake (there elsewhere : List (String × Address)) (run : Run)
    (h : Tended (Held (there ++ elsewhere)) [] run.walk) :
    Tended (Held elsewhere) [] (there.foldl (fun run entry => run.wake entry.2) run).walk := by
  induction there generalizing run with
  | nil => exact h
  | cons entry there ih =>
    refine ih (run.wake entry.2) (wake_tended (fun x b _ => .stalled x b) entry.2 run.walk ?_ h).1
    intro x leaf held
    cases held with
    | stalled => exact .inl (.stalled x _)
    | waits b left known =>
      rcases List.mem_cons.mp known with rfl | known
      · exact .inr rfl
      · exact .inl (.waits b left known)

theorem tended_gateOpened (gate : String) (h : Tended (Held run.shared.waiting) [] run.walk) :
    Tended (Held (run.gateOpened gate).shared.waiting) [] (run.gateOpened gate).walk := by
  unfold gateOpened
  have among : run.shared.waiting ⊆ (run.shared.waiting.partition (·.1 = gate)).1 ++
      (run.shared.waiting.partition (·.1 = gate)).2 := fun entry known =>
    List.mem_append.mpr (List.mem_partition.mp known)
  generalize run.shared.waiting.partition (·.1 = gate) = parts at among ⊢
  obtain ⟨there, elsewhere⟩ := parts
  dsimp only at among ⊢
  rw [shared_foldl_wake]
  exact tended_foldl_wake there elsewhere _ (h.mono fun _ _ _ => Held.mono among)

/-! ## polls -/

/-- **Nobody is forgotten in a run under way.** -/
theorem Reachable.tended (reachable : Reachable signal run) :
    run.settled = none → Tended (Held run.shared.waiting) [] run.walk := by
  induction reachable with
  | start started =>
    obtain ⟨args, -, rfl⟩ := Signal.start_eq started
    exact fun _ => .ready [] _
  | @poll run isOpen elapsed store _ ih =>
    cases settled : run.settled with
    | some _ =>
      rw [Run.poll, settled]
      exact ih
    | none =>
      have minded := pollAt_minded (w := ⟨store, run.shared⟩)
        (covers_held (run.setting isOpen elapsed)) (ih settled) avoids_nothing
      have becomes := (poll_becomes settled isOpen elapsed store).2
      generalize (run.poll isOpen elapsed store).1 = after at becomes ⊢
      intro pending
      cases becomes with
      | rejected | completed => cases pending
      | pending => exact minded.tended
  | wake address _ ih =>
    exact fun pending => (wake_tended (fun x b _ => .stalled x b) address _
      (fun _ _ => .inl) (ih pending)).1
  | @gateOpened run gate _ ih =>
    intro pending
    rw [run.settled_gateOpened gate] at pending
    exact tended_gateOpened gate (ih pending)

theorem Becomes.waiting {elapsed : Nat} {polled : Polled} {after : Run}
    (h : Becomes run elapsed polled after) :
    after.shared.waiting = polled.world.shared.waiting := by
  cases h with
  | rejected | pending => rfl
  | completed _ _ same =>
    subst same
    rfl

theorem Reachable.poll_extends (reachable : Reachable signal run) (isOpen : String → Bool)
    (elapsed : Nat) (store : Store) :
    (run.setting isOpen elapsed).Extends run.shared (run.poll isOpen elapsed store).1.shared := by
  cases settled : run.settled with
  | some _ =>
    rw [Run.poll, settled]
    exact .refl _ _
  | none =>
    have minded := pollAt_minded (w := ⟨store, run.shared⟩)
      (covers_held (run.setting isOpen elapsed)) (reachable.tended settled) avoids_nothing
    exact minded.grows.trans (.of_same (poll_becomes settled isOpen elapsed store).2.waiting)

theorem pending_remains {isOpen : String → Bool} {elapsed : Nat} {store : Store} {L : Doing}
    {again : Prop} {K : Shared → Reason} (covers : Covers (run.setting isOpen elapsed) L again K)
    (pending : run.settled = none) (tended : Tended (K run.shared) [] run.walk)
    (free : let s := run.setting isOpen elapsed
      let polled := run.walk.poll s ⟨store, run.shared⟩
      Avoids s L run.walk ⟨store, run.shared⟩ polled.walk polled.world) :
    let after := (run.poll isOpen elapsed store).1
    after.settled = none → Remains again (K after.shared) [] after.walk after.woken := by
  have minded := pollAt_minded (w := ⟨store, run.shared⟩) covers tended free
  have becomes := (poll_becomes pending isOpen elapsed store).2
  generalize (run.poll isOpen elapsed store).1 = after at becomes ⊢
  intro after pending
  cases becomes with
  | rejected | completed => cases pending
  | pending fine busy => exact minded.remains (isPending_of busy fine)

end

/-! ## runs that are told -/

section
variable {signal : Signal} {isOpen : String → Bool} {run : Run}

theorem Announced.reachable (announced : Announced signal isOpen run) : Reachable signal run := by
  induction announced with
  | start started => exact .start started
  | poll elapsed store _ ih => exact ih.poll _ elapsed store
  | wake address _ ih => exact ih.wake address
  | opens gate _ _ ih => exact ih.gateOpened gate
  | closes _ _ ih => exact ih

/-- **Whoever waits in a run that is told of every gate does so at a gate that is closed.** -/
theorem Announced.closed (announced : Announced signal isOpen run) :
    ∀ entry ∈ run.shared.waiting, isOpen entry.1 = false := by
  induction announced with
  | start started =>
    obtain ⟨args, -, rfl⟩ := Signal.start_eq started
    exact fun _ known => nomatch known
  | @poll isOpen run elapsed store announced ih =>
    have extends' := announced.reachable.poll_extends isOpen elapsed store
    exact fun entry known => (extends'.shut entry known).elim (ih entry) fun closed => closed
  | wake address _ ih => exact ih
  | @opens isOpen isOpen' run gate more _ ih =>
    intro entry known
    rw [waiting_gateOpened] at known
    obtain ⟨known, other⟩ := List.mem_filter.mp known
    refine Bool.eq_false_iff.mpr fun open' => ?_
    rcases more entry.1 open' with before | same
    · exact absurd before (Bool.eq_false_iff.mp (ih entry known))
    · exact of_decide_eq_true other same
  | closes fewer _ ih =>
    exact fun entry known => Bool.eq_false_iff.mpr fun open' =>
      absurd (fewer entry.1 open') (Bool.eq_false_iff.mp (ih entry known))

end

/-! ## why a run is pending -/

section
variable {name : String} {policy : Policy} {definition : List Chain} {signal : Signal} {run : Run}

theorem Reachable.blocked (created : Signal.create name policy definition = .ok signal)
    (reachable : Reachable signal run) (pending : run.settled = none)
    (someone : Someone (Held run.shared.waiting) [] run.walk) :
    ∃ b ∈ signal.tree.specs, (run.shared.slot b.id).isExecuting = true ∧ BlockedBy signal b run := by
  obtain ⟨address, leaf, stands, held⟩ := someone
  cases held with
  | @waits gate _ b left known =>
    have awaits := stands.in.awaits
    have hb : b ∈ allOf signal.tree.branches :=
      ((reachable.sound created).trail pending).awaits_mem awaits
    have executing := (reachable.watched kept_attended created pending b _ awaits).executing
    have async : b.action.isAsync = true := by
      rcases reachable.watched kept_isAsync created pending b _ awaits with async | ⟨_, same⟩
      · exact async
      · cases same
    obtain ⟨accepted, rfl⟩ := Signal.create_eq created
    exact ⟨b, Tree.specs_compile accepted ▸ hb, executing, .waits async stands known⟩
  | stalled _ b =>
    obtain ⟨hb, stall, failed⟩ := reachable.stalled_cause created stands.in
    have same : signal.policy = policy := congrArg Signal.policy (Signal.create_eq created).2
    exact ⟨b, hb, reachable.halts created pending b stands.in,
      .stalls (same.trans stall) stands.in failed⟩

theorem Reachable.settles (reachable : Reachable signal run) (isOpen : String → Bool) (elapsed : Nat)
    (store : Store) (before : run.walk = .ready signal.tree.branches ∨ run.settled.isSome = true ∨
      Past signal Halting run) :
    let after := (run.poll isOpen elapsed store).1
    after.settled.isSome = true ∨ Past signal Halting after := by
  intro after
  cases settled : run.settled with
  | some _ =>
    have same : after = run := congrArg Prod.fst (atRest_of_settled (by rw [settled]; rfl) ..)
    rw [same, settled]
    exact .inl rfl
  | none =>
    let s := run.setting isOpen elapsed
    let polled := run.walk.poll s ⟨store, run.shared⟩
    by_cases free : Avoids s (Halting s) run.walk ⟨store, run.shared⟩ polled.walk polled.world
    · rcases before with untouched | ended | past
      · cases ended : after.settled with
        | some _ => exact .inl rfl
        | none =>
          have tended : Tended (fun _ _ => False) [] run.walk := untouched ▸ .ready [] _
          have remains := pending_remains (covers_nothing _) settled tended free ended
          obtain ⟨-, -, -, never⟩ := remains.someone.resolve_left not_false
          exact never.elim
      · rw [settled] at ended
        cases ended
      · exact .inr (past.later (.poll isOpen elapsed store .now))
    · exact .inr ⟨run, isOpen, elapsed, store, reachable, settled, not_not.mp free, .now⟩

theorem Reachable.untouched (reachable : Reachable signal run) :
    run.walk = .ready signal.tree.branches ∨ run.settled.isSome = true ∨ Past signal Halting run := by
  have woken (run : Run) (address : Address) (same : run.walk = .ready signal.tree.branches) :
      (run.wake address).walk = .ready signal.tree.branches := by
    show (run.walk.wake address).1 = _
    rw [same]
    cases address <;> rfl
  induction reachable with
  | start started =>
    obtain ⟨args, -, rfl⟩ := Signal.start_eq started
    exact .inl rfl
  | poll isOpen elapsed store reachable ih =>
    exact .inr (reachable.settles isOpen elapsed store ih)
  | @wake run address _ ih =>
    rcases ih with same | settled | past
    · exact .inl (woken run address same)
    · exact .inr (.inl settled)
    · exact .inr (.inr (past.later (.wake address .now)))
  | @gateOpened run gate _ ih =>
    rcases ih with same | settled | past
    · exact .inl (gateOpened_keeps (P := fun run => run.walk = .ready signal.tree.branches) gate
        (fun _ => same) woken)
    · exact .inr (.inl (run.settled_gateOpened gate ▸ settled))
    · exact .inr (.inr (past.later (.gateOpened gate .now)))

/-- **A pending run has a reason.** If a poll leaves a run pending, and the run has not asked to be polled
again or no body was suspended in that poll, then the run waits for a branch that is executing. Either
the body of that branch waits at a gate, which is closed if the run is told of every gate; or the policy is
to stall, and the step of the branch is sequential and has failed. So a poll settles a run in which no
body was ever suspended and no sequential step has failed under that policy. -/
theorem Reachable.pending_reason (created : Signal.create name policy definition = .ok signal)
    (reachable : Reachable signal run) (isOpen : String → Bool) (elapsed : Nat) (store : Store) :
    let s := run.setting isOpen elapsed
    let polled := run.walk.poll s ⟨store, run.shared⟩
    let after := (run.poll isOpen elapsed store).1
    (after.settled = none →
      (after.woken = false ∨
        ¬ ∃ b, Passes s (Suspends s b) run.walk ⟨store, run.shared⟩ polled.walk polled.world) →
      ∃ b ∈ signal.tree.specs, (after.shared.slot b.id).isExecuting = true ∧
        BlockedBy signal b after) ∧
    (Announced signal isOpen run → ∀ entry ∈ after.shared.waiting, isOpen entry.1 = false) ∧
    (after.settled.isSome = true ∨ (∃ b, Past signal (fun s => Suspends s b) after) ∨
      policy = .stall ∧ ∃ b ∈ signal.tree.specs, StepFailed signal b after) := by
  intro s polled after
  have reached : Reachable signal after := reachable.poll isOpen elapsed store
  refine ⟨fun pending quiet => ?_, fun announced => (announced.poll elapsed store).closed, ?_⟩
  · cases settled : run.settled with
    | some _ =>
      have same : after = run := congrArg Prod.fst (atRest_of_settled (by rw [settled]; rfl) ..)
      rw [same, settled] at pending
      cases pending
    | none =>
      refine reached.blocked created pending ?_
      rcases quiet with quiet | awake
      · have remains := pending_remains (covers_held s) settled (reachable.tended settled)
          avoids_nothing pending
        refine (remains.asks.resolve_left fun asked => ?_).someone
        exact absurd asked (Bool.eq_false_iff.mp quiet)
      · have free : Avoids s (fun walk w walk' w' => ∃ b, Suspends s b walk w walk' w') run.walk
            ⟨store, run.shared⟩ polled.walk polled.world := by
          rintro ⟨u, x, u', x', first, inside, last⟩
          obtain ⟨_, _, _, _, ⟨b, own⟩, put⟩ := inside.place
          exact awake ⟨b, u, x, u', x', first, put _ own, last⟩
        have remains := pending_remains (covers_awake s) settled (reachable.tended settled) free pending
        exact remains.someone.resolve_left not_false
  · rcases reachable.settles isOpen elapsed store reachable.untouched with ended | past
    · exact .inl ended
    · obtain ⟨s, u, x, u', x', own, put⟩ := past.place
      rcases own with ⟨b, own⟩ | ⟨b, c, result, own⟩
      · exact .inr (.inl ⟨b, put _ own⟩)
      · have stalled := put (fun s => Makes s b result (.stalled c)) own
        obtain ⟨-, hb, stall, failed⟩ := stalled.stalls created
        exact .inr (.inr ⟨stall, b, hb, failed⟩)

end

/-- a body waits at a door that is closed -/
theorem pending_reason_closed :
    let send : Action := ⟨0, "send", [], none, .async fun _ => .wait "door" (.finish (.ok .next))⟩
    let definition := [Chain.parallel [.action send]]
    ∃ signal run, Signal.create "page" .reject definition = .ok signal ∧
      Announced signal (fun _ => false) run ∧
      let after := (run.poll (fun _ => false) 0 default).1
      after.settled = none ∧ after.woken = false ∧
      (∃ b ∈ signal.tree.specs, (after.shared.slot b.id).isExecuting = true ∧
        BlockedBy signal b after) ∧
      ∀ entry ∈ after.shared.waiting, (fun _ => false) entry.1 = false := by
  intro send definition
  let signal : Signal := ⟨"page", Tree.compile definition, .reject⟩
  have created : Signal.create "page" .reject definition = .ok signal := rfl
  obtain ⟨run, started⟩ : ∃ run, signal.start "r" default (.data .null) = .ok run := ⟨_, rfl⟩
  have pending : ((run.poll (fun _ => false) 0 default).1).settled.isNone = true := by
    cases started
    decide +kernel
  have quiet : ((run.poll (fun _ => false) 0 default).1).woken = false := by
    cases started
    decide +kernel
  have announced : Announced signal (fun _ => false) run := .start started
  obtain ⟨reason, closed, -⟩ :=
    announced.reachable.pending_reason created (fun _ => false) 0 default
  have pending := Option.isNone_iff_eq_none.mp pending
  exact ⟨signal, run, created, announced, pending, quiet, reason pending (.inl quiet), closed announced⟩

end Run

end SignalFlow
