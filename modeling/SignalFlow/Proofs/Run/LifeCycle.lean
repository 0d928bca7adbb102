import SignalFlow.Proofs.Run.Changes
import SignalFlow.Proofs.Run.Log
/-!
# The life cycle of a branch

* `Phase`        untouched, executing, executed, or closed without an outcome;
* `Slot.In`      what a slot shows in each phase;
* `Slot.Move`    one write to a slot: its step begins, files its log, finishes, or is closed;
* `Phase.Leads`  the phases that a slot can come to.

A slot in a phase is in no other (`Slot.In.phase_eq`), and a write leads on (`Slot.Move.leads`). Every
change of a run is a write to one slot at most (`Shared.Change.moves`), and numbers are unique, so the
phases of all branches follow (`Run.Reachable.life_cycle`).
-/

namespace SignalFlow

open Branch Relation

/-! ## phases -/

inductive Phase
  | untouched
  | executing
  | executed
  | closed
  deriving DecidableEq

/-- one phase comes right after the other -/
inductive Phase.Next : Phase → Phase → Prop
  | begin : Next untouched executing
  | finish : Next executing executed
  | close : Next executing closed

def Phase.Leads : Phase → Phase → Prop := ReflTransGen Next

namespace Slot

/-- a step has begun and shows nothing of an end -/
structure Underway (slot : Slot) : Prop extends slot.Running where
  silent : slot.output = none
  nowhere : slot.outputPath = none
  untimed : slot.duration = none

/-- a step has ended with an outcome: it shows no null, and an output that its action declares -/
structure Complete (a : Action) (slot : Slot) : Prop extends slot.Executed where
  timed : slot.duration.isSome = true
  told : slot.output ≠ some .null
  declared : ∀ name, slot.outputPath = some name → a.declares name = true

/-- a step has begun, and was given up or cut off -/
structure Closed (slot : Slot) : Prop where
  seen : slot.args.isSome = true
  idle : slot.isExecuting = false
  pending : slot.hasExecuted = false
  silent : slot.output = none
  nowhere : slot.outputPath = none

/-- what a slot of this action shows in a phase -/
def In (a : Action) (slot : Slot) : Phase → Prop
  | .untouched => slot = {}
  | .executing => slot.Underway
  | .executed => slot.Complete a
  | .closed => slot.Closed

/-- the phase that a slot shows -/
def phase (slot : Slot) : Phase :=
  if slot.hasExecuted then .executed
  else if slot.isExecuting then .executing
  else if slot.args.isSome then .closed
  else .untouched

/-- one write to the slot of a step with this action -/
inductive Move (a : Action) : Slot → Slot → Prop
  | begin (args : Args) : Move a {} { args := some args, isExecuting := true }
  | log {slot : Slot} (log : List Mutation) : slot.isExecuting = true →
      Move a slot { slot with mutations := log }
  | finish {slot : Slot} {output : Option String} (payload : Value) (elapsed : Nat) :
      slot.isExecuting = true → (∀ name, output = some name → a.declares name = true) →
      Move a slot { slot with
        output := if payload.isNull then none else some payload
        outputPath := output
        duration := some elapsed
        isExecuting := false
        hasExecuted := true }
  | close {slot : Slot} (duration : Option Nat) : slot.isExecuting = true →
      Move a slot { slot with duration, isExecuting := false }

section
variable {a : Action} {slot after : Slot} {p q : Phase}

theorem In.phase_eq (h : slot.In a p) : slot.phase = p := by
  unfold phase
  cases p with
  | untouched =>
    cases h
    rfl
  | executing =>
    have h : slot.Underway := h
    rw [h.pending, h.executing]
    rfl
  | executed =>
    have h : slot.Complete a := h
    rw [h.ended]
    rfl
  | closed =>
    have h : slot.Closed := h
    rw [h.pending, h.idle, h.seen]
    rfl

theorem In.underway (h : slot.In a p) (executing : slot.isExecuting = true) :
    p = .executing ∧ slot.Underway := by
  cases p with
  | untouched =>
    cases h
    cases executing
  | executing => exact ⟨rfl, h⟩
  | executed => exact absurd executing (Bool.eq_false_iff.mp (Executed.idle (Complete.toExecuted h)))
  | closed => exact absurd executing (Bool.eq_false_iff.mp (Closed.idle h))

theorem Move.leads (move : Move a slot after) (h : slot.In a p) :
    ∃ q, after.In a q ∧ p.Leads q := by
  cases move with
  | begin args =>
    have same : p = .untouched := h.phase_eq.symm
    subst same
    exact ⟨.executing, ⟨⟨rfl, rfl, rfl⟩, rfl, rfl, rfl⟩, .single .begin⟩
  | log log executing =>
    obtain ⟨rfl, h⟩ := h.underway executing
    exact ⟨.executing, ⟨⟨h.seen, h.executing, h.pending⟩, h.silent, h.nowhere, h.untimed⟩, .refl⟩
  | finish payload elapsed executing declared =>
    obtain ⟨rfl, h⟩ := h.underway executing
    refine ⟨.executed, ⟨⟨h.seen, rfl, rfl⟩, rfl, ?_, declared⟩, .single .finish⟩
    show (if payload.isNull then none else some payload) ≠ some .null
    intro null
    split at null
    · cases null
    · next other =>
      cases null
      exact other rfl
  | close duration executing =>
    obtain ⟨rfl, h⟩ := h.underway executing
    exact ⟨.closed, ⟨h.seen, rfl, h.pending, h.silent, h.nowhere⟩, .single .close⟩

theorem leads_of_moves (moves : ReflTransGen (Move a) slot after) (h : slot.In a p) :
    ∃ q, after.In a q ∧ p.Leads q := by
  induction moves with
  | refl => exact ⟨p, h, .refl⟩
  | tail _ last ih =>
    obtain ⟨q, h, leads⟩ := ih
    obtain ⟨r, h, further⟩ := last.leads h
    exact ⟨r, h, leads.trans further⟩

theorem args_of_moves (moves : ReflTransGen (Move a) slot after) {args : Args}
    (seen : slot.args = some args) : after.args = some args := by
  induction moves with
  | refl => exact seen
  | tail _ last ih =>
    cases last with
    | begin => cases ih
    | log | finish | close => exact ih

/-- nothing is written to the slot of a step that has begun and is not executing -/
theorem eq_of_moves (moves : ReflTransGen (Move a) slot after) (seen : slot.args.isSome = true)
    (idle : slot.isExecuting = false) : after = slot := by
  induction moves with
  | refl => rfl
  | tail _ last ih =>
    subst ih
    cases last with
    | begin => cases seen
    | log _ executing | finish _ _ executing _ | close _ executing =>
      exact absurd executing (Bool.eq_false_iff.mp idle)

end

end Slot

/-! ## changes -/

section
variable {policy : Policy} {bs : List Branch} {shared after : Shared} {b : Branch}

/-- a change writes to the slot of a branch once at most -/
theorem Shared.Change.moves (unique : Unique bs) (hb : b ∈ bs)
    (change : Shared.Change policy bs shared after) :
    ReflTransGen (Slot.Move b.action) (shared.slot b.id) (after.slot b.id) := by
  -- a change of the slot of a branch is one of `b`, or leaves its slot alone
  have update {c : Branch} {change : Slot → Slot} (hc : c ∈ bs) (inside : c.id < shared.slots.length)
      (move : Slot.Move c.action (shared.slot c.id) (change (shared.slot c.id))) :
      ReflTransGen (Slot.Move b.action) (shared.slot b.id)
        ((shared.updateSlot c.id change).slot b.id) := by
    by_cases own : c.id = b.id
    · obtain rfl := unique.eq hc hb own
      rw [Shared.slot_updateSlot inside]
      exact .single move
    · rw [Shared.slot_updateSlot_of_ne _ own]
  cases change with
  | @begin c hc inside fresh =>
    refine update hc inside ?_
    rw [fresh]
    exact .begin shared.args
  | @log c log hc inside running => exact update hc inside (.log log running.executing)
  | @finish c args result output payload elapsed hc inside running seen gives yields =>
    exact update hc inside (.finish payload elapsed running.executing yields.declared)
  | @abandon c elapsed hc inside running =>
    exact update hc inside (.close (some elapsed) running.executing)
  | like like =>
    rcases like.slot b.id with same | same
    · rw [same]
    · rw [same]
      cases executing : (shared.slot b.id).isExecuting with
      | true => exact .single (.close _ executing)
      | false =>
        rw [← executing]

theorem Shared.Change.begins (change : Shared.Change policy bs shared after) :
    (∃ b ∈ bs, b.id < shared.slots.length ∧ shared.slot b.id = {} ∧ after = shared.begin b) ∨
    (after.begun = shared.begun ∧ ∀ id, (after.slot id).args = (shared.slot id).args) := by
  cases change with
  | @begin b hb inside fresh => exact .inl ⟨b, hb, inside, fresh, rfl⟩
  | @log b log _ _ _ =>
    refine .inr ⟨rfl, fun id => ?_⟩
    rcases shared.slot_updateSlot_or b.id id fun slot => { slot with mutations := log } with same | same
    · rw [same]
    · rw [same]
  | @finish b args result output payload elapsed _ _ _ _ _ _ =>
    have same : shared.SameLogs (shared.finish b output payload elapsed) :=
      shared.sameLogs_update b.id _ rfl fun _ => ⟨rfl, rfl⟩
    exact .inr ⟨same.begun, same.args⟩
  | @abandon b elapsed _ _ _ =>
    have same : shared.SameLogs (shared.abandon b elapsed) :=
      shared.sameLogs_update b.id shared.args rfl fun _ => ⟨rfl, rfl⟩
    exact .inr ⟨same.begun, same.args⟩
  | like like => exact .inr ⟨like.sameLogs.begun, like.sameLogs.args⟩

theorem Shared.Change.listed (change : Shared.Change policy bs shared after) (h : shared.Listed) :
    after.Listed := by
  rcases change.begins with ⟨b, -, inside, fresh, rfl⟩ | ⟨begun, args⟩
  · have begun : (shared.begin b).begun = shared.begun ++ [b.id] := List.filterMap_append
    have frame : Frame [b] shared (shared.begin b) := Shared.frame_begin
    exact (h.began fresh begun (fun id other => frame.same id (List.forall_mem_singleton.mpr other))
      (Shared.begun_begin inside).seen).2
  · exact h.same begun args

end

namespace Run

variable {name : String} {policy : Policy} {definition : List Chain} {signal : Signal}
  {run after : Run}

theorem Later.moves (created : Signal.create name policy definition = .ok signal)
    (reachable : Reachable signal run) (later : Later run after) {b : Branch}
    (hb : b ∈ allOf signal.tree.branches) :
    ReflTransGen (Slot.Move b.action) (run.shared.slot b.id) (after.shared.slot b.id) := by
  have unique := (Signal.numbered created).unique
  refine later.invariant (P := fun shared =>
    ReflTransGen (Slot.Move b.action) (run.shared.slot b.id) (shared.slot b.id)) created ?_ reachable
    .refl
  exact fun _ _ change moves => moves.trans (change.moves unique hb)

theorem Reachable.phase (created : Signal.create name policy definition = .ok signal)
    (reachable : Reachable signal run) {b : Branch} (hb : b ∈ allOf signal.tree.branches) :
    ∃ phase, (run.shared.slot b.id).In b.action phase := by
  have unique := (Signal.numbered created).unique
  refine reachable.invariant (P := fun shared => ∃ phase, (shared.slot b.id).In b.action phase)
    created ?_ fun args => ⟨.untouched, Shared.slot_initial ..⟩
  rintro shared after change ⟨phase, h⟩
  obtain ⟨next, h, -⟩ := Slot.leads_of_moves (change.moves unique hb) h
  exact ⟨next, h⟩

theorem Reachable.listed (created : Signal.create name policy definition = .ok signal)
    (reachable : Reachable signal run) : run.shared.Listed :=
  reachable.invariant (P := Shared.Listed) created (fun _ _ change => change.listed)
    fun args => Shared.listed_initial args _

/-- **The life cycle of a branch.** Every branch is in exactly one phase, and comes from it only to
what it leads to. The arguments that its step has seen never change, and neither does anything in the
slot of a step that has ended. The journal shows each step begin once at most: the steps that have
begun are those that have seen arguments. -/
theorem Reachable.life_cycle (created : Signal.create name policy definition = .ok signal)
    (reachable : Reachable signal run) :
    (∀ b ∈ signal.tree.specs, ∃! phase, (run.shared.slot b.id).In b.action phase) ∧
    (∀ after, Later run after → ∀ b ∈ signal.tree.specs,
      (∀ phase phase', (run.shared.slot b.id).In b.action phase →
        (after.shared.slot b.id).In b.action phase' → phase.Leads phase') ∧
      (∀ args, (run.shared.slot b.id).args = some args →
        (after.shared.slot b.id).args = some args) ∧
      ((run.shared.slot b.id).hasExecuted = true →
        after.shared.slot b.id = run.shared.slot b.id)) ∧
    run.shared.begun.Nodup ∧
    ∀ id, id ∈ run.shared.begun ↔ (run.shared.slot id).args.isSome = true := by
  obtain ⟨accepted, rfl⟩ := Signal.create_eq created
  rw [Tree.specs_compile accepted]
  have listed := reachable.listed created
  refine ⟨fun b hb => ?_, fun after later b hb => ?_, listed.once, listed.seen⟩
  · obtain ⟨phase, h⟩ := reachable.phase created hb
    exact ⟨phase, h, fun other h' => h'.phase_eq.symm.trans h.phase_eq⟩
  · have moves := later.moves created reachable hb
    refine ⟨fun phase phase' h h' => ?_, fun args => Slot.args_of_moves moves, fun ended => ?_⟩
    · obtain ⟨next, reached, leads⟩ := Slot.leads_of_moves moves h
      rw [← h'.phase_eq, reached.phase_eq]
      exact leads
    · obtain ⟨phase, h⟩ := reachable.phase created hb
      have executed : phase = .executed := by
        rw [← h.phase_eq, Slot.phase, if_pos ended]
      subst executed
      have complete : (run.shared.slot b.id).Complete b.action := h
      exact Slot.eq_of_moves moves complete.seen complete.idle

/-- a step that ends, one that fails, one that is cut off by it, and one that is never begun -/
theorem life_cycle_rejected :
    let ask : Action := ⟨0, "ask", ["sent"], some "sent", .async fun _ =>
      .wait "door" (.finish (.ok .next))⟩
    let send : Action := ⟨1, "send", [], none, .async fun _ => .wait "door" (.finish (.error "full"))⟩
    let idle : Action := ⟨2, "idle", [], none, .async fun _ => .wait "window" (.finish (.ok .next))⟩
    let load : Action := ⟨3, "load", [], none, .sync fun _ => .finish (.ok .next)⟩
    let definition := [Chain.parallel [.action ask, .action send, .action idle], .action load]
    ∃ signal run, Signal.create "page" .reject definition = .ok signal ∧ Reachable signal run ∧
      run.shared.slots.map Slot.phase = [.executed, .closed, .closed, .untouched] ∧
      run.shared.begun = [0, 1, 2] ∧ run.shared.begun.Nodup ∧
      (∀ b ∈ signal.tree.specs, ∃! phase, (run.shared.slot b.id).In b.action phase) ∧
      ∀ after, Later run after → ∀ b ∈ signal.tree.specs, ∀ args,
        (run.shared.slot b.id).args = some args → (after.shared.slot b.id).args = some args := by
  intro ask send idle load definition
  let signal : Signal := ⟨"page", Tree.compile definition, .reject⟩
  have created : Signal.create "page" .reject definition = .ok signal := rfl
  have reachable := signal.reachable_afterGate "door"
  obtain ⟨phases, later, once, -⟩ := reachable.life_cycle created
  exact ⟨signal, _, created, reachable, by decide +kernel, by decide +kernel, once, phases,
    fun after h b hb => (later after h b hb).2.1⟩

end Run

end SignalFlow
