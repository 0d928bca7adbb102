import SignalFlow.Proofs.Action.Outputs
import SignalFlow.Proofs.Run.Permanent
/-!
# The outputs that steps take

What an outcome resolves to is what its step takes, in a list and in a group alike
(`Walk.Finishes.takes`), and its slot shows that from then on (`Run.Past.takes`).
`Action.Built.outputs_taken`: so a step whose outcome names no output takes its default, and one whose
outcome names an output takes it where it may.
-/

namespace SignalFlow

open Branch Walk

section
variable {s : Setting} {bs : List Branch} {b : Branch} {shared : Shared} {outcome : Outcome}
  {output : Option String} {u u' : Walk} {x x' : World}

theorem Setting.conclude_of_resolve (resolved : b.action.resolve outcome.path = .ok output) :
    s.conclude b (.ok outcome) shared = s.advance b output outcome.payload shared := by
  unfold conclude
  dsimp only
  rw [resolved]

theorem Setting.settle_of_resolve (resolved : b.action.resolve outcome.path = .ok output) :
    s.settle b (.ok outcome) shared = s.advance b output outcome.payload shared := by
  unfold settle
  dsimp only
  rw [resolved]

/-- **A step takes the output that its outcome resolves to.** -/
theorem Walk.Finishes.takes (finishes : Finishes s b (.ok outcome) u x u' x')
    (resolved : b.action.resolve outcome.path = .ok output) (stands : Stands bs x.shared.slot u)
    (inside : ∀ b ∈ bs, b.id < x.shared.slots.length) :
    b ∈ bs ∧ (x'.shared.slot b.id).Executed ∧ (x'.shared.slot b.id).outputPath = output := by
  cases finishes with
  | @run step _ rest body came =>
    obtain ⟨hb, -⟩ := stands.sequential
    refine ⟨hb, ?_⟩
    unfold Setting.runSync
    generalize (step x.shared.args).run { store := x.store, writable := true } = ran at came ⊢
    obtain ⟨view, result⟩ := ran
    obtain rfl : result = .ok outcome := came
    dsimp only
    rw [Setting.conclude_of_resolve resolved]
    -- the log goes into the slot before the step ends
    have first : Frame [b] x.shared (x.shared.begin b) := Shared.frame_begin
    have length : b.id < (x.shared.begin b).slots.length := first.length ▸ inside b hb
    have logged := Shared.slot_begin_log (inside b hb) view.log
    refine Shared.executed_finish ?_ ?_ output outcome.payload s.elapsed
    · rwa [Shared.length_updateSlot]
    · rw [logged]
      exact ⟨rfl, rfl⟩
  | settle came =>
    obtain ⟨hb, begun⟩ := stands.open
    refine ⟨hb, ?_⟩
    rw [Setting.settle_of_resolve resolved]
    exact Shared.executed_finish (inside b hb) begun output outcome.payload s.elapsed

end

namespace Run

variable {name : String} {policy : Policy} {definition : List Chain} {signal : Signal} {run : Run}
  {b : Branch} {outcome : Outcome}

theorem Past.takes {output : Option String}
    (created : Signal.create name policy definition = .ok signal)
    (past : Past signal (fun s => Finishes s b (.ok outcome)) run)
    (resolved : b.action.resolve outcome.path = .ok output) :
    (run.shared.slot b.id).Executed ∧ (run.shared.slot b.id).outputPath = output := by
  obtain ⟨s, u, x, u', x', -, -, finishes, stands, length, changes⟩ :=
    past.moment created fun s u x u' x' h => .move h.move
  have numbered := Signal.numbered created
  obtain ⟨hb, executed, took⟩ := finishes.takes resolved stands fun b hb => length ▸ numbered.inside b hb
  have moves := moves_of_changes numbered.unique hb changes
  rw [Slot.eq_of_moves moves executed.seen executed.idle]
  exact ⟨executed, took⟩

theorem Reachable.declared (created : Signal.create name policy definition = .ok signal)
    (reachable : Reachable signal run) (hb : b ∈ allOf signal.tree.branches) {output : String}
    (took : (run.shared.slot b.id).outputPath = some output) : b.action.declares output = true := by
  obtain ⟨phase, h⟩ := reachable.phase created hb
  cases phase with
  | untouched =>
    have untouched : run.shared.slot b.id = {} := h
    rw [untouched] at took
    cases took
  | executing =>
    have underway : (run.shared.slot b.id).Underway := h
    cases underway.nowhere.symm.trans took
  | executed =>
    have complete : (run.shared.slot b.id).Complete b.action := h
    exact complete.declared output took
  | closed =>
    have closed : (run.shared.slot b.id).Closed := h
    cases closed.nowhere.symm.trans took

theorem Past.among {result : StepResult} (created : Signal.create name policy definition = .ok signal)
    (past : Past signal (fun s => Finishes s b result) run) : b ∈ allOf signal.tree.branches := by
  obtain ⟨s, u, x, u', x', -, -, finishes, stands, -, -⟩ :=
    past.moment created fun s u x u' x' h => .move h.move
  cases finishes with
  | run => exact stands.sequential.1
  | settle => exact stands.open.1

end Run

/-- **A default output can always be taken.** Whatever the builders of an action were called with, it
declares its default output, and an outcome that names none resolves to that; an outcome that names an
output resolves to it just if the action declares no outputs or lists it. In every run, and wherever the
action stands there, a step that has come to an outcome shows that it took the output. -/
theorem Action.Built.outputs_taken {a : Action} (built : a.Built) :
    (∀ output, a.defaultOutput = some output →
      a.declares output = true ∧ a.resolve none = .ok (some output)) ∧
    (∀ output, a.resolve (some output) = .ok (some output) ↔ a.outputs = [] ∨ output ∈ a.outputs) ∧
    ∀ name policy definition signal run b outcome,
      Signal.create name policy definition = .ok signal → b.action = a →
      Run.Past signal (fun s => Walk.Finishes s b (.ok outcome)) run →
        (outcome.path = none → (run.shared.slot b.id).hasExecuted = true ∧
          (run.shared.slot b.id).outputPath = a.defaultOutput) ∧
        ∀ output, outcome.path = some output →
          ((run.shared.slot b.id).outputPath = some output ↔
            a.outputs = [] ∨ output ∈ a.outputs) := by
  refine ⟨fun output default => ?_, fun output => resolve_some_iff, ?_⟩
  · exact ⟨built.declares_default default, default ▸ built.resolve_none⟩
  · rintro name policy definition signal run b outcome created rfl past
    refine ⟨fun unnamed => ?_, fun output named => ⟨fun took => ?_, fun declared => ?_⟩⟩
    · obtain ⟨executed, took⟩ := past.takes created (unnamed ▸ built.resolve_none)
      exact ⟨executed.ended, took⟩
    · exact declares_iff.mp (past.reachable.declared created (past.among created) took)
    · exact (past.takes created (named ▸ resolve_some_iff.mpr declared)).2

/-- a default output that was declared before the list was emptied, then another one: the step takes it,
and may take the first one too, but no other -/
theorem Action.outputs_taken_replaced :
    let save : Action := { identity := 0, name := "save", body := .sync fun _ => .finish (.ok .next) }
    let built := ((save.withDefaultOutput 1 "saved").withOutputs 2 []).withDefaultOutput 3 "kept"
    ∃ signal run b, Signal.create "page" .reject [.action built] = .ok signal ∧ b.action = built ∧
      Run.Past signal (fun s => Walk.Finishes s b (.ok .next)) run ∧
      (run.shared.slot b.id).hasExecuted = true ∧ (run.shared.slot b.id).outputPath = some "kept" ∧
      built.resolve (some "saved") = .ok (some "saved") ∧
      built.resolve (some "lost") ≠ .ok (some "lost") := by
  intro save built
  let signal : Signal := ⟨"page", Tree.compile [.action built], .reject⟩
  let first : Run := { id := "r", signal, startedAt := default
                       shared := .initial [] signal.tree.size, walk := .ready signal.tree.branches }
  let run : Run := (first.poll (fun _ => false) 0 default).1
  have created : Signal.create "page" .reject [.action built] = .ok signal := rfl
  have started : signal.start "r" default (.data .null) = .ok first := rfl
  obtain ⟨b, own, past⟩ : ∃ b, b.action = built ∧
      Run.Past signal (fun s => Walk.Finishes s b (.ok .next)) run :=
    ⟨_, rfl, first, fun _ => false, 0, default, .start started, rfl,
      ⟨_, _, _, _, .refl .., .here (.run [] rfl rfl), .refl ..⟩, .now⟩
  have made : built.Built := .withDefaultOutput 3 "kept" (.withOutputs 2 [] (.withDefaultOutput 1 "saved"
    (.new 0 "save" _)))
  obtain ⟨-, named, taken⟩ := made.outputs_taken
  obtain ⟨takes, -⟩ := taken _ _ _ signal run b .next created own past
  obtain ⟨executed, took⟩ := takes rfl
  refine ⟨signal, run, b, created, own, past, executed, took, (named "saved").mpr (by decide), ?_⟩
  exact fun other => absurd ((named "lost").mp other) (by decide)

end SignalFlow
