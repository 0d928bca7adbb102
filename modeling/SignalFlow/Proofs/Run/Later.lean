import SignalFlow.Proofs.Run.Acts
import SignalFlow.Proofs.Run.Refinement
/-!
# What becomes of a run

* `Later`   what becomes of a run by polls, wakes and gates;
* `Fixed`   the one run shows what the other shows.

A run that is settled stays as it is (`Run.Later.fixed`), and so does its snapshot.
-/

namespace SignalFlow

open Walk

namespace Run

/-- the error that a run was rejected with -/
def rejection? (run : Run) : Option RunError :=
  match run.settled with
  | some (.rejected error) => some error
  | some (.completed _) | none => none

/-- what becomes of a run by polls, wakes and gates -/
inductive Later (run : Run) : Run → Prop
  | now : Later run run
  | poll {after : Run} (isOpen : String → Bool) (elapsed : Nat) (store : Store) :
      Later run after → Later run (after.poll isOpen elapsed store).1
  | wake {after : Run} (address : Address) : Later run after → Later run (after.wake address)
  | gateOpened {after : Run} (gate : String) : Later run after → Later run (after.gateOpened gate)

/-- the one run shows what the other shows -/
structure Fixed (run after : Run) : Prop where
  settled : after.settled = run.settled
  args : after.shared.args = run.shared.args
  slots : after.shared.slots = run.shared.slots
  journal : after.shared.journal = run.shared.journal

section
variable {run after final : Run} {error : RunError}

theorem settled_of_rejection? (h : run.rejection? = some error) :
    run.settled = some (.rejected error) := by
  unfold rejection? at h
  split at h
  · next found => cases h; exact found
  · cases h
  · cases h

theorem settled_gateOpened (run : Run) (gate : String) :
    (run.gateOpened gate).settled = run.settled :=
  gateOpened_keeps (P := fun after => after.settled = run.settled) gate (fun _ => rfl)
    fun _ _ same => same

theorem Becomes.rejection? {elapsed : Nat} {polled : Polled} (pending : run.settled = none)
    (h : Becomes run elapsed polled after) : after.rejection? = polled.walk.error? := by
  unfold Run.rejection?
  cases h with
  | rejected found => exact found.symm
  | completed fine _ _ => exact fine.symm
  | pending fine _ =>
    dsimp only
    rw [pending, fine]

theorem Later.trans (later : Later run after) (later' : Later after final) : Later run final := by
  induction later' with
  | now => exact later
  | poll isOpen elapsed store _ ih => exact ih.poll isOpen elapsed store
  | wake address _ ih => exact ih.wake address
  | gateOpened gate _ ih => exact ih.gateOpened gate

theorem Later.fixed (settled : run.settled.isSome = true) (later : Later run after) :
    Fixed run after := by
  induction later with
  | now => exact ⟨rfl, rfl, rfl, rfl⟩
  | @poll after isOpen elapsed store _ fixed =>
    have ended : after.settled.isSome = true := fixed.settled ▸ settled
    rw [atRest_of_settled ended]
    exact fixed
  | wake _ _ fixed => exact ⟨fixed.settled, fixed.args, fixed.slots, fixed.journal⟩
  | gateOpened gate _ fixed =>
    refine gateOpened_keeps gate (fun _ => ?_) fun _ _ fixed => ?_
    · exact ⟨fixed.settled, fixed.args, fixed.slots, fixed.journal⟩
    · exact ⟨fixed.settled, fixed.args, fixed.slots, fixed.journal⟩

theorem Later.snapshot (settled : run.settled.isSome = true) (later : Later run after) :
    after.snapshot = run.snapshot := by
  induction later with
  | now => rfl
  | @poll after isOpen elapsed store later same =>
    have ended : after.settled.isSome = true := (later.fixed settled).settled ▸ settled
    rw [atRest_of_settled ended]
    exact same
  | wake _ _ same => exact same
  | gateOpened gate _ same =>
    exact gateOpened_keeps (P := fun after => after.snapshot = run.snapshot) gate (fun _ => same)
      fun _ _ same => same

end

end Run

end SignalFlow
