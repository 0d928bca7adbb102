import SignalFlow.Run.Basic
import SignalFlow.Proofs.Run.Progress
/-!
# Reachable runs

* `Run.Reachable`   the runs of a signal that polls, wakes and gates lead to, in any order, each poll
                    on any store and with any gates open;
* `Run.Standing`    where the walk of a run stands, by how the run is settled;
* `Run.Sound`       what holds of every reachable run (`Run.Reachable.sound`).
-/

namespace SignalFlow

open Branch Walk

/-! ## signals -/

theorem Signal.create_eq {name : String} {policy : Policy} {definition : List Chain}
    {signal : Signal} (created : Signal.create name policy definition = .ok signal) :
    analyze name definition = .ok () ∧ signal = ⟨name, Tree.compile definition, policy⟩ := by
  unfold Signal.create at created
  split at created
  · cases created
  · next accepted =>
    cases created
    exact ⟨accepted, rfl⟩

/-- the branches of a signal have numbers of their own, below the size of its tree -/
theorem Signal.numbered {name : String} {policy : Policy} {definition : List Chain}
    {signal : Signal} (created : Signal.create name policy definition = .ok signal) :
    Numbered signal.tree.size (allOf signal.tree.branches) := by
  obtain ⟨accepted, rfl⟩ := Signal.create_eq created
  exact ⟨List.pairwise_map.mp (Tree.nodup_ids accepted), fun b hb => Tree.id_lt_size accepted hb⟩

theorem Signal.start_eq {signal : Signal} {id : String} {startedAt : Timestamp}
    {input : Signal.Input} {run : Run} (started : signal.start id startedAt input = .ok run) :
    ∃ args, signal.prepareArgs input = .ok args ∧
      run = { id, signal, startedAt
              shared := .initial args signal.tree.size
              walk := .ready signal.tree.branches } := by
  unfold Signal.start at started
  split at started
  · cases started
  · next args prepared =>
    cases started
    exact ⟨args, prepared, rfl⟩

namespace Run

/-- the runs that polls, wakes and gates lead to -/
inductive Reachable (signal : Signal) : Run → Prop
  | start {id : String} {startedAt : Timestamp} {input : Signal.Input} {run : Run} :
      signal.start id startedAt input = .ok run → Reachable signal run
  | poll {run : Run} (isOpen : String → Bool) (elapsed : Nat) (store : Store) :
      Reachable signal run → Reachable signal (run.poll isOpen elapsed store).1
  | wake {run : Run} (address : Address) :
      Reachable signal run → Reachable signal (run.wake address)
  | gateOpened {run : Run} (gate : String) :
      Reachable signal run → Reachable signal (run.gateOpened gate)

/-- where a run stands: it is under way, it is complete and its trace shows it as it is, or it was
rejected with no step begun early -/
def Standing (run : Run) : Option Settled → Prop
  | none => Trail run.shared.slot (.list run.signal.tree.branches) run.walk
  | some (.completed trace) =>
    trace = run.snapshot ∧ Done run.shared.slot run.signal.tree.branches
  | some (.rejected _) => Orderly run.shared.slot run.signal.tree.branches

structure Sound (signal : Signal) (run : Run) : Prop where
  belongs : run.signal = signal
  length : run.shared.slots.length = signal.tree.size
  standing : run.Standing run.settled

section
variable {signal : Signal} {run : Run}

theorem Sound.trail (sound : Sound signal run) (pending : run.settled = none) :
    Trail run.shared.slot (.list signal.tree.branches) run.walk := by
  have standing := sound.standing
  rwa [pending, Standing, sound.belongs] at standing

theorem Sound.setting (sound : Sound signal run) (isOpen : String → Bool) (elapsed : Nat) :
    run.setting isOpen elapsed = ⟨signal.name, signal.policy, isOpen, elapsed⟩ := by
  rw [Run.setting, sound.belongs]

theorem Sound.orderly (sound : Sound signal run) :
    Orderly run.shared.slot signal.tree.branches := by
  have standing := sound.standing
  rw [← sound.belongs]
  generalize run.settled = settled at standing
  match settled, standing with
  | none, trail => exact trail.orderly
  | some (.completed _), ⟨_, done⟩ => exact done.orderly
  | some (.rejected _), orderly => exact orderly

/-- a completed run is finished, and its trace shows it as it is -/
theorem Sound.completed {trace : Trace} (sound : Sound signal run)
    (completed : run.settled = some (.completed trace)) :
    trace = run.snapshot ∧ Done run.shared.slot signal.tree.branches := by
  have standing := sound.standing
  rw [completed] at standing
  exact ⟨standing.1, sound.belongs ▸ standing.2⟩

/-! ## what leads from one run to the next -/

theorem sound_start {id : String} {startedAt : Timestamp} {input : Signal.Input}
    (started : signal.start id startedAt input = .ok run) : Sound signal run := by
  obtain ⟨args, -, rfl⟩ := Signal.start_eq started
  exact ⟨rfl, List.length_replicate, .ready (.here _) fun b _ => Shared.slot_initial ..⟩

theorem alike_close (shared : Shared) (elapsed : Nat) (bs : List Branch) :
    Alike shared.slot (shared.close elapsed).slot bs := by
  intro b _
  unfold Shared.slot Shared.close
  dsimp only
  rw [List.getElem?_map]
  cases shared.slots[b.id]? with
  | none => exact .inl rfl
  | some slot => exact .inr rfl

variable (numbered : Numbered signal.tree.size (allOf signal.tree.branches))
include numbered

theorem Sound.poll (sound : Sound signal run) (isOpen : String → Bool) (elapsed : Nat)
    (store : Store) : Sound signal (run.poll isOpen elapsed store).1 := by
  unfold Run.poll
  split
  · exact sound
  · next pending =>
    have standing := sound.standing
    rw [Option.not_isSome_iff_eq_none.mp pending] at standing
    have steps := poll_steps (run.setting isOpen elapsed) run.walk ⟨store, run.shared⟩
    obtain ⟨trail, frame⟩ := steps.keeps run.signal.tree.branches
      (by rw [sound.belongs, sound.length]; exact numbered) standing
    generalize run.walk.poll (run.setting isOpen elapsed) ⟨store, run.shared⟩ = polled
      at trail frame ⊢
    have length : polled.world.shared.slots.length = signal.tree.size :=
      frame.length.trans sound.length
    dsimp only
    split
    · refine ⟨sound.belongs, (List.length_map _).trans length, ?_⟩
      exact Orderly.alike trail.orderly (alike_close _ _ _)
    · split
      · next ended => exact ⟨sound.belongs, length, rfl, trail.done ended⟩
      · refine ⟨sound.belongs, length, ?_⟩
        rw [Option.not_isSome_iff_eq_none.mp pending]
        exact trail

theorem Sound.wake (sound : Sound signal run) (address : Address) :
    Sound signal (run.wake address) := by
  refine ⟨sound.belongs, sound.length, ?_⟩
  have standing := sound.standing
  show Run.Standing (run.wake address) run.settled
  generalize run.settled = settled at standing
  match settled, standing with
  | none, trail =>
    have steps := wake_steps (run.setting (fun _ => false) 0) address run.walk ⟨default, run.shared⟩
    exact (steps.keeps _ (by rw [sound.belongs, sound.length]; exact numbered) trail).1
  | some (.completed _), complete => exact complete
  | some (.rejected _), orderly => exact orderly

theorem Sound.gateOpened (sound : Sound signal run) (gate : String) :
    Sound signal (run.gateOpened gate) := by
  unfold Run.gateOpened
  generalize run.shared.waiting.partition (·.1 = gate) = parts
  obtain ⟨there, elsewhere⟩ := parts
  dsimp only
  have first : Sound signal { run with shared := { run.shared with waiting := elsewhere } } := by
    refine ⟨sound.belongs, sound.length, ?_⟩
    have standing := sound.standing
    dsimp only
    generalize run.settled = settled at standing
    match settled, standing with
    | none, trail => exact trail
    | some (.completed _), complete => exact complete
    | some (.rejected _), orderly => exact orderly
  generalize { run with shared := { run.shared with waiting := elsewhere } } = run at first
  induction there generalizing run with
  | nil => exact first
  | cons entry there ih => exact ih _ (first.wake numbered entry.2)

omit numbered in
/-- **Every reachable run is sound.** -/
theorem Reachable.sound {name : String} {policy : Policy} {definition : List Chain}
    (created : Signal.create name policy definition = .ok signal)
    (reachable : Reachable signal run) : Sound signal run := by
  have numbered := Signal.numbered created
  induction reachable with
  | start started => exact sound_start started
  | poll isOpen elapsed store _ ih => exact ih.poll numbered isOpen elapsed store
  | wake address _ ih => exact ih.wake numbered address
  | gateOpened gate _ ih => exact ih.gateOpened numbered gate

end

end Run

/-- a run without arguments, polled with no gate open and again when one has been opened -/
def Signal.afterGate (signal : Signal) (gate : String) : Run :=
  let run : Run :=
    { id := "r", signal, startedAt := default
      shared := .initial [] signal.tree.size, walk := .ready signal.tree.branches }
  let waiting := (run.poll (fun _ => false) 0 default).1
  ((waiting.gateOpened gate).poll (fun name => name == gate) 0 default).1

theorem Signal.reachable_afterGate (signal : Signal) (gate : String) :
    Run.Reachable signal (signal.afterGate gate) := by
  have started : signal.start "r" default (.data .null) = .ok _ := rfl
  exact ((((Run.Reachable.start started).poll _ _ _).gateOpened gate).poll _ _ _)

end SignalFlow
