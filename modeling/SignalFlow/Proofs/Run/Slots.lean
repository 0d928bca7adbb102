import SignalFlow.Proofs.Run.Poll
/-!
# What a step does to the slots

* `Shared.slot`      the slot of a number;
* `Frame`            no slots but those of some branches have changed;
* `Slot.Begun`       a step has begun and has no outcome;
* `Slot.Executed`    a step has ended with an outcome;
* `After.Shown`      what the slot of a step shows, by the way that the walk goes on.

A step changes its own slot only, and the slot shows the way (`runSync_shown`, `settle_shown`). The
members of a group all begin before any of them goes on (`start_begun`).
-/

namespace SignalFlow

/-- a step has begun and has no outcome: it is running, stalled or given up -/
structure Slot.Begun (slot : Slot) : Prop where
  seen : slot.args.isSome = true
  pending : slot.hasExecuted = false

/-- a step has ended with an outcome -/
structure Slot.Executed (slot : Slot) : Prop where
  seen : slot.args.isSome = true
  ended : slot.hasExecuted = true
  idle : slot.isExecuting = false

/-- what the slot of a step shows when the walk goes on this way -/
def After.Shown (b : Branch) (slot : Slot) : After → Prop
  | .follow items => slot.Executed ∧ items = b.next slot.outputPath
  | .stall | .fail _ => slot.Begun

namespace Shared

/-- the slot of a number -/
def slot (shared : Shared) (id : Nat) : Slot := shared.slots[id]?.getD {}

theorem slot_initial (args : Args) (size id : Nat) : (initial args size).slot id = {} := by
  unfold slot initial
  rw [List.getElem?_replicate]
  split <;> rfl

section
variable (shared : Shared) (b : Branch)

theorem length_updateSlot (id : Nat) (change : Slot → Slot) :
    (shared.updateSlot id change).slots.length = shared.slots.length := List.length_modify ..

theorem slot_updateSlot_of_ne {id other : Nat} (different : id ≠ other) (change : Slot → Slot) :
    (shared.updateSlot id change).slot other = shared.slot other := by
  unfold slot
  rw [updateSlot, List.getElem?_modify_ne _ _ different]

variable {shared}

theorem slot_updateSlot {id : Nat} (inside : id < shared.slots.length) (change : Slot → Slot) :
    (shared.updateSlot id change).slot id = change (shared.slot id) := by
  unfold slot
  rw [updateSlot, List.getElem?_modify_eq, List.getElem?_eq_getElem inside]
  rfl

end

end Shared

/-! ## frames -/

/-- no slots but those of these branches have changed -/
structure Frame (bs : List Branch) (before after : Shared) : Prop where
  length : after.slots.length = before.slots.length
  same : ∀ id, (∀ b ∈ bs, b.id ≠ id) → after.slot id = before.slot id

section
variable {bs more : List Branch} {first second third : Shared}

theorem Frame.refl (bs : List Branch) (shared : Shared) : Frame bs shared shared :=
  ⟨rfl, fun _ _ => rfl⟩

theorem Frame.trans (h : Frame bs first second) (h' : Frame bs second third) :
    Frame bs first third :=
  ⟨h'.length.trans h.length, fun id other => (h'.same id other).trans (h.same id other)⟩

theorem Frame.mono (h : Frame bs first second) (larger : bs ⊆ more) : Frame more first second :=
  ⟨h.length, fun id other => h.same id fun b hb => other b (larger hb)⟩

theorem Frame.update (b : Branch) (shared : Shared) (change : Slot → Slot) :
    Frame [b] shared (shared.updateSlot b.id change) :=
  ⟨shared.length_updateSlot b.id change, fun _ other =>
    shared.slot_updateSlot_of_ne (other b (List.mem_singleton_self b)) change⟩

end

/-! ## steps -/

namespace Shared

variable {shared : Shared} {b : Branch}

theorem frame_begin : Frame [b] shared (shared.begin b) :=
  ⟨(Frame.update b shared _).length, (Frame.update b shared _).same⟩

theorem frame_finish (output : Option String) (payload : Value) (elapsed : Nat) :
    Frame [b] shared (shared.finish b output payload elapsed) :=
  ⟨(Frame.update b shared _).length, (Frame.update b shared _).same⟩

theorem frame_abandon (elapsed : Nat) : Frame [b] shared (shared.abandon b elapsed) :=
  ⟨(Frame.update b shared _).length, (Frame.update b shared _).same⟩

variable (inside : b.id < shared.slots.length)
include inside

theorem slot_begin :
    (shared.begin b).slot b.id = { args := some shared.args, isExecuting := true } :=
  slot_updateSlot inside fun _ => _

theorem slot_begin_log (log : List Mutation) :
    ((shared.begin b).updateSlot b.id fun slot => { slot with mutations := log }).slot b.id =
      { args := some shared.args, isExecuting := true, mutations := log } := by
  rw [slot_updateSlot (frame_begin.length.symm ▸ inside), slot_begin inside]

theorem begun_begin : ((shared.begin b).slot b.id).Begun := by
  rw [slot_begin inside]
  exact ⟨rfl, rfl⟩

theorem begun_abandon (begun : (shared.slot b.id).Begun) (elapsed : Nat) :
    ((shared.abandon b elapsed).slot b.id).Begun := by
  have own := slot_updateSlot inside fun slot =>
    { slot with duration := some elapsed, isExecuting := false }
  exact ⟨(congrArg (·.args.isSome) own).trans begun.seen,
    (congrArg Slot.hasExecuted own).trans begun.pending⟩

theorem executed_finish (begun : (shared.slot b.id).Begun) (output : Option String)
    (payload : Value) (elapsed : Nat) :
    let slot := (shared.finish b output payload elapsed).slot b.id
    slot.Executed ∧ slot.outputPath = output := by
  have own := slot_updateSlot inside fun slot =>
    { slot with
      output := if payload.isNull then none else some payload
      outputPath := output
      duration := some elapsed
      isExecuting := false
      hasExecuted := true }
  exact ⟨⟨(congrArg (·.args.isSome) own).trans begun.seen, congrArg Slot.hasExecuted own,
    congrArg Slot.isExecuting own⟩, congrArg Slot.outputPath own⟩

end Shared

namespace Setting

variable {s : Setting} {b : Branch} {shared : Shared}
  (inside : b.id < shared.slots.length) (begun : (shared.slot b.id).Begun)
include inside begun

theorem advance_shown (output : Option String) (payload : Value) :
    let after := s.advance b output payload shared
    Frame [b] shared after.1 ∧ after.2.Shown b (after.1.slot b.id) := by
  obtain ⟨executed, took⟩ := Shared.executed_finish inside begun output payload s.elapsed
  exact ⟨Shared.frame_finish .., executed, congrArg b.next took.symm⟩

theorem abandon_shown (error : RunError) :
    let after := shared.abandon b s.elapsed
    Frame [b] shared after ∧ (After.fail error).Shown b (after.slot b.id) :=
  ⟨Shared.frame_abandon s.elapsed, Shared.begun_abandon inside begun s.elapsed⟩

theorem stepFailed_shown (message : String) :
    let after := s.stepFailed b message shared
    Frame [b] shared after.1 ∧ after.2.Shown b (after.1.slot b.id) := by
  unfold stepFailed
  cases s.policy with
  | stall => exact ⟨.refl .., begun⟩
  | reject => exact abandon_shown inside begun _
  | errorOutput =>
    dsimp only
    split
    · exact advance_shown inside begun ..
    · exact abandon_shown inside begun _

theorem conclude_shown (result : StepResult) :
    let after := s.conclude b result shared
    Frame [b] shared after.1 ∧ after.2.Shown b (after.1.slot b.id) := by
  unfold conclude
  cases result with
  | error message => exact stepFailed_shown inside begun message
  | ok outcome =>
    dsimp only
    split
    · exact stepFailed_shown inside begun _
    · exact advance_shown inside begun ..

/-- a concurrent step changes its own slot, which shows the way; it never stalls -/
theorem settle_shown (result : StepResult) :
    let after := s.settle b result shared
    Frame [b] shared after.1 ∧ after.2.Shown b (after.1.slot b.id) ∧ after.2 ≠ .stall := by
  unfold settle
  cases result with
  | error message =>
    obtain ⟨frame, shown⟩ := abandon_shown inside begun (.asyncStepFailed (s.site b) message)
    exact ⟨frame, shown, fun e => nomatch e⟩
  | ok outcome =>
    dsimp only
    split
    · next output _ =>
      obtain ⟨frame, shown⟩ := abandon_shown inside begun (.undeclaredOutput (s.site b) output)
      exact ⟨frame, shown, fun e => nomatch e⟩
    · obtain ⟨frame, shown⟩ := advance_shown inside begun _ outcome.payload
      exact ⟨frame, shown, fun e => nomatch e⟩

omit begun in
theorem runSync_shown (step : Args → SyncProgram) (store : Store) :
    let after := s.runSync b step ⟨store, shared⟩
    Frame [b] shared after.1.shared ∧ after.2.Shown b (after.1.shared.slot b.id) := by
  unfold runSync
  dsimp only
  obtain ⟨view, result⟩ := (step shared.args).run { store, writable := true }
  dsimp only
  -- the log goes into the slot between the beginning and the end of the step
  have first : Frame [b] shared (shared.begin b) := Shared.frame_begin
  have length : b.id < (shared.begin b).slots.length := first.length ▸ inside
  have begun := Shared.begun_begin inside
  have logged := Shared.slot_updateSlot length fun slot => { slot with mutations := view.log }
  have second := Frame.update b (shared.begin b) fun slot => { slot with mutations := view.log }
  obtain ⟨third, shown⟩ := conclude_shown (s := s) (second.length ▸ length)
    ⟨(congrArg (·.args.isSome) logged).trans begun.seen,
      (congrArg Slot.hasExecuted logged).trans begun.pending⟩ result
  exact ⟨(first.trans second).trans third, shown⟩

end Setting

/-! ## groups -/

namespace Walk

theorem frame_start (bs : List Branch) (w : World) : Frame bs w.shared (start bs w).1.shared := by
  induction bs generalizing w with
  | nil => exact .refl ..
  | cons b bs ih =>
    have first : Frame [b] w.shared (w.shared.begin b) := Shared.frame_begin
    have behind := ih { w with shared := w.shared.begin b }
    exact (first.mono (by simp)).trans (behind.mono (by simp))

/-- all members of a group have begun, each on its own program -/
theorem start_begun {bs : List Branch} {w : World}
    (inside : ∀ b ∈ bs, b.id < w.shared.slots.length) :
    ∀ b ∈ bs, ((start bs w).1.shared.slot b.id).Begun := by
  induction bs generalizing w with
  | nil => exact fun _ h => nomatch h
  | cons b bs ih =>
    have first : Frame [b] w.shared (w.shared.begin b) := Shared.frame_begin
    have others := ih (w := { w with shared := w.shared.begin b }) fun c hc =>
      first.length ▸ inside c (List.mem_cons_of_mem _ hc)
    intro c hc
    by_cases again : ∃ d ∈ bs, d.id = c.id
    · obtain ⟨d, hd, e⟩ := again
      exact e ▸ others d hd
    · rcases List.mem_cons.mp hc with rfl | hc
      · have kept := (frame_start bs { w with shared := w.shared.begin c }).same c.id
          fun d hd e => again ⟨d, hd, e⟩
        exact kept ▸ Shared.begun_begin (inside c List.mem_cons_self)
      · exact absurd ⟨c, hc, rfl⟩ again

end Walk

end SignalFlow
