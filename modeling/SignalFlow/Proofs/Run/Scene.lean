import SignalFlow.Proofs.Run.Beside
import SignalFlow.Proofs.Run.Completions
/-!
# Scenes

* `Slot.untimed`   a slot with no duration in it;
* `Scene`          the store, the arguments and the slots of a run, none of them timed;
* `World.scene`    the scene of a world;
* `Scene.begin`, `Scene.ran`, `Scene.finish`   what steps do to a scene;
* `Scene.Settles`  what has ended in the one scene stands in the other as it is.

What a step does to a world it does to the scene (`World.scene_start`, `Setting.runSync_scene`). Two
steps that lay nothing under one key may end in any order (`Scene.finish_comm`).
-/

namespace SignalFlow

open Branch Walk

/-! ## scenes -/

def Slot.untimed (slot : Slot) : Slot := { slot with duration := none }

/-- the slot of a step that has ended, in no time -/
def Slot.ended (output : Option String) (payload : Value) (slot : Slot) : Slot :=
  { slot with
    output := if payload.isNull then none else some payload
    outputPath := output
    isExecuting := false
    hasExecuted := true }

structure Scene where
  store : Store
  args : Args
  slot : Nat → Slot

def World.scene (w : World) : Scene := ⟨w.store, w.shared.args, fun id => (w.shared.slot id).untimed⟩

namespace Scene

def change (p : Scene) (id : Nat) (f : Slot → Slot) : Scene :=
  { p with slot := fun other => if other = id then f (p.slot other) else p.slot other }

def begin (p : Scene) (b : Branch) : Scene :=
  p.change b.id fun _ => { args := some p.args, isExecuting := true }

/-- a sequential step begins and its body runs, up to this view -/
def ran (p : Scene) (b : Branch) (view : View) : Scene :=
  { (p.begin b).change b.id fun slot => { slot with mutations := view.log } with
    store := view.store }

def finish (p : Scene) (b : Branch) (output : Option String) (payload : Value) : Scene :=
  { p.change b.id (Slot.ended output payload) with args := Shared.mergeArgs p.args payload }

/-- what has ended stands there as it is -/
def Settles (p q : Scene) : Prop := ∀ id, (p.slot id).hasExecuted = true → q.slot id = p.slot id

section
variable (p : Scene) {b c : Branch} {q r : Scene}

theorem change_self (id : Nat) (f : Slot → Slot) : (p.change id f).slot id = f (p.slot id) :=
  if_pos rfl

theorem change_of_ne {id other : Nat} (different : other ≠ id) (f : Slot → Slot) :
    (p.change id f).slot other = p.slot other := if_neg different

theorem change_comm {id other : Nat} (different : id ≠ other) (f g : Slot → Slot) :
    (p.change id f).change other g = (p.change other g).change id f := by
  unfold change
  congr 1
  funext n
  dsimp only
  by_cases own : n = id
  · subst own
    rw [if_neg different, if_pos rfl, if_pos rfl, if_neg different]
  · rw [if_neg own, if_neg own]

/-! ## what has ended stays -/

theorem Settles.trans {p : Scene} (h : p.Settles q) (h' : q.Settles r) : p.Settles r := by
  intro id ended
  have same := h id ended
  rw [← same]
  exact h' id (same ▸ ended)

theorem settles_change {id : Nat} (pending : (p.slot id).hasExecuted = false) (f : Slot → Slot) :
    p.Settles (p.change id f) := by
  intro other ended
  refine p.change_of_ne ?_ f
  rintro rfl
  cases pending.symm.trans ended

theorem settles_ran (fresh : p.slot b.id = {}) (view : View) : p.Settles (p.ran b view) := by
  have begun : ((p.begin b).slot b.id).hasExecuted = false := by
    unfold begin
    rw [change_self]
  have first : p.Settles (p.begin b) := p.settles_change (by rw [fresh]) _
  have second := (p.begin b).settles_change begun fun slot => { slot with mutations := view.log }
  exact first.trans second

theorem settles_begin {bs : List Branch} (fresh : ∀ b ∈ bs, p.slot b.id = {}) :
    p.Settles (bs.foldl begin p) := by
  intro id ended
  have other : ∀ b ∈ bs, b.id ≠ id := by
    rintro b hb rfl
    rw [fresh b hb] at ended
    cases ended
  clear fresh ended
  induction bs generalizing p with
  | nil => rfl
  | cons b bs ih =>
    obtain ⟨own, others⟩ := List.forall_mem_cons.mp other
    rw [List.foldl_cons, ih _ others]
    exact p.change_of_ne (Ne.symm own) _

/-! ## ends of steps -/

theorem finish_self (output : Option String) (payload : Value) :
    (p.finish b output payload).slot b.id = (p.slot b.id).ended output payload :=
  p.change_self b.id (Slot.ended output payload)

theorem finish_of_ne {id : Nat} (different : b.id ≠ id) (output : Option String)
    (payload : Value) : (p.finish b output payload).slot id = p.slot id :=
  p.change_of_ne (Ne.symm different) (Slot.ended output payload)

theorem settles_finish (pending : (p.slot b.id).hasExecuted = false) (output : Option String)
    (payload : Value) : p.Settles (p.finish b output payload) :=
  p.settles_change pending (Slot.ended output payload)

/-- two steps that lay nothing under one key may end in any order -/
theorem finish_comm (different : b.id ≠ c.id) {payload other : Value}
    (apart : ∀ e ∈ payload.entries, ∀ e' ∈ other.entries, e.1 ≠ e'.1)
    (output output' : Option String) :
    (p.finish b output payload).finish c output' other =
      (p.finish c output' other).finish b output payload := by
  have args : Shared.mergeArgs (Shared.mergeArgs p.args payload) other =
      Shared.mergeArgs (Shared.mergeArgs p.args other) payload := by
    simp only [Shared.mergeArgs_eq]
    exact Fields.merge_comm apart p.args
  have slots := congrArg Scene.slot (p.change_comm different (Slot.ended output payload)
    (Slot.ended output' other))
  show Scene.mk p.store (Shared.mergeArgs (Shared.mergeArgs p.args payload) other) _ =
    Scene.mk p.store (Shared.mergeArgs (Shared.mergeArgs p.args other) payload) _
  rw [args]
  exact congrArg (Scene.mk p.store _) slots

end

end Scene

/-! ## scenes of worlds -/

section
variable {w : World} {b : Branch}

theorem World.scene_update {id : Nat} (inside : id < w.shared.slots.length) {f g : Slot → Slot}
    (same : ∀ slot, (f slot).untimed = g slot.untimed) (store : Store) (args : Args)
    (journal : List Event) :
    World.scene ⟨store, { w.shared.updateSlot id f with args, journal }⟩ =
      { w.scene.change id g with store, args } := by
  show Scene.mk store args (fun other => ((w.shared.updateSlot id f).slot other).untimed) =
    Scene.mk store args (w.scene.change id g).slot
  congr 1
  funext other
  by_cases own : other = id
  · subst own
    rw [Shared.slot_updateSlot inside, same]
    exact (w.scene.change_self other g).symm
  · rw [Shared.slot_updateSlot_of_ne _ (Ne.symm own)]
    exact (w.scene.change_of_ne own g).symm

theorem World.scene_begin (inside : b.id < w.shared.slots.length) :
    World.scene { w with shared := w.shared.begin b } = w.scene.begin b :=
  World.scene_update (g := fun _ => { args := some w.shared.args, isExecuting := true }) inside
    (fun _ => rfl) w.store w.shared.args _

theorem World.scene_finish (inside : b.id < w.shared.slots.length) (output : Option String)
    (payload : Value) (elapsed : Nat) :
    World.scene { w with shared := w.shared.finish b output payload elapsed } =
      w.scene.finish b output payload :=
  World.scene_update (g := Slot.ended output payload) inside (fun _ => rfl) w.store _ _

theorem World.scene_ran (inside : b.id < w.shared.slots.length) (view : View) :
    World.scene ⟨view.store, (w.shared.begin b).updateSlot b.id fun slot =>
      { slot with mutations := view.log }⟩ = w.scene.ran b view := by
  have frame : Frame [b] w.shared (w.shared.begin b) := Shared.frame_begin
  have logged := World.scene_update (w := { w with shared := w.shared.begin b })
    (f := fun slot => { slot with mutations := view.log })
    (g := fun slot => { slot with mutations := view.log }) (frame.length.symm ▸ inside)
    (fun _ => rfl) view.store w.shared.args (w.shared.begin b).journal
  rw [World.scene_begin inside] at logged
  exact logged

theorem World.scene_start {bs : List Branch} (inside : ∀ b ∈ bs, b.id < w.shared.slots.length) :
    (start bs w).1.scene = bs.foldl Scene.begin w.scene := by
  rw [start_world]
  induction bs generalizing w with
  | nil => rfl
  | cons b bs ih =>
    obtain ⟨own, others⟩ := List.forall_mem_cons.mp inside
    have frame : Frame [b] w.shared (w.shared.begin b) := Shared.frame_begin
    have behind := ih (w := { w with shared := w.shared.begin b }) fun c hc => by
      rw [frame.length]
      exact others c hc
    rw [List.foldl_cons, List.foldl_cons, ← World.scene_begin own]
    exact behind

end

/-! ## sequential steps -/

/-- a sequential step ends with an outcome that the policy makes of its result, or leads nowhere -/
theorem Setting.runSync_scene {s : Setting} {w : World} {b : Branch} {body : Args → SyncProgram}
    {view : View} {result : StepResult} (isSync : b.action.body = .sync body)
    (inside : b.id < w.shared.slots.length)
    (ran : (body w.shared.args).run { store := w.store, writable := true } = (view, result)) :
    (∃ output payload, b.Yields s.policy result output payload ∧
      (s.runSync b body w).2 = .follow (b.next output) ∧
      (s.runSync b body w).1.scene = (w.scene.ran b view).finish b output payload) ∨
    (s.runSync b body w).2 = .stall ∨ ∃ error, (s.runSync b body w).2 = .fail error := by
  have sequential : b.action.isAsync = false := by
    unfold Action.isAsync
    rw [isSync]
  have frame : Frame [b] w.shared (w.shared.begin b) := Shared.frame_begin
  obtain ⟨logged, same⟩ : ∃ logged, logged = (w.shared.begin b).updateSlot b.id fun slot =>
    { slot with mutations := view.log } := ⟨_, rfl⟩
  have scene : World.scene ⟨view.store, logged⟩ = w.scene.ran b view := by
    rw [same]
    exact World.scene_ran inside view
  have length : b.id < logged.slots.length := by
    rw [same, Shared.length_updateSlot, frame.length]
    exact inside
  have after : s.runSync b body w =
      (⟨view.store, (s.conclude b result logged).1⟩, (s.conclude b result logged).2) := by
    unfold Setting.runSync
    rw [ran, same]
  rw [after]
  have leaves : s.Leaves b result logged (s.conclude b result logged) :=
    Setting.conclude_leaves sequential result
  generalize s.conclude b result logged = ended at leaves
  cases leaves with
  | @outcome output payload yields =>
    refine .inl ⟨output, payload, yields, rfl, ?_⟩
    rw [← scene]
    exact World.scene_finish (w := ⟨view.store, logged⟩) length output payload s.elapsed
  | stall => exact .inr (.inl rfl)
  | givenUp error => exact .inr (.inr ⟨error, rfl⟩)

end SignalFlow
