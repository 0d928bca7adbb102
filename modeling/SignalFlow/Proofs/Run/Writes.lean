import SignalFlow.Proofs.Run.Beside
import SignalFlow.Proofs.Run.Effects
/-!
# What writes to the store

* `SyncProgram.asked`   the changes that a body asks for on a view, each with its answer;
* `Shared.Unlogged`     no log of a concurrent branch has an entry.

Concurrent steps write nothing: a view that may not be written to answers every change with a refusal
and stays as it is (`SyncProgram.run_closed`), and no effect but that of a sequential body changes the
store (`Effect.store`). `Run.Reachable.writes` says so of every run.
-/

namespace SignalFlow

open Branch Walk Relation

/-! ## views that may not be written to -/

/-- a change that a body has asked for, and the answer to it -/
structure Asked where
  path : Path
  call : Call
  answer : Except StoreError Value

/-- the changes that a body asks for on a view, in order -/
def SyncProgram.asked : SyncProgram → View → List Asked
  | finish _, _ => []
  | get path next, view => (next (view.get? path)).asked view
  | call path change next, view =>
    let (after, answer) := view.call path change
    ⟨path, change, answer⟩ :: (next answer).asked after
  | writable next, view => (next view.writable).asked view
  | mutations next, view => (next view.log).asked view

section
variable {view : View} (closed : view.writable = false)
include closed

theorem View.call_closed (path : Path) (call : Call) :
    view.call path call = (view, .error (.readOnly call.mutator path)) := by
  rw [View.call, if_neg (Bool.eq_false_iff.mp closed)]

/-- a body that runs on such a view is refused every change, by name and path, and changes nothing -/
theorem SyncProgram.run_closed (program : SyncProgram) :
    (program.run view).1 = view ∧
      ∀ asked ∈ program.asked view, asked.answer = .error (.readOnly asked.call.mutator asked.path) := by
  induction program with
  | finish result => exact ⟨rfl, fun _ h => nomatch h⟩
  | get path next ih => exact ih _
  | call path change next ih =>
    rw [run, asked, View.call_closed closed]
    obtain ⟨kept, refused⟩ := ih (.error (.readOnly change.mutator path))
    exact ⟨kept, List.forall_mem_cons.mpr ⟨rfl, refused⟩⟩
  | writable next ih => exact ih _
  | mutations next ih => exact ih _

end

/-! ## effects -/

section
variable {s : Setting} {bs : List Branch} {w w' : World}

theorem Effect.store (effect : Effect s bs w w') :
    w'.store = w.store ∨ ∃ b ∈ bs, b.spec.isAsync = false ∧ ∃ step, b.action.body = .sync step ∧
      w'.store = ((step w.shared.args).run { store := w.store, writable := true }).1.store := by
  cases effect with
  | begin _ _ _ => exact .inl (by rw [start_world])
  | run hb sequential body _ => exact .inr ⟨_, hb, sequential, _, body, rfl⟩
  | settle _ _ _ _ _ => exact .inl rfl
  | wait _ => exact .inl rfl

/-- no log of a concurrent branch has an entry -/
def Shared.Unlogged (bs : List Branch) (shared : Shared) : Prop :=
  ∀ b ∈ bs, b.Concurrent → (shared.slot b.id).mutations = []

theorem mutations_start (bs : List Branch) {id : Nat} (empty : (w.shared.slot id).mutations = []) :
    ((start bs w).1.shared.slot id).mutations = [] := by
  induction bs generalizing w with
  | nil => exact empty
  | cons b bs ih =>
    refine ih (w := { w with shared := w.shared.begin b }) ?_
    rcases w.shared.slot_updateSlot_or b.id id
      fun _ => { args := some w.shared.args, isExecuting := true } with same | same
    · exact (congrArg Slot.mutations same).trans empty
    · exact congrArg Slot.mutations same

theorem Effect.unlogged (unique : Unique bs) (effect : Effect s bs w w')
    (h : w.shared.Unlogged bs) : w'.shared.Unlogged bs := by
  intro c hc concurrent
  have before := h c hc concurrent
  cases effect with
  | @begin members _ _ _ => exact mutations_start members before
  | @run b step hb sequential body _ =>
    have other : b.id ≠ c.id := fun same =>
      not_concurrent sequential body (unique.eq hb hc same ▸ concurrent)
    rw [(frame_runSync step).same c.id (List.forall_mem_singleton.mpr other)]
    exact before
  | @settle b _ result _ _ _ _ _ =>
    exact ((Setting.settle_ends result).sameLogs.mutations c.id).trans before
  | wait waiting => exact before

end

namespace Run

variable {name : String} {policy : Policy} {definition : List Chain} {signal : Signal} {run : Run}

theorem Reachable.unlogged (created : Signal.create name policy definition = .ok signal)
    (reachable : Reachable signal run) : run.shared.Unlogged (allOf signal.tree.branches) := by
  have unique := (Signal.numbered created).unique
  have shows : run.Shows (Shared.Unlogged (allOf signal.tree.branches)) :=
    reachable.shows created (fun _ _ _ effect => effect.unlogged unique)
      fun args b _ _ => congrArg Slot.mutations (Shared.slot_initial ..)
  obtain ⟨shared, unlogged, like⟩ := shows.like
  exact fun b hb concurrent => (like.sameLogs.mutations b.id).trans (unlogged b hb concurrent)

theorem Reachable.store_poll (created : Signal.create name policy definition = .ok signal)
    (reachable : Reachable signal run)
    (concurrent : ∀ b ∈ allOf signal.tree.branches, b.Concurrent) (isOpen : String → Bool)
    (elapsed : Nat) (store : Store) : (run.poll isOpen elapsed store).2 = store := by
  obtain ⟨w, effects, left, -⟩ := reachable.poll_effects created isOpen elapsed store
  rw [left]
  clear left
  induction effects with
  | refl => rfl
  | tail _ last ih =>
    rcases last.store with same | ⟨b, hb, sequential, step, body, -⟩
    · exact same.trans ih
    · exact absurd (concurrent b hb) (not_concurrent sequential body)

/-- **Concurrent steps write nothing.** A poll is a row of effects, each of a branch that stands where
its mark says, and no effect changes the store but that of the body of a synchronous action in a
sequential list. In a group such a body runs on a view that may not be written to: every change it asks
for is refused by name and path, and neither the log nor the store of the view changes. So no log of a
member of a group or of an asynchronous action has an entry, and where a definition places no action
but these, no poll changes the store. -/
theorem Reachable.writes (created : Signal.create name policy definition = .ok signal)
    (reachable : Reachable signal run) :
    (∀ isOpen elapsed store, ∃ w,
      ReflTransGen (Effect (run.setting isOpen elapsed) signal.tree.specs) ⟨store, run.shared⟩ w ∧
        (run.poll isOpen elapsed store).2 = w.store ∧
        w.shared.Like (run.poll isOpen elapsed store).1.shared) ∧
    (∀ s w w', Effect s signal.tree.specs w w' →
      w'.store = w.store ∨ ∃ b ∈ signal.tree.specs, b.spec.isAsync = false ∧
        ∃ step, b.action.body = .sync step ∧
          w'.store = ((step w.shared.args).run { store := w.store, writable := true }).1.store) ∧
    (∀ (a : Action) (step : Args → SyncProgram) (args : Args) (store : Store), a.body = .sync step →
      let view : View := { store, writable := false }
      a.started args store = .finish ((step args).run view).2 ∧ ((step args).run view).1 = view ∧
        ∀ asked ∈ (step args).asked view,
          asked.answer = .error (.readOnly asked.call.mutator asked.path)) ∧
    (∀ b ∈ signal.tree.specs, b.Concurrent → (run.shared.slot b.id).mutations = []) ∧
    ((∀ p ∈ Chain.placed false definition, p.2 = true ∨ p.1.isAsync = true) →
      ∀ isOpen elapsed store, (run.poll isOpen elapsed store).2 = store) := by
  obtain ⟨accepted, compiled⟩ := Signal.create_eq created
  have specs : signal.tree.specs = allOf signal.tree.branches := by
    rw [compiled]
    exact Tree.specs_compile accepted
  rw [specs]
  refine ⟨reachable.poll_effects created, fun s w w' effect => effect.store,
    fun a step args store body => ⟨?_, SyncProgram.run_closed rfl (step args)⟩,
    reachable.unlogged created, fun only => reachable.store_poll created fun b hb => ?_⟩
  · rw [Action.started, body]
  · rw [← specs, compiled] at hb
    refine only (Tree.placement b) ?_
    rw [← Tree.placements_compile accepted]
    exact List.mem_map_of_mem hb

/-- the same action is placed in a group, where it is refused, and in the list under it, where it
writes while a member of the group is still waiting; where it is placed in the group only, the store
stays as it is -/
theorem writes_nested :
    let save : Action := ⟨0, "save", [], none, .sync fun _ =>
      .call ["count"] (.set (.int 1)) fun _ => .finish (.ok (.via "done" .null))⟩
    let ask : Action := ⟨1, "ask", [], none, .async fun _ => .wait "door" (.finish (.ok .next))⟩
    let definition := [Chain.parallel [.action save, .paths [("done", [.action save])], .action ask]]
    let alone := [Chain.parallel [.action save, .action ask]]
    (∃ signal run, Signal.create "page" .reject definition = .ok signal ∧
      signal.start "r" default (.data .null) = .ok run ∧
      let after := run.poll (fun _ => false) 0 default
      (after.1.settled.isNone = true ∧ after.2.contains ["count"] = true ∧
        (after.1.shared.slots.map fun slot => slot.mutations.map Mutation.method) = [[], [.set], []]) ∧
      ∀ b ∈ signal.tree.specs, b.Concurrent → (after.1.shared.slot b.id).mutations = []) ∧
    ∃ signal run, Signal.create "page" .reject alone = .ok signal ∧
      signal.start "r" default (.data .null) = .ok run ∧
      (∀ p ∈ Chain.placed false alone, p.2 = true ∨ p.1.isAsync = true) ∧
      ∀ isOpen elapsed store, (run.poll isOpen elapsed store).2 = store := by
  intro save ask definition alone
  refine ⟨?_, ?_⟩
  · let signal : Signal := ⟨"page", Tree.compile definition, .reject⟩
    have created : Signal.create "page" .reject definition = .ok signal := rfl
    have started : signal.start "r" default (.data .null) = .ok _ := rfl
    obtain ⟨-, -, -, unlogged, -⟩ :=
      ((Reachable.start started).poll (fun _ => false) 0 default).writes created
    exact ⟨signal, _, created, started,
      ⟨by decide +kernel, by decide +kernel, by decide +kernel⟩, unlogged⟩
  · let signal : Signal := ⟨"page", Tree.compile alone, .reject⟩
    have created : Signal.create "page" .reject alone = .ok signal := rfl
    have started : signal.start "r" default (.data .null) = .ok _ := rfl
    have only : ∀ p ∈ Chain.placed false alone, p.2 = true ∨ p.1.isAsync = true := by
      simp [alone, Chain.placed, Chain.placedOf]
    obtain ⟨-, -, -, -, kept⟩ := (Reachable.start started).writes created
    exact ⟨signal, _, created, started, only, kept only⟩

end Run

end SignalFlow
