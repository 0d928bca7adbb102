import Mathlib.Data.List.Nodup
import SignalFlow.Proofs.Definition.ReadBack
import SignalFlow.Proofs.Run.Acts
/-!
# The logs of a run replay to its store

* `NeverApplies`     a body that asks for no `apply`, whose function a log does not keep;
* `Store.Replays`    a log that leads from one store to another, with no entry passed over;
* `Shared.begun`     the branches of a run in the order in which they began;
* `Shared.log`       their logs in this order, one behind the other;
* `Shared.SameLogs`  nothing began, and no log changed;
* `Logged`           every branch that began is listed once, and the logs lead to the store.

A writable view logs what it hands on to its store (`NeverApplies.run_replays`). A sequential step is
the only act that writes to the store, and the last to have begun (`Logged.run`), so its log goes
behind all others. `Run.Alone.store_eq_replay`: at every point between two polls the logs replay to the
store.
-/

namespace SignalFlow

open Walk

/-! ## bodies -/

/-- whatever it is answered, the body asks for no `apply` -/
def SyncProgram.NeverApplies : SyncProgram → Prop
  | finish _ => True
  | get _ next => ∀ found, (next found).NeverApplies
  | call _ change next => change.mutator ≠ .apply ∧ ∀ answer, (next answer).NeverApplies
  | writable next => ∀ may, (next may).NeverApplies
  | mutations next => ∀ log, (next log).NeverApplies

def Action.NeverApplies (action : Action) : Prop :=
  ∀ step, action.body = .sync step → ∀ args, (step args).NeverApplies

theorem Mutation.call?_ofCall (path : Path) {call : Call} (kept : call.mutator ≠ .apply) :
    (ofCall path call).call? = some call := by
  cases call with
  | splice start count items =>
    show (do
      let start ← (Value.nat start).word?
      let count ← (Value.nat count).word?
      some (Call.splice start count items)) = _
    rw [Value.word?_nat, Value.word?_nat]
    rfl
  | apply _ => exact absurd rfl kept
  | set _ | merge _ | deepMerge _ | concat _ | unset | push _ | unshift _ => rfl

theorem View.call_writable {view : View} (writable : view.writable = true) (path : Path)
    (call : Call) :
    view.call path call =
      ({ view with
          store := (view.store.call path call).1, log := view.log ++ [.ofCall path call] },
        (view.store.call path call).2) := by
  rw [View.call, if_pos writable]

/-- the log leads from one store to the other, and each of its entries stands for a call -/
structure Store.Replays (before after : Store) (log : List Mutation) : Prop where
  calls : ∀ m ∈ log, m.call?.isSome = true
  reached : after = before.replay log

theorem Store.Replays.nil (store : Store) : store.Replays store [] :=
  ⟨fun _ h => absurd h List.not_mem_nil, rfl⟩

theorem Store.Replays.append {first second third : Store} {log more : List Mutation}
    (h : first.Replays second log) (h' : second.Replays third more) :
    first.Replays third (log ++ more) := by
  refine ⟨List.forall_mem_append.mpr ⟨h.calls, h'.calls⟩, ?_⟩
  rw [Store.replay_append, ← h.reached, ← h'.reached]

theorem Store.Replays.call (store : Store) (path : Path) {call : Call}
    (kept : call.mutator ≠ .apply) :
    store.Replays (store.call path call).1 [.ofCall path call] := by
  have decoded := Mutation.call?_ofCall path kept
  constructor
  · intro m hm
    rw [List.mem_singleton.mp hm, decoded]
    rfl
  · show _ = Mutation.perform store (.ofCall path call)
    rw [Mutation.perform, decoded]
    rfl

/-- the log of a body leads from the store that it was given to the one that it leaves -/
theorem SyncProgram.NeverApplies.run_replays {program : SyncProgram} (never : program.NeverApplies)
    {view : View} (writable : view.writable = true) {initial : Store}
    (already : initial.Replays view.store view.log) :
    initial.Replays (program.run view).1.store (program.run view).1.log := by
  induction program generalizing view with
  | finish result => exact already
  | get path next ih => exact ih _ (never _) writable already
  | call path change next ih =>
    obtain ⟨kept, behind⟩ := never
    rw [SyncProgram.run, View.call_writable writable]
    exact ih _ (behind _) writable (already.append (.call view.store path kept))
  | writable next ih => exact ih _ (never _) writable already
  | mutations next ih => exact ih _ (never _) writable already

/-! ## logs -/

/-- the branch that begins with this entry -/
def Event.begun? : Event → Option Nat
  | .began id _ => some id
  | .ended .. | .givenUp _ => none

namespace Shared

/-- the numbers of the branches that have begun, in this order -/
def begun (shared : Shared) : List Nat := shared.journal.filterMap Event.begun?

/-- the logs of the branches in the order in which they began -/
def log (shared : Shared) : List Mutation :=
  shared.begun.flatMap fun id => (shared.slot id).mutations

structure SameLogs (before after : Shared) : Prop where
  begun : after.begun = before.begun
  args : ∀ id, (after.slot id).args = (before.slot id).args
  mutations : ∀ id, (after.slot id).mutations = (before.slot id).mutations

section
variable {first second : Shared} (shared : Shared)

theorem Like.sameLogs (like : first.Like second) : SameLogs first second where
  begun := congrArg (List.filterMap Event.begun?) like.journal
  args id := by rcases like.slot id with same | same <;> rw [same]
  mutations id := by rcases like.slot id with same | same <;> rw [same]

theorem slot_updateSlot_or (id other : Nat) (change : Slot → Slot) :
    (shared.updateSlot id change).slot other = shared.slot other ∨
      (shared.updateSlot id change).slot other = change (shared.slot other) := by
  by_cases own : id = other
  · subst own
    by_cases inside : id < shared.slots.length
    · exact .inr (slot_updateSlot inside change)
    · left
      unfold slot updateSlot
      rw [List.modify_eq_self (Nat.not_lt.mp inside)]
  · exact .inl (shared.slot_updateSlot_of_ne own change)

/-- a change of a slot that is not about its log, with entries of the journal that begin nothing -/
theorem sameLogs_update (id : Nat) {change : Slot → Slot} {events : List Event} (args : Args)
    (quiet : events.filterMap Event.begun? = [])
    (kept : ∀ slot, (change slot).args = slot.args ∧ (change slot).mutations = slot.mutations) :
    SameLogs shared
      { shared.updateSlot id change with args, journal := shared.journal ++ events } := by
  have slots (other : Nat) :
      ((shared.updateSlot id change).slot other).args = (shared.slot other).args ∧
        ((shared.updateSlot id change).slot other).mutations = (shared.slot other).mutations := by
    rcases shared.slot_updateSlot_or id other change with same | same
    · rw [same]
      exact ⟨rfl, rfl⟩
    · rw [same]
      exact kept (shared.slot other)
  refine ⟨?_, fun other => (slots other).1, fun other => (slots other).2⟩
  show (shared.journal ++ events).filterMap Event.begun? = shared.journal.filterMap Event.begun?
  rw [List.filterMap_append, quiet, List.append_nil]

end

end Shared

theorem Setting.Ends.sameLogs {s : Setting} {b : Branch} {shared : Shared} {ended : Shared × After}
    {error? : Option RunError} (h : s.Ends b shared ended error?) : shared.SameLogs ended.1 := by
  cases h with
  | outcome output payload => exact shared.sameLogs_update b.id _ rfl fun _ => ⟨rfl, rfl⟩
  | stall => exact ⟨rfl, fun _ => rfl, fun _ => rfl⟩
  | givenUp error => exact shared.sameLogs_update b.id shared.args rfl fun _ => ⟨rfl, rfl⟩

/-! ## runs -/

/-- every branch that began is listed once -/
structure Shared.Listed (shared : Shared) : Prop where
  once : shared.begun.Nodup
  seen : ∀ id, id ∈ shared.begun ↔ (shared.slot id).args.isSome = true

section
variable {before after : Shared}

theorem Shared.listed_initial (args : Args) (size : Nat) : (Shared.initial args size).Listed := by
  refine ⟨List.nodup_nil, fun id => ?_⟩
  rw [Shared.slot_initial]
  exact iff_of_false List.not_mem_nil Bool.false_ne_true

theorem Shared.Listed.same (h : before.Listed) (begun : after.begun = before.begun)
    (args : ∀ id, (after.slot id).args = (before.slot id).args) : after.Listed :=
  ⟨begun ▸ h.once, fun id => by rw [begun, args]; exact h.seen id⟩

theorem Shared.Listed.began {b : Branch} (h : before.Listed) (fresh : before.slot b.id = {})
    (begun : after.begun = before.begun ++ [b.id])
    (others : ∀ id, b.id ≠ id → after.slot id = before.slot id)
    (own : (after.slot b.id).args.isSome = true) : b.id ∉ before.begun ∧ after.Listed := by
  have absent : b.id ∉ before.begun := by
    rw [h.seen, fresh]
    exact Bool.false_ne_true
  refine ⟨absent, ?_, fun id => ?_⟩
  · rw [begun, ← List.concat_eq_append]
    exact h.once.concat absent
  · rw [begun, List.mem_append, List.mem_singleton]
    by_cases same : b.id = id
    · subst same
      exact iff_of_true (.inr rfl) own
    · rw [others id same, ← h.seen]
      exact or_iff_left fun e => same e.symm

end

/-- every branch that began is listed once, the others have logged nothing, and the logs lead from
the initial store to the present one -/
structure Logged (initial : Store) (w : World) : Prop extends w.shared.Listed where
  quiet : ∀ id, id ∉ w.shared.begun → (w.shared.slot id).mutations = []
  replays : initial.Replays w.store w.shared.log

section
variable {s : Setting} {initial store : Store} {w : World} {before after : Shared} {b : Branch}

theorem Shared.SameLogs.log (same : before.SameLogs after) : after.log = before.log := by
  unfold Shared.log
  rw [same.begun]
  exact List.flatMap_congr fun id _ => same.mutations id

theorem Logged.same (h : Logged initial ⟨store, before⟩) (same : before.SameLogs after) :
    Logged initial ⟨store, after⟩ where
  toListed := h.toListed.same same.begun same.args
  quiet id := by rw [same.begun, same.mutations]; exact h.quiet id
  replays := by rw [same.log]; exact h.replays

/-- a branch begins that had not begun, and its log goes behind all others -/
theorem Logged.began (h : Logged initial w) (fresh : w.shared.slot b.id = {})
    (begun : after.begun = w.shared.begun ++ [b.id])
    (others : ∀ id, b.id ≠ id → after.slot id = w.shared.slot id)
    (own : (after.slot b.id).args.isSome = true)
    (replays : w.store.Replays store (after.slot b.id).mutations) :
    Logged initial ⟨store, after⟩ := by
  obtain ⟨absent, listed⟩ := h.toListed.began fresh begun others own
  refine ⟨listed, ?_, ?_⟩
  · intro id idle
    rw [begun, List.mem_append, List.mem_singleton, not_or] at idle
    rw [others id fun e => idle.2 e.symm]
    exact h.quiet id idle.1
  · show initial.Replays store after.log
    have front : w.shared.begun.flatMap (fun id => (after.slot id).mutations) = w.shared.log :=
      List.flatMap_congr fun id hid => by rw [others id fun e => absent (e ▸ hid)]
    rw [Shared.log, begun, List.flatMap_append, front, List.flatMap_singleton]
    exact h.replays.append replays

variable (fresh : w.shared.slot b.id = {}) (inside : b.id < w.shared.slots.length)
include fresh inside

theorem Logged.begin (h : Logged initial w) :
    Logged initial { w with shared := w.shared.begin b } := by
  have begun : (w.shared.begin b).begun = w.shared.begun ++ [b.id] := List.filterMap_append
  refine h.began fresh begun (fun id other => ?_) (Shared.begun_begin inside).seen ?_
  · exact Shared.frame_begin.same id fun c hc => List.mem_singleton.mp hc ▸ other
  · rw [Shared.slot_begin inside]
    exact .nil w.store

theorem Logged.run (h : Logged initial w) {step : Args → SyncProgram}
    (never : ∀ args, (step args).NeverApplies) : Logged initial (s.runSync b step w).1 := by
  let given : View := { store := w.store, writable := true }
  have start : given.writable = true := rfl
  have replays := (never w.shared.args).run_replays start (.nil w.store)
  unfold Setting.runSync
  dsimp only
  generalize (step w.shared.args).run { store := w.store, writable := true } = ran at replays ⊢
  obtain ⟨view, result⟩ := ran
  dsimp only at replays ⊢
  have first : Frame [b] w.shared (w.shared.begin b) := Shared.frame_begin
  have length : b.id < (w.shared.begin b).slots.length := first.length ▸ inside
  have frame := first.trans
    (Frame.update b (w.shared.begin b) fun slot => { slot with mutations := view.log })
  have begun : ((w.shared.begin b).updateSlot b.id fun slot =>
      { slot with mutations := view.log }).begun = w.shared.begun ++ [b.id] := List.filterMap_append
  have own := Shared.slot_updateSlot length fun slot => { slot with mutations := view.log }
  -- between its beginning and its end the step has its log, and has ended nothing
  refine Logged.same (h.began fresh begun (fun id other => ?_) ?_ ?_)
    (Setting.conclude_ends result).sameLogs
  · exact frame.same id fun c hc => List.mem_singleton.mp hc ▸ other
  · rw [own]
    exact (Shared.begun_begin inside).seen
  · rw [own]
    exact replays

end

namespace Run

variable {name : String} {policy : Policy} {definition : List Chain} {signal : Signal}
  {initial store : Store} {run : Run}

theorem Alone.logged (created : Signal.create name policy definition = .ok signal)
    (never : ∀ b ∈ Branch.allOf signal.tree.branches, b.action.NeverApplies)
    (alone : Alone signal initial run store) : Logged initial ⟨store, run.shared⟩ := by
  refine alone.invariant created (fun args => ?_) (fun s act w told due h => ?_)
    fun store before after like h => h.same like.sameLogs
  · exact ⟨Shared.listed_initial args _, fun id _ => by rw [Shared.slot_initial], .nil initial⟩
  · cases act with
    | begin b => exact h.begin due.2.2 due.2.1
    | run b step => exact h.run due.2.2 due.2.1 (never b due.1 step told)
    | settle b result => exact h.same (Setting.settle_ends result).sameLogs
    | wait waiting => exact h.same ⟨rfl, fun _ => rfl, fun _ => rfl⟩

/-- **The logs of a run replay to its store**, whether it is complete, rejected, stalled or under way:
from the initial store, with refused calls carried out again and every entry standing for a call, the
logs of the branches in the order in which they began lead to the store as it is. This order lists
each branch that began once, and the others have logged nothing. A writable view answers a call as its
store does. -/
theorem Alone.store_eq_replay (created : Signal.create name policy definition = .ok signal)
    (never : ∀ p ∈ Chain.placed false definition, p.1.NeverApplies)
    (alone : Alone signal initial run store) :
    (store = initial.replay run.shared.log ∧ ∀ m ∈ run.shared.log, m.call?.isSome = true) ∧
    (run.shared.begun.Nodup ∧
      (∀ id, id ∈ run.shared.begun ↔ (run.shared.slot id).args.isSome = true) ∧
      ∀ id, id ∉ run.shared.begun → (run.shared.slot id).mutations = []) ∧
    ∀ (view : View) (path : Path) (call : Call), view.writable = true →
      (view.call path call).2 = (view.store.call path call).2 ∧
        (view.call path call).1.store = (view.store.call path call).1 := by
  obtain ⟨accepted, compiled⟩ := Signal.create_eq created
  have logged : Logged initial ⟨store, run.shared⟩ := by
    refine alone.logged created fun b hb => ?_
    rw [compiled, ← Tree.specs_compile accepted] at hb
    refine never (Tree.placement b) ?_
    rw [← Tree.placements_compile accepted]
    exact List.mem_map_of_mem hb
  refine ⟨⟨logged.replays.reached, logged.replays.calls⟩,
    ⟨logged.once, logged.seen, logged.quiet⟩, fun view path call writable => ?_⟩
  rw [View.call_writable writable]
  exact ⟨rfl, rfl⟩

/-- a member that may not write, one that waits, and a step behind them that is refused a call and
then fails, which rejects the run -/
theorem store_eq_replay_rejected :
    let mark : Action := ⟨0, "mark", [], none, .sync fun _ =>
      .call ["count"] (.set .null) fun _ => .finish (.ok .next)⟩
    let ask : Action := ⟨1, "ask", [], none, .async fun _ => .wait "door" (.finish (.ok .next))⟩
    let save : Action := ⟨2, "save", [], none, .sync fun _ =>
      .call ["count"] (.set (.int 1)) fun _ => .call ["count"] (.push .null) fun _ =>
        .call ["list"] (.splice 0 0 [.null]) fun _ => .finish (.error "full")⟩
    let definition := [Chain.parallel [.action mark, .action ask], .action save]
    ∃ signal run store, Signal.create "page" .reject definition = .ok signal ∧
      (∀ p ∈ Chain.placed false definition, p.1.NeverApplies) ∧ Alone signal default run store ∧
      run.walk.error?.isSome = true ∧ run.shared.begun = [0, 1, 2] ∧
      run.shared.log.map Mutation.method = [.set, .push, .splice] ∧
      store = (default : Store).replay run.shared.log := by
  intro mark ask save definition
  let signal : Signal := ⟨"page", Tree.compile definition, .reject⟩
  have created : Signal.create "page" .reject definition = .ok signal := rfl
  have started : signal.start "r" default (.data .null) = .ok _ := rfl
  have begun : Alone signal default _ default := .start started
  have alone := ((begun.poll (fun _ => false) 0).gateOpened "door").poll (fun gate => gate == "door") 0
  have never : ∀ p ∈ Chain.placed false definition, p.1.NeverApplies := by
    intro p hp
    simp only [definition, Chain.placed, Chain.placedOf, List.cons_append, List.nil_append,
      List.mem_cons, List.not_mem_nil, or_false] at hp
    have set_kept : (Call.set .null).mutator ≠ .apply := by decide
    rcases hp with rfl | rfl | rfl
    · rintro step ⟨⟩ args
      exact ⟨set_kept, fun _ => trivial⟩
    · rintro step ⟨⟩
    · rintro step ⟨⟩ args
      exact ⟨set_kept, fun _ => ⟨by decide, fun _ => ⟨by decide, fun _ => trivial⟩⟩⟩
  refine ⟨signal, _, _, created, never, alone, by decide +kernel, by decide +kernel,
    by decide +kernel, (alone.store_eq_replay created never).1.1⟩

end Run

end SignalFlow
