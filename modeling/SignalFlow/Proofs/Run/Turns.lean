import SignalFlow.Proofs.Run.Beside
import SignalFlow.Proofs.Run.Later
/-!
# Turns of a run

* `Turn`        a run is polled, one of those who wait in it can go on, or a gate has been opened;
* `Run.turn`    a run takes a turn on a store;
* `Run.turns`   it takes any number of them, with nobody else to write to the store.

A run takes the same turn on stores that are alike below the keys it keeps to (`Run.turn_together`).
-/

namespace SignalFlow

open Branch Walk

inductive Turn
  | poll (isOpen : String → Bool) (elapsed : Nat)
  | wake (address : Address)
  | gateOpened (gate : String)

namespace Run

def turn (run : Run) (store : Store) : Turn → Run × Store
  | .poll isOpen elapsed => run.poll isOpen elapsed store
  | .wake address => (run.wake address, store)
  | .gateOpened gate => (run.gateOpened gate, store)

/-- a run takes one turn after the other, with nobody else on the store -/
def turns : List Turn → Run → Store → Run × Store
  | [], run, store => (run, store)
  | turn :: rest, run, store => turns rest (run.turn store turn).1 (run.turn store turn).2

section
variable {run after : Run} {s t : Store}

theorem Later.turn (later : Later run after) (store : Store) (turn : Turn) :
    Later run (after.turn store turn).1 := by
  cases turn with
  | poll isOpen elapsed => exact later.poll isOpen elapsed store
  | wake address => exact later.wake address
  | gateOpened gate => exact later.gateOpened gate

theorem Later.turns (later : Later run after) (turns : List Turn) (store : Store) :
    Later run (Run.turns turns after store).1 := by
  induction turns generalizing after store with
  | nil => exact later
  | cons turn rest ih => exact ih (later.turn store turn) _

theorem turn_grows (run : Run) (store : Store) (turn : Turn) :
    run.shared.journal <+: (run.turn store turn).1.shared.journal := by
  cases turn with
  | poll isOpen elapsed =>
    show run.shared.journal <+: (run.poll isOpen elapsed store).1.shared.journal
    cases settled : run.settled with
    | some _ =>
      rw [Run.poll, settled]
      exact List.prefix_refl _
    | none =>
      rw [(poll_becomes settled isOpen elapsed store).2.like.journal]
      exact (poll_steps (run.setting isOpen elapsed) run.walk ⟨store, run.shared⟩).grows
  | wake address => exact List.prefix_refl _
  | gateOpened gate =>
    obtain ⟨waiting, same⟩ := shared_gateOpened run gate
    have kept : (run.gateOpened gate).shared.journal = run.shared.journal := by rw [same]
    exact kept ▸ List.prefix_refl _

variable {K : String → Prop} {journal : List Event}

theorem below_gateOpened (below : run.walk.Below K journal) (gate : String) :
    (run.gateOpened gate).walk.Below K journal :=
  gateOpened_keeps (P := fun run => run.walk.Below K journal) gate (fun _ => below)
    fun _ address below => below_wake below address

theorem poll_together (below : run.walk.Below K journal) (like : s.Like K t)
    (isOpen : String → Bool) (elapsed : Nat)
    (listed : (run.poll isOpen elapsed t).1.shared.journal ⊆ journal) :
    (run.poll isOpen elapsed s).1 = (run.poll isOpen elapsed t).1 ∧
      (run.poll isOpen elapsed s).2.Like K (run.poll isOpen elapsed t).2 ∧
      s.Keeps K (run.poll isOpen elapsed s).2 ∧
      (run.poll isOpen elapsed t).1.walk.Below K journal := by
  cases settled : run.settled with
  | some _ =>
    rw [atRest_of_settled (by rw [settled]; rfl), atRest_of_settled (by rw [settled]; rfl)]
    exact ⟨rfl, like, .refl _, below⟩
  | none =>
    obtain ⟨-, becomes⟩ := poll_becomes settled isOpen elapsed t
    have worlds : World.Like K ⟨s, run.shared⟩ ⟨t, run.shared⟩ := ⟨rfl, like⟩
    obtain ⟨same, keeps, below⟩ := pollWith_together (s := run.setting isOpen elapsed)
      (run.walk.weight + 1) [] below worlds (becomes.like.journal ▸ listed)
    have pending : ¬ run.settled.isSome = true := by
      rw [settled]
      exact Bool.false_ne_true
    unfold Run.poll
    rw [if_neg pending, if_neg pending]
    unfold Walk.poll
    generalize pollWith (run.setting isOpen elapsed) (run.walk.weight + 1) [] run.walk
      ⟨s, run.shared⟩ = p at same keeps ⊢
    generalize pollWith (run.setting isOpen elapsed) (run.walk.weight + 1) [] run.walk
      ⟨t, run.shared⟩ = q at same below ⊢
    obtain ⟨⟨store, shared⟩, walk, woken⟩ := p
    obtain ⟨⟨store', shared'⟩, walk', woken'⟩ := q
    obtain ⟨rfl, rfl, rfl, like⟩ := same
    refine ⟨rfl, like, keeps, ?_⟩
    dsimp only at below ⊢
    repeat' split
    all_goals exact below

/-- **A run takes the same turn on stores that are alike below the keys it keeps to**, and changes
nothing else. -/
theorem turn_together (below : run.walk.Below K journal) (like : s.Like K t) (turn : Turn)
    (listed : (run.turn t turn).1.shared.journal ⊆ journal) :
    (run.turn s turn).1 = (run.turn t turn).1 ∧ (run.turn s turn).2.Like K (run.turn t turn).2 ∧
      s.Keeps K (run.turn s turn).2 ∧ (run.turn t turn).1.walk.Below K journal := by
  cases turn with
  | poll isOpen elapsed => exact poll_together below like isOpen elapsed listed
  | wake address => exact ⟨rfl, like, .refl _, below_wake below address⟩
  | gateOpened gate => exact ⟨rfl, like, .refl _, below_gateOpened below gate⟩

end

end Run

end SignalFlow
