import SignalFlow.Engine.Basic
import SignalFlow.Proofs.Run.Turns
/-!
# Runs on disjoint state do not interfere

* `Engine.turn`      a run takes a turn on the store of an engine;
* `Engine.alone`     a run takes turns with nobody else on the engine;
* `Engine.together`  two runs take turns, in any order.

Of two runs that keep below keys `K` and `L` without a key in common, a turn of the one leaves the
store alike below the keys of the other (`Store.Keeps.like`), and is the turn that it takes alone
(`Run.turn_together`). `Engine.together_eq_alone`: so each run goes the way that it goes alone.
-/

namespace SignalFlow

open Walk

namespace Engine

/-- a run takes a turn on the store of an engine, and is recorded when it completes -/
def turn (engine : Engine) (run : Run) : Turn → Engine × Run
  | .poll isOpen elapsed => engine.poll isOpen elapsed run
  | .wake address => (engine, run.wake address)
  | .gateOpened gate => (engine, run.gateOpened gate)

/-- a run takes turns with nobody else on the engine -/
def alone : List Turn → Engine → Run → Engine × Run
  | [], engine, run => (engine, run)
  | turn :: rest, engine, run => alone rest (engine.turn run turn).1 (engine.turn run turn).2

/-- two runs take turns on one engine -/
def together : List (Turn ⊕ Turn) → Engine → Run → Run → Engine × Run × Run
  | [], engine, one, other => (engine, one, other)
  | .inl turn :: rest, engine, one, other =>
    together rest (engine.turn one turn).1 (engine.turn one turn).2 other
  | .inr turn :: rest, engine, one, other =>
    together rest (engine.turn other turn).1 one (engine.turn other turn).2

section
variable {engine : Engine} {run : Run}

theorem store_settle (engine : Engine) (run : Run) : (engine.settle run).store = engine.store := by
  unfold settle
  split <;> rfl

theorem turn_eq (engine : Engine) (run : Run) (turn : Turn) :
    (engine.turn run turn).2 = (run.turn engine.store turn).1 ∧
      (engine.turn run turn).1.store = (run.turn engine.store turn).2 := by
  cases turn with
  | poll isOpen elapsed =>
    show (engine.poll isOpen elapsed run).2 = (run.poll isOpen elapsed engine.store).1 ∧
      (engine.poll isOpen elapsed run).1.store = (run.poll isOpen elapsed engine.store).2
    unfold poll
    split
    · next settled =>
      rw [Run.atRest_of_settled settled]
      exact ⟨rfl, rfl⟩
    · exact ⟨rfl, store_settle _ _⟩
  | wake address => exact ⟨rfl, rfl⟩
  | gateOpened gate => exact ⟨rfl, rfl⟩

theorem alone_grows (turns : List Turn) (engine : Engine) (run : Run) :
    run.shared.journal <+: (alone turns engine run).2.shared.journal := by
  induction turns generalizing engine run with
  | nil => exact List.prefix_refl _
  | cons turn rest ih =>
    have first := run.turn_grows engine.store turn
    rw [← (engine.turn_eq run turn).1] at first
    exact first.trans (ih _ _)

variable {K L : String → Prop} {journal : List Event} {mine : Engine} {turn : Turn}

/-- a run takes the turn that it takes alone, and leaves what is not below its keys as it was -/
theorem turn_alike (below : run.walk.Below K journal) (like : engine.store.Like K mine.store)
    (listed : (mine.turn run turn).2.shared.journal ⊆ journal) :
    (engine.turn run turn).2 = (mine.turn run turn).2 ∧
      (engine.turn run turn).1.store.Like K (mine.turn run turn).1.store ∧
      engine.store.Keeps K (engine.turn run turn).1.store ∧
      (mine.turn run turn).2.walk.Below K journal := by
  obtain ⟨run', store'⟩ := engine.turn_eq run turn
  obtain ⟨own, store⟩ := mine.turn_eq run turn
  rw [own] at listed
  rw [run', store', own, store]
  exact run.turn_together below like turn listed

/-- two runs with nothing in common, on an engine and on one of its own each -/
structure Apart (K L : String → Prop) (engine first second : Engine) (one other : Run)
    (journal journal' : List Event) : Prop where
  left : engine.store.Like K first.store
  right : engine.store.Like L second.store
  one : one.walk.Below K journal
  other : other.walk.Below L journal'

variable {first second : Engine} {one other : Run} {journal' : List Event}
  (disjoint : ∀ key, ¬ (K key ∧ L key))
include disjoint

theorem together_alike (schedule : List (Turn ⊕ Turn))
    (apart : Apart K L engine first second one other journal journal')
    (listed : (alone (schedule.filterMap Sum.getLeft?) first one).2.shared.journal ⊆ journal)
    (listed' : (alone (schedule.filterMap Sum.getRight?) second other).2.shared.journal ⊆ journal') :
    let after := together schedule engine one other
    let left := alone (schedule.filterMap Sum.getLeft?) first one
    let right := alone (schedule.filterMap Sum.getRight?) second other
    after.2.1 = left.2 ∧ after.2.2 = right.2 ∧
      Apart K L after.1 left.1 right.1 left.2 right.2 journal journal' := by
  induction schedule generalizing engine first second one other with
  | nil => exact ⟨rfl, rfl, apart⟩
  | cons turn schedule ih =>
    cases turn with
    | inl turn =>
      obtain ⟨left, right, below, below'⟩ := apart
      have grows := alone_grows (schedule.filterMap Sum.getLeft?) (first.turn one turn).1
        (first.turn one turn).2
      obtain ⟨same, like, keeps, after⟩ := turn_alike below left fun _ h => listed (grows.subset h)
      have theirs := keeps.like right like.left fun key own mine => disjoint key ⟨mine, own⟩
      have goes : together (.inl turn :: schedule) engine one other =
          together schedule (engine.turn one turn).1 (first.turn one turn).2 other := by
        rw [together, same]
      rw [goes]
      exact ih ⟨like, theirs, after, below'⟩ listed listed'
    | inr turn =>
      obtain ⟨left, right, below, below'⟩ := apart
      have grows := alone_grows (schedule.filterMap Sum.getRight?) (second.turn other turn).1
        (second.turn other turn).2
      obtain ⟨same, like, keeps, after⟩ := turn_alike below' right fun _ h => listed' (grows.subset h)
      have theirs := keeps.like left like.left fun key own mine => disjoint key ⟨own, mine⟩
      have goes : together (.inr turn :: schedule) engine one other =
          together schedule (engine.turn other turn).1 one (second.turn other turn).2 := by
        rw [together, same]
      rw [goes]
      exact ih ⟨theirs, like, below, after⟩ listed listed'

end

theorem alone_append (front rest : List Turn) (engine : Engine) (run : Run) :
    alone (front ++ rest) engine run =
      alone rest (alone front engine run).1 (alone front engine run).2 := by
  induction front generalizing engine run with
  | nil => rfl
  | cons turn front ih => exact ih _ _

/-- the walk of a run that has just been started keeps below the keys, if all that begins does -/
theorem below_start {name id : String} {definition : List Chain} {engine : Engine} {signal : Signal}
    {startedAt : Timestamp} {input : Signal.Input} {run : Run} {K : String → Prop}
    {journal : List Event} (created : engine.create name definition = .ok signal)
    (started : signal.start id startedAt input = .ok run)
    (below : ∀ b ∈ signal.tree.specs, b.Below K journal) : run.walk.Below K journal := by
  obtain ⟨accepted, compiled⟩ := Signal.create_eq created
  rw [compiled, Tree.specs_compile accepted] at below
  obtain ⟨args, -, rfl⟩ := Signal.start_eq started
  rw [compiled]
  exact .ready below

/-- **Runs on disjoint state do not interfere.** Two runs of signals of one engine, or of one signal,
take turns in any order. Whatever the steps of the one begin on, they keep below the keys `K` of the
root, and those of the other below keys `L`, none of them in `K`. Then at every point each run is what
it would be if it had taken its turns alone: its arguments, its slots and how it is settled. Below `K`
the store is the one that the first run leaves alone, below `L` the one that the second does. -/
theorem together_eq_alone {K L : String → Prop} (disjoint : ∀ key, ¬ (K key ∧ L key))
    {engine : Engine} (sorted : Fields.Sorted engine.store.fields)
    {name name' id id' : String} {definition definition' : List Chain} {signal signal' : Signal}
    (created : engine.create name definition = .ok signal)
    (created' : engine.create name' definition' = .ok signal')
    {startedAt startedAt' : Timestamp} {input input' : Signal.Input} {one other : Run}
    (started : signal.start id startedAt input = .ok one)
    (started' : signal'.start id' startedAt' input' = .ok other)
    (schedule : List (Turn ⊕ Turn))
    (below : ∀ b ∈ signal.tree.specs, ∀ args,
      .began b.id args ∈
        (alone (schedule.filterMap Sum.getLeft?) engine one).2.shared.journal →
      b.action.Below K args)
    (below' : ∀ b ∈ signal'.tree.specs, ∀ args,
      .began b.id args ∈
        (alone (schedule.filterMap Sum.getRight?) engine other).2.shared.journal →
      b.action.Below L args) :
    ∀ front, front <+: schedule →
      let after := together front engine one other
      let left := alone (front.filterMap Sum.getLeft?) engine one
      let right := alone (front.filterMap Sum.getRight?) engine other
      after.2.1 = left.2 ∧ after.2.2 = right.2 ∧
      (∀ path : Path, path.Below K → after.1.store.get? path = left.1.store.get? path) ∧
      (∀ path : Path, path.Below L → after.1.store.get? path = right.1.store.get? path) := by
  rintro front ⟨rest, rfl⟩
  rw [List.filterMap_append, alone_append] at below below'
  have same (K : String → Prop) : engine.store.Like K engine.store := ⟨sorted, sorted, fun _ _ => rfl⟩
  have apart : Apart K L engine engine engine one other _ _ :=
    ⟨same K, same L, below_start created started below, below_start created' started' below'⟩
  obtain ⟨left, right, ends⟩ := together_alike disjoint front apart
    (alone_grows _ _ _).subset (alone_grows _ _ _).subset
  exact ⟨left, right, fun path own => ends.left.get? own, fun path own => ends.right.get? own⟩

/-- two runs of one signal, which waits, then writes below a key that it is given, and reads it -/
theorem together_eq_alone_keyed :
    let given (args : Args) : Option String := (Fields.get? "at" args).bind fun
      | .string key => some key
      | _ => none
    let put : Action := ⟨0, "put", [], none, .sync fun args => match given args with
      | some key => .call [key] (.push .null) fun _ => .finish (.ok .next)
      | none => .finish (.error "nowhere")⟩
    let ask : Action := ⟨1, "ask", [], none, .async fun args => .wait "door" (match given args with
      | some key => .get [key] fun found =>
        .finish (.ok (.ofPayload (.object [("found", .ofOption found)])))
      | none => .finish (.error "nowhere"))⟩
    let definition := [Chain.parallel [.action ask, .action ask], .action put, .action ask]
    let poll (gates : List String) : Turn := .poll (fun gate => gates.contains gate) 0
    let schedule : List (Turn ⊕ Turn) :=
      [.inl (poll []), .inr (poll ["door"]), .inl (.gateOpened "door"), .inl (poll ["door"])]
    ∃ signal one other, (default : Engine).create "page" definition = .ok signal ∧
      signal.start "r" default (.data (.object [("at", .string "a")])) = .ok one ∧
      signal.start "s" default (.data (.object [("at", .string "b")])) = .ok other ∧
      let after := together schedule default one other
      let left := alone (schedule.filterMap Sum.getLeft?) default one
      let right := alone (schedule.filterMap Sum.getRight?) default other
      after.2.1.settled.isSome = true ∧ after.2.2.settled.isSome = true ∧
      after.1.store.fields.map Prod.fst = ["a", "b"] ∧
      after.2.1 = left.2 ∧ after.2.2 = right.2 ∧
      after.1.store.get? ["a"] = left.1.store.get? ["a"] ∧
      after.1.store.get? ["b"] = right.1.store.get? ["b"] := by
  intro given put ask definition poll schedule
  let signal : Signal := ⟨"page", Tree.compile definition, .stall⟩
  have created : (default : Engine).create "page" definition = .ok signal := rfl
  have actions : signal.tree.specs.map Branch.action = [ask, ask, put, ask] := rfl
  have startedOn (id key : String) :
      signal.start id default (.data (.object [("at", .string key)])) = .ok _ := rfl
  -- a journal in which every step has been given the key
  let told (key : String) (journal : List Event) : Bool := journal.all fun
    | .began _ args => given args == some key
    | _ => true
  have keeps (key : String) (journal : List Event) (all : told key journal = true) :
      ∀ b ∈ signal.tree.specs, ∀ args, .began b.id args ∈ journal →
        b.action.Below (fun other => other = key) args := by
    intro b hb args begun
    have found : given args = some key := eq_of_beq (List.all_eq_true.mp all _ begun)
    have onPut : put.Below (fun other => other = key) args := by
      show (match given args with
        | some key => SyncProgram.call [key] (.push .null) fun _ => .finish (.ok .next)
        | none => .finish (.error "nowhere")).Below _
      rw [found]
      exact ⟨rfl, fun _ => trivial⟩
    have onAsk : ask.Below (fun other => other = key) args := by
      show (match given args with
        | some key => AsyncProgram.get [key] fun found =>
          .finish (.ok (.ofPayload (.object [("found", .ofOption found)])))
        | none => .finish (.error "nowhere")).Below _
      rw [found]
      exact ⟨rfl, fun _ => trivial⟩
    have own : b.action ∈ [ask, ask, put, ask] := actions ▸ List.mem_map_of_mem hb
    simp only [List.mem_cons, List.not_mem_nil, or_false] at own
    rcases own with same | same | same | same
    · exact same ▸ onAsk
    · exact same ▸ onAsk
    · exact same ▸ onPut
    · exact same ▸ onAsk
  have disjoint (key : String) : ¬ (key = "a" ∧ key = "b") := by
    rintro ⟨rfl, other⟩
    exact absurd other (by decide)
  have sorted : Fields.Sorted (default : Engine).store.fields := List.Pairwise.nil
  obtain ⟨left, right, own, theirs⟩ := together_eq_alone disjoint sorted created created
    (startedOn "r" "a") (startedOn "s" "b") schedule (keeps "a" _ (by decide +kernel))
    (keeps "b" _ (by decide +kernel)) schedule (List.prefix_refl _)
  exact ⟨signal, _, _, created, startedOn "r" "a", startedOn "s" "b", by decide +kernel,
    by decide +kernel, by decide +kernel, left, right, own ["a"] rfl, theirs ["b"] rfl⟩

end Engine

end SignalFlow
