import SignalFlow.Proofs.Definition.ReadBack
import SignalFlow.Proofs.Run.Arrives
/-!
# A compiled run does what the definition says

`Run.poll_eq_direct`: if every body that may be suspended is ready at its first poll and no group has
more members than are polled in order, then one poll of a run does what `Direct.run` does, and no
later poll changes anything.

The induction (`runs_compileItems`) is on `Chain.WellFormed`. The flag decides what is shown of a list:
a sequential one is polled as a list of items, the members of a group are polled once they have all
begun.
-/

namespace SignalFlow

open Chain Direct Walk SignalFlow.Tree

/-! ## the direct reading, form by form -/

section
variable (signal : String) (policy : Policy) (position : Position) (index : Nat) (a : Action)

theorem items_action {rest : List Chain} (clear : Clear rest) :
    items signal policy position index (.action a :: rest) = fun state =>
      andThen (through (Direct.step signal policy (position.item index) a state)
          fun _ state => (state, .completed))
        (items signal policy position (index + 1) rest) := by
  funext state
  rw [items]
  cases rest with
  | nil => rfl
  | cons item rest =>
    cases item with
    | paths outputs => exact absurd rfl (clear outputs rest)
    | action _ | parallel _ | unresolved _ | invalid _ => rfl

theorem items_mapped (outputs : List (String × List Chain)) (rest : List Chain) :
    items signal policy position index (.action a :: .paths outputs :: rest) = fun state =>
      andThen (through (Direct.step signal policy (position.item index) a state)
          fun output => follow signal policy (position.item index) output outputs)
        (items signal policy position (index + 1) rest) := by
  funext state
  rw [items]
  rfl

theorem items_group (members rest : List Chain) :
    items signal policy position index (.parallel members :: rest) = fun state =>
      let here := position.item index
      andThen (Direct.members signal policy here 0 state.args state.store members
          (beginAll here 0 members state))
        (items signal policy position (index + 1) rest) := by
  funext state
  rw [items]

theorem follow_none (outputs : List (String × List Chain)) :
    follow signal policy position none outputs = fun state => (state, .completed) := by
  funext state
  induction outputs with
  | nil => rw [follow]
  | cons entry rest ih => rw [follow, if_neg (fun e => nomatch e), ih]

theorem follow_cons (output : String) (entry : String × List Chain)
    (rest : List (String × List Chain)) :
    follow signal policy position (some output) (entry :: rest) =
      if output = entry.1 then items signal policy (position.output entry.1) 0 entry.2
      else follow signal policy position (some output) rest := by
  funext state
  rw [follow]
  by_cases taken : output = entry.1 <;> simp [taken]

variable (args : Args) (atStart : Store)

theorem members_action {rest : List Chain} (clear : Clear rest) :
    members signal policy position index args atStart (.action a :: rest) = fun state =>
      alongside (through (Direct.settle signal (position.item index) a
          (result args atStart state.store a) state) fun _ state => (state, .completed))
        (members signal policy position (index + 1) args atStart rest) := by
  funext state
  rw [members]
  cases rest with
  | nil => rfl
  | cons item rest =>
    cases item with
    | paths outputs => exact absurd rfl (clear outputs rest)
    | action _ | parallel _ | unresolved _ | invalid _ => rfl

theorem members_mapped (outputs : List (String × List Chain)) (rest : List Chain) :
    members signal policy position index args atStart (.action a :: .paths outputs :: rest) =
      fun state => alongside (through (Direct.settle signal (position.item index) a
          (result args atStart state.store a) state)
          fun output => follow signal policy (position.item index) output outputs)
        (members signal policy position (index + 1) args atStart rest) := by
  funext state
  rw [members]
  rfl

end

/-! ## the members of a group begin -/

section
variable {tree : Tree} {s : Setting}

/-- each branch is the one that its number leads to, and runs to its end at its first poll -/
def Seated (tree : Tree) (isOpen : String → Bool) (specs : List Branch) : Prop :=
  ∀ b ∈ specs, tree.specs[b.id]? = some b ∧ b.action.Ready isOpen

theorem start_mirrors {members : List Chain} (h : WellFormed true members) (position : Position)
    (index next : Nat) (table : List Action) {isOpen : String → Bool}
    (seated : Seated tree isOpen
      (compileItems true position index next table members).specs)
    {w : World} {state : State} (same : Mirrors tree w state) :
    let bs := (compileItems true position index next table members).result.filterMap Item.step?
    Mirrors tree (start bs w).1 (beginAll position index members state) := by
  generalize e : true = concurrent at h
  induction h generalizing index next table w state with
  | nil => exact same
  | step clear _ ih =>
    subst e
    rw [compileItems_action _ _ _ _ _ _ clear] at seated ⊢
    obtain ⟨⟨number, -⟩, behind⟩ := List.forall_mem_cons.mp seated
    rw [beginAll]
    exact ih (index + 1) _ _ behind (same.began ⟨number, rfl⟩) rfl
  | mapped _ _ _ _ _ ih =>
    subst e
    rw [compileItems_mapped] at seated ⊢
    obtain ⟨⟨number, -⟩, behind⟩ := List.forall_mem_cons.mp seated
    rw [beginAll, beginAll]
    · exact ih (index + 1) _ _ (List.forall_mem_append.mp behind).2 (same.began ⟨number, rfl⟩) rfl
    · exact fun _ e => nomatch e
  | group => cases e

theorem length_members {members : List Chain} (position : Position) (index next : Nat)
    (table : List Action) :
    ((compileItems true position index next table members).result.filterMap Item.step?).length =
      groupSize members := by
  unfold groupSize
  induction members generalizing index next table with
  | nil => rfl
  | cons item rest ih =>
    rw [List.countP_cons]
    cases item with
    | action a =>
      rw [compileItems]
      cases rest <;> simp [Item.step?, isAction, ih]
    | parallel members =>
      rw [compileItems_group]
      exact ih ..
    | paths _ | unresolved _ | invalid _ => simp [compileItems, isAction, ih]

/-! ## lists and groups -/

/-- polling the members of a group that has begun does what the direct reading of them does -/
def RunsMembers (tree : Tree) (s : Setting) (bs : List Branch)
    (direct : Args → Store → State → State × Ending) : Prop :=
  ∀ args atStart here index w state, Mirrors tree w state →
    Gathers tree (pollEach (fun index => pollAt s (here ++ [index])) index
      (bs.map fun b => awaiting b (b.action.started args atStart)) w) (direct args atStart state)

/-- what is shown of a compiled list: for members of a group, of the group once it has begun -/
def RunsList (tree : Tree) (s : Setting) (position : Position) (index : Nat) (list : List Chain)
    (compiled : List (Item Branch)) : Bool → Prop
  | false => Runs tree s compiled (items s.signal s.policy position index list)
  | true => RunsMembers tree s (compiled.filterMap Item.step?)
      (fun args atStart => members s.signal s.policy position index args atStart list)

theorem RunsMembers.cons {b : Branch} {bs : List Branch}
    {lists : Option String → State → State × Ending}
    {next : Args → Store → State → State × Ending}
    (follows : Follows tree s b lists) (known : Known tree b) (ready : b.action.Ready s.isOpen)
    (others : RunsMembers tree s bs next) :
    RunsMembers tree s (b :: bs) fun args atStart state =>
      alongside (through (Direct.settle s.signal b.spec.position b.action
        (result args atStart state.store b.action) state) lists) (next args atStart) :=
  fun args atStart here _ _ _ same =>
    .cons rfl (member_arrives follows known ready args atStart same)
      (others args atStart here _)

theorem runs_group {bs : List Branch} {direct : Args → Store → State → State × Ending}
    {begun : State → State} (small : bs.length ≤ smallGroup)
    (begins : ∀ w state, Mirrors tree w state → Mirrors tree (start bs w).1 (begun state))
    (inside : RunsMembers tree s bs direct) :
    Runs tree s [.group bs] fun state => direct state.args state.store (begun state) := by
  intro behind here w state same
  have round := inside w.shared.args w.store here 0 _ _ (begins w state same)
  rw [← start_members] at round
  have all : joinedOf (start bs w).2 behind = .joined (start bs w).2 none behind := by
    rw [joinedOf, start_members, List.length_map, if_pos small]
  show Arrives tree s here (.ready (.group bs :: behind)) w behind (direct state.args state.store _)
  rw [← same.store, ← same.args]
  exact (all ▸ round.arrives rfl).of_eq (pollAt_move (.group bs behind w))

theorem follows_alone (concurrent : Bool) (here : Position) (next : Nat) (table : List Action)
    (a : Action) :
    Follows tree s (branchAt concurrent here next table a none)
      fun _ state => (state, .completed) := by
  intro output
  cases output <;> exact .nil

theorem runs_compileOutputs {outputs : List (String × List Chain)} (here : Position)
    (next : Nat) (table : List Action)
    (lists : ∀ entry ∈ outputs, ∀ position index next table,
      let part := compileItems false position index next table entry.2
      Seated tree s.isOpen part.specs → RunsList tree s position index entry.2 part.result false)
    (seated : Seated tree s.isOpen (compileOutputs here next table outputs).specs)
    (output : String) :
    Runs tree s ((Keyed.get? output (compileOutputs here next table outputs).result).getD [])
      (follow s.signal s.policy here (some output) outputs) := by
  induction outputs generalizing next table with
  | nil => exact .nil
  | cons entry rest ih =>
    rw [compileOutputs_cons] at seated ⊢
    obtain ⟨inside, behind⟩ := List.forall_mem_append.mp seated
    have own := lists entry List.mem_cons_self _ 0 _ _ inside
    have others := ih _ _ (fun e he => lists e (List.mem_cons_of_mem _ he)) behind
    rw [follow_cons, Keyed.get?]
    by_cases taken : entry.1 = output
    · subst taken
      simpa [RunsList] using own
    · simpa [taken, Ne.symm taken] using others

theorem follows_mapped (concurrent : Bool) (here : Position) (next : Nat) (table : List Action)
    (a : Action) {outputs : List (String × List Chain)}
    (lists : ∀ entry ∈ outputs, ∀ position index next table,
      let part := compileItems false position index next table entry.2
      Seated tree s.isOpen part.specs → RunsList tree s position index entry.2 part.result false)
    (seated : Seated tree s.isOpen (compileOutputs here (next + 1) (place table a).1 outputs).specs) :
    Follows tree s
      (branchAt concurrent here next table a
        (some (compileOutputs here (next + 1) (place table a).1 outputs).result))
      fun output => follow s.signal s.policy here output outputs := by
  intro output
  cases output with
  | none =>
    dsimp only
    rw [follow_none]
    exact .nil
  | some output => exact runs_compileOutputs here _ _ lists seated output

theorem runs_compileItems {concurrent : Bool} {list : List Chain} (h : WellFormed concurrent list)
    (small : ∀ group ∈ groups list, groupSize group ≤ smallGroup) (position : Position)
    (index next : Nat) (table : List Action) :
    let part := compileItems concurrent position index next table list
    Seated tree s.isOpen part.specs → RunsList tree s position index list part.result concurrent := by
  induction h generalizing position index next table with
  | @nil concurrent =>
    intro _ _
    cases concurrent with
    | false => exact .nil
    | true => exact fun _ _ _ index _ _ same => .nil index same
  | @step concurrent a rest clear _ ih =>
    rw [compileItems_action _ _ _ _ _ _ clear]
    intro part seated
    obtain ⟨⟨number, ready⟩, behind⟩ := List.forall_mem_cons.mp seated
    have others := ih small position (index + 1) _ _ behind
    have follows : Follows tree s _ _ :=
      follows_alone concurrent (position.item index) next table a
    cases concurrent with
    | false =>
      rw [RunsList, items_action _ _ _ _ _ clear]
      exact (runs_step follows ⟨number, rfl⟩ ready).append others
    | true =>
      rw [RunsList, funext fun args => funext fun atStart =>
        members_action _ _ _ _ _ args atStart clear]
      exact .cons follows ⟨number, rfl⟩ ready others
  | @mapped concurrent a outputs rest _ _ clear _ lists ih =>
    rw [compileItems_mapped]
    intro part seated
    obtain ⟨⟨number, ready⟩, behind⟩ := List.forall_mem_cons.mp seated
    obtain ⟨inside, behind⟩ := List.forall_mem_append.mp behind
    have others := ih (fun group hg => small group (by simp [groups, hg])) position (index + 1) _ _
      behind
    have follows := follows_mapped concurrent (position.item index) next table a
      (fun entry he => lists entry he fun group hg =>
        small group (by simp [groups, groupsOf, groups_subset_groupsUnder he hg])) inside
    cases concurrent with
    | false =>
      rw [RunsList, items_mapped]
      exact (runs_step follows ⟨number, rfl⟩ ready).append others
    | true =>
      rw [RunsList, funext fun args => funext fun atStart =>
        members_mapped _ _ _ _ _ args atStart _ _]
      exact .cons follows ⟨number, rfl⟩ ready others
  | @group members rest inside _ _ ihInside ih =>
    rw [compileItems_group]
    intro part seated
    obtain ⟨own, behind⟩ := List.forall_mem_append.mp seated
    have others := ih (fun group hg => small group (by simp [groups, hg])) position (index + 1) _ _
      behind
    have together := ihInside (fun group hg => small group (by simp [groups, groupsOf, hg]))
      (position.item index) 0 _ _ own
    have few : groupSize members ≤ smallGroup := small members (by simp [groups, groupsOf])
    rw [← length_members (position.item index) 0 next table] at few
    have begins := fun w state (same : Mirrors tree w state) =>
      start_mirrors inside (position.item index) 0 next table own same
    rw [RunsList, items_group]
    exact (runs_group few begins together).append others

end

/-! ## runs -/

namespace Run

/-- the run is settled as the direct reading ends; one that stalled is never settled -/
def SettledAs (run : Run) : Ending → Prop
  | .completed => run.settled = some (.completed run.snapshot)
  | .stalled => run.settled = none
  | .failed error => run.settled = some (.rejected error)

/-- no poll changes the run any more -/
def AtRest (run : Run) : Prop :=
  ∀ isOpen elapsed store, run.poll isOpen elapsed store = (run, store)

theorem atRest_of_settled {run : Run} (h : run.settled.isSome = true) : run.AtRest := by
  intro isOpen elapsed store
  rw [poll, if_pos h]

section
variable {run : Run} {isOpen : String → Bool} {elapsed : Nat} {store : Store} {w : World}
  (pending : run.settled = none)
include pending

theorem poll_completed
    (polled : pollAt (run.setting isOpen elapsed) [] run.walk ⟨store, run.shared⟩ =
      ⟨w, .ready [], false⟩) :
    let after := { run with walk := .ready [], shared := w.shared.complete elapsed, woken := false }
    run.poll isOpen elapsed store =
      ({ after with settled := some (.completed after.snapshot) }, w.store) := by
  simp only [poll, pending, Option.isSome_none, Bool.false_eq_true, if_false, poll_eq_pollAt, polled]
  rfl

theorem poll_rejected {error : RunError}
    (polled : pollAt (run.setting isOpen elapsed) [] run.walk ⟨store, run.shared⟩ =
      ⟨w, .failed error, false⟩) :
    run.poll isOpen elapsed store =
      ({ run with
          walk := .failed error, shared := w.shared.close elapsed, woken := false
          settled := some (.rejected error) }, w.store) := by
  simp only [poll, pending, Option.isSome_none, Bool.false_eq_true, if_false, poll_eq_pollAt, polled]
  rfl

theorem poll_blocked {walk : Walk} (blocked : Blocked walk)
    (polled : pollAt (run.setting isOpen elapsed) [] run.walk ⟨store, run.shared⟩ =
      ⟨w, walk, false⟩) :
    run.poll isOpen elapsed store =
      ({ run with walk, shared := w.shared, woken := false }, w.store) := by
  simp only [poll, pending, Option.isSome_none, Bool.false_eq_true, if_false, poll_eq_pollAt, polled,
    blocked.error?, blocked.isDone]

theorem atRest_of_blocked (blocked : Blocked run.walk) (quiet : run.woken = false) :
    run.AtRest := by
  intro isOpen elapsed store
  rw [poll_blocked pending blocked (blocked.pollAt _ [] ⟨store, run.shared⟩), ← quiet]

end

/-- **One poll of a run does what the direct reading of its definition does**, and then the run is at
rest: the same store, the same arguments, the same steps with what they saw, gave and took, and the
same end. -/
theorem poll_eq_direct {name : String} {definition : List Chain} {isOpen : String → Bool}
    (accepted : analyze name definition = .ok ())
    (small : ∀ group ∈ groups definition, groupSize group ≤ smallGroup)
    (ready : ∀ p ∈ placed false definition, p.1.Ready isOpen)
    (policy : Policy) (id : String) (startedAt : Timestamp) (elapsed : Nat) (store : Store)
    (args : Args) :
    ∃ signal run, Signal.create name policy definition = .ok signal ∧
      signal.start id startedAt (.data (.object args)) = .ok run ∧
      let direct := Direct.run name policy definition store args
      let polled := run.poll isOpen elapsed store
      polled.2 = direct.1.store ∧
        polled.1.shared.args = direct.1.args ∧
        polled.1.shared.journal.map (Event.told signal.tree) = direct.1.account.map some ∧
        polled.1.SettledAs direct.2 ∧
        polled.1.AtRest := by
  let run : Run :=
    { id, signal := ⟨name, compile definition, policy⟩, startedAt
      shared := .initial args (compile definition).size, walk := .ready (compile definition).branches }
  refine ⟨run.signal, run, by rw [Signal.create, accepted], rfl, ?_⟩
  have wellFormed := wellFormed_of_analyze accepted
  have seated : Seated (compile definition) isOpen (compile definition).specs := by
    intro b hb
    refine ⟨specs_getElem? accepted (specs_compile accepted ▸ hb), ?_⟩
    exact ready (placement b) (placements_compile accepted ▸ List.mem_map_of_mem hb)
  have runs : RunsList (compile definition) (run.setting isOpen elapsed) [] 0 definition
      (compile definition).branches false :=
    runs_compileItems wellFormed small [] 0 0 [] seated
  have arrives := runs [] [] ⟨store, run.shared⟩ { store, args } ⟨rfl, rfl, rfl⟩
  rw [List.append_nil] at arrives
  change Arrives _ _ _ _ _ _ (Direct.run name policy definition store args) at arrives
  generalize Direct.run name policy definition store args = direct at arrives ⊢
  cases arrives with
  | completed w same polled =>
    rw [poll_completed rfl (polled.trans (pollAt_still .done))]
    exact ⟨same.store, same.args, same.journal, rfl, atRest_of_settled rfl⟩
  | stalled w walk same blocked polled =>
    rw [poll_blocked rfl blocked polled]
    exact ⟨same.store, same.args, same.journal, rfl, atRest_of_blocked rfl blocked rfl⟩
  | failed w error same polled =>
    rw [poll_rejected rfl polled]
    exact ⟨same.store, same.args, same.journal, rfl, atRest_of_settled rfl⟩

/-- an action that waits at an open gate, alone and beside another in a group, and lists under outputs -/
theorem poll_eq_direct_group :
    let load : Action := ⟨0, "load", ["found"], some "found", .sync fun _ => .finish (.ok .next)⟩
    let ask : Action :=
      ⟨1, "ask", [], none, .async fun _ => .wait "door" (.finish (.ok (.via "said" .null)))⟩
    let definition := [Chain.action load, .paths [("found", [.action ask])],
      .parallel [.action load, .action ask, .paths [("said", [.action load])]]]
    analyze "page" definition = .ok () ∧
      (∀ group ∈ groups definition, groupSize group ≤ smallGroup) ∧
      (∀ p ∈ placed false definition, p.1.Ready fun gate => gate == "door") ∧
      (Direct.run "page" .reject definition default []).2 = .completed ∧
      ∃ signal run, Signal.create "page" .reject definition = .ok signal ∧
        signal.start "r" default (.data (.object [])) = .ok run ∧
        (run.poll (fun gate => gate == "door") 0 default).1.SettledAs .completed := by
  intro load ask definition
  have accepted : analyze "page" definition = .ok () := rfl
  have small : ∀ group ∈ groups definition, groupSize group ≤ smallGroup := by
    simp [definition, groups, groupsOf, groupsUnder, groupSize, isAction, smallGroup,
      List.countP_cons]
  have ready : ∀ p ∈ placed false definition, p.1.Ready fun gate => gate == "door" := by
    simp only [definition, placed, placedOf, placedUnder, List.cons_append, List.nil_append,
      List.append_nil, List.forall_mem_cons]
    have load_ready : load.Ready fun gate => gate == "door" := by
      rintro _ ⟨⟩
    have ask_ready : ask.Ready fun gate => gate == "door" := by
      rintro _ ⟨⟩ _ _
      exact ⟨_, rfl⟩
    exact ⟨load_ready, ask_ready, load_ready, ask_ready, load_ready, List.forall_mem_nil _⟩
  have ending : (Direct.run "page" .reject definition default []).2 = .completed := rfl
  obtain ⟨signal, run, created, started, -, -, -, settled, -⟩ :=
    poll_eq_direct accepted small ready .reject "r" default 0 default []
  exact ⟨accepted, small, ready, ending, signal, run, created, started, ending ▸ settled⟩

end Run

end SignalFlow
