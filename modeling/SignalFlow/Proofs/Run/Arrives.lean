import SignalFlow.Proofs.Run.Direct
import SignalFlow.Proofs.Run.Poll
/-!
# Polling beside the direct reading

* `Mirrors`    a world and a state of the direct reading say the same;
* `Leads`      a step of the walk and a step of the direct reading lead the same way;
* `Blocked`    a walk that holds a stalled step, with nothing else left to do;
* `Arrives`    what polling a walk comes to, beside what the direct reading of its items comes to;
* `Gathers`    the same for the members of a group.

Polling a list puts what is under an output before what stands behind the step, so `Arrives` leaves
the items behind a list open.
-/

namespace SignalFlow

open Chain Direct Walk

/-! ## bodies that are ready -/

/-- a body that may be suspended runs to its end at its first poll -/
def Action.Ready (isOpen : String → Bool) (a : Action) : Prop :=
  ∀ step, a.body = .async step → ∀ args store,
    ∃ result, (step args).resume isOpen store = .finished result

theorem AsyncProgram.run_of_resume {isOpen : String → Bool} {store : Store} {result : StepResult}
    {program : AsyncProgram} (h : program.resume isOpen store = .finished result) :
    program.run store = result := by
  induction program with
  | finish result => exact Progress.finished.inj h
  | get path next ih => exact ih (store.get? path) h
  | wait gate next ih =>
    rw [AsyncProgram.resume] at h
    split at h
    · exact ih h
    · cases h
  | pause next => cases h

/-- what a member of a group that has begun comes to at its first poll -/
theorem Action.Ready.resume {isOpen : String → Bool} {a : Action} (ready : a.Ready isOpen)
    (args : Args) (atStart now : Store) :
    (a.started args atStart).resume isOpen now = .finished (Direct.result args atStart now a) := by
  unfold Action.started Direct.result
  cases body : a.body with
  | sync step => rfl
  | async step =>
    obtain ⟨result, h⟩ := ready step body args now
    dsimp only
    rw [h, AsyncProgram.run_of_resume h]

/-! ## the same state -/

/-- an entry of a journal with the branch in place of its number -/
def Event.told (tree : Tree) : Event → Option Entry
  | .began id args => tree.specs[id]?.map fun b => .began b.spec.position b.action args
  | .ended id payload output =>
    tree.specs[id]?.map fun b => .ended b.spec.position b.action payload output
  | .givenUp id => tree.specs[id]?.map fun b => .givenUp b.spec.position b.action

/-- the branch is the one that its number leads to, and has the name of its action -/
structure Known (tree : Tree) (b : Branch) : Prop where
  number : tree.specs[b.id]? = some b
  name : b.spec.name = b.action.name

/-- a world and a state of the direct reading say the same -/
structure Mirrors (tree : Tree) (w : World) (state : State) : Prop where
  store : w.store = state.store
  args : w.shared.args = state.args
  journal : w.shared.journal.map (Event.told tree) = state.account.map some

section
variable {tree : Tree} {w : World} {state : State} {b : Branch}

theorem Mirrors.began (h : Mirrors tree w state) (known : Known tree b) :
    Mirrors tree { w with shared := w.shared.begin b } (state.began b.spec.position b.action) := by
  refine ⟨h.store, h.args, ?_⟩
  simp only [Shared.begin, State.began, List.map_append, h.journal, List.map_cons, List.map_nil,
    Event.told, h.args]
  rw [known.number]
  rfl

theorem Mirrors.ended (h : Mirrors tree w state) (known : Known tree b) (output : Option String)
    (payload : Value) (elapsed : Nat) :
    Mirrors tree { w with shared := w.shared.finish b output payload elapsed }
      (state.ended b.spec.position b.action payload output) := by
  refine ⟨h.store, ?_, ?_⟩
  · simp only [Shared.finish, State.ended, h.args]
  · simp only [Shared.finish, State.ended, List.map_append, h.journal, List.map_cons,
      List.map_nil, Event.told]
    rw [known.number]
    rfl

theorem Mirrors.givenUp (h : Mirrors tree w state) (known : Known tree b) (elapsed : Nat) :
    Mirrors tree { w with shared := w.shared.abandon b elapsed }
      (state.givenUp b.spec.position b.action) := by
  refine ⟨h.store, h.args, ?_⟩
  simp only [Shared.abandon, State.givenUp, List.map_append, h.journal, List.map_cons,
    List.map_nil, Event.told]
  rw [known.number]
  rfl

end

/-! ## the same steps -/

/-- a step of a walk leads where the direct reading says -/
inductive Leads (b : Branch) : Except Ending (Option String) → After → Prop
  | taken (output : Option String) : Leads b (.ok output) (.follow (b.next output))
  | stall : Leads b (.error .stalled) .stall
  | fail (error : RunError) : Leads b (.error (.failed error)) (.fail error)

section
variable {tree : Tree} {s : Setting} {b : Branch} {w : World} {state : State}

theorem site_eq (known : Known tree b) : s.site b = Direct.site s.signal b.spec.position b.action := by
  rw [Setting.site, Direct.site, known.name]

theorem stepFailed_leads (h : Mirrors tree w state) (known : Known tree b) (message : String) :
    let after := s.stepFailed b message w.shared
    let direct := Direct.fail s.signal s.policy b.spec.position b.action message state
    Mirrors tree { w with shared := after.1 } direct.1 ∧ Leads b direct.2 after.2 := by
  unfold Setting.stepFailed Direct.fail
  rw [site_eq known]
  cases s.policy with
  | stall => exact ⟨h, .stall⟩
  | reject => exact ⟨h.givenUp known _, .fail _⟩
  | errorOutput =>
    dsimp only
    split
    · exact ⟨h.ended known _ _ _, .taken _⟩
    · exact ⟨h.givenUp known _, .fail _⟩

theorem settle_leads (h : Mirrors tree w state) (known : Known tree b) (result : StepResult) :
    let after := s.settle b result w.shared
    let direct := Direct.settle s.signal b.spec.position b.action result state
    Mirrors tree { w with shared := after.1 } direct.1 ∧ Leads b direct.2 after.2 := by
  unfold Setting.settle Direct.settle
  rw [site_eq known]
  cases result with
  | error message => exact ⟨h.givenUp known _, .fail _⟩
  | ok outcome =>
    dsimp only
    cases b.action.resolve outcome.path with
    | error output => exact ⟨h.givenUp known _, .fail _⟩
    | ok output => exact ⟨h.ended known _ _ _, .taken _⟩

theorem runSync_leads {step : Args → SyncProgram} (body : b.action.body = .sync step)
    (h : Mirrors tree w state) (known : Known tree b) :
    let after := s.runSync b step w
    let direct := Direct.step s.signal s.policy b.spec.position b.action state
    Mirrors tree after.1 direct.1 ∧ Leads b direct.2 after.2 := by
  have began := h.began known
  unfold Setting.runSync Direct.step
  rw [body]
  dsimp only
  rw [h.store, h.args]
  obtain ⟨view, result⟩ := (step state.args).run { store := state.store, writable := true }
  dsimp only
  -- the log of the step goes into its slot, which the direct reading does not have
  have ran : Mirrors tree ⟨view.store, (w.shared.begin b).updateSlot b.id
      fun slot => { slot with mutations := view.log }⟩
      { state.began b.spec.position b.action with store := view.store } :=
    ⟨rfl, began.args, began.journal⟩
  unfold Setting.conclude
  cases result with
  | error message => exact stepFailed_leads ran known message
  | ok outcome =>
    dsimp only
    cases b.action.resolve outcome.path with
    | error output => exact stepFailed_leads ran known _
    | ok output => exact ⟨ran.ended known _ _ _, .taken _⟩

end

/-! ## walks that are blocked -/

/-- a walk that holds a stalled step, with nothing else left to do -/
inductive Blocked : Walk → Prop
  | stalled (b : Branch) : Blocked (.stalled b)
  | joined {members : List Walk} (rest : List (Item Branch)) :
      (∀ m ∈ members, m.isDone = false → Blocked m) → members.all isDone = false →
      Blocked (.joined members none rest)

theorem Blocked.error? {walk : Walk} (h : Blocked walk) : walk.error? = none := by
  cases h <;> rfl

theorem Blocked.isDone {walk : Walk} (h : Blocked walk) : walk.isDone = false := by
  cases h <;> rfl

theorem error?_of_isDone {walk : Walk} (h : walk.isDone = true) : walk.error? = none := by
  cases walk with
  | failed error => cases h
  | ready _ | awaiting _ _ | joined _ _ _ | stalled _ => rfl

theorem pollEach_blocked {poll : Nat → Walk → World → Polled} {members : List Walk}
    (still : ∀ m ∈ members, m.isDone = false → m.error? = none ∧
      ∀ index w, poll index m w = ⟨w, m, false⟩) (index : Nat) (w : World) :
    pollEach poll index members w = { world := w, members } := by
  induction members generalizing index w with
  | nil => rfl
  | cons m rest ih =>
    have behind := ih (fun m hm => still m (List.mem_cons_of_mem _ hm))
    cases done : m.isDone with
    | true => simp [pollEach, done, behind]
    | false =>
      obtain ⟨fine, own⟩ := still m List.mem_cons_self done
      simp [pollEach, done, own, fine, behind]

theorem firstError?_eq_none {members : List Walk} (h : ∀ m ∈ members, m.error? = none) :
    firstError? members = none := List.findSome?_eq_none_iff.mpr h

theorem firstError?_blocked {members : List Walk}
    (h : ∀ m ∈ members, m.isDone = false → Blocked m) : firstError? members = none := by
  refine firstError?_eq_none fun m hm => ?_
  cases done : m.isDone with
  | true => exact error?_of_isDone done
  | false => exact (h m hm done).error?

theorem Blocked.pollAt {walk : Walk} (h : Blocked walk) (s : Setting) (here : Address) (w : World) :
    pollAt s here walk w = ⟨w, walk, false⟩ := by
  induction h generalizing here w with
  | stalled b => exact pollAt_still (.stalled b)
  | @joined members rest blocked some_left ih =>
    have round : pollEach (fun index => Walk.pollAt s (here ++ [index])) 0 members w =
        { world := w, members } :=
      pollEach_blocked
        (fun m hm left => ⟨(blocked m hm left).error?, fun index w => ih m hm left _ w⟩) 0 w
    rw [pollAt_joined]
    simp only [pollGroup, round, firstError?_blocked blocked, some_left]
    rfl

/-! ## polls of lists and groups -/

section
variable (tree : Tree) (s : Setting)

/-- what polling a walk comes to, beside what the direct reading comes to; a walk that is completed
leaves `behind` to be done -/
inductive Arrives (here : Address) (walk : Walk) (w : World) (behind : List (Item Branch)) :
    State × Ending → Prop
  | completed {state : State} (w' : World) : Mirrors tree w' state →
      pollAt s here walk w = pollAt s here (.ready behind) w' →
      Arrives here walk w behind (state, .completed)
  | stalled {state : State} (w' : World) (walk' : Walk) : Mirrors tree w' state → Blocked walk' →
      pollAt s here walk w = ⟨w', walk', false⟩ → Arrives here walk w behind (state, .stalled)
  | failed {state : State} (w' : World) (error : RunError) : Mirrors tree w' state →
      pollAt s here walk w = ⟨w', .failed error, false⟩ →
      Arrives here walk w behind (state, .failed error)

/-- what a round of polls of a group comes to, beside what the direct reading comes to -/
inductive Gathers (round : Round) : State × Ending → Prop
  | completed {state : State} : Mirrors tree round.world state → round.woken = false →
      (∀ m ∈ round.members, m.isDone = true) → Gathers round (state, .completed)
  | stalled {state : State} : Mirrors tree round.world state → round.woken = false →
      (∀ m ∈ round.members, m.isDone = false → Blocked m) →
      round.members.all isDone = false → Gathers round (state, .stalled)
  | failed {state : State} (error : RunError) : Mirrors tree round.world state →
      round.woken = false → firstError? round.members = some error →
      Gathers round (state, .failed error)

variable {tree s}
variable {here : Address} {walk walk' : Walk} {w w' : World} {behind middle : List (Item Branch)}
  {ran : State × Ending} {next : State → State × Ending}

theorem Arrives.of_eq (e : pollAt s here walk w = pollAt s here walk' w')
    (h : Arrives tree s here walk' w' behind ran) : Arrives tree s here walk w behind ran := by
  cases h with
  | completed w'' same h => exact .completed w'' same (e.trans h)
  | stalled w'' walk'' same blocked h => exact .stalled w'' walk'' same blocked (e.trans h)
  | failed w'' error same h => exact .failed w'' error same (e.trans h)

theorem Arrives.andThen (first : Arrives tree s here walk w middle ran)
    (second : ∀ w' state, Mirrors tree w' state →
      Arrives tree s here (.ready middle) w' behind (next state)) :
    Arrives tree s here walk w behind (Direct.andThen ran next) := by
  cases first with
  | completed w' same h => exact (second w' _ same).of_eq h
  | stalled w' walk' same blocked h => exact .stalled w' walk' same blocked h
  | failed w' error same h => exact .failed w' error same h

theorem Gathers.nil {poll : Nat → Walk → World → Polled} {state : State} (index : Nat)
    (same : Mirrors tree w state) : Gathers tree (pollEach poll index [] w) (state, .completed) :=
  .completed same rfl (fun _ hm => nomatch hm)

theorem Gathers.cons {index : Nat} {members : List Walk} (left : walk.isDone = false)
    (own : Arrives tree s (here ++ [index]) walk w [] ran)
    (others : ∀ w' state, Mirrors tree w' state →
      Gathers tree (pollEach (fun index => pollAt s (here ++ [index])) (index + 1) members w')
        (next state)) :
    Gathers tree (pollEach (fun index => pollAt s (here ++ [index])) index (walk :: members) w)
      (alongside ran next) := by
  rw [pollEach]
  simp only [left, Bool.false_eq_true, if_false]
  cases own with
  | @completed state w' same h =>
    rw [h, pollAt_still .done]
    have round := others w' state same
    simp only [Walk.error?, Option.isSome_none, Bool.false_eq_true, if_false, Bool.false_or]
    unfold alongside
    dsimp only
    generalize next state = result at round
    cases round with
    | completed same quiet done =>
      exact .completed same quiet (List.forall_mem_cons.mpr ⟨rfl, done⟩)
    | stalled same quiet blocked some_left =>
      exact .stalled same quiet (List.forall_mem_cons.mpr ⟨by rintro ⟨⟩, blocked⟩)
        (by simpa [isDone] using some_left)
    | failed error same quiet first => exact .failed error same quiet first
  | @stalled state w' walk' same blockedOwn h =>
    rw [h]
    have round := others w' state same
    simp only [blockedOwn.error?, Option.isSome_none, Bool.false_eq_true, if_false, Bool.false_or]
    unfold alongside
    dsimp only
    generalize next state = result at round
    cases round with
    | completed same quiet done =>
      exact .stalled same quiet
        (List.forall_mem_cons.mpr ⟨fun _ => blockedOwn, fun m hm left => by simp [done m hm] at left⟩)
        (by simp [blockedOwn.isDone])
    | stalled same quiet blocked some_left =>
      exact .stalled same quiet (List.forall_mem_cons.mpr ⟨fun _ => blockedOwn, blocked⟩)
        (by simp [blockedOwn.isDone])
    | failed error same quiet first =>
      exact .failed error same quiet (by
        rw [firstError?, List.findSome?_cons, blockedOwn.error?]
        exact first)
  | failed w' error same h =>
    -- the error ends the round, and the other members are not polled
    rw [h]
    exact .failed error same rfl rfl

/-- a small group comes to what its members come to -/
theorem Gathers.arrives {members : List Walk} {round : Round}
    (h : Gathers tree round ran)
    (polled : pollEach (fun index => pollAt s (here ++ [index])) 0 members w = round) :
    Arrives tree s here (.joined members none behind) w behind ran := by
  have group : pollAt s here (.joined members none behind) w = _ :=
    pollAt_joined members none behind
  simp only [pollGroup, polled] at group
  cases h with
  | completed same quiet done =>
    have fine := firstError?_eq_none (fun m hm => error?_of_isDone (done m hm))
    have all : round.members.all isDone = true := List.all_eq_true.mpr done
    simp only [fine, all, if_true, quiet, Bool.false_or] at group
    exact .completed round.world same group
  | stalled same quiet blocked some_left =>
    simp only [firstError?_blocked blocked, some_left, Bool.false_eq_true, if_false, quiet] at group
    exact .stalled round.world _ same (.joined behind blocked some_left) group
  | failed error same quiet first =>
    simp only [first, quiet] at group
    exact .failed round.world error same group

end

/-! ## steps and what is under them -/

section
variable {tree : Tree} {s : Setting} {b : Branch} {w : World} {state : State} {here : Address}
  {behind : List (Item Branch)} {lists : Option String → State → State × Ending}

/-- polling a list of items does what a part of the direct reading does -/
def Runs (tree : Tree) (s : Setting) (items : List (Item Branch))
    (direct : State → State × Ending) : Prop :=
  ∀ behind here w state, Mirrors tree w state →
    Arrives tree s here (.ready (items ++ behind)) w behind (direct state)

/-- so does polling the list under any output of a branch -/
def Follows (tree : Tree) (s : Setting) (b : Branch)
    (lists : Option String → State → State × Ending) : Prop :=
  ∀ output, Runs tree s (b.next output) (lists output)

theorem Runs.nil : Runs tree s [] (fun state => (state, .completed)) :=
  fun _ _ w _ same => .completed w same rfl

theorem Runs.append {front rest : List (Item Branch)} {direct next : State → State × Ending}
    (first : Runs tree s front direct) (second : Runs tree s rest next) :
    Runs tree s (front ++ rest) (fun state => Direct.andThen (direct state) next) := by
  intro behind here w state same
  rw [List.append_assoc]
  exact (first (rest ++ behind) here w state same).andThen (second behind here)

theorem Follows.arrives {after : After} {way : Except Ending (Option String)}
    (follows : Follows tree s b lists) (same : Mirrors tree w state) (leads : Leads b way after) :
    Arrives tree s here (after.walk b behind) w behind (through (state, way) lists) := by
  cases leads with
  | taken output => exact follows output behind here w state same
  | stall => exact .stalled w _ same (.stalled b) (pollAt_still (.stalled b))
  | fail error => exact .failed w error same (pollAt_still (.failed error))

theorem member_arrives (follows : Follows tree s b lists) (known : Known tree b)
    (ready : b.action.Ready s.isOpen) (args : Args) (atStart : Store)
    (same : Mirrors tree w state) :
    Arrives tree s here (.awaiting b (b.action.started args atStart)) w []
      (through (Direct.settle s.signal b.spec.position b.action
        (Direct.result args atStart state.store b.action) state) lists) := by
  have ended : (b.action.started args atStart).resume s.isOpen w.store =
      .finished (Direct.result args atStart state.store b.action) := by
    rw [ready.resume args atStart w.store, same.store]
  obtain ⟨after, leads⟩ := settle_leads (s := s) same known
    (Direct.result args atStart state.store b.action)
  exact (follows.arrives after leads).of_eq (pollAt_move (.settle ended))

theorem alongside_alone (ran : State × Ending) :
    alongside ran (fun state => (state, .completed)) = ran := by
  obtain ⟨state, ending⟩ := ran
  cases ending <;> rfl

/-- a step in a sequential list, and what is under the output that it takes -/
theorem runs_step (follows : Follows tree s b lists) (known : Known tree b)
    (ready : b.action.Ready s.isOpen) :
    Runs tree s [.step b] fun state =>
      through (Direct.step s.signal s.policy b.spec.position b.action state) lists := by
  intro behind here w state same
  cases body : b.action.body with
  | sync step =>
    obtain ⟨after, leads⟩ := runSync_leads (s := s) body same known
    exact (follows.arrives after leads).of_eq (pollAt_move (.sync behind w body))
  | async step =>
    -- alone in its group, it decides for the group
    have own : Arrives tree s (here ++ [0])
        (.awaiting b (b.action.started w.shared.args w.store)) ⟨w.store, w.shared.begin b⟩ [] _ :=
      member_arrives follows known ready w.shared.args w.store (same.began known)
    have group := Gathers.cons rfl own (fun w' state same => Gathers.nil 1 same)
    rw [alongside_alone] at group
    have began : Direct.step s.signal s.policy b.spec.position b.action state =
        Direct.settle s.signal b.spec.position b.action
          (Direct.result w.shared.args w.store (state.began b.spec.position b.action).store b.action)
          (state.began b.spec.position b.action) := by
      simp only [Direct.step, Direct.result, body, same.args]
      rfl
    show Arrives tree s here (.ready (.step b :: behind)) w behind (through (Direct.step ..) lists)
    rw [began]
    exact (group.arrives rfl).of_eq (pollAt_move (.lone behind w body))

end

end SignalFlow
