import Mathlib.Logic.Relation
import SignalFlow.Proofs.Run.Reachable
/-!
# What a run does, one act after the other

* `Setting.Ends`  how a step ends: with an outcome, with an error, or not at all;
* `Act`           a step begins in a group, a sequential step runs, the body of a member ends, or
                  bodies wait;
* `Act.Due`       a walk has come to the act: a step that begins is untouched, one that ends has begun;
* `Acts`          any number of acts;
* `Run.Becomes`   what a run becomes when its walk has been polled;
* `Run.Alone`     a run and the store that it leaves behind, with nobody else to write to the store.

The trail of a walk says that whatever the walk does is due (`Walk.Steps.acts`), so a property of
worlds that every due act keeps holds in every run (`Run.Alone.invariant`). What the steps of a walk keep
is true of every run under way (`Run.Reachable.under_way`).
-/

namespace SignalFlow

open Branch Walk Relation

/-! ## how a step ends -/

namespace Setting

variable (s : Setting) (b : Branch)

/-- the error of a sequential step that has failed, unless the policy makes an outcome of it -/
def stepError? (message : String) : Option RunError :=
  match s.policy with
  | .stall => none
  | .errorOutput =>
    if b.action.declares "error" then none else some (.stepFailed (s.site b) message)
  | .reject => some (.stepFailed (s.site b) message)

/-- the error that a sequential step ends with -/
def syncError? : StepResult → Option RunError
  | .error message => s.stepError? b message
  | .ok outcome =>
    match b.action.resolve outcome.path with
    | .error output => s.stepError? b (undeclared output)
    | .ok _ => none

/-- the error that a member of a group ends with, whatever the policy -/
def memberError? : StepResult → Option RunError
  | .error message => some (.asyncStepFailed (s.site b) message)
  | .ok outcome =>
    match b.action.resolve outcome.path with
    | .error output => some (.undeclaredOutput (s.site b) output)
    | .ok _ => none

end Setting

/-- a step goes on with an outcome, stalls, or is given up with an error -/
inductive Setting.Ends (s : Setting) (b : Branch) (shared : Shared) :
    Shared × After → Option RunError → Prop
  | outcome (output : Option String) (payload : Value) :
      Ends s b shared (s.advance b output payload shared) none
  | stall : Ends s b shared (shared, .stall) none
  | givenUp (error : RunError) :
      Ends s b shared (shared.abandon b s.elapsed, .fail error) (some error)

namespace Setting

variable {s : Setting} {b : Branch} {shared : Shared}

theorem stepFailed_ends (message : String) :
    Ends s b shared (s.stepFailed b message shared) (s.stepError? b message) := by
  unfold stepFailed stepError?
  cases s.policy with
  | stall => exact .stall
  | reject => exact .givenUp _
  | errorOutput =>
    dsimp only
    split
    · exact .outcome ..
    · exact .givenUp _

theorem conclude_ends (result : StepResult) :
    Ends s b shared (s.conclude b result shared) (s.syncError? b result) := by
  unfold conclude syncError?
  cases result with
  | error message => exact stepFailed_ends message
  | ok outcome =>
    dsimp only
    cases b.action.resolve outcome.path with
    | error output => exact stepFailed_ends (undeclared output)
    | ok output => exact .outcome output outcome.payload

theorem settle_ends (result : StepResult) :
    Ends s b shared (s.settle b result shared) (s.memberError? b result) := by
  unfold settle memberError?
  cases result with
  | error message => exact .givenUp _
  | ok outcome =>
    dsimp only
    cases b.action.resolve outcome.path with
    | error output => exact .givenUp _
    | ok output => exact .outcome output outcome.payload

end Setting

/-! ## acts -/

/-- one thing that a run does -/
inductive Act
  | begin (b : Branch)
  | run (b : Branch) (step : Args → SyncProgram)
  | settle (b : Branch) (result : StepResult)
  | wait (waiting : List (String × Address))

namespace Act

def perform (s : Setting) (w : World) : Act → World
  | begin b => { w with shared := w.shared.begin b }
  | run b step => (s.runSync b step w).1
  | settle b result => { w with shared := (s.settle b result w.shared).1 }
  | wait waiting => { w with shared := { w.shared with waiting } }

/-- the step that runs is the body of its branch; what is known of a body that ends is in `Vouched` -/
def Told : Act → Prop
  | begin _ | settle _ _ | wait _ => True
  | run b step => b.action.body = .sync step

/-- the slots say that it is time for it -/
def Due (bs : List Branch) (shared : Shared) : Act → Prop
  | begin b | run b _ => b ∈ bs ∧ b.id < shared.slots.length ∧ shared.slot b.id = {}
  | settle b _ => b ∈ bs ∧ b.id < shared.slots.length ∧ (shared.slot b.id).Begun
  | wait _ => True

end Act

/-- any number of acts, each of a step among these branches -/
inductive Acts (s : Setting) (bs : List Branch) : World → World → Prop
  | refl (w : World) : Acts s bs w w
  | head {act : Act} {w w' : World} : act.Told → act.Due bs w.shared →
      Acts s bs (act.perform s w) w' → Acts s bs w w'

section
variable {s : Setting} {bs more : List Branch} {w w' w'' : World} {act : Act}

theorem Acts.single (told : act.Told) (due : act.Due bs w.shared) :
    Acts s bs w (act.perform s w) := .head told due (.refl _)

theorem Acts.trans (h : Acts s bs w w') (h' : Acts s bs w' w'') : Acts s bs w w'' := by
  induction h with
  | refl => exact h'
  | head told due _ ih => exact .head told due (ih h')

theorem Acts.keep {P : World → Prop} (h : Acts s bs w w')
    (each : ∀ (act : Act) w, act.Told → act.Due bs w.shared → P w → P (act.perform s w))
    (first : P w) : P w' := by
  induction h with
  | refl => exact first
  | head told due _ ih => exact ih (each _ _ told due first)

end

/-! ## the bodies that a walk waits for -/

/-- a walk waits for what is left of the body of a branch -/
inductive Walk.Awaits (b : Branch) (program : AsyncProgram) : Walk → Prop
  | own : Awaits b program (.awaiting b program)
  | inside {members : List Walk} {m : Walk} (queue : Option (List Nat))
      (rest : List (Item Branch)) :
      m ∈ members → Awaits b program m → Awaits b program (.joined members queue rest)

/-- true of a body and the slot of its branch when the step begins, and as long as it is suspended -/
structure Kept (Q : Branch → AsyncProgram → Slot → Prop) : Prop where
  begun : ∀ (b : Branch) args store,
    Q b (b.action.started args store) { args := some args, isExecuting := true }
  suspended : ∀ {b program slot isOpen store gate left}, Q b program slot →
    program.resume isOpen store = .suspended gate left → Q b left slot

/-- `Q` holds of every body that the walk waits for -/
def Walk.Watched (Q : Branch → AsyncProgram → Slot → Prop) (slot : Nat → Slot) (walk : Walk) :
    Prop :=
  ∀ b program, Awaits b program walk → Q b program (slot b.id)

/-- the body that has ended was one that `Q` holds of -/
def Act.Vouched (Q : Branch → AsyncProgram → Slot → Prop) (s : Setting) (w : World) : Act → Prop
  | settle b result => ∃ program : AsyncProgram, program.resume s.isOpen w.store = .finished result ∧
      Q b program (w.shared.slot b.id)
  | begin _ | run _ _ | wait _ => True

/-- one act, of a step among these branches, that is due and vouched for -/
def Did (Q : Branch → AsyncProgram → Slot → Prop) (s : Setting) (bs : List Branch)
    (w w' : World) : Prop :=
  ∃ act : Act, act.Told ∧ act.Due bs w.shared ∧ act.Vouched Q s w ∧ act.perform s w = w'

section
variable {Q : Branch → AsyncProgram → Slot → Prop} {s : Setting} {bs more : List Branch}
  {w w' : World} {act : Act} {slot slot' : Nat → Slot}

theorem Act.Due.mono {shared : Shared} (due : act.Due bs shared) (larger : bs ⊆ more) :
    act.Due more shared := by
  cases act with
  | begin _ | run _ _ | settle _ _ => exact ⟨larger due.1, due.2⟩
  | wait _ => exact trivial

theorem did_mono (h : ReflTransGen (Did Q s bs) w w') (larger : bs ⊆ more) :
    ReflTransGen (Did Q s more) w w' :=
  ReflTransGen.mono (fun _ _ ⟨act, told, due, vouched, same⟩ =>
    ⟨act, told, due.mono larger, vouched, same⟩) _ _ h

theorem did_single (told : act.Told) (due : act.Due bs w.shared) (vouched : act.Vouched Q s w) :
    ReflTransGen (Did Q s bs) w (act.perform s w) := .single ⟨act, told, due, vouched, rfl⟩

theorem Acts.of_did (h : ReflTransGen (Did Q s bs) w w') : Acts s bs w w' := by
  induction h with
  | refl => exact .refl w
  | tail _ last ih =>
    obtain ⟨act, told, due, -, rfl⟩ := last
    exact ih.trans (.single told due)

theorem watched_walk (b : Branch) (rest : List (Item Branch)) (after : After) :
    (after.walk b rest).Watched Q slot := by
  intro c program awaits
  cases after <;> cases awaits

/-! ## the acts of a walk -/

theorem did_start (numbered : Numbered w.shared.slots.length bs) (fresh : Fresh w.shared.slot bs) :
    ReflTransGen (Did Q s bs) w (start bs w).1 := by
  induction bs generalizing w with
  | nil => exact .refl
  | cons b bs ih =>
    obtain ⟨own, others⟩ := List.pairwise_cons.mp numbered.unique
    have frame : Frame [b] w.shared (w.shared.begin b) := Shared.frame_begin
    have behind := ih (w := { w with shared := w.shared.begin b })
      ⟨others, fun c hc => frame.length ▸ numbered.inside c (List.mem_cons_of_mem _ hc)⟩
      (frame.fresh (fun c hc => fresh c (List.mem_cons_of_mem _ hc))
        (List.forall_mem_singleton.mpr own))
    have told : (Act.begin b).Told := trivial
    have due : (Act.begin b).Due (b :: bs) w.shared :=
      ⟨List.mem_cons_self, numbered.inside b List.mem_cons_self, fresh b List.mem_cons_self⟩
    exact (did_single told due trivial).trans (did_mono behind (List.subset_cons_self ..))

theorem slot_start (numbered : Numbered w.shared.slots.length bs) {b : Branch} (hb : b ∈ bs) :
    (start bs w).1.shared.slot b.id = { args := some w.shared.args, isExecuting := true } := by
  induction bs generalizing w with
  | nil => cases hb
  | cons c bs ih =>
    obtain ⟨own, others⟩ := List.pairwise_cons.mp numbered.unique
    have frame : Frame [c] w.shared (w.shared.begin c) := Shared.frame_begin
    rcases List.mem_cons.mp hb with rfl | hb
    · have kept := (frame_start bs { w with shared := w.shared.begin b }).same b.id
        fun d hd e => own d hd e.symm
      have inside := numbered.inside b List.mem_cons_self
      exact kept.trans (Shared.slot_begin inside)
    · exact ih (w := { w with shared := w.shared.begin c })
        ⟨others, fun d hd => frame.length ▸ numbered.inside d (List.mem_cons_of_mem _ hd)⟩ hb

theorem sublist_allOfMembers (bs : List Branch) : bs.Sublist (allOfMembers bs) := by
  induction bs with
  | nil => exact .refl _
  | cons b bs ih =>
    rw [allOfMembers, all_eq]
    exact (ih.trans (List.sublist_append_right ..)).cons_cons b

variable {walk walk' m m' : Walk} {items rest : List (Item Branch)} {item : Item Branch} {b : Branch}

theorem Trail.next (trail : Trail slot (.list items) (.ready (item :: rest))) :
    item.members.Sublist (allOf items) ∧ Fresh slot item.members := by
  cases trail with
  | ready reaches fresh =>
    have left := reaches.sublist
    rw [allOf_cons] at left fresh
    have first := (sublist_allOfMembers item.members).trans (List.sublist_append_left _ (allOf rest))
    exact ⟨first.trans left, fresh.mono first.subset⟩

theorem Trail.awaits_mem {scope : Scope} (trail : Trail slot scope walk) {program : AsyncProgram}
    (awaits : Awaits b program walk) : b ∈ scope.branches := by
  induction trail with
  | @joined items item members rest queue reaches _ length _ ih =>
    cases awaits with
    | inside _ _ hm awaits =>
      obtain ⟨i, found⟩ := List.mem_iff_getElem?.mp hm
      have inside : i < item.members.length := length ▸ (List.getElem?_eq_some_iff.mp found).1
      have member := List.getElem?_eq_getElem inside
      have own := ih i _ _ member found awaits
      have sub := reaches.sublist
      rw [allOf_cons] at sub
      have front := all_sublist_allOfMembers (List.mem_of_getElem? member)
      exact ((front.trans (List.sublist_append_left ..)).trans sub).subset own
  | @awaiting c program _ =>
    cases awaits with
    | own => exact mem_all_self _
  | @entered c walk _ _ ih =>
    exact ((taken_sublist slot c).trans (under_sublist c)).subset (ih awaits)
  | ready | stalled | failed | givenUp => cases awaits

theorem Walk.Watched.frame {scope : Scope} (watched : walk.Watched Q w.shared.slot)
    (trail : Trail w.shared.slot scope walk) (frame : Frame bs w.shared w'.shared)
    (apart : ∀ c ∈ bs, ∀ d ∈ scope.branches, c.id ≠ d.id) : walk.Watched Q w'.shared.slot := by
  intro b program awaits
  rw [frame.same b.id fun c hc => apart c hc b (trail.awaits_mem awaits)]
  exact watched b program awaits

variable (kept : Kept Q)
include kept

theorem watched_start (numbered : Numbered w.shared.slots.length bs) (rest : List (Item Branch)) :
    (joinedOf (start bs w).2 rest).Watched Q (start bs w).1.shared.slot := by
  intro b program awaits
  cases awaits with
  | inside _ _ hm awaits =>
    rw [start_members] at hm
    obtain ⟨c, hc, rfl⟩ := List.mem_map.mp hm
    cases awaits with
    | own =>
      rw [slot_start numbered hc]
      exact kept.begun _ _ _

theorem Walk.Move.did (move : Move s walk w walk' w')
    (numbered : Numbered w.shared.slots.length (allOf items))
    (trail : Trail w.shared.slot (.list items) walk) :
    ReflTransGen (Did Q s (allOf items)) w w' ∧ walk'.Watched Q w'.shared.slot := by
  have group (item : Item Branch) {rest : List (Item Branch)} {w : World}
      (numbered : Numbered w.shared.slots.length (allOf items))
      (trail : Trail w.shared.slot (.list items) (.ready (item :: rest))) :
      ReflTransGen (Did Q s (allOf items)) w (start item.members w).1 ∧
        (joinedOf (start item.members w).2 rest).Watched Q (start item.members w).1.shared.slot := by
    obtain ⟨sub, fresh⟩ := trail.next
    have own := numbered.sublist sub
    exact ⟨did_mono (did_start own fresh) sub.subset, watched_start kept own rest⟩
  cases move with
  | @sync b step rest w body =>
    obtain ⟨sub, fresh⟩ := trail.next
    have own : b ∈ allOf items := sub.subset (List.mem_singleton_self b)
    have told : (Act.run b step).Told := body
    have due : (Act.run b step).Due (allOf items) w.shared :=
      ⟨own, numbered.inside b own, fresh b (List.mem_singleton_self b)⟩
    exact ⟨did_single told due trivial, watched_walk b rest _⟩
  | @lone b step rest w body => exact group (.step b) numbered trail
  | group bs rest w => exact group (.group bs) numbered trail
  | settle => cases trail

/-- a step of a member, if a step of the walk under it is done in acts -/
theorem did_member (step : Step s m w m' w')
    (below : ∀ items, Numbered w.shared.slots.length (allOf items) →
      Trail w.shared.slot (.list items) m → m.Watched Q w.shared.slot →
      ReflTransGen (Did Q s (allOf items)) w w' ∧ m'.Watched Q w'.shared.slot)
    (numbered : Numbered w.shared.slots.length (all b))
    (trail : Trail w.shared.slot (.member b) m) (watched : m.Watched Q w.shared.slot) :
    ReflTransGen (Did Q s (all b)) w w' ∧ m'.Watched Q w'.shared.slot := by
  cases trail with
  | awaiting program opened =>
    have mine := watched b program .own
    cases step with
    | move move =>
      cases move with
      | @settle b program result w ended =>
        have own := mem_all_self b
        have told : (Act.settle b result).Told := trivial
        have due : (Act.settle b result).Due (all b) w.shared :=
          ⟨own, numbered.inside b own, opened.begun⟩
        have vouched : (Act.settle b result).Vouched Q s w := ⟨program, ended, mine⟩
        exact ⟨did_single told due vouched, watched_walk b [] _⟩
    | suspend waiting suspended =>
      have told : (Act.wait waiting).Told := trivial
      refine ⟨did_single told trivial trivial, fun c left awaits => ?_⟩
      cases awaits with
      | own => exact kept.suspended mine suspended
  | givenUp error opened =>
    cases step with
    | move move => cases move
  | entered entered trail =>
    have inside := (taken_sublist w.shared.slot b).trans (under_sublist b)
    obtain ⟨done, watched⟩ := below _ (numbered.sublist inside) trail watched
    exact ⟨did_mono done inside.subset, watched⟩

/-- **Whatever a walk does is due**, and it goes on to wait for what `Q` holds of. -/
theorem Walk.Step.did (step : Step s walk w walk' w') :
    ∀ items, Numbered w.shared.slots.length (allOf items) →
      Trail w.shared.slot (.list items) walk → walk.Watched Q w.shared.slot →
      ReflTransGen (Did Q s (allOf items)) w w' ∧ walk'.Watched Q w'.shared.slot := by
  induction step with
  | move move => exact fun items numbered trail _ => move.did kept numbered trail
  | suspend => exact fun _ _ trail => nomatch trail
  | @member members i m m' w w' queue rest found step ih =>
    intro items numbered trail watched
    cases trail with
    | @joined _ item _ _ _ reaches fresh length each =>
      have inside : i < item.members.length := length ▸ (List.getElem?_eq_some_iff.mp found).1
      have member := List.getElem?_eq_getElem inside
      generalize item.members[i] = b at member
      have sub := reaches.sublist
      rw [allOf_cons] at sub
      have group := (List.sublist_append_left _ (allOf rest)).trans sub
      have own := (all_sublist_allOfMembers (List.mem_of_getElem? member)).trans group
      have mine : m.Watched Q w.shared.slot := fun c program awaits =>
        watched c program (.inside queue rest (List.mem_of_getElem? found) awaits)
      obtain ⟨done, watched'⟩ :=
        did_member kept step ih (numbered.sublist own) (each i b m member found) mine
      refine ⟨did_mono done own.subset, fun c program awaits => ?_⟩
      cases awaits with
      | inside _ _ hn awaits =>
        obtain ⟨j, hj⟩ := List.mem_iff_getElem?.mp hn
        have there : i < members.length := (List.getElem?_eq_some_iff.mp found).1
        rcases getElem?_set_cases there hj with ⟨rfl, rfl⟩ | ⟨other, same⟩
        · exact watched' c program awaits
        · -- the member that stands elsewhere has other branches
          have there : j < item.members.length := length ▸ (List.getElem?_eq_some_iff.mp same).1
          have neighbour := List.getElem?_eq_getElem there
          obtain ⟨-, frame⟩ := keeps_member step step.keeps (numbered.sublist own)
            (each i b m member found)
          have theirs : Watched Q w.shared.slot _ := fun d left awaits =>
            watched d left (.inside queue rest (List.mem_of_getElem? same) awaits)
          exact theirs.frame (each j _ _ neighbour same) frame
            (Unique.members (numbered.unique.sublist group) member neighbour other) c program awaits
  | requeue members queue queue' rest w =>
    intro _ _ _ watched
    refine ⟨.refl, fun c program awaits => ?_⟩
    cases awaits with
    | inside _ _ hm awaits => exact watched c program (.inside queue rest hm awaits)
  | raise | join => exact fun _ _ _ _ => ⟨.refl, fun _ _ awaits => nomatch awaits⟩

theorem Walk.Steps.did (steps : Steps s walk w walk' w')
    (numbered : Numbered w.shared.slots.length (allOf items))
    (trail : Trail w.shared.slot (.list items) walk) (watched : walk.Watched Q w.shared.slot) :
    ReflTransGen (Did Q s (allOf items)) w w' ∧ walk'.Watched Q w'.shared.slot := by
  induction steps with
  | refl => exact ⟨.refl, watched⟩
  | head first _ ih =>
    obtain ⟨trail', frame⟩ := first.keeps items numbered trail
    obtain ⟨done, watched⟩ := first.did kept items numbered trail watched
    obtain ⟨more, watched⟩ := ih (frame.length.symm ▸ numbered) trail' watched
    exact ⟨done.trans more, watched⟩

omit kept in
theorem Walk.Steps.acts (steps : Steps s walk w walk' w')
    (numbered : Numbered w.shared.slots.length (allOf items))
    (trail : Trail w.shared.slot (.list items) walk) : Acts s (allOf items) w w' := by
  have kept : Kept fun _ _ _ => True := ⟨fun _ _ _ => trivial, fun _ _ => trivial⟩
  exact .of_did (steps.did kept numbered trail fun _ _ _ => trivial).1

end

/-! ## runs that write alone -/

/-- the two say the same, but for what is marked as executing, for the duration, and for who waits -/
structure Shared.Like (before after : Shared) : Prop where
  args : after.args = before.args
  journal : after.journal = before.journal
  length : after.slots.length = before.slots.length
  slot : ∀ id, (before.slot id).Like (after.slot id)

namespace Run

/-- a run and the store that it leaves behind, with nobody else to write to the store -/
inductive Alone (signal : Signal) (initial : Store) : Run → Store → Prop
  | start {id : String} {startedAt : Timestamp} {input : Signal.Input} {run : Run} :
      signal.start id startedAt input = .ok run → Alone signal initial run initial
  | poll {run : Run} {store : Store} (isOpen : String → Bool) (elapsed : Nat) :
      Alone signal initial run store →
      Alone signal initial (run.poll isOpen elapsed store).1 (run.poll isOpen elapsed store).2
  | wake {run : Run} {store : Store} (address : Address) :
      Alone signal initial run store → Alone signal initial (run.wake address) store
  | gateOpened {run : Run} {store : Store} (gate : String) :
      Alone signal initial run store → Alone signal initial (run.gateOpened gate) store

section
variable {signal : Signal} {initial store : Store} {run : Run}

theorem Alone.reachable (alone : Alone signal initial run store) : Reachable signal run := by
  induction alone with
  | start started => exact .start started
  | poll isOpen elapsed _ ih => exact ih.poll isOpen elapsed _
  | wake address _ ih => exact ih.wake address
  | gateOpened gate _ ih => exact ih.gateOpened gate

/-- a gate that is opened changes who waits, and then wakes -/
theorem gateOpened_keeps {P : Run → Prop} (gate : String)
    (first : ∀ waiting, P { run with shared := { run.shared with waiting } })
    (woken : ∀ run address, P run → P (run.wake address)) : P (run.gateOpened gate) := by
  unfold gateOpened
  generalize run.shared.waiting.partition (·.1 = gate) = parts
  obtain ⟨there, elsewhere⟩ := parts
  dsimp only
  have start := first elsewhere
  clear first
  generalize { run with shared := { run.shared with waiting := elsewhere } } = run at start ⊢
  induction there generalizing run with
  | nil => exact start
  | cons entry there ih => exact ih (run.wake entry.2) (woken run entry.2 start)

theorem shared_gateOpened (run : Run) (gate : String) :
    ∃ waiting, (run.gateOpened gate).shared = { run.shared with waiting } :=
  gateOpened_keeps (P := fun after => ∃ waiting, after.shared = { run.shared with waiting }) gate
    (fun waiting => ⟨waiting, rfl⟩) fun _ _ same => same

/-! ## polls of runs -/

/-- what a run becomes when its walk has been polled -/
inductive Becomes (run : Run) (elapsed : Nat) (polled : Polled) : Run → Prop
  | rejected {error : RunError} : polled.walk.error? = some error →
      Becomes run elapsed polled { run with
        walk := polled.walk, woken := polled.woken, shared := polled.world.shared.close elapsed
        settled := some (.rejected error) }
  | completed {after : Run} : polled.walk.error? = none → polled.walk.isDone = true →
      after = { run with
        walk := polled.walk, woken := polled.woken
        shared := polled.world.shared.complete elapsed } →
      Becomes run elapsed polled { after with settled := some (.completed after.snapshot) }
  | pending : polled.walk.error? = none → polled.walk.isDone = false →
      Becomes run elapsed polled
        { run with walk := polled.walk, woken := polled.woken, shared := polled.world.shared }

theorem poll_becomes (pending : run.settled = none) (isOpen : String → Bool) (elapsed : Nat)
    (store : Store) :
    let polled := run.walk.poll (run.setting isOpen elapsed) ⟨store, run.shared⟩
    (run.poll isOpen elapsed store).2 = polled.world.store ∧
      Becomes run elapsed polled (run.poll isOpen elapsed store).1 := by
  have open' : ¬ run.settled.isSome = true := by rw [pending]; exact Bool.false_ne_true
  unfold Run.poll
  rw [if_neg open']
  dsimp only
  generalize run.walk.poll (run.setting isOpen elapsed) ⟨store, run.shared⟩ = polled
  refine ⟨rfl, ?_⟩
  split
  · next error found => exact .rejected found
  · next fine =>
    split
    · next ended => exact .completed fine ended rfl
    · next left => exact .pending fine (Bool.eq_false_iff.mpr left)

theorem like_close (shared : Shared) (elapsed : Nat) : Shared.Like shared (shared.close elapsed) := by
  refine ⟨rfl, rfl, List.length_map .., fun id => ?_⟩
  unfold Shared.slot Shared.close
  dsimp only
  rw [List.getElem?_map]
  cases shared.slots[id]? with
  | none => exact .inl rfl
  | some slot => exact .inr rfl

theorem Becomes.like {elapsed : Nat} {polled : Polled} {after : Run}
    (h : Becomes run elapsed polled after) : Shared.Like polled.world.shared after.shared := by
  cases h with
  | rejected => exact like_close _ _
  | completed _ _ e =>
    subst e
    exact ⟨rfl, rfl, rfl, fun _ => .inl rfl⟩
  | pending => exact ⟨rfl, rfl, rfl, fun _ => .inl rfl⟩

theorem Sound.poll_acts (sound : Sound signal run)
    (numbered : Numbered signal.tree.size (allOf signal.tree.branches))
    (pending : run.settled = none) (isOpen : String → Bool) (elapsed : Nat) (store : Store) :
    let s := run.setting isOpen elapsed
    Acts s (allOf signal.tree.branches) ⟨store, run.shared⟩
      (run.walk.poll s ⟨store, run.shared⟩).world := by
  exact (poll_steps _ run.walk ⟨store, run.shared⟩).acts (sound.length ▸ numbered) (sound.trail pending)

/-- what the steps of a walk keep is true of every run under way -/
theorem Reachable.under_way {P : (Nat → Slot) → Walk → Prop} {name : String} {policy : Policy}
    {definition : List Chain} (created : Signal.create name policy definition = .ok signal)
    (first : ∀ slot, P slot (.ready signal.tree.branches))
    (steps : ∀ {s walk w walk' w'}, Steps s walk w walk' w' →
      Numbered w.shared.slots.length (allOf signal.tree.branches) →
      Trail w.shared.slot (.list signal.tree.branches) walk → P w.shared.slot walk →
      P w'.shared.slot walk') (reachable : Reachable signal run) :
    run.settled = none → P run.shared.slot run.walk := by
  have numbered := Signal.numbered created
  have step {run : Run} (sound : Sound signal run) (pending : run.settled = none)
      (own : P run.shared.slot run.walk) {s : Setting} {store : Store} {walk' : Walk} {w' : World}
      (reached : Steps s run.walk ⟨store, run.shared⟩ walk' w') : P w'.shared.slot walk' :=
    steps reached (sound.length ▸ numbered) (sound.trail pending) own
  have wake {run : Run} (address : Address) (sound : Sound signal run)
      (own : run.settled = none → P run.shared.slot run.walk) (pending : run.settled = none) :
      P run.shared.slot (run.walk.wake address).1 :=
    step sound pending (own pending)
      (wake_steps (run.setting (fun _ => false) 0) address run.walk ⟨default, run.shared⟩)
  induction reachable with
  | start started =>
    obtain ⟨args, -, rfl⟩ := Signal.start_eq started
    exact fun _ => first _
  | @poll run isOpen elapsed store reachable ih =>
    cases settled : run.settled with
    | some _ =>
      rw [Run.poll, settled]
      exact ih
    | none =>
      have own := step (reachable.sound created) settled (ih settled)
        (poll_steps (run.setting isOpen elapsed) run.walk ⟨store, run.shared⟩)
      have becomes := (poll_becomes settled isOpen elapsed store).2
      generalize (run.poll isOpen elapsed store).1 = after at becomes ⊢
      intro pending
      cases becomes with
      | rejected | completed => cases pending
      | pending => exact own
  | wake address reachable ih => exact wake address (reachable.sound created) ih
  | @gateOpened run gate reachable ih =>
    have both : Sound signal (run.gateOpened gate) ∧ ((run.gateOpened gate).settled = none →
        P (run.gateOpened gate).shared.slot (run.gateOpened gate).walk) := by
      have sound := reachable.sound created
      refine gateOpened_keeps (P := fun run => Sound signal run ∧
        (run.settled = none → P run.shared.slot run.walk)) gate
        (fun waiting => ⟨⟨sound.belongs, sound.length, sound.standing⟩, ih⟩) ?_
      exact fun run address ⟨sound, own⟩ => ⟨sound.wake numbered address, wake address sound own⟩
    exact both.2

section
variable {Q : Branch → AsyncProgram → Slot → Prop} (kept : Kept Q)
  (numbered : Numbered signal.tree.size (allOf signal.tree.branches))
include kept numbered

theorem Sound.poll_did (sound : Sound signal run) (pending : run.settled = none)
    (watched : run.walk.Watched Q run.shared.slot) (isOpen : String → Bool) (elapsed : Nat)
    (store : Store) :
    let s := run.setting isOpen elapsed
    let polled := run.walk.poll s ⟨store, run.shared⟩
    ReflTransGen (Did Q s (allOf signal.tree.branches)) ⟨store, run.shared⟩ polled.world ∧
      polled.walk.Watched Q polled.world.shared.slot := by
  exact (poll_steps _ run.walk ⟨store, run.shared⟩).did kept (sound.length ▸ numbered)
    (sound.trail pending) watched

omit numbered in
theorem Reachable.watched {name : String} {policy : Policy} {definition : List Chain}
    (created : Signal.create name policy definition = .ok signal)
    (reachable : Reachable signal run) :
    run.settled = none → run.walk.Watched Q run.shared.slot :=
  reachable.under_way (P := fun slot walk => walk.Watched Q slot) created
    (fun _ _ _ awaits => nomatch awaits)
    fun steps numbered trail watched => (steps.did kept numbered trail watched).2

end

/-- **What is true of the first world of a run, and kept by every act that is due, is true of every
world that a run comes to on its own.** -/
theorem Alone.invariant {P : World → Prop} {name : String} {policy : Policy}
    {definition : List Chain} (created : Signal.create name policy definition = .ok signal)
    (first : ∀ args, P ⟨initial, .initial args signal.tree.size⟩)
    (act : ∀ s (a : Act) w, a.Told → a.Due (allOf signal.tree.branches) w.shared → P w →
      P (a.perform s w))
    (like : ∀ store shared shared', Shared.Like shared shared' → P ⟨store, shared⟩ →
      P ⟨store, shared'⟩)
    (alone : Alone signal initial run store) : P ⟨store, run.shared⟩ := by
  induction alone with
  | start started =>
    obtain ⟨args, -, rfl⟩ := Signal.start_eq started
    exact first args
  | @poll run store isOpen elapsed alone ih =>
    cases settled : run.settled with
    | some _ =>
      rw [Run.poll, settled]
      exact ih
    | none =>
      have sound := alone.reachable.sound created
      have acts := sound.poll_acts (Signal.numbered created) settled isOpen elapsed store
      obtain ⟨left, becomes⟩ := poll_becomes settled isOpen elapsed store
      rw [left]
      exact like _ _ _ becomes.like (acts.keep (act _) ih)
  | wake address _ ih => exact ih
  | @gateOpened run store gate _ ih =>
    obtain ⟨waiting, same⟩ := shared_gateOpened run gate
    rw [same]
    exact like _ run.shared _ ⟨rfl, rfl, rfl, fun _ => .inl rfl⟩ ih

end

end Run

end SignalFlow
