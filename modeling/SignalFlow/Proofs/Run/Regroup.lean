import SignalFlow.Proofs.Definition.Regroup
import SignalFlow.Proofs.Run.Recast
/-!
# Runs with concurrent steps in groups of their own

* `Walk.bare`      a walk through bare branches;
* `RunError.bare`  an error without the position of its step;
* `Trace.bare`     a trace without positions and marks, and every item a group;
* `Run.Alike`      two runs with one state, that walk through the same bare tree.

A bare walk is polled as the walk is (`pollWith_bare`), so two runs that are alike stay so
(`Run.Alike.visits`). The trees of a definition and of what it is regrouped to are the same bare tree, and so
their runs are alike on any schedule (`Signal.regrouped`).
-/

namespace SignalFlow

open Chain Branch

/-! ## errors and traces -/

/-- the error without the position of its step -/
def RunError.bare : RunError → RunError
  | .invalidArgs signal reason => .invalidArgs signal reason
  | .argsNotObject signal found => .argsNotObject signal found
  | .stepFailed site message => .stepFailed { site with position := [] } message
  | .asyncStepFailed site message => .asyncStepFailed { site with position := [] } message
  | .undeclaredOutput site output => .undeclaredOutput { site with position := [] } output

namespace Record

mutual

/-- the record without its position and its mark, and every item below it a group -/
def bare : Record → Record
  | .mk occurrence slot outputs =>
    .mk { occurrence with position := [], isAsync := false } slot (bareMap outputs)

def bareMap : Option (List (String × List (Item Record))) → Option (List (String × List (Item Record)))
  | none => none
  | some outputs => some (bareOutputs outputs)

def bareOutputs : List (String × List (Item Record)) → List (String × List (Item Record))
  | [] => []
  | (output, items) :: rest => (output, bareItems items) :: bareOutputs rest

def bareItems : List (Item Record) → List (Item Record)
  | [] => []
  | .step r :: rest => .group [bare r] :: bareItems rest
  | .group members :: rest => .group (bareMembers members) :: bareItems rest

def bareMembers : List Record → List Record
  | [] => []
  | r :: rest => bare r :: bareMembers rest

end

section
variable (slots : List Slot)

mutual

/-- a bare branch is shown as the branch is, but for what a bare record leaves out -/
theorem bare_ofBranch : ∀ b : Branch, (ofBranch slots b.bare).bare = (ofBranch slots b).bare
  | .mk spec none => rfl
  | .mk spec (some outputs) => by
    rw [Branch.bare, ofBranch, ofBranch, bare, bare, Branch.bareMap, ofMap, ofMap, bareMap, bareMap,
      bare_ofOutputs outputs]
    rfl

theorem bare_ofOutputs : ∀ outputs : List (String × List (Item Branch)),
    bareOutputs (ofOutputs slots (Branch.bareOutputs outputs)) = bareOutputs (ofOutputs slots outputs)
  | [] => rfl
  | (output, items) :: rest => by
    rw [Branch.bareOutputs, ofOutputs, ofOutputs, bareOutputs, bareOutputs, bare_ofItems items,
      bare_ofOutputs rest]

theorem bare_ofItems : ∀ items : List (Item Branch),
    bareItems (ofItems slots (Branch.bareItems items)) = bareItems (ofItems slots items)
  | [] => rfl
  | .step b :: rest => by
    have own : bareItems (ofItems slots (Branch.bareItems (.step b :: rest))) =
        .group [(ofBranch slots b.bare).bare] :: bareItems (ofItems slots (Branch.bareItems rest)) := by
      rw [Branch.bareItems]
      split <;> rfl
    rw [own, bare_ofBranch b, bare_ofItems rest, ofItems, bareItems]
  | .group members :: rest => by
    rw [Branch.bareItems, ofItems, ofItems, bareItems, bareItems, bare_ofMembers members,
      bare_ofItems rest]

theorem bare_ofMembers : ∀ bs : List Branch,
    bareMembers (ofMembers slots (Branch.bareMembers bs)) = bareMembers (ofMembers slots bs)
  | [] => rfl
  | b :: rest => by
    rw [Branch.bareMembers, ofMembers, ofMembers, bareMembers, bareMembers, bare_ofBranch b,
      bare_ofMembers rest]

end

end

end Record

/-- the trace without positions and marks, and every item a group -/
def Trace.bare (trace : Trace) : Trace := { trace with branches := Record.bareItems trace.branches }

/-- how a run ends, without positions and marks -/
def Settled.bare : Settled → Settled
  | .completed trace => .completed trace.bare
  | .rejected error => .rejected error.bare

theorem Shared.bare_snapshot {tree tree' : Tree} (same : tree'.bare = tree.bare) (shared : Shared)
    (id name : String) (startedAt : Timestamp) :
    (shared.snapshot id name startedAt tree').bare = (shared.snapshot id name startedAt tree).bare := by
  have branches : Branch.bareItems tree'.branches = Branch.bareItems tree.branches :=
    congrArg Tree.branches same
  unfold snapshot Trace.bare
  dsimp only
  rw [← Record.bare_ofItems shared.slots tree'.branches, branches, Record.bare_ofItems]

/-! ## weights -/

namespace Branch

mutual

theorem weight_bare : ∀ b : Branch, b.bare.weight = b.weight
  | .mk spec none => rfl
  | .mk spec (some outputs) => by
    rw [bare, bareMap, Branch.weight, Branch.weight, outputsWeight_bare outputs]

theorem outputsWeight_bare : ∀ outputs : List (String × List (Item Branch)),
    outputsWeight (bareOutputs outputs) = outputsWeight outputs
  | [] => rfl
  | (output, items) :: rest => by
    rw [bareOutputs, outputsWeight, outputsWeight, itemsWeight_bare items, outputsWeight_bare rest]

theorem itemsWeight_bare :
    ∀ items : List (Item Branch), itemsWeight (bareItems items) = itemsWeight items
  | [] => rfl
  | .step b :: rest => by
    rw [bareItems, itemsWeight, ← weight_bare b, ← itemsWeight_bare rest]
    split <;> rfl
  | .group members :: rest => by
    rw [bareItems, itemsWeight, itemsWeight, branchesWeight_bare members, itemsWeight_bare rest]

theorem branchesWeight_bare :
    ∀ bs : List Branch, branchesWeight (bareMembers bs) = branchesWeight bs
  | [] => rfl
  | b :: rest => by
    rw [bareMembers, branchesWeight, branchesWeight, weight_bare b, branchesWeight_bare rest]

end

end Branch

/-! ## walks -/

namespace Walk

mutual

/-- the walk through bare branches -/
def bare : Walk → Walk
  | ready items => ready (bareItems items)
  | awaiting b program => awaiting b.bare program
  | joined members queue rest => joined (bareAll members) queue (bareItems rest)
  | stalled b => stalled b.bare
  | failed error => failed error.bare

def bareAll : List Walk → List Walk
  | [] => []
  | walk :: rest => bare walk :: bareAll rest

end

def Polled.bare (polled : Polled) : Polled := { polled with walk := polled.walk.bare }

def Round.bare (round : Round) : Round := { round with members := round.members.map (·.bare) }

theorem bareAll_eq (members : List Walk) : bareAll members = members.map (·.bare) := by
  induction members with
  | nil => rfl
  | cons walk rest ih => rw [bareAll, ih, List.map_cons]

theorem bare_joined (members : List Walk) (queue : Option (List Nat)) (rest : List (Item Branch)) :
    (joined members queue rest).bare = joined (members.map (·.bare)) queue (bareItems rest) := by
  rw [bare, bareAll_eq]

mutual

theorem weight_bare : ∀ walk : Walk, walk.bare.weight = walk.weight
  | ready items => itemsWeight_bare items
  | awaiting b _ => Branch.weight_bare b
  | joined members queue rest => by
    rw [bare, weight, weight, weights_bare members, itemsWeight_bare]
  | stalled _ => rfl
  | failed _ => rfl

theorem weights_bare : ∀ members : List Walk, weights (bareAll members) = weights members
  | [] => rfl
  | walk :: rest => by rw [bareAll, weights, weights, weight_bare walk, weights_bare rest]

end

theorem isDone_bare (walk : Walk) : walk.bare.isDone = walk.isDone := by
  cases walk with
  | ready items =>
    cases items with
    | nil => rfl
    | cons item rest => cases item <;> rfl
  | joined | awaiting | stalled | failed => rfl

theorem error?_bare (walk : Walk) : walk.bare.error? = walk.error?.map (·.bare) := by
  cases walk <;> rfl

theorem failed_bare (walk : Walk) : walk.bare.error?.isSome = walk.error?.isSome := by
  rw [error?_bare, Option.isSome_map]

theorem isPending_bare (walk : Walk) : walk.bare.isPending = walk.isPending := by
  rw [isPending, isDone_bare, error?_bare, Option.isNone_map, isPending]

theorem firstError?_bare (members : List Walk) :
    firstError? (members.map (·.bare)) = (firstError? members).map (·.bare) := by
  unfold firstError?
  rw [List.findSome?_map, List.map_findSome?]
  exact congrArg (members.findSome? ·) (funext error?_bare)

theorem earliestError?_bare (members : List Walk) :
    earliestError? (members.map (·.bare)) = (earliestError? members).map (·.bare) := by
  induction members with
  | nil => rfl
  | cons walk rest ih =>
    rw [List.map_cons, earliestError?, earliestError?, isDone_bare, error?_bare, ih]
    split <;> rfl

theorem unfinished_bare (members : List Walk) :
    unfinished (members.map (·.bare)) = unfinished members := by
  unfold unfinished
  rw [List.countP_map]
  exact congrArg (members.countP ·) (funext isPending_bare)

theorem all_isDone_bare (members : List Walk) :
    (members.map (·.bare)).all isDone = members.all isDone := by
  rw [List.all_map]
  exact congrArg (members.all ·) (funext isDone_bare)

theorem start_bare (bs : List Branch) (w : World) :
    start (bareMembers bs) w = ((start bs w).1, (start bs w).2.map (·.bare)) := by
  induction bs generalizing w with
  | nil => rfl
  | cons b bs ih =>
    have begun : w.shared.begin b.bare = w.shared.begin b := by
      unfold Shared.begin
      rw [bare_id]
    rw [bareMembers, start, begun, ih, bare_action]
    rfl

theorem joinedOf_bare (members : List Walk) (rest : List (Item Branch)) :
    (joinedOf members rest).bare = joinedOf (members.map (·.bare)) (bareItems rest) := by
  unfold joinedOf
  rw [bare_joined, List.length_map]

end Walk

/-! ## steps -/

def After.bare : After → After
  | .follow items => .follow (bareItems items)
  | .stall => .stall
  | .fail error => .fail error.bare

theorem After.walk_bare (b : Branch) (rest : List (Item Branch)) (after : After) :
    after.bare.walk b.bare (bareItems rest) = (after.walk b rest).bare := by
  cases after with
  | follow items => exact congrArg Walk.ready (bareItems_append items rest).symm
  | stall | fail => rfl

namespace Setting

variable (s : Setting) (b : Branch)

theorem abandon_bare (shared : Shared) : shared.abandon b.bare s.elapsed = shared.abandon b s.elapsed := by
  unfold Shared.abandon
  rw [bare_id]

theorem site_bare : s.site b.bare = { s.site b with position := [] } := by
  cases b
  rfl

theorem advance_bare (output : Option String) (payload : Value) (shared : Shared) :
    s.advance b.bare output payload shared =
      ((s.advance b output payload shared).1, (s.advance b output payload shared).2.bare) := by
  unfold advance Shared.finish
  rw [bare_id, next_bare]
  rfl

theorem stepFailed_bare (message : String) (shared : Shared) :
    s.stepFailed b.bare message shared =
      ((s.stepFailed b message shared).1, (s.stepFailed b message shared).2.bare) := by
  unfold stepFailed
  rw [abandon_bare, site_bare, bare_action]
  cases s.policy with
  | stall => rfl
  | reject => rfl
  | errorOutput =>
    dsimp only
    split
    · exact s.advance_bare b ..
    · rfl

theorem conclude_bare (result : StepResult) (shared : Shared) :
    s.conclude b.bare result shared =
      ((s.conclude b result shared).1, (s.conclude b result shared).2.bare) := by
  unfold conclude
  rw [bare_action]
  cases result with
  | error message => exact s.stepFailed_bare b message shared
  | ok outcome =>
    dsimp only
    cases b.action.resolve outcome.path with
    | error output => exact s.stepFailed_bare b _ shared
    | ok output => exact s.advance_bare b ..

theorem runSync_bare (step : Args → SyncProgram) (w : World) :
    s.runSync b.bare step w = ((s.runSync b step w).1, (s.runSync b step w).2.bare) := by
  unfold runSync Shared.begin
  simp only [bare_id, conclude_bare]

theorem settle_bare (result : StepResult) (shared : Shared) :
    s.settle b.bare result shared =
      ((s.settle b result shared).1, (s.settle b result shared).2.bare) := by
  unfold settle
  rw [abandon_bare, site_bare, bare_action]
  cases result with
  | error message => rfl
  | ok outcome =>
    dsimp only
    cases b.action.resolve outcome.path with
    | error output => rfl
    | ok output => exact s.advance_bare b ..

end Setting

/-! ## polls -/

namespace Walk

section
variable {s : Setting} {walk walk' : Walk} {w w' : World}

/-- a concurrent step of a sequential list begins as a group of one does -/
theorem Move.bare (move : Move s walk w walk' w') : Move s walk.bare w walk'.bare w' := by
  cases move with
  | @sync b step rest w body =>
    have sync : b.action.isAsync = false := by rw [Action.isAsync, body]
    have move : Move s (ready (.step b.bare :: bareItems rest)) w _ _ :=
      .sync (bareItems rest) w ((congrArg Action.body (bare_action b)).trans body)
    rw [Setting.runSync_bare, After.walk_bare] at move
    rw [bare, bareItems, if_neg (Bool.eq_false_iff.mp sync)]
    exact move
  | @lone b step rest w body =>
    have async : b.action.isAsync = true := by rw [Action.isAsync, body]
    have move : Move s (ready (.group [b.bare] :: bareItems rest)) w _ _ :=
      .group (bareMembers [b]) (bareItems rest) w
    rw [start_bare, ← joinedOf_bare] at move
    rw [bare, bareItems, if_pos async]
    exact move
  | group bs rest w =>
    have move : Move s (ready (.group (bareMembers bs) :: bareItems rest)) w _ _ := .group _ _ w
    rw [start_bare, ← joinedOf_bare] at move
    exact move
  | @settle b program result w ended =>
    have move : Move s (awaiting b.bare program) w _ _ := .settle ended
    rw [Setting.settle_bare, show ([] : List (Item Branch)) = bareItems [] from rfl, After.walk_bare]
      at move
    exact move

end

/-- a poll of a bare walk is the bare poll of the walk -/
def Bares (poll : Nat → Walk → World → Polled) : Prop :=
  ∀ index walk w, poll index walk.bare w = (poll index walk w).bare

section
variable {poll : Nat → Walk → World → Polled} (bares : Bares poll)
include bares

theorem pollEach_bare (members : List Walk) (index : Nat) (w : World) :
    pollEach poll index (members.map (·.bare)) w = (pollEach poll index members w).bare := by
  induction members generalizing index w with
  | nil => rfl
  | cons m members ih =>
    rw [List.map_cons]
    cases done : m.isDone with
    | true =>
      rw [pollEach_done done, pollEach_done ((isDone_bare m).trans done), ih]
      rfl
    | false =>
      have busy : m.bare.isDone = false := (isDone_bare m).trans done
      have polled := bares index m w
      have same : (poll index m.bare w).walk.error?.isSome = (poll index m w).walk.error?.isSome := by
        rw [polled]
        exact failed_bare _
      cases failed : (poll index m w).walk.error?.isSome with
      | true =>
        rw [pollEach_failed done failed, pollEach_failed busy (same.trans failed), polled]
        rfl
      | false =>
        rw [pollEach_next done failed, pollEach_next busy (same.trans failed), polled]
        dsimp only [Polled.bare]
        rw [ih]
        rfl

theorem pollQueued_bare (fuel left yielded : Nat) (round : Round) :
    pollQueued poll fuel left yielded round.bare = (pollQueued poll fuel left yielded round).bare := by
  induction fuel generalizing left yielded round with
  | zero => rfl
  | succ fuel ih =>
    obtain ⟨w, members, waiting, woken⟩ := round
    cases waiting with
    | nil => rfl
    | cons index waiting =>
      cases found : members[index]? with
      | none =>
        have missing : (members.map (·.bare))[index]? = none := by
          rw [List.getElem?_map, found]
          rfl
        simp only [pollQueued, Round.bare, found, missing]
        exact ih left yielded ⟨w, members, waiting, woken⟩
      | some m =>
        have there : (members.map (·.bare))[index]? = some m.bare := by
          rw [List.getElem?_map, found]
          rfl
        have set : (members.map (·.bare)).set index (poll index m w).walk.bare =
            (members.set index (poll index m w).walk).map (·.bare) := List.map_set.symm
        simp only [pollQueued, Round.bare, found, there, bares index m w, Polled.bare, isPending_bare,
          set, unfinished_bare, earliestError?_bare, Option.isSome_map, all_isDone_bare]
        -- whatever is queued, both rounds stop here, or both go on with these members
        repeat' split
        all_goals first
          | rfl
          | exact ih _ _ ⟨_, _, _, _⟩

theorem pollGroup_bare (members : List Walk) (queue : Option (List Nat)) (w : World) :
    pollGroup poll (members.map (·.bare)) queue w =
      ((pollGroup poll members queue w).1.bare, (pollGroup poll members queue w).2.map (·.bare)) := by
  cases queue with
  | none =>
    unfold pollGroup
    dsimp only
    rw [pollEach_bare bares, Round.bare, firstError?_bare]
  | some waiting =>
    have same := pollQueued_bare bares ((members.length + 1) * (members.length + 1))
      (unfinished members) 0 ⟨w, members, waiting, false⟩
    unfold Round.bare at same
    unfold pollGroup
    dsimp only
    rw [List.length_map, unfinished_bare, same, Round.bare, earliestError?_bare]

end

/-- **A bare walk is polled as the walk is.** -/
theorem pollWith_bare (s : Setting) (fuel : Nat) (here : Address) (walk : Walk) (w : World) :
    pollWith s fuel here walk.bare w = (pollWith s fuel here walk w).bare := by
  induction fuel generalizing here walk w with
  | zero => rfl
  | succ fuel ih =>
    cases view s w walk with
    | move move => rw [move.pollWith, move.bare.pollWith, ih]
    | still still =>
      have same : Still walk.bare := by
        cases still with
        | done => exact .done
        | stalled b => exact .stalled _
        | failed error => exact .failed _
      rw [still.pollWith, same.pollWith]
      rfl
    | suspended found =>
      rw [pollWith_suspended found, bare, pollWith_suspended found]
      rfl
    | paused found =>
      rw [pollWith_paused found, bare, pollWith_paused found]
      rfl
    | joined members queue rest =>
      have bares : Bares fun index => pollWith s fuel (here ++ [index]) :=
        fun index m w => ih (here ++ [index]) m w
      rw [bare_joined, pollWith, pollWith, pollGroup_bare bares]
      generalize pollGroup (fun index => pollWith s fuel (here ++ [index])) members queue w = group
      obtain ⟨round, error⟩ := group
      cases error with
      | some error => rfl
      | none =>
        dsimp only [Option.map_none, Round.bare]
        rw [all_isDone_bare]
        split
        · have behind := ih here (ready rest) round.world
          rw [bare] at behind
          rw [behind]
          rfl
        · exact congrArg (Polled.mk round.world · round.woken) (bare_joined ..).symm

theorem poll_bare (s : Setting) (walk : Walk) (w : World) :
    walk.bare.poll s w = (walk.poll s w).bare := by
  unfold poll
  rw [weight_bare, pollWith_bare]

theorem wake_bare (address : Address) (walk : Walk) :
    walk.bare.wake address = ((walk.wake address).1.bare, (walk.wake address).2) := by
  induction address generalizing walk with
  | nil => rfl
  | cons index address ih =>
    cases walk with
    | ready | awaiting | stalled | failed => rfl
    | joined members queue rest =>
      rw [bare_joined, wake, wake, List.getElem?_map]
      cases members[index]? with
      | none =>
        rw [← bare_joined]
        rfl
      | some m =>
        rw [Option.map_some]
        dsimp only
        rw [ih m, isPending_bare]
        cases queue with
        | none => simp only [bare_joined, List.map_set]
        | some waiting =>
          dsimp only
          split
          · simp only [bare_joined, List.map_set]
          · simp only [bare_joined, List.map_set]

end Walk

/-! ## runs -/

open Walk

namespace Run

/-- two runs with one state, that walk through the same bare tree -/
structure Alike (run run' : Run) : Prop where
  id : run'.id = run.id
  startedAt : run'.startedAt = run.startedAt
  name : run'.signal.name = run.signal.name
  policy : run'.signal.policy = run.signal.policy
  tree : run'.signal.tree.bare = run.signal.tree.bare
  shared : run'.shared = run.shared
  walk : run'.walk.bare = run.walk.bare
  woken : run'.woken = run.woken
  settled : run'.settled.map (·.bare) = run.settled.map (·.bare)

namespace Alike

variable {run run' : Run}

theorem snapshot (alike : Alike run run') : run'.snapshot.bare = run.snapshot.bare := by
  unfold Run.snapshot
  rw [alike.shared, alike.id, alike.name, alike.startedAt]
  exact Shared.bare_snapshot alike.tree ..

/-- the walks having been polled alike, so have the runs -/
theorem becomes (alike : Alike run run') {elapsed : Nat} {polled polled' : Polled} {after after' : Run}
    (same : polled'.bare = polled.bare) (h : Becomes run elapsed polled after)
    (h' : Becomes run' elapsed polled' after') : Alike after after' := by
  obtain ⟨world, walk, woken⟩ := Polled.mk.inj same
  have error : polled'.walk.error?.map (·.bare) = polled.walk.error?.map (·.bare) := by
    rw [← error?_bare, walk, error?_bare]
  have isDone : polled'.walk.isDone = polled.walk.isDone := by rw [← isDone_bare, walk, isDone_bare]
  cases h with
  | rejected found =>
    rw [found] at error
    cases h' with
    | rejected found' =>
      rw [found'] at error
      exact { alike with
        shared := congrArg (fun w : World => w.shared.close elapsed) world
        walk, woken
        settled := congrArg (some ∘ Settled.rejected) (Option.some.inj error) }
    | completed fine' | pending fine' =>
      rw [fine'] at error
      cases error
  | @completed after fine done e =>
    rw [fine] at error
    rw [done] at isDone
    cases h' with
    | rejected found' =>
      rw [found'] at error
      cases error
    | @completed after' fine' done' e' =>
      have ended : Alike after after' := by
        rw [e, e']
        exact { alike with
          shared := congrArg (fun w : World => w.shared.complete elapsed) world
          walk, woken }
      exact { ended with settled := congrArg (some ∘ Settled.completed) ended.snapshot }
    | pending _ left' =>
      rw [left'] at isDone
      cases isDone
  | pending fine left =>
    rw [fine] at error
    rw [left] at isDone
    cases h' with
    | rejected found' =>
      rw [found'] at error
      cases error
    | completed _ done' =>
      rw [done'] at isDone
      cases isDone
    | pending _ _ =>
      exact { alike with shared := congrArg World.shared world, walk, woken }

theorem poll (alike : Alike run run') (isOpen : String → Bool) (elapsed : Nat) (store : Store) :
    (run'.poll isOpen elapsed store).2 = (run.poll isOpen elapsed store).2 ∧
      Alike (run.poll isOpen elapsed store).1 (run'.poll isOpen elapsed store).1 := by
  have both : run'.settled.isSome = run.settled.isSome := by
    rw [← Option.isSome_map (f := Settled.bare), alike.settled, Option.isSome_map]
  cases settled : run.settled.isSome with
  | true =>
    rw [atRest_of_settled settled, atRest_of_settled (both.trans settled)]
    exact ⟨rfl, alike⟩
  | false =>
    have pending := Option.isSome_eq_false_iff.mp settled
    have pending' := Option.isSome_eq_false_iff.mp (both.trans settled)
    obtain ⟨stored, becomes⟩ := poll_becomes (Option.isNone_iff_eq_none.mp pending) isOpen elapsed store
    obtain ⟨stored', becomes'⟩ :=
      poll_becomes (Option.isNone_iff_eq_none.mp pending') isOpen elapsed store
    have setting : run'.setting isOpen elapsed = run.setting isOpen elapsed := by
      rw [setting, setting, alike.name, alike.policy]
    have same : (run'.walk.poll (run'.setting isOpen elapsed) ⟨store, run'.shared⟩).bare =
        (run.walk.poll (run.setting isOpen elapsed) ⟨store, run.shared⟩).bare := by
      rw [setting, alike.shared, ← poll_bare, alike.walk, poll_bare]
    rw [stored, stored']
    exact ⟨congrArg (·.world.store) same, alike.becomes same becomes becomes'⟩

theorem wake (alike : Alike run run') (address : Address) :
    Alike (run.wake address) (run'.wake address) := by
  have same : ((run'.walk.wake address).1.bare, (run'.walk.wake address).2) =
      ((run.walk.wake address).1.bare, (run.walk.wake address).2) := by
    rw [← wake_bare, alike.walk, wake_bare]
  obtain ⟨walk, reached⟩ := Prod.mk.inj same
  exact { alike with
    walk
    woken := by
      unfold Run.wake
      dsimp only
      rw [alike.woken, reached] }

theorem foldl_wake (alike : Alike run run') (there : List (String × Address)) :
    Alike (there.foldl (fun run entry => run.wake entry.2) run)
      (there.foldl (fun run entry => run.wake entry.2) run') := by
  induction there generalizing run run' with
  | nil => exact alike
  | cons entry there ih => exact ih (alike.wake entry.2)

theorem gateOpened (alike : Alike run run') (gate : String) :
    Alike (run.gateOpened gate) (run'.gateOpened gate) := by
  unfold Run.gateOpened
  rw [alike.shared]
  refine foldl_wake ?_ _
  exact { alike with shared := rfl }

theorem turn (alike : Alike run run') (store : Store) (turn : Turn) :
    (run'.turn store turn).2 = (run.turn store turn).2 ∧
      Alike (run.turn store turn).1 (run'.turn store turn).1 := by
  cases turn with
  | poll isOpen elapsed => exact alike.poll isOpen elapsed store
  | wake address => exact ⟨rfl, alike.wake address⟩
  | gateOpened gate => exact ⟨rfl, alike.gateOpened gate⟩

/-- on any schedule, runs that are alike stay so, and leave the same store -/
theorem visits (alike : Alike run run') (schedule : List Visit) (store : Store) :
    (visits schedule run' store).2 = (visits schedule run store).2 ∧
      Alike (visits schedule run store).1 (visits schedule run' store).1 := by
  induction schedule generalizing run run' store with
  | nil => exact ⟨rfl, alike⟩
  | cons visit rest ih =>
    obtain ⟨stored, after⟩ := alike.turn (visit.others store) visit.turn
    unfold Run.visits
    dsimp only
    rw [stored]
    exact ih after _

end Alike

end Run

namespace Signal

variable {name : String} {policy : Policy} {signal : Signal}

/-- signals with the same bare tree are refused alike, and their runs begin alike -/
theorem start_alike (signal signal' : Signal) (name : signal'.name = signal.name)
    (policy : signal'.policy = signal.policy) (tree : signal'.tree.bare = signal.tree.bare)
    (id : String) (startedAt : Timestamp) (input : Input) :
    (∀ error, signal.start id startedAt input = .error error →
      signal'.start id startedAt input = .error error) ∧
    ∀ run, signal.start id startedAt input = .ok run →
      ∃ run', signal'.start id startedAt input = .ok run' ∧ Run.Alike run run' := by
  have prepared : signal'.prepareArgs input = signal.prepareArgs input := by
    unfold prepareArgs
    rw [name]
  have specs : signal'.tree.specs.map (·.bare) = signal.tree.specs.map (·.bare) :=
    congrArg Tree.specs tree
  have size : signal'.tree.size = signal.tree.size := by
    rw [Tree.size, ← List.length_map (·.bare), specs, List.length_map, Tree.size]
  have walk : (Walk.ready signal'.tree.branches).bare = (Walk.ready signal.tree.branches).bare :=
    congrArg (Walk.ready ∘ Tree.branches) tree
  unfold start
  rw [prepared, size]
  cases signal.prepareArgs input with
  | error error =>
    refine ⟨fun _ refused => refused, fun run started => ?_⟩
    cases started
  | ok args =>
    refine ⟨fun error refused => ?_, fun run started => ⟨_, rfl, ?_⟩⟩
    · cases refused
    · cases started
      exact ⟨rfl, rfl, name, policy, tree, rfl, walk, rfl, rfl⟩

/-- **A concurrent step of a sequential list is a group of one.** Whatever concurrent actions of its
sequential lists are put in groups of their own, an accepted definition is still accepted; the tree has the
same table and, but for positions and marks, the same branches by number. The runs are refused alike, and on
any schedule they leave the same stores, have the same arguments and slots, wait for the same, and are settled
at the same time in the same way, but for positions, marks and groups. -/
theorem regrouped {definition : List Chain} (created : create name policy definition = .ok signal)
    (chosen : Position → Bool) :
    ∃ signal', create name policy (regroup chosen false [] 0 definition) = .ok signal' ∧
      signal'.tree.actions = signal.tree.actions ∧
      signal'.tree.specs.map (·.bare) = signal.tree.specs.map (·.bare) ∧
      ∀ id startedAt input,
        (∀ error, signal.start id startedAt input = .error error →
          signal'.start id startedAt input = .error error) ∧
        ∀ run, signal.start id startedAt input = .ok run →
          ∃ run', signal'.start id startedAt input = .ok run' ∧
            ∀ (schedule : List Visit) (store : Store),
              (Run.visits schedule run' store).2 = (Run.visits schedule run store).2 ∧
              Run.Alike (Run.visits schedule run store).1 (Run.visits schedule run' store).1 ∧
              (Run.visits schedule run' store).1.snapshot.bare =
                (Run.visits schedule run store).1.snapshot.bare := by
  obtain ⟨accepted, rfl⟩ := create_eq created
  have same := Tree.compile_regroup accepted chosen
  have created' : create name policy (regroup chosen false [] 0 definition) =
      .ok ⟨name, Tree.compile (regroup chosen false [] 0 definition), policy⟩ := by
    rw [create, analyze_regroup accepted chosen]
  obtain ⟨actions, -, specs⟩ := Tree.mk.inj same
  refine ⟨_, created', actions, specs, fun id startedAt input => ?_⟩
  obtain ⟨refused, begins⟩ := start_alike ⟨name, Tree.compile definition, policy⟩
    ⟨name, Tree.compile (regroup chosen false [] 0 definition), policy⟩ rfl rfl same id startedAt input
  refine ⟨refused, fun run started => ?_⟩
  obtain ⟨run', started', alike⟩ := begins run started
  refine ⟨run', started', fun schedule store => ?_⟩
  obtain ⟨stored, after⟩ := alike.visits schedule store
  exact ⟨stored, after, after.snapshot⟩

/-- a concurrent step with an output map, below it another one behind a step that changes the store, and a
member of a group, which stays where it is -/
theorem regrouped_nested :
    let ask : Action := ⟨0, "ask", ["yes"], none, .async fun _ =>
      .wait "door" (.finish (.ok (.via "yes" .null)))⟩
    let save : Action := ⟨1, "save", [], none, .sync fun _ =>
      .call ["count"] (.set (.string "one")) fun _ => .finish (.ok .next)⟩
    let definition := [Chain.action ask, .paths [("yes", [.action save, .action ask])],
      .parallel [.action ask]]
    let schedule : List Visit := [⟨id, .poll (fun _ => false) 0⟩, ⟨id, .gateOpened "door"⟩,
      ⟨id, .poll (fun _ => true) 0⟩]
    ∃ signal signal' run run', create "page" .reject definition = .ok signal ∧
      create "page" .reject (regroup (fun _ => true) false [] 0 definition) = .ok signal' ∧
      signal.tree.specs.map (·.spec.position.text) =
        ["[0]", "[0, outputs, yes, 0]", "[0, outputs, yes, 1]", "[1, 0]"] ∧
      signal'.tree.specs.map (·.spec.position.text) =
        ["[0, 0]", "[0, 0, outputs, yes, 0]", "[0, 0, outputs, yes, 1, 0]", "[1, 0]"] ∧
      signal.start "r" default (.data .null) = .ok run ∧
      signal'.start "r" default (.data .null) = .ok run' ∧
      (Run.visits schedule run default).1.settled.isSome = true ∧
      (Run.visits schedule run' default).2 = (Run.visits schedule run default).2 ∧
      Run.Alike (Run.visits schedule run default).1 (Run.visits schedule run' default).1 := by
  intro ask save definition schedule
  let signal : Signal := ⟨"page", Tree.compile definition, .reject⟩
  have created : create "page" .reject definition = .ok signal := rfl
  have places : signal.tree.specs.map (·.spec.position.text) =
      ["[0]", "[0, outputs, yes, 0]", "[0, outputs, yes, 1]", "[1, 0]"] := by decide +kernel
  obtain ⟨run, started, settled⟩ : ∃ run, signal.start "r" default (.data .null) = .ok run ∧
      (Run.visits schedule run default).1.settled.isSome = true := ⟨_, rfl, by decide +kernel⟩
  have places' : (Tree.compile (regroup (fun _ => true) false [] 0 definition)).specs.map
      (·.spec.position.text) =
        ["[0, 0]", "[0, 0, outputs, yes, 0]", "[0, 0, outputs, yes, 1, 0]", "[1, 0]"] := by
    decide +kernel
  obtain ⟨signal', created', -, -, same⟩ := regrouped created fun _ => true
  obtain ⟨-, rfl⟩ := create_eq created'
  obtain ⟨run', started', follows⟩ := (same "r" default (.data .null)).2 run started
  obtain ⟨stored, alike, -⟩ := follows schedule default
  exact ⟨signal, _, run, run', created, created', places, places', started, started', settled, stored,
    alike⟩

end Signal

end SignalFlow
