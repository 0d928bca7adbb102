import SignalFlow.Proofs.Definition.Recast
import SignalFlow.Proofs.Run.Moments
import SignalFlow.Proofs.Run.Turns
/-!
# Runs with other bodies

* `Walk.recast`     a walk with other bodies in the steps that it has not come to;
* `Walk.Runs`       the body of a step in a sequential list ends with a result;
* `Walk.Fine`       whatever such a step ends with on the way is good;
* `Recast.Agrees`   wherever its result is good, a step does the same with the other body;
* `Visit`           a turn of a run, and what others have written to the store before it;
* `Run.recast`      a run with other bodies, under another policy;
* `Signal.Follows`  the runs of one signal do what those of another do, as long as the results are good.

If the bodies agree, a poll of the one walk is a poll of the other as long as the results are good
(`pollWith_recast`), and so the runs of the one signal do what those of the other do
(`Signal.follows_recast`).
-/

namespace SignalFlow

open Branch Walk

/-! ## walks -/

namespace Branch

variable (f : Recast)

mutual

theorem weight_recast : ∀ b : Branch, (b.recast f).weight = b.weight
  | .mk spec none => rfl
  | .mk spec (some outputs) => by
    rw [recast, recastMap, Branch.weight, Branch.weight, outputsWeight_recast outputs]

theorem outputsWeight_recast :
    ∀ outputs : List (String × List (Item Branch)),
      outputsWeight (recastOutputs f outputs) = outputsWeight outputs
  | [] => rfl
  | (output, items) :: rest => by
    rw [recastOutputs, outputsWeight, outputsWeight, itemsWeight_recast items,
      outputsWeight_recast rest]

theorem itemsWeight_recast :
    ∀ items : List (Item Branch), itemsWeight (recastItems f items) = itemsWeight items
  | [] => rfl
  | .step b :: rest => by
    rw [recastItems, itemsWeight, itemsWeight, weight_recast b, itemsWeight_recast rest]
  | .group members :: rest => by
    rw [recastItems, itemsWeight, itemsWeight, branchesWeight_recast members,
      itemsWeight_recast rest]

theorem branchesWeight_recast :
    ∀ bs : List Branch, branchesWeight (recastMembers f bs) = branchesWeight bs
  | [] => rfl
  | b :: rest => by
    rw [recastMembers, branchesWeight, branchesWeight, weight_recast b, branchesWeight_recast rest]

end

end Branch

namespace Walk

mutual

def recast (f : Recast) : Walk → Walk
  | ready items => ready (recastItems f items)
  | awaiting b program => awaiting (b.recast f) program
  | joined members queue rest => joined (recastAll f members) queue (recastItems f rest)
  | stalled b => stalled (b.recast f)
  | failed error => failed error

def recastAll (f : Recast) : List Walk → List Walk
  | [] => []
  | walk :: rest => recast f walk :: recastAll f rest

end

def Polled.recast (f : Recast) (polled : Polled) : Polled :=
  { polled with walk := polled.walk.recast f }

def Round.recast (f : Recast) (round : Round) : Round :=
  { round with members := round.members.map (·.recast f) }

section
variable (f : Recast)

theorem recastAll_eq (members : List Walk) : recastAll f members = members.map (·.recast f) := by
  induction members with
  | nil => rfl
  | cons walk rest ih => rw [recastAll, ih, List.map_cons]

theorem recast_joined (members : List Walk) (queue : Option (List Nat)) (rest : List (Item Branch)) :
    (joined members queue rest).recast f =
      joined (members.map (·.recast f)) queue (recastItems f rest) := by
  rw [recast, recastAll_eq]

mutual

theorem weight_recast : ∀ walk : Walk, (walk.recast f).weight = walk.weight
  | ready items => itemsWeight_recast f items
  | awaiting b _ => Branch.weight_recast f b
  | joined members queue rest => by
    rw [recast, weight, weight, weights_recast members, itemsWeight_recast]
  | stalled _ => rfl
  | failed _ => rfl

theorem weights_recast : ∀ members : List Walk, weights (recastAll f members) = weights members
  | [] => rfl
  | walk :: rest => by rw [recastAll, weights, weights, weight_recast walk, weights_recast rest]

end

mutual

theorem recast_same : ∀ walk : Walk, walk.recast .same = walk
  | ready items => by rw [recast, recastItems_same]
  | awaiting b program => by rw [recast, Branch.recast_same]
  | joined members queue rest => by rw [recast, recastAll_same members, recastItems_same]
  | stalled b => by rw [recast, Branch.recast_same]
  | failed _ => rfl

theorem recastAll_same : ∀ members : List Walk, recastAll .same members = members
  | [] => rfl
  | walk :: rest => by rw [recastAll, recast_same walk, recastAll_same rest]

end

theorem isDone_recast (walk : Walk) : (walk.recast f).isDone = walk.isDone := by
  cases walk with
  | ready items =>
    cases items with
    | nil => rfl
    | cons item rest => cases item <;> rfl
  | joined members queue rest => rfl
  | awaiting | stalled | failed => rfl

theorem error?_recast (walk : Walk) : (walk.recast f).error? = walk.error? := by
  cases walk <;> rfl

theorem isPending_recast (walk : Walk) : (walk.recast f).isPending = walk.isPending := by
  rw [isPending, isDone_recast, error?_recast, isPending]

theorem firstError?_recast (members : List Walk) :
    firstError? (members.map (·.recast f)) = firstError? members := by
  unfold firstError?
  rw [List.findSome?_map]
  exact congrArg (members.findSome? ·) (funext (error?_recast f))

theorem earliestError?_recast (members : List Walk) :
    earliestError? (members.map (·.recast f)) = earliestError? members := by
  induction members with
  | nil => rfl
  | cons walk rest ih =>
    rw [List.map_cons, earliestError?, earliestError?, isDone_recast, error?_recast, ih]

theorem unfinished_recast (members : List Walk) :
    unfinished (members.map (·.recast f)) = unfinished members := by
  unfold unfinished
  rw [List.countP_map]
  exact congrArg (members.countP ·) (funext (isPending_recast f))

theorem all_isDone_recast (members : List Walk) :
    (members.map (·.recast f)).all isDone = members.all isDone := by
  rw [List.all_map]
  exact congrArg (members.all ·) (funext (isDone_recast f))

theorem start_recast {bs : List Branch} (fixed : ∀ b ∈ bs, b.action.recast f = b.action)
    (w : World) :
    start (recastMembers f bs) w = ((start bs w).1, (start bs w).2.map (·.recast f)) := by
  induction bs generalizing w with
  | nil => rfl
  | cons b bs ih =>
    obtain ⟨own, others⟩ := List.forall_mem_cons.mp fixed
    have begun : w.shared.begin (b.recast f) = w.shared.begin b := by
      unfold Shared.begin
      rw [recast_id]
    rw [recastMembers, start, begun, ih others, recast_action, own]
    rfl

theorem joinedOf_recast (members : List Walk) (rest : List (Item Branch)) :
    (joinedOf members rest).recast f = joinedOf (members.map (·.recast f)) (recastItems f rest) := by
  unfold joinedOf
  rw [recast_joined, List.length_map]

end

end Walk

/-! ## steps -/

def After.recast (f : Recast) : After → After
  | .follow items => .follow (recastItems f items)
  | .stall => .stall
  | .fail error => .fail error

/-- all that is fixed while a run is polled is the same, but for the policy -/
structure Setting.Like (s s' : Setting) : Prop where
  signal : s'.signal = s.signal
  isOpen : s'.isOpen = s.isOpen
  elapsed : s'.elapsed = s.elapsed

section
variable {f : Recast} {s s' : Setting} (like : s.Like s')
include like

theorem advance_recast (b : Branch) (output : Option String) (payload : Value) (shared : Shared) :
    s'.advance (b.recast f) output payload shared =
      ((s.advance b output payload shared).1, (s.advance b output payload shared).2.recast f) := by
  unfold Setting.advance Shared.finish
  rw [like.elapsed, recast_id, next_recast]
  rfl

theorem site_recast (b : Branch) : s'.site (b.recast f) = s.site b := by
  unfold Setting.site
  rw [like.signal]
  cases b
  rfl

/-- a member of a group ends in the same way, whatever the policy -/
theorem settle_recast (b : Branch) (result : StepResult) (shared : Shared) :
    s'.settle (b.recast f) result shared =
      ((s.settle b result shared).1, (s.settle b result shared).2.recast f) := by
  have abandoned : shared.abandon (b.recast f) s'.elapsed = shared.abandon b s.elapsed := by
    unfold Shared.abandon
    rw [like.elapsed, recast_id]
  unfold Setting.settle
  rw [abandoned, site_recast like, recast_action]
  cases result with
  | error message => rfl
  | ok outcome =>
    dsimp only
    rw [Action.recast_resolve]
    cases b.action.resolve outcome.path with
    | error output => rfl
    | ok output => exact advance_recast like ..

end

theorem After.walk_recast (f : Recast) (b : Branch) (rest : List (Item Branch)) (after : After) :
    (after.recast f).walk (b.recast f) (recastItems f rest) = (after.walk b rest).recast f := by
  cases after with
  | follow items => exact congrArg ready (recastItems_append f items rest).symm
  | stall | fail => rfl

/-! ## good results -/

namespace Walk

/-- the body of a step in a sequential list ends with a result -/
def Runs (s : Setting) (b : Branch) (result : StepResult) : Doing := fun walk w walk' w' =>
  Finishes s b result walk w walk' w' ∧ ∃ items, walk = ready items

/-- whatever a step in a sequential list ends with on the way is good -/
def Fine (s : Setting) (good : Branch → StepResult → Prop) (walk : Walk) (w : World)
    (walk' : Walk) (w' : World) : Prop :=
  ∀ b result, Passes s (Runs s b result) walk w walk' w' → good b result

section
variable {s : Setting} {good : Branch → StepResult → Prop} {walk walk' walk'' m m' : Walk}
  {w w' w'' : World} {members : List Walk} {queue : Option (List Nat)} {rest : List (Item Branch)}

theorem Fine.behind (h : Fine s good walk w walk'' w'') (steps : Steps s walk w walk' w') :
    Fine s good walk' w' walk'' w'' := fun b result passes => h b result (passes.after steps)

theorem Fine.before (h : Fine s good walk w walk'' w'') (steps : Steps s walk' w' walk'' w'') :
    Fine s good walk w walk' w' := fun b result passes => h b result (passes.before steps)

theorem Fine.member {index : Nat} (found : members[index]? = some m)
    (h : Fine s good (joined members queue rest) w (joined (members.set index m') queue rest) w') :
    Fine s good m w m' w' := fun b result passes => h b result (passes.member found)

theorem Fine.turn {front : List Walk} (h : Fine s good (joined (front ++ m :: members) queue rest) w
      (joined (front ++ m' :: members) queue rest) w') : Fine s good m w m' w' :=
  fun b result passes => h b result (passes.turn front members queue rest)

end

end Walk

/-- wherever its result is good, a step does the same with the other body, and all bodies that are
awaited are the same -/
structure Recast.Agrees (f : Recast) (s s' : Setting) (P : Item Branch → Prop) (R : Branch → Prop)
    (good : Branch → StepResult → Prop) : Prop where
  like : s.Like s'
  splits : ∀ item, P item → item.Splits → ∀ b ∈ item.members, R b
  fixed : ∀ b, R b → b.action.recast f = b.action
  runs : ∀ (b : Branch) (step : Args → SyncProgram) (w : World), P (.step b) →
    b.action.body = .sync step →
    good b ((step w.shared.args).run { store := w.store, writable := true }).2 →
    s'.runSync (b.recast f) (f b.action step) w =
      ((s.runSync b step w).1, (s.runSync b step w).2.recast f)

namespace Walk

section
variable {f : Recast} {s s' : Setting} {P : Item Branch → Prop} {R : Branch → Prop}
  {good : Branch → StepResult → Prop} (agrees : f.Agrees s s' P R good)
  {walk walk' : Walk} {w w' : World}
include agrees

theorem start_agrees {item : Item Branch} {rest : List (Item Branch)}
    (h : Throughout P R (ready (item :: rest))) (split : item.Splits) (w : World) :
    (joinedOf (start item.members w).2 rest).recast f =
        joinedOf (start (recastMembers f item.members) w).2 (recastItems f rest) ∧
      (start (recastMembers f item.members) w).1 = (start item.members w).1 := by
  cases h with
  | ready everywhere =>
    cases everywhere with
    | cons own _ _ =>
      have fixed : ∀ b ∈ item.members, b.action.recast f = b.action := fun b hb =>
        agrees.fixed b (agrees.splits item own split b hb)
      rw [start_recast f fixed, joinedOf_recast]
      exact ⟨rfl, rfl⟩

theorem Move.recast (move : Move s walk w walk' w') (h : walk.Throughout P R)
    (fine : Fine s good walk w walk' w') : Move s' (walk.recast f) w (walk'.recast f) w' := by
  cases move with
  | @sync b step rest w body =>
    have ran : good b ((step w.shared.args).run { store := w.store, writable := true }).2 :=
      fine b _ (.of_inside (.here ⟨.run rest body rfl, _, rfl⟩) (.refl ..))
    have own : P (.step b) := by
      cases h with
      | ready everywhere =>
        cases everywhere with
        | cons own _ _ => exact own
    have same := agrees.runs b step w own body ran
    have other : (b.recast f).action.body = .sync (f b.action step) := by
      rw [recast_action]
      exact Action.recast_body f body
    have move : Move s' (ready (.step (b.recast f) :: recastItems f rest)) w _ _ :=
      .sync (recastItems f rest) w other
    rw [same, After.walk_recast] at move
    exact move
  | @lone b step rest w body =>
    obtain ⟨same, begun⟩ := start_agrees agrees h ⟨step, body⟩ w
    have other : (b.recast f).action.body = .async step := by
      rw [recast_action]
      unfold Action.recast
      rw [body]
    have move : Move s' (ready (.step (b.recast f) :: recastItems f rest)) w _ _ :=
      .lone (recastItems f rest) w other
    show Move s' _ w ((joinedOf (start (Item.step b).members w).2 rest).recast f)
      (start (Item.step b).members w).1
    rw [same, ← begun]
    exact move
  | group bs rest w =>
    obtain ⟨same, begun⟩ := start_agrees agrees h trivial w
    show Move s' _ w ((joinedOf (start (Item.group bs).members w).2 rest).recast f)
      (start (Item.group bs).members w).1
    rw [same, ← begun]
    exact .group (recastMembers f bs) (recastItems f rest) w
  | @settle b program result w ended =>
    have other : program.resume s'.isOpen w.store = .finished result := by
      rw [agrees.like.isOpen]
      exact ended
    have move : Move s' (awaiting (b.recast f) program) w _ _ := .settle other
    rw [settle_recast agrees.like, show ([] : List (Item Branch)) = recastItems f [] from rfl,
      After.walk_recast] at move
    exact move

/-! ## polls of groups -/

/-- this poll of a walk with other bodies does what the other poll does to the walk -/
def Recasts (f : Recast) (s : Setting) (P : Item Branch → Prop) (R : Branch → Prop)
    (good : Branch → StepResult → Prop) (poll poll' : Nat → Walk → World → Polled) : Prop :=
  ∀ index walk w, walk.Throughout P R →
    Fine s good walk w (poll index walk w).walk (poll index walk w).world →
    poll' index (walk.recast f) w = (poll index walk w).recast f

end

section
variable {f : Recast} {s : Setting} {P : Item Branch → Prop} {R : Branch → Prop}
  {good : Branch → StepResult → Prop}
  {poll poll' : Nat → Walk → World → Polled} (stepwise : Stepwise s poll)
  (recasts : Recasts f s P R good poll poll') (queue : Option (List Nat))
  (rest : List (Item Branch))
include stepwise recasts

theorem pollEach_recast (front members : List Walk) (index : Nat) (w : World)
    (h : ∀ m ∈ members, m.Throughout P R)
    (fine : Fine s good (joined (front ++ members) queue rest) w
      (joined (front ++ (pollEach poll index members w).members) queue rest)
      (pollEach poll index members w).world) :
    pollEach poll' index (members.map (·.recast f)) w = (pollEach poll index members w).recast f := by
  induction members generalizing front index w with
  | nil => rfl
  | cons m members ih =>
    obtain ⟨own, others⟩ := List.forall_mem_cons.mp h
    have moved (m' : Walk) (members : List Walk) : front ++ m' :: members = front ++ [m'] ++ members :=
      List.append_cons ..
    rw [List.map_cons]
    cases done : m.isDone with
    | true =>
      rw [pollEach_done done] at fine ⊢
      dsimp only at fine
      rw [moved m members, moved m (pollEach poll (index + 1) members w).members] at fine
      rw [pollEach_done ((isDone_recast f m).trans done), ih (front ++ [m]) (index + 1) w others fine]
      rfl
    | false =>
      have busy : (m.recast f).isDone = false := (isDone_recast f m).trans done
      have first : Steps s (joined (front ++ m :: members) queue rest) w
          (joined (front ++ (poll index m w).walk :: members) queue rest) (poll index m w).world :=
        (stepwise index m w).turn front members queue rest
      cases failed : (poll index m w).walk.error?.isSome with
      | true =>
        rw [pollEach_failed done failed] at fine ⊢
        have polled := recasts index m w own fine.turn
        have failed' : (poll' index (m.recast f) w).walk.error?.isSome = true := by
          rw [polled]
          exact (congrArg Option.isSome (error?_recast f _)).trans failed
        rw [pollEach_failed busy failed', polled]
        rfl
      | false =>
        rw [pollEach_next done failed] at fine ⊢
        have last := pollEach_after (m := (poll index m w).walk) stepwise queue rest front members
          (index + 1) (poll index m w).world
        dsimp only at fine last
        have behind := fine.behind first
        rw [moved (poll index m w).walk members, moved (poll index m w).walk
          (pollEach poll (index + 1) members (poll index m w).world).members] at behind
        have polled := recasts index m w own (fine.before last).turn
        have failed' : (poll' index (m.recast f) w).walk.error?.isSome = false := by
          rw [polled]
          exact (congrArg Option.isSome (error?_recast f _)).trans failed
        rw [pollEach_next busy failed', polled]
        dsimp only [Polled.recast]
        rw [ih (front ++ [(poll index m w).walk]) (index + 1) _ others behind]
        rfl

theorem pollQueued_recast (keeps : ∀ index m w, m.Throughout P R →
      (poll index m w).walk.Throughout P R)
    (fuel left yielded : Nat) (round : Round) (h : ∀ m ∈ round.members, m.Throughout P R)
    (fine : Fine s good (joined round.members queue rest) round.world
      (joined (pollQueued poll fuel left yielded round).members queue rest)
      (pollQueued poll fuel left yielded round).world) :
    pollQueued poll' fuel left yielded (round.recast f) =
      (pollQueued poll fuel left yielded round).recast f := by
  induction fuel generalizing left yielded round with
  | zero => rfl
  | succ fuel ih =>
    obtain ⟨w, members, waiting, woken⟩ := round
    cases waiting with
    | nil => rfl
    | cons index waiting =>
      cases found : members[index]? with
      | none =>
        have missing : (members.map (·.recast f))[index]? = none := by
          rw [List.getElem?_map, found]
          rfl
        simp only [pollQueued, Round.recast, found, missing] at fine ⊢
        exact ih left yielded ⟨w, members, waiting, woken⟩ h fine
      | some m =>
        have there : (members.map (·.recast f))[index]? = some (m.recast f) := by
          rw [List.getElem?_map, found]
          rfl
        have first : Steps s (joined members queue rest) w
            (joined (members.set index (poll index m w).walk) queue rest) (poll index m w).world :=
          (stepwise index m w).member found
        have last := pollQueued_after stepwise queue rest fuel left yielded
          ⟨w, members, index :: waiting, woken⟩ rfl found
        have own := h m (List.mem_of_getElem? found)
        have polled := recasts index m w own (Fine.member found (fine.before last))
        have behind := fine.behind first
        have after : ∀ n ∈ members.set index (poll index m w).walk, n.Throughout P R := by
          intro n hn
          rcases List.mem_or_eq_of_mem_set hn with hn | rfl
          · exact h n hn
          · exact keeps index m w own
        have set : (members.map (·.recast f)).set index ((poll index m w).walk.recast f) =
            (members.set index (poll index m w).walk).map (·.recast f) := List.map_set.symm
        simp only [pollQueued, Round.recast, found, there, polled, Polled.recast, isPending_recast,
          set, unfinished_recast, earliestError?_recast, all_isDone_recast] at behind ⊢
        revert behind
        -- whatever is queued, both rounds stop here, or both go on with these members
        repeat' split
        all_goals intro behind
        all_goals first
          | rfl
          | exact ih _ _ ⟨_, _, _, _⟩ after behind

theorem pollGroup_recast (keeps : ∀ index m w, m.Throughout P R →
      (poll index m w).walk.Throughout P R)
    {members : List Walk} (h : ∀ m ∈ members, m.Throughout P R) (polled : Option (List Nat))
    (w : World)
    (fine : let round := (pollGroup poll members polled w).1
      Fine s good (joined members queue rest) w (joined round.members queue rest) round.world) :
    pollGroup poll' (members.map (·.recast f)) polled w =
      ((pollGroup poll members polled w).1.recast f, (pollGroup poll members polled w).2) := by
  cases polled with
  | none =>
    have same := pollEach_recast stepwise recasts queue rest [] members 0 w h fine
    unfold pollGroup
    dsimp only
    rw [same, Round.recast, firstError?_recast]
  | some waiting =>
    have same := pollQueued_recast stepwise recasts queue rest keeps
      ((members.length + 1) * (members.length + 1)) (unfinished members) 0
      ⟨w, members, waiting, false⟩ h fine
    unfold Round.recast at same
    unfold pollGroup
    dsimp only
    rw [List.length_map, unfinished_recast, same, Round.recast, earliestError?_recast]

end

/-! ## polls -/

section
variable {f : Recast} {s s' : Setting} {P : Item Branch → Prop} {R : Branch → Prop}
  {good : Branch → StepResult → Prop} (agrees : f.Agrees s s' P R good)
include agrees

/-- **With other bodies a poll does the same**, as long as the results on the way are good. -/
theorem pollWith_recast (fuel : Nat) (here : Address) (walk : Walk) (w : World)
    (h : walk.Throughout P R)
    (fine : Fine s good walk w (pollWith s fuel here walk w).walk
      (pollWith s fuel here walk w).world) :
    pollWith s' fuel here (walk.recast f) w = (pollWith s fuel here walk w).recast f := by
  induction fuel generalizing here walk w with
  | zero => rfl
  | succ fuel ih =>
    cases view s w walk with
    | @move _ walk' w' move =>
      rw [move.pollWith] at fine ⊢
      have behind := pollWith_steps s fuel here walk' w'
      have same := move.recast agrees h (fine.before behind)
      rw [same.pollWith]
      exact ih here walk' w' (move.throughout agrees.splits h) (fine.behind (Step.move move).steps)
    | still still =>
      have same : Still (walk.recast f) := by
        cases still with
        | done => exact .done
        | stalled b => exact .stalled _
        | failed error => exact .failed error
      rw [still.pollWith, same.pollWith]
      rfl
    | suspended found =>
      rw [pollWith_suspended found, recast, pollWith_suspended (agrees.like.isOpen ▸ found)]
      rfl
    | paused found =>
      rw [pollWith_paused found, recast, pollWith_paused (agrees.like.isOpen ▸ found)]
      rfl
    | joined members queue rest =>
      have stepwise : Stepwise s (fun index => pollWith s fuel (here ++ [index])) :=
        fun index m w => pollWith_steps s fuel (here ++ [index]) m w
      have keeps (index : Nat) (m : Walk) (w : World) (hm : m.Throughout P R) :
          (pollWith s fuel (here ++ [index]) m w).walk.Throughout P R :=
        (stepwise index m w).throughout agrees.splits hm
      have recasts : Recasts f s P R good (fun index => pollWith s fuel (here ++ [index]))
          (fun index => pollWith s' fuel (here ++ [index])) :=
        fun index m w hm fine => ih (here ++ [index]) m w hm fine
      obtain ⟨inside, behind⟩ : (∀ m ∈ members, m.Throughout P R) ∧ Everywhere P rest := by
        cases h with
        | joined _ inside behind => exact ⟨inside, behind⟩
      have polled := pollGroup_recast stepwise recasts queue rest keeps inside queue w
      have reached := pollGroup_steps stepwise queue rest members queue w
      have raised :=
        mem_of_pollGroup (fun index => pollWith s fuel (here ++ [index])) members queue w
      rw [recast_joined, pollWith]
      rw [pollWith] at fine ⊢
      generalize pollGroup (fun index => pollWith s fuel (here ++ [index])) members queue w = group
        at polled reached raised fine ⊢
      obtain ⟨round, error⟩ := group
      cases error with
      | some error =>
        rw [polled (fine.before (Step.raise queue rest _ (raised error rfl)).steps)]
        rfl
      | none =>
        dsimp only at fine ⊢
        by_cases finished : round.members.all isDone = true
        · rw [if_pos finished] at fine ⊢
          have all := List.all_eq_true.mp finished
          have last := pollWith_steps s fuel here (ready rest) round.world
          rw [polled (fine.before (.head (.join queue rest _ all) last))]
          have finished' := (all_isDone_recast f round.members).trans finished
          have same := ih here (ready rest) round.world (.ready behind)
            (fine.behind (reached.trans (Step.join queue rest _ all).steps))
          rw [recast] at same
          refine (if_pos finished').trans ?_
          dsimp only [Round.recast]
          rw [same]
          rfl
        · rw [if_neg finished] at fine ⊢
          rw [polled (fine.before (Step.requeue ..).steps)]
          have finished' : ¬ (round.members.map (·.recast f)).all isDone = true := by
            rwa [all_isDone_recast]
          refine (if_neg finished').trans ?_
          dsimp only [Round.recast, Polled.recast]
          rw [recast_joined]

theorem poll_recast {walk : Walk} {w : World} (h : walk.Throughout P R)
    (fine : Fine s good walk w (walk.poll s w).walk (walk.poll s w).world) :
    (walk.recast f).poll s' w = (walk.poll s w).recast f := by
  unfold poll
  rw [weight_recast]
  exact pollWith_recast agrees _ [] walk w h fine

end

theorem wake_recast (f : Recast) (address : Address) (walk : Walk) :
    (walk.recast f).wake address = ((walk.wake address).1.recast f, (walk.wake address).2) := by
  induction address generalizing walk with
  | nil => rfl
  | cons index address ih =>
    cases walk with
    | ready | awaiting | stalled | failed => rfl
    | joined members queue rest =>
      rw [recast_joined, wake, wake, List.getElem?_map]
      cases members[index]? with
      | none => rw [← recast_joined]; rfl
      | some m =>
        rw [Option.map_some]
        dsimp only
        rw [ih m, isPending_recast]
        cases queue with
        | none => simp only [recast_joined, List.map_set]
        | some waiting =>
          dsimp only
          split
          · simp only [recast_joined, List.map_set]
          · simp only [recast_joined, List.map_set]

end Walk

/-! ## traces -/

namespace Record

variable (f : Recast) (slots : List Slot)

mutual

theorem ofBranch_recast : ∀ b : Branch, ofBranch slots (b.recast f) = ofBranch slots b
  | .mk spec none => rfl
  | .mk spec (some outputs) => by
    rw [Branch.recast, recastMap, ofBranch, ofBranch, ofMap, ofMap, ofOutputs_recast outputs]
    rfl

theorem ofOutputs_recast :
    ∀ outputs : List (String × List (Item Branch)),
      ofOutputs slots (recastOutputs f outputs) = ofOutputs slots outputs
  | [] => rfl
  | (output, items) :: rest => by
    rw [recastOutputs, ofOutputs, ofOutputs, ofItems_recast items, ofOutputs_recast rest]

theorem ofItems_recast :
    ∀ items : List (Item Branch), ofItems slots (recastItems f items) = ofItems slots items
  | [] => rfl
  | .step b :: rest => by rw [recastItems, ofItems, ofItems, ofBranch_recast b, ofItems_recast rest]
  | .group members :: rest => by
    rw [recastItems, ofItems, ofItems, ofMembers_recast members, ofItems_recast rest]

theorem ofMembers_recast :
    ∀ bs : List Branch, ofMembers slots (recastMembers f bs) = ofMembers slots bs
  | [] => rfl
  | b :: rest => by
    rw [recastMembers, ofMembers, ofMembers, ofBranch_recast b, ofMembers_recast rest]

end

end Record

/-! ## runs -/

/-- a turn of a run, and what others have made of the store before it -/
structure Visit where
  others : Store → Store
  turn : Turn

/-- the signal with other bodies, under a policy -/
def Signal.recast (f : Recast) (policy : Policy) (signal : Signal) : Signal :=
  { signal with tree := signal.tree.recast f, policy }

namespace Run

/-- a run takes one turn after the other, with others on the store -/
def visits : List Visit → Run → Store → Run × Store
  | [], run, store => (run, store)
  | visit :: rest, run, store =>
    let (after, left) := run.turn (visit.others store) visit.turn
    visits rest after left

/-- whatever a step in a sequential list ends with in this turn is good -/
def FineTurn (good : Branch → StepResult → Prop) (run : Run) (store : Store) : Turn → Prop
  | .poll isOpen elapsed => run.settled = none →
    let s := run.setting isOpen elapsed
    let polled := run.walk.poll s ⟨store, run.shared⟩
    Fine s good run.walk ⟨store, run.shared⟩ polled.walk polled.world
  | .wake _ | .gateOpened _ => True

/-- whatever a step in a sequential list ends with in these turns is good -/
def FineVisits (good : Branch → StepResult → Prop) : List Visit → Run → Store → Prop
  | [], _, _ => True
  | visit :: rest, run, store =>
    let (after, left) := run.turn (visit.others store) visit.turn
    FineTurn good run (visit.others store) visit.turn ∧ FineVisits good rest after left

/-- two runs that share and show the same state -/
structure Matches (run run' : Run) : Prop where
  shared : run'.shared = run.shared
  woken : run'.woken = run.woken
  settled : run'.settled = run.settled
  snapshot : run'.snapshot = run.snapshot

def recast (f : Recast) (policy : Policy) (run : Run) : Run :=
  { run with signal := run.signal.recast f policy, walk := run.walk.recast f }

section
variable (f : Recast) (policy : Policy) (run : Run)

theorem snapshot_recast : (run.recast f policy).snapshot = run.snapshot := by
  unfold snapshot Shared.snapshot
  have same := Record.ofItems_recast f run.shared.slots run.signal.tree.branches
  simp only [recast, Signal.recast, Tree.recast, same]

theorem matches_recast : Matches run (run.recast f policy) :=
  ⟨rfl, rfl, rfl, run.snapshot_recast f policy⟩

theorem wake_recast (address : Address) :
    (run.recast f policy).wake address = (run.wake address).recast f policy := by
  unfold wake recast
  dsimp only
  rw [Walk.wake_recast]

theorem foldl_wake_recast (there : List (String × Address)) :
    there.foldl (fun run entry => run.wake entry.2) (run.recast f policy) =
      (there.foldl (fun run entry => run.wake entry.2) run).recast f policy := by
  induction there generalizing run with
  | nil => rfl
  | cons entry there ih => rw [List.foldl_cons, List.foldl_cons, wake_recast, ih]

theorem gateOpened_recast (gate : String) :
    (run.recast f policy).gateOpened gate = (run.gateOpened gate).recast f policy :=
  foldl_wake_recast f policy { run with shared := { run.shared with
    waiting := (run.shared.waiting.partition (·.1 = gate)).2 } } _

variable {f policy run} {P : Item Branch → Prop} {R : Branch → Prop}
  {good : Branch → StepResult → Prop}

theorem poll_recast {isOpen : String → Bool} {elapsed : Nat} {store : Store}
    (agrees : f.Agrees (run.setting isOpen elapsed) ((run.recast f policy).setting isOpen elapsed)
      P R good)
    (h : run.walk.Throughout P R) (fine : run.FineTurn good store (.poll isOpen elapsed)) :
    (run.recast f policy).poll isOpen elapsed store =
      ((run.poll isOpen elapsed store).1.recast f policy, (run.poll isOpen elapsed store).2) := by
  cases settled : run.settled with
  | some _ =>
    have ended : run.settled.isSome = true := by rw [settled]; rfl
    rw [atRest_of_settled ended, atRest_of_settled (show (run.recast f policy).settled.isSome = true
      from ended)]
  | none =>
    have pending : ¬ run.settled.isSome = true := by
      rw [settled]
      exact Bool.false_ne_true
    have same := Walk.poll_recast agrees h (fine settled)
    unfold Run.poll
    rw [if_neg pending]
    refine (if_neg pending).trans ?_
    dsimp only
    rw [show (run.recast f policy).walk = run.walk.recast f from rfl,
      show (run.recast f policy).shared = run.shared from rfl, same]
    simp only [Polled.recast, error?_recast, isDone_recast]
    generalize Walk.poll (run.setting isOpen elapsed) run.walk ⟨store, run.shared⟩ = polled
    cases polled.walk.error? with
    | some error => rfl
    | none =>
      dsimp only
      split
      · let after := { run with
          walk := polled.walk, woken := polled.woken, shared := polled.world.shared.complete elapsed }
        exact congrArg (fun trace => ((Run.recast f policy
          { after with settled := some (.completed trace) }), polled.world.store))
          (after.snapshot_recast f policy)
      · rfl

theorem turn_recast {store : Store} {turn : Turn}
    (agrees : ∀ isOpen elapsed, f.Agrees (run.setting isOpen elapsed)
      ((run.recast f policy).setting isOpen elapsed) P R good)
    (h : run.walk.Throughout P R) (fine : run.FineTurn good store turn) :
    (run.recast f policy).turn store turn =
      ((run.turn store turn).1.recast f policy, (run.turn store turn).2) := by
  cases turn with
  | poll isOpen elapsed => exact poll_recast (agrees isOpen elapsed) h fine
  | wake address => exact congrArg (·, store) (run.wake_recast f policy address)
  | gateOpened gate => exact congrArg (·, store) (run.gateOpened_recast f policy gate)

end

theorem Reachable.turn {signal : Signal} {run : Run} (reachable : Reachable signal run)
    (store : Store) (turn : Turn) : Reachable signal (run.turn store turn).1 := by
  cases turn with
  | poll isOpen elapsed => exact reachable.poll isOpen elapsed store
  | wake address => exact reachable.wake address
  | gateOpened gate => exact reachable.gateOpened gate

end Run

namespace Signal

open Run

/-- the runs of `signal'` are refused as those of `signal` are, and go through the same stores and
states, on any schedule, as long as the results that steps in sequential lists come to are good -/
def Follows (signal : Signal) (good : Branch → StepResult → Prop) (signal' : Signal) : Prop :=
  ∀ id startedAt input,
    (∀ error, signal.start id startedAt input = .error error →
      signal'.start id startedAt input = .error error) ∧
    ∀ run, signal.start id startedAt input = .ok run →
      ∃ run', signal'.start id startedAt input = .ok run' ∧
        ∀ (schedule : List Visit) (store : Store), FineVisits good schedule run store →
          (visits schedule run' store).2 = (visits schedule run store).2 ∧
            Matches (visits schedule run store).1 (visits schedule run' store).1

section
variable {name : String} {policy policy' : Policy} {definition : List Chain} {signal : Signal}
  {f : Recast} {P : Item Branch → Prop} {R : Branch → Prop} {good : Branch → StepResult → Prop}

theorem start_recast (signal : Signal) (f : Recast) (policy : Policy) (id : String)
    (startedAt : Timestamp) (input : Input) :
    (signal.recast f policy).start id startedAt input =
      (signal.start id startedAt input).map (·.recast f policy) := by
  have prepared : (signal.recast f policy).prepareArgs input = signal.prepareArgs input := by
    cases input with
    | data value => cases value <;> rfl
    | unwritable reason => rfl
  have size : (signal.recast f policy).tree.size = signal.tree.size := List.length_map _
  unfold start
  rw [prepared, size]
  cases signal.prepareArgs input <;> rfl

variable (created : create name policy definition = .ok signal)
  (agrees : ∀ isOpen elapsed,
    f.Agrees ⟨name, policy, isOpen, elapsed⟩ ⟨name, policy', isOpen, elapsed⟩ P R good)
  (everywhere : Everywhere P signal.tree.branches)
include created agrees everywhere

theorem visits_recast {run : Run} (reachable : Reachable signal run) (schedule : List Visit)
    (store : Store) (fine : FineVisits good schedule run store) :
    visits schedule (run.recast f policy') store =
      ((visits schedule run store).1.recast f policy', (visits schedule run store).2) := by
  induction schedule generalizing run store with
  | nil => rfl
  | cons visit rest ih =>
    obtain ⟨first, behind⟩ := fine
    have belongs := (reachable.sound created).belongs
    have own (isOpen : String → Bool) (elapsed : Nat) : f.Agrees (run.setting isOpen elapsed)
        ((run.recast f policy').setting isOpen elapsed) P R good := by
      unfold Run.setting Run.recast Signal.recast
      rw [belongs, (create_eq created).2]
      exact agrees isOpen elapsed
    have splits := (agrees (fun _ => false) 0).splits
    have same := turn_recast own (reachable.throughout splits everywhere) first
    rw [visits, visits, same]
    exact ih (reachable.turn (visit.others store) visit.turn) _ behind

/-- **The runs of a signal with other bodies do what the runs of the signal do.** -/
theorem follows_recast : signal.Follows good (signal.recast f policy') := by
  intro id startedAt input
  rw [start_recast]
  refine ⟨fun error refused => ?_, fun run started => ?_⟩
  · rw [refused]
    rfl
  · rw [started]
    refine ⟨run.recast f policy', rfl, fun schedule store fine => ?_⟩
    rw [visits_recast created agrees everywhere (.start started) schedule store fine]
    exact ⟨rfl, matches_recast ..⟩

end

end Signal

end SignalFlow
