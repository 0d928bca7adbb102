import SignalFlow.Run.Walk
import SignalFlow.Proofs.Definition.Branches
/-!
# Polling without fuel

* `After.walk`    the walk that is left behind a step;
* `Walk.Move`     a walk goes on by one step of its own: a step runs, a group begins, a concurrent step
                  ends;
* `Walk.View`     what a walk can be: it moves, it stands still, it is suspended, or it is a group.

A move makes a walk lighter (`Move.weight_lt`) and no poll makes one heavier (`weight_pollWith_le`),
so any fuel above the weight gives one answer (`pollWith_fuel`). That answer is `Walk.pollAt`; the
equations `pollAt_move`, `pollAt_still`, `pollAt_suspended`, `pollAt_paused` and `pollAt_joined` say
what it is, and nothing below speaks of fuel any more.
-/

namespace SignalFlow

/-- the walk behind a step of `b` that stood before `rest` -/
def After.walk (b : Branch) (rest : List (Item Branch)) : After → Walk
  | .follow items => .ready (items ++ rest)
  | .stall => .stalled b
  | .fail error => .failed error

namespace Setting

variable (s : Setting) (b : Branch)

/-- a step leads to one of the lists under its outputs, or nowhere -/
def Within : After → Prop
  | .follow items => ∃ output, items = b.next output
  | .stall | .fail _ => True

theorem within_stepFailed (message : String) (shared : Shared) :
    Within b (s.stepFailed b message shared).2 := by
  unfold stepFailed
  cases s.policy with
  | stall => exact trivial
  | reject => exact trivial
  | errorOutput =>
    dsimp only
    split
    · exact ⟨_, rfl⟩
    · exact trivial

theorem within_conclude (result : StepResult) (shared : Shared) :
    Within b (s.conclude b result shared).2 := by
  unfold conclude
  split
  · exact s.within_stepFailed b _ shared
  · split
    · exact s.within_stepFailed b _ shared
    · exact ⟨_, rfl⟩

theorem within_settle (result : StepResult) (shared : Shared) :
    Within b (s.settle b result shared).2 := by
  unfold settle
  split
  · exact trivial
  · split
    · exact trivial
    · exact ⟨_, rfl⟩

end Setting

/-! ## weights -/

theorem itemsWeight_append (front rest : List (Item Branch)) :
    itemsWeight (front ++ rest) = itemsWeight front + itemsWeight rest := by
  induction front with
  | nil => simp [itemsWeight]
  | cons item front ih =>
    cases item with
    | step b => simp only [List.cons_append, itemsWeight, ih]; omega
    | group members => simp only [List.cons_append, itemsWeight, ih]; omega

theorem itemsWeight_le_outputsWeight {outputs : List (String × List (Item Branch))}
    {entry : String × List (Item Branch)} (h : entry ∈ outputs) :
    itemsWeight entry.2 ≤ outputsWeight outputs := by
  induction outputs with
  | nil => cases h
  | cons first rest ih =>
    rw [outputsWeight]
    cases h with
    | head => exact Nat.le_add_right ..
    | tail _ h => exact Nat.le_trans (ih h) (Nat.le_add_left ..)

theorem itemsWeight_next_lt (b : Branch) (output : Option String) :
    itemsWeight (b.next output) < b.weight := by
  obtain ⟨spec, outputs⟩ := b
  have positive : 0 < (Branch.mk spec outputs).weight := by
    cases outputs <;> simp only [Branch.weight] <;> omega
  rcases (Branch.mk spec outputs).next_eq output with h | ⟨name, items, found, -, e, taken, h⟩
  · rw [h]
    exact positive
  · rw [h]
    cases e
    have le := itemsWeight_le_outputsWeight (Keyed.mem_of_get? taken)
    simp only [Branch.weight] at le ⊢
    omega

namespace Walk

theorem weight_joinedOf (members : List Walk) (rest : List (Item Branch)) :
    (joinedOf members rest).weight = 1 + weights members + itemsWeight rest := rfl

theorem weights_start (bs : List Branch) (w : World) :
    weights (start bs w).2 = branchesWeight bs := by
  induction bs generalizing w with
  | nil => rfl
  | cons b bs ih => rw [start, weights, weight, ih, branchesWeight]

theorem start_members (bs : List Branch) (w : World) :
    (start bs w).2 = bs.map fun b => awaiting b (b.action.started w.shared.args w.store) := by
  induction bs generalizing w with
  | nil => rfl
  | cons b bs ih =>
    exact congrArg (awaiting b _ :: ·) (ih { w with shared := w.shared.begin b })

theorem weight_le_weights {members : List Walk} {m : Walk} (h : m ∈ members) :
    m.weight ≤ weights members := by
  induction members with
  | nil => cases h
  | cons first rest ih =>
    rw [weights]
    cases h with
    | head => exact Nat.le_add_right ..
    | tail _ h => exact Nat.le_trans (ih h) (Nat.le_add_left ..)

theorem weights_set_le {members : List Walk} {index : Nat} {old new : Walk}
    (found : members[index]? = some old) (lighter : new.weight ≤ old.weight) :
    weights (members.set index new) ≤ weights members := by
  induction members generalizing index with
  | nil => cases found
  | cons first rest ih =>
    cases index with
    | zero =>
      cases found
      simp only [List.set_cons_zero, weights]
      omega
    | succ index =>
      have := ih found
      simp only [List.set_cons_succ, weights]
      omega

theorem weight_walk_le {b : Branch} {after : After} (rest : List (Item Branch))
    (h : Setting.Within b after) : (after.walk b rest).weight < b.weight + 1 + itemsWeight rest := by
  cases after with
  | follow items =>
    obtain ⟨output, rfl⟩ := h
    have lt := itemsWeight_next_lt b output
    rw [After.walk, weight, itemsWeight_append]
    omega
  | stall => simp only [After.walk, weight]; omega
  | fail error => simp only [After.walk, weight]; omega

/-! ## moves -/

/-- a walk goes on by one step of its own -/
inductive Move (s : Setting) : Walk → World → Walk → World → Prop
  | sync {b : Branch} {step : Args → SyncProgram} (rest : List (Item Branch)) (w : World)
      (body : b.action.body = .sync step) :
      Move s (ready (.step b :: rest)) w ((s.runSync b step w).2.walk b rest) (s.runSync b step w).1
  | lone {b : Branch} {step : Args → AsyncProgram} (rest : List (Item Branch)) (w : World)
      (body : b.action.body = .async step) :
      Move s (ready (.step b :: rest)) w (joinedOf (start [b] w).2 rest) (start [b] w).1
  | group (bs : List Branch) (rest : List (Item Branch)) (w : World) :
      Move s (ready (.group bs :: rest)) w (joinedOf (start bs w).2 rest) (start bs w).1
  | settle {b : Branch} {program : AsyncProgram} {result : StepResult} {w : World}
      (ended : program.resume s.isOpen w.store = .finished result) :
      Move s (awaiting b program) w ((s.settle b result w.shared).2.walk b [])
        { w with shared := (s.settle b result w.shared).1 }

/-- a walk that no poll changes -/
inductive Still : Walk → Prop
  | done : Still (ready [])
  | stalled (b : Branch) : Still (stalled b)
  | failed (error : RunError) : Still (failed error)

/-- what a walk can be -/
inductive View (s : Setting) (w : World) : Walk → Prop
  | move {walk walk' : Walk} {w' : World} : Move s walk w walk' w' → View s w walk
  | still {walk : Walk} : Still walk → View s w walk
  | suspended {b : Branch} {program rest : AsyncProgram} {gate : String} :
      program.resume s.isOpen w.store = .suspended (some gate) rest → View s w (awaiting b program)
  | paused {b : Branch} {program rest : AsyncProgram} :
      program.resume s.isOpen w.store = .suspended none rest → View s w (awaiting b program)
  | joined (members : List Walk) (queue : Option (List Nat)) (rest : List (Item Branch)) :
      View s w (joined members queue rest)

section
variable {s : Setting} {fuel : Nat} {here : Address} {walk walk' : Walk} {w w' : World}

theorem view (s : Setting) (w : World) : ∀ walk : Walk, View s w walk
  | ready [] => .still .done
  | ready (.step b :: rest) => by
    cases body : b.action.body with
    | sync step => exact .move (.sync rest w body)
    | async step => exact .move (.lone rest w body)
  | ready (.group bs :: rest) => .move (.group bs rest w)
  | awaiting b program => by
    cases found : program.resume s.isOpen w.store with
    | finished result => exact .move (.settle found)
    | suspended gate rest =>
      cases gate with
      | some gate => exact .suspended found
      | none => exact .paused found
  | joined members queue rest => .joined members queue rest
  | stalled b => .still (.stalled b)
  | failed error => .still (.failed error)

theorem Move.weight_lt (h : Move s walk w walk' w') : walk'.weight < walk.weight := by
  cases h with
  | @sync b step rest w body =>
    have lt := weight_walk_le rest (s.within_conclude b
      ((step w.shared.args).run { store := w.store, writable := true }).2
      ((w.shared.begin b).updateSlot b.id fun slot => { slot with
        mutations := ((step w.shared.args).run { store := w.store, writable := true }).1.log }))
    refine Nat.lt_of_lt_of_le lt ?_
    simp only [weight, itemsWeight]
    omega
  | lone rest w body =>
    rw [weight_joinedOf, weights_start]
    simp only [weight, itemsWeight, branchesWeight]
    omega
  | group bs rest w =>
    rw [weight_joinedOf, weights_start]
    simp only [weight, itemsWeight]
    omega
  | @settle b program result w ended =>
    cases found : (s.settle b result w.shared).2 with
    | follow items =>
      obtain ⟨output, rfl⟩ : Setting.Within b (.follow items) := found ▸ s.within_settle b ..
      simpa only [After.walk, List.append_nil, weight] using itemsWeight_next_lt b output
    | stall => exact Nat.lt_of_le_of_lt (Nat.zero_le _) (itemsWeight_next_lt b none)
    | fail error => exact Nat.lt_of_le_of_lt (Nat.zero_le _) (itemsWeight_next_lt b none)

theorem Still.pollWith (h : Still walk) :
    pollWith s fuel here walk w = ⟨w, walk, false⟩ := by
  cases h <;> cases fuel <;> rfl

theorem pollWith_walk (b : Branch) (rest : List (Item Branch)) (after : After) (w : World) :
    pollWith s fuel here (after.walk b rest) w =
      match after with
      | .follow items => pollWith s fuel here (ready (items ++ rest)) w
      | .stall => ⟨w, stalled b, false⟩
      | .fail error => ⟨w, failed error, false⟩ := by
  cases after with
  | follow items => rfl
  | stall => exact (Still.stalled b).pollWith
  | fail error => exact (Still.failed error).pollWith

theorem Move.pollWith (h : Move s walk w walk' w') :
    pollWith s (fuel + 1) here walk w = pollWith s fuel here walk' w' := by
  cases h with
  | @sync b step rest w body =>
    rw [Walk.pollWith, pollWith_walk]
    simp only [body]
    generalize s.runSync b step w = ran
    obtain ⟨w', after⟩ := ran
    cases after <;> rfl
  | lone rest w body =>
    rw [Walk.pollWith, body]
  | group bs rest w => rw [Walk.pollWith]
  | @settle b program result w ended =>
    rw [Walk.pollWith, pollWith_walk]
    simp only [ended, List.append_nil]
    generalize s.settle b result w.shared = settled
    obtain ⟨shared, after⟩ := settled
    cases after <;> rfl

theorem pollWith_suspended {b : Branch} {program rest : AsyncProgram} {gate : String}
    (h : program.resume s.isOpen w.store = .suspended (some gate) rest) :
    pollWith s (fuel + 1) here (awaiting b program) w =
      ⟨{ w with shared := w.shared.waitAt gate here }, awaiting b rest, false⟩ := by
  rw [Walk.pollWith, h]

theorem pollWith_paused {b : Branch} {program rest : AsyncProgram}
    (h : program.resume s.isOpen w.store = .suspended none rest) :
    pollWith s (fuel + 1) here (awaiting b program) w = ⟨w, awaiting b rest, true⟩ := by
  rw [Walk.pollWith, h]

end

/-! ## groups -/

section
variable {poll poll' : Nat → Walk → World → Polled} {bound : Nat}

/-- a poll makes no walk heavier -/
def Lightens (poll : Nat → Walk → World → Polled) : Prop :=
  ∀ index walk w, (poll index walk w).walk.weight ≤ walk.weight

/-- two polls do the same to walks that are not heavier than `bound` -/
def AgreeTo (bound : Nat) (poll poll' : Nat → Walk → World → Polled) : Prop :=
  ∀ index walk w, walk.weight ≤ bound → poll index walk w = poll' index walk w

theorem weights_pollEach_le (lightens : Lightens poll) (members : List Walk) (index : Nat)
    (w : World) : weights (pollEach poll index members w).members ≤ weights members := by
  induction members generalizing index w with
  | nil => exact Nat.le_refl _
  | cons walk rest ih =>
    have own := lightens index walk w
    unfold pollEach
    split
    · have behind := ih (index + 1) w
      simp only [weights]
      omega
    · dsimp only
      split
      · simp only [weights]
        omega
      · have behind := ih (index + 1) (poll index walk w).world
        simp only [weights]
        omega

theorem weights_pollQueued_le (lightens : Lightens poll) (fuel left yielded : Nat)
    (round : Round) :
    weights (pollQueued poll fuel left yielded round).members ≤ weights round.members := by
  induction fuel generalizing left yielded round with
  | zero => exact Nat.le_refl _
  | succ fuel ih =>
    unfold pollQueued
    split
    · exact Nat.le_refl _
    · next index queue _ =>
      split
      · exact ih left yielded { round with queue }
      · next walk found =>
        have lighter := weights_set_le found (lightens index walk round.world)
        -- whatever is queued, the round stops here or goes on with these members
        dsimp only
        repeat' split
        all_goals first
          | exact lighter
          | exact Nat.le_trans (ih _ _ _) lighter

theorem weights_pollGroup_le (lightens : Lightens poll) (members : List Walk)
    (queue : Option (List Nat)) (w : World) :
    weights (pollGroup poll members queue w).1.members ≤ weights members := by
  cases queue with
  | none => exact weights_pollEach_le lightens members 0 w
  | some queue => exact weights_pollQueued_le lightens ..

theorem pollEach_congr (agree : AgreeTo bound poll poll') (members : List Walk)
    (light : ∀ m ∈ members, m.weight ≤ bound) (index : Nat) (w : World) :
    pollEach poll index members w = pollEach poll' index members w := by
  induction members generalizing index w with
  | nil => rfl
  | cons walk rest ih =>
    have behind := ih (fun m hm => light m (List.mem_cons_of_mem _ hm))
    simp only [pollEach, agree index walk w (light walk List.mem_cons_self), behind]

theorem pollQueued_congr (agree : AgreeTo bound poll poll') (lightens : Lightens poll)
    (fuel left yielded : Nat) (round : Round) (light : ∀ m ∈ round.members, m.weight ≤ bound) :
    pollQueued poll fuel left yielded round = pollQueued poll' fuel left yielded round := by
  induction fuel generalizing left yielded round with
  | zero => rfl
  | succ fuel ih =>
    unfold pollQueued
    split
    · rfl
    · next index queue _ =>
      split
      · exact ih left yielded { round with queue } light
      · next walk found =>
        have own := light walk (List.mem_of_getElem? found)
        have after : ∀ m ∈ round.members.set index (poll index walk round.world).walk,
            m.weight ≤ bound := by
          intro m hm
          rcases List.mem_or_eq_of_mem_set hm with hm | rfl
          · exact light m hm
          · exact Nat.le_trans (lightens index walk round.world) own
        rw [← agree index walk round.world own]
        dsimp only
        rw [ih _ _ _ after, ih _ _ _ after]

theorem pollGroup_congr (agree : AgreeTo bound poll poll') (lightens : Lightens poll)
    (members : List Walk) (light : ∀ m ∈ members, m.weight ≤ bound) (queue : Option (List Nat))
    (w : World) : pollGroup poll members queue w = pollGroup poll' members queue w := by
  cases queue with
  | none => simp only [pollGroup, pollEach_congr agree members light]
  | some queue =>
    have round := pollQueued_congr agree lightens ((members.length + 1) * (members.length + 1))
      (unfinished members) 0 { world := w, members, queue } light
    simp only [pollGroup, round]

end

/-! ## enough fuel -/

section
variable (s : Setting)

theorem weight_pollWith_le (fuel : Nat) (here : Address) (walk : Walk) (w : World) :
    (pollWith s fuel here walk w).walk.weight ≤ walk.weight := by
  induction fuel generalizing here walk w with
  | zero => exact Nat.le_refl _
  | succ fuel ih =>
    cases view s w walk with
    | move h =>
      rw [h.pollWith]
      exact Nat.le_trans (ih ..) (Nat.le_of_lt h.weight_lt)
    | still h => exact Nat.le_of_eq (congrArg (·.walk.weight) h.pollWith)
    | suspended h => rw [pollWith_suspended h]; exact Nat.le_refl _
    | paused h => rw [pollWith_paused h]; exact Nat.le_refl _
    | joined members queue rest =>
      have inside := weights_pollGroup_le (fun index => ih (here ++ [index])) members queue w
      rw [pollWith]
      generalize pollGroup (fun index => pollWith s fuel (here ++ [index])) members queue w = group
        at inside ⊢
      obtain ⟨round, error⟩ := group
      cases error with
      | some error => exact Nat.zero_le _
      | none =>
        dsimp only at inside ⊢
        split
        · refine Nat.le_trans (ih here (ready rest) round.world) ?_
          simp only [weight]
          omega
        · simp only [weight]
          omega

/-- **Any fuel above the weight gives one answer.** -/
theorem pollWith_fuel (fuel fuel' : Nat) (here : Address) (walk : Walk) (w : World)
    (enough : walk.weight < fuel) (enough' : walk.weight < fuel') :
    pollWith s fuel here walk w = pollWith s fuel' here walk w := by
  induction fuel generalizing fuel' here walk w with
  | zero => omega
  | succ fuel ih =>
    obtain ⟨fuel', rfl⟩ : ∃ n, fuel' = n + 1 := ⟨fuel' - 1, by omega⟩
    cases view s w walk with
    | move h =>
      have lt := h.weight_lt
      rw [h.pollWith, h.pollWith]
      exact ih _ _ _ _ (by omega) (by omega)
    | still h => rw [h.pollWith, h.pollWith]
    | suspended h => rw [pollWith_suspended h, pollWith_suspended h]
    | paused h => rw [pollWith_paused h, pollWith_paused h]
    | joined members queue rest =>
      simp only [weight] at enough enough'
      have agree : AgreeTo (weights members) (fun index => pollWith s fuel (here ++ [index]))
          (fun index => pollWith s fuel' (here ++ [index])) :=
        fun index m w light => ih _ _ _ _ (by omega) (by omega)
      have round := pollGroup_congr agree (fun index => weight_pollWith_le s fuel (here ++ [index]))
        members (fun m hm => weight_le_weights hm) queue w
      rw [pollWith, pollWith, round]
      have behind := fun w => ih fuel' here (ready rest) w (by simp only [weight]; omega)
        (by simp only [weight]; omega)
      simp only [behind]

/-- poll a walk that stands at `here` -/
def pollAt (here : Address) (walk : Walk) (w : World) : Polled :=
  pollWith s (walk.weight + 1) here walk w

theorem poll_eq_pollAt (walk : Walk) (w : World) : poll s walk w = pollAt s [] walk w := rfl

variable {s}
variable {here : Address} {walk walk' : Walk} {w w' : World}

theorem pollAt_move (h : Move s walk w walk' w') :
    pollAt s here walk w = pollAt s here walk' w' := by
  have lt := h.weight_lt
  rw [pollAt, h.pollWith]
  exact pollWith_fuel s _ _ here walk' w' lt (Nat.lt_succ_self _)

theorem pollAt_still (h : Still walk) : pollAt s here walk w = ⟨w, walk, false⟩ := h.pollWith

theorem pollAt_suspended {b : Branch} {program rest : AsyncProgram} {gate : String}
    (h : program.resume s.isOpen w.store = .suspended (some gate) rest) :
    pollAt s here (awaiting b program) w =
      ⟨{ w with shared := w.shared.waitAt gate here }, awaiting b rest, false⟩ :=
  pollWith_suspended h

theorem pollAt_paused {b : Branch} {program rest : AsyncProgram}
    (h : program.resume s.isOpen w.store = .suspended none rest) :
    pollAt s here (awaiting b program) w = ⟨w, awaiting b rest, true⟩ :=
  pollWith_paused h

/-- a poll of a group: poll its members; an error ends it, and the items behind it go on once all
members are done -/
theorem pollAt_joined (members : List Walk) (queue : Option (List Nat))
    (rest : List (Item Branch)) :
    pollAt s here (joined members queue rest) w =
      let (round, error) := pollGroup (fun index => pollAt s (here ++ [index])) members queue w
      match error with
      | some error => ⟨round.world, failed error, round.woken⟩
      | none =>
        if round.members.all isDone then
          let polled := pollAt s here (ready rest) round.world
          { polled with woken := round.woken || polled.woken }
        else ⟨round.world, joined round.members (queue.map fun _ => round.queue) rest, round.woken⟩ := by
  have agree : AgreeTo (weights members)
      (fun index => pollWith s (joined members queue rest).weight (here ++ [index]))
      (fun index => pollAt s (here ++ [index])) := by
    intro index m w light
    exact pollWith_fuel s _ _ _ m w (by simp only [weight]; omega) (Nat.lt_succ_self _)
  have round := pollGroup_congr agree
    (fun index => weight_pollWith_le s _ (here ++ [index]))
    members (fun m hm => weight_le_weights hm) queue w
  have behind := fun w => pollWith_fuel s (joined members queue rest).weight
    ((ready rest).weight + 1) here (ready rest) w (by simp only [weight]; omega)
    (Nat.lt_succ_self _)
  rw [pollAt, pollWith, round]
  simp only [behind]
  rfl

end

end Walk

end SignalFlow
