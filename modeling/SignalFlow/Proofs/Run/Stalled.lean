import SignalFlow.Proofs.Run.Errors
/-!
# Stalled steps

A walk that is stalled is never left: its step has failed and is kept executing.

* `Walk.Halts`      the steps that are stalled in a walk are executing;
* `Run.StepFailed`  a sequential step has ended in failure, in some poll in the past of a run.

The steps that are stalled are executing in every run under way (`Run.Reachable.halts`). They are
sequential ones that have failed, and the policy has it so (`Run.Reachable.stalled_cause`).
-/

namespace SignalFlow

open Branch Walk

/-! ## steps that are kept executing -/

/-- every step that is stalled in the walk is executing -/
def Walk.Halts (slot : Nat → Slot) (walk : Walk) : Prop :=
  ∀ b, (stalled b).In walk → (slot b.id).isExecuting = true

section
variable {s : Setting} {walk walk' m m' : Walk} {w w' : World} {items : List (Item Branch)}
  {bs : List Branch} {b : Branch} {slot : Nat → Slot} {scope : Scope}

theorem Trail.stalled_mem (trail : Trail slot scope walk) (has : (Walk.stalled b).In walk) :
    b ∈ scope.branches := by
  induction trail with
  | @joined items item members rest queue reaches _ length _ ih =>
    cases has with
    | inside _ _ hm has =>
      obtain ⟨i, found⟩ := List.mem_iff_getElem?.mp hm
      have inside : i < item.members.length := length ▸ (List.getElem?_eq_some_iff.mp found).1
      have member := List.getElem?_eq_getElem inside
      have own := ih i _ _ member found has
      have sub := reaches.sublist
      rw [allOf_cons] at sub
      have front := all_sublist_allOfMembers (List.mem_of_getElem? member)
      exact ((front.trans (List.sublist_append_left ..)).trans sub).subset own
  | @stalled items c rest reaches _ _ =>
    cases has with
    | own =>
      have sub := reaches.sublist
      rw [allOf] at sub
      exact sub.subset (List.mem_append_left _ (mem_all_self _))
  | @entered c walk _ _ ih =>
    exact ((taken_sublist slot c).trans (under_sublist c)).subset (ih has)
  | ready | failed | awaiting | givenUp => cases has

theorem Walk.Halts.frame (halts : walk.Halts w.shared.slot) (trail : Trail w.shared.slot scope walk)
    (frame : Frame bs w.shared w'.shared)
    (apart : ∀ c ∈ bs, ∀ d ∈ scope.branches, c.id ≠ d.id) : walk.Halts w'.shared.slot := by
  intro b has
  rw [frame.same b.id fun c hc => apart c hc b (trail.stalled_mem has)]
  exact halts b has

theorem halts_joinedOf {rest : List (Item Branch)} {members : List Walk}
    (awaits : ∀ m ∈ members, ∃ b program, m = Walk.awaiting b program) :
    (joinedOf members rest).Halts slot := by
  intro b has
  cases has with
  | inside _ _ hm has =>
    obtain ⟨c, program, rfl⟩ := awaits _ hm
    cases has

theorem halts_start (bs : List Branch) (rest : List (Item Branch)) (w : World) :
    (joinedOf (start bs w).2 rest).Halts slot := by
  refine halts_joinedOf fun m hm => ?_
  rw [start_members] at hm
  obtain ⟨b, -, rfl⟩ := List.mem_map.mp hm
  exact ⟨b, _, rfl⟩

/-- a member of a group does not stall -/
theorem Setting.settle_ne_stall (s : Setting) (b : Branch) (result : StepResult) (shared : Shared) :
    (s.settle b result shared).2 ≠ .stall := by
  unfold settle
  intro stall
  repeat' split at stall
  all_goals cases stall

theorem Setting.executing_runSync {step : Args → SyncProgram} (inside : b.id < w.shared.slots.length)
    (stall : (s.runSync b step w).2 = .stall) :
    ((s.runSync b step w).1.shared.slot b.id).isExecuting = true := by
  unfold runSync at stall ⊢
  generalize (step w.shared.args).run { store := w.store, writable := true } = ran at stall ⊢
  obtain ⟨view, result⟩ := ran
  dsimp only at stall ⊢
  have logged := Shared.slot_begin_log inside view.log
  generalize (w.shared.begin b).updateSlot b.id (fun slot => { slot with mutations := view.log }) =
    shared at stall logged ⊢
  have ends : s.Ends b shared (s.conclude b result shared) _ := Setting.conclude_ends result
  generalize s.syncError? b result = error? at ends
  generalize s.conclude b result shared = ended at ends stall ⊢
  cases ends with
  | outcome | givenUp => cases stall
  | stall => exact congrArg Slot.isExecuting logged

theorem Walk.Move.halts (move : Move s walk w walk' w')
    (numbered : Numbered w.shared.slots.length (allOf items))
    (trail : Trail w.shared.slot (.list items) walk) : walk'.Halts w'.shared.slot := by
  cases move with
  | @sync b step rest w body =>
    obtain ⟨sub, -⟩ := trail.next
    have inside := numbered.inside b (sub.subset (List.mem_singleton_self b))
    intro c has
    cases stall : (s.runSync b step w).2 with
    | follow | fail =>
      rw [stall] at has
      cases has
    | stall =>
      rw [stall] at has
      cases has with
      | own => exact Setting.executing_runSync inside stall
  | lone rest w body => exact halts_start _ rest w
  | group bs rest w => exact halts_start bs rest w
  | settle => cases trail

/-- a step of a member, if a step of the walk under it leaves stalled steps executing -/
theorem halts_member (step : Step s m w m' w')
    (below : ∀ items, Numbered w.shared.slots.length (allOf items) →
      Trail w.shared.slot (.list items) m → m.Halts w.shared.slot → m'.Halts w'.shared.slot)
    (numbered : Numbered w.shared.slots.length (all b))
    (trail : Trail w.shared.slot (.member b) m) (halts : m.Halts w.shared.slot) :
    m'.Halts w'.shared.slot := by
  cases trail with
  | awaiting program opened =>
    cases step with
    | move move =>
      cases move with
      | @settle b program result w ended =>
        intro c has
        cases after : (s.settle b result w.shared).2 with
        | stall => exact absurd after (s.settle_ne_stall b result w.shared)
        | follow | fail =>
          rw [after] at has
          cases has
    | suspend => exact fun c has => nomatch has
  | givenUp error opened =>
    cases step with
    | move move => cases move
  | entered entered trail =>
    have inside := (taken_sublist w.shared.slot b).trans (under_sublist b)
    exact below _ (numbered.sublist inside) trail halts

/-- **A step leaves stalled steps executing.** -/
theorem Walk.Step.halts (step : Step s walk w walk' w') :
    ∀ items, Numbered w.shared.slots.length (allOf items) →
      Trail w.shared.slot (.list items) walk → walk.Halts w.shared.slot →
      walk'.Halts w'.shared.slot := by
  induction step with
  | move move => exact fun items numbered trail _ => move.halts numbered trail
  | suspend => exact fun _ _ trail => nomatch trail
  | @member members i m m' w w' queue rest found step ih =>
    intro items numbered trail halts
    cases trail with
    | @joined _ item _ _ _ reaches fresh length each =>
      have there : i < members.length := (List.getElem?_eq_some_iff.mp found).1
      have member := List.getElem?_eq_getElem (length ▸ there : i < item.members.length)
      generalize item.members[i] = b at member
      have sub := reaches.sublist
      rw [allOf_cons] at sub
      have group := (List.sublist_append_left _ (allOf rest)).trans sub
      have own := (all_sublist_allOfMembers (List.mem_of_getElem? member)).trans group
      have theirs {n : Walk} (hn : n ∈ members) : n.Halts w.shared.slot := fun c has =>
        halts c (.inside queue rest hn has)
      intro c has
      cases has with
      | inside _ _ hn has =>
        obtain ⟨j, hj⟩ := List.mem_iff_getElem?.mp hn
        rcases getElem?_set_cases there hj with ⟨rfl, rfl⟩ | ⟨other, same⟩
        · exact halts_member step ih (numbered.sublist own) (each i b m member found)
            (theirs (List.mem_of_getElem? found)) c has
        · -- the member that stands elsewhere has other branches
          have inside : j < item.members.length := length ▸ (List.getElem?_eq_some_iff.mp same).1
          have neighbour := List.getElem?_eq_getElem inside
          obtain ⟨-, frame⟩ := keeps_member step step.keeps (numbered.sublist own)
            (each i b m member found)
          exact (theirs (List.mem_of_getElem? same)).frame (each j _ _ neighbour same) frame
            (Unique.members (numbered.unique.sublist group) member neighbour other) c has
  | requeue members queue queue' rest w =>
    intro _ _ _ halts c has
    cases has with
    | inside _ _ hm has => exact halts c (.inside queue rest hm has)
  | raise | join => exact fun _ _ _ _ _ has => nomatch has

theorem Walk.Steps.halts (steps : Steps s walk w walk' w')
    (numbered : Numbered w.shared.slots.length (allOf items))
    (trail : Trail w.shared.slot (.list items) walk) (halts : walk.Halts w.shared.slot) :
    walk'.Halts w'.shared.slot := by
  induction steps with
  | refl => exact halts
  | head first _ ih =>
    obtain ⟨trail', frame⟩ := first.keeps items numbered trail
    exact ih (frame.length.symm ▸ numbered) trail' (first.halts items numbered trail halts)

end

/-! ## steps that have stalled -/

section
variable {s : Setting} {b c : Branch} {result : StepResult} {shared : Shared}

theorem After.eq_stall {after : After} {rest : List (Item Branch)}
    (h : after.walk b rest = .stalled c) : after = .stall ∧ c = b := by
  cases after with
  | follow | fail => cases h
  | stall =>
    cases h
    exact ⟨rfl, rfl⟩

theorem Setting.policy_of_stall {message : String}
    (stall : (s.stepFailed b message shared).2 = .stall) : s.policy = .stall := by
  unfold stepFailed at stall
  cases policy : s.policy with
  | stall => rfl
  | reject =>
    rw [policy] at stall
    cases stall
  | errorOutput =>
    rw [policy] at stall
    dsimp only at stall
    split at stall <;> cases stall

theorem Setting.fails_of_stall (stall : (s.conclude b result shared).2 = .stall) :
    s.policy = .stall ∧ ∃ message, b.action.Fails result message := by
  unfold conclude at stall
  cases result with
  | error message => exact ⟨policy_of_stall stall, message, .error message⟩
  | ok outcome =>
    dsimp only at stall
    split at stall
    · next output resolved =>
      exact ⟨policy_of_stall stall, _, Action.fails_of_resolve resolved⟩
    · cases stall

/-- **A walk that stalls was left so by a sequential step that failed.** -/
theorem Walk.Makes.stalls {bs : List Branch} {u u' : Walk} {x x' : World}
    (made : Makes s b result (.stalled c) u x u' x') (stands : Stands bs x.shared.slot u) :
    c = b ∧ b ∈ bs ∧ s.policy = .stall ∧ b.spec.isAsync = false ∧ b.action.isAsync = false ∧
      ∃ message, b.action.Fails result message := by
  obtain ⟨finished, left⟩ := made
  cases finished with
  | @run step _ rest body came =>
    obtain ⟨hb, sequential⟩ := stands.sequential
    have sync : b.action.isAsync = false := by rw [Action.isAsync, body]
    obtain ⟨stall, same⟩ := After.eq_stall left
    unfold Setting.runSync at stall
    generalize (step x.shared.args).run { store := x.store, writable := true } = ran at came stall
    obtain ⟨view, own⟩ := ran
    obtain rfl : result = own := came.symm
    obtain ⟨policy, fails⟩ := Setting.fails_of_stall stall
    exact ⟨same, hb, policy, sequential, sync, fails⟩
  | settle came => exact absurd (After.eq_stall left).1 (s.settle_ne_stall b result x.shared)

end

namespace Run

/-- a sequential step of the branch has ended in failure, in some poll in the past of a run -/
def StepFailed (signal : Signal) (b : Branch) (run : Run) : Prop :=
  b.spec.isAsync = false ∧ b.action.isAsync = false ∧ ∃ result message,
    b.action.Fails result message ∧ Past signal (fun s => Finishes s b result) run

variable {name : String} {policy : Policy} {definition : List Chain} {signal : Signal} {run : Run}
  {b c : Branch} {result : StepResult}

theorem Reachable.halts (created : Signal.create name policy definition = .ok signal)
    (reachable : Reachable signal run) : run.settled = none → run.walk.Halts run.shared.slot :=
  reachable.under_way (P := Walk.Halts) created (fun _ _ has => nomatch has)
    fun steps numbered trail halts => steps.halts numbered trail halts

theorem Past.stalls (created : Signal.create name policy definition = .ok signal)
    (past : Past signal (fun s => Makes s b result (.stalled c)) run) :
    c = b ∧ b ∈ signal.tree.specs ∧ policy = .stall ∧ StepFailed signal b run := by
  obtain ⟨s, u, x, u', x', -, same, made, stands, -, -⟩ :=
    past.moment created fun s u x u' x' h => .move h.1.move
  obtain ⟨own, hb, stall, sequential, sync, message, fails⟩ := made.stalls stands
  obtain ⟨accepted, rfl⟩ := Signal.create_eq created
  exact ⟨own, Tree.specs_compile accepted ▸ hb, same ▸ stall, sequential, sync, result, message, fails,
    past.mono fun _ _ _ _ _ h => h.1⟩

/-- **A step that is stalled is a sequential one that has failed**, and the policy has it so. -/
theorem Reachable.stalled_cause (created : Signal.create name policy definition = .ok signal)
    (reachable : Reachable signal run) (has : (Walk.stalled b).In run.walk) :
    b ∈ signal.tree.specs ∧ policy = .stall ∧ StepFailed signal b run := by
  have ended : (Walk.stalled b).Ended := trivial
  obtain ⟨c, result, past⟩ := reachable.made ended has
  obtain ⟨rfl, stalled⟩ := past.stalls created
  exact stalled

end Run

end SignalFlow
