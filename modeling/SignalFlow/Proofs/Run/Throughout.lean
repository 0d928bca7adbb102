import SignalFlow.Proofs.Run.Completes
/-!
# What holds of all that a walk can come to

* `Item.Marked`       steps that say rightly whether they are members of a group;
* `Walk.Throughout`   a property of every item that is left, and one of every branch whose body is
                      awaited.

An accepted definition is compiled to items that are marked (`marked_compile`). What holds throughout
the walk of a run when it starts holds throughout it after any number of steps
(`Walk.Steps.throughout`), so it holds in every reachable run (`Run.Reachable.throughout`).
-/

namespace SignalFlow

open Branch Chain Walk SignalFlow.Tree

/-! ## marks -/

/-- the steps of an item in a list, sequential or in a group, say rightly where they stand -/
def Item.Marked (concurrent : Bool) : Item Branch → Prop
  | .step b => b.spec.isAsync = concurrent
  | .group members => ∀ b ∈ members, b.spec.isAsync = true

/-- the branch runs concurrently with its list: it is a member of a group, or its body may wait -/
def Branch.Concurrent (b : Branch) : Prop := b.spec.isAsync = true ∨ b.action.isAsync = true

theorem Branch.not_concurrent {b : Branch} {step : Args → SyncProgram}
    (sequential : b.spec.isAsync = false) (body : b.action.body = .sync step) : ¬ b.Concurrent := by
  rintro (member | waits)
  · rw [sequential] at member
    cases member
  · rw [Action.isAsync, body] at waits
    cases waits

theorem Item.Marked.concurrent {item : Item Branch} (marked : item.Marked false)
    (splits : item.Splits) : ∀ b ∈ item.members, b.Concurrent := by
  intro b hb
  cases item with
  | step c =>
    obtain ⟨body, async⟩ := splits
    obtain rfl := List.mem_singleton.mp hb
    right
    rw [Action.isAsync, async]
  | group members => exact .inl (marked b hb)

theorem Everywhere.of_forall {P : Item Branch → Prop} {items : List (Item Branch)}
    (each : ∀ item ∈ items, P item ∧ ∀ b ∈ item.members, ∀ output, Everywhere P (b.next output)) :
    Everywhere P items := by
  induction items with
  | nil => exact .nil
  | cons item rest ih =>
    obtain ⟨⟨own, under⟩, behind⟩ := List.forall_mem_cons.mp each
    exact .cons own under (ih behind)

theorem Everywhere.mono {P Q : Item Branch → Prop} {items : List (Item Branch)}
    (each : ∀ item, P item → Q item) (h : Everywhere P items) : Everywhere Q items := by
  induction h with
  | nil => exact .nil
  | cons own _ _ under behind => exact .cons (each _ own) under behind

theorem weight_le_branchesWeight {bs : List Branch} {b : Branch} (h : b ∈ bs) :
    b.weight ≤ branchesWeight bs := by
  induction bs with
  | nil => cases h
  | cons first rest ih =>
    rw [branchesWeight]
    cases h with
    | head => exact Nat.le_add_right ..
    | tail _ h => exact Nat.le_trans (ih h) (Nat.le_add_left ..)

theorem weight_le_itemsWeight {items : List (Item Branch)} {item : Item Branch} (hi : item ∈ items)
    {b : Branch} (hb : b ∈ item.members) : b.weight ≤ itemsWeight items := by
  induction items with
  | nil => cases hi
  | cons first rest ih =>
    cases hi with
    | head =>
      cases item with
      | step c =>
        obtain rfl := List.mem_singleton.mp hb
        rw [itemsWeight]
        omega
      | group bs =>
        have inside : b.weight ≤ branchesWeight bs := weight_le_branchesWeight hb
        rw [itemsWeight]
        omega
    | tail _ hi =>
      have behind := ih hi
      cases first <;> rw [itemsWeight] <;> omega

theorem everywhere_members {Q : Branch → Prop} {items : List (Item Branch)}
    (each : ∀ b ∈ allOf items, Q b) :
    Everywhere (fun item => ∀ b ∈ item.members, Q b) items := by
  induction weight : itemsWeight items using Nat.strongRecOn generalizing items with
  | ind bound ih =>
    refine .of_forall fun item hi => ⟨fun b hb => ?_, fun b hb output => ?_⟩
    · exact each b ((all_sublist_allOf hi hb).subset (mem_all_self b))
    · have lighter := Nat.lt_of_lt_of_le (itemsWeight_next_lt b output) (weight_le_itemsWeight hi hb)
      have inside := (allOf_next_sublist b output).trans
        ((under_sublist b).trans (all_sublist_allOf hi hb))
      exact ih _ (weight ▸ lighter) (fun c hc => each c (inside.subset hc)) rfl

theorem marked_compileItems {concurrent : Bool} {list : List Chain}
    (h : WellFormed concurrent list) (position : Position) (index next : Nat)
    (table : List Action) :
    ∀ item ∈ (compileItems concurrent position index next table list).result,
      item.Marked concurrent ∧
        ∀ b ∈ item.members, ∀ output, Everywhere (Item.Marked false) (b.next output) := by
  induction h generalizing position index next table with
  | nil => exact fun _ h => nomatch h
  | step clear _ ih =>
    rw [compileItems_action _ _ _ _ _ _ clear]
    refine List.forall_mem_cons.mpr ⟨⟨rfl, List.forall_mem_singleton.mpr fun output => ?_⟩, ih _ _ _ _⟩
    cases output <;> exact .nil
  | mapped _ _ _ _ lists ih =>
    rw [compileItems_mapped]
    refine List.forall_mem_cons.mpr ⟨⟨rfl, List.forall_mem_singleton.mpr fun output => ?_⟩, ih _ _ _ _⟩
    cases output with
    | none => exact .nil
    | some output =>
      refine everywhere_compileOutputs (fun entry he position index next table => ?_) _ _ _ output
      exact .of_forall (lists entry he position index next table)
  | @group members rest inside _ _ ihInside ih =>
    have own := ihInside (position.item index) 0 next table
    obtain ⟨bs, steps⟩ := compileItems_members inside (position.item index) 0 next table
    rw [steps] at own
    rw [compileItems_group]
    refine List.forall_mem_cons.mpr ⟨?_, ih _ _ _ _⟩
    rw [Bool.not_false, steps, filterMap_step?]
    exact ⟨fun b hb => (own _ (List.mem_map_of_mem hb)).1,
      fun b hb => (own _ (List.mem_map_of_mem hb)).2 b (List.mem_singleton_self b)⟩

/-- **An accepted definition is compiled to items that are marked.** -/
theorem marked_compile {signal : String} {definition : List Chain}
    (accepted : analyze signal definition = .ok ()) :
    Everywhere (Item.Marked false) (compile definition).branches :=
  .of_forall (marked_compileItems (wellFormed_of_analyze accepted) [] 0 0 [])

/-! ## walks -/

namespace Walk

/-- `P` holds of every item that is left and of all that is under its outputs, `R` of every branch
whose body is awaited -/
inductive Throughout (P : Item Branch → Prop) (R : Branch → Prop) : Walk → Prop
  | ready {items : List (Item Branch)} : Everywhere P items → Throughout P R (ready items)
  | awaiting {b : Branch} (program : AsyncProgram) : R b →
      (∀ output, Everywhere P (b.next output)) → Throughout P R (awaiting b program)
  | joined {members : List Walk} {rest : List (Item Branch)} (queue : Option (List Nat)) :
      (∀ m ∈ members, Throughout P R m) → Everywhere P rest →
      Throughout P R (joined members queue rest)
  | stalled (b : Branch) : Throughout P R (stalled b)
  | failed (error : RunError) : Throughout P R (failed error)

section
variable {P : Item Branch → Prop} {R : Branch → Prop} {s : Setting} {walk walk' : Walk} {w w' : World}
  {b : Branch} {rest : List (Item Branch)}

theorem throughout_after {after : After} (within : Setting.Within b after)
    (under : ∀ output, Everywhere P (b.next output)) (behind : Everywhere P rest) :
    (after.walk b rest).Throughout P R := by
  cases after with
  | follow items =>
    obtain ⟨output, rfl⟩ := within
    exact .ready ((under output).append behind)
  | stall => exact .stalled b
  | fail error => exact .failed error

variable (splits : ∀ item, P item → item.Splits → ∀ b ∈ item.members, R b)
include splits

theorem throughout_start {item : Item Branch} (h : Throughout P R (ready (item :: rest)))
    (split : item.Splits) (w : World) : (joinedOf (start item.members w).2 rest).Throughout P R := by
  cases h with
  | ready everywhere =>
    cases everywhere with
    | cons own under behind =>
      refine .joined _ (fun m hm => ?_) behind
      rw [start_members] at hm
      obtain ⟨c, hc, rfl⟩ := List.mem_map.mp hm
      exact .awaiting _ (splits item own split c hc) (under c hc)

theorem Move.throughout (move : Move s walk w walk' w') (h : walk.Throughout P R) :
    walk'.Throughout P R := by
  cases move with
  | @sync b step rest w body =>
    cases h with
    | ready everywhere =>
      cases everywhere with
      | cons _ under behind =>
        exact throughout_after (s.within_conclude b _ _) (under b (List.mem_singleton_self b)) behind
  | @lone b step rest w body => exact throughout_start splits h ⟨step, body⟩ w
  | group bs rest w => exact throughout_start splits h trivial w
  | settle ended =>
    cases h with
    | awaiting _ _ under => exact throughout_after (s.within_settle _ _ _) under .nil

theorem Step.throughout (step : Step s walk w walk' w') (h : walk.Throughout P R) :
    walk'.Throughout P R := by
  induction step with
  | move move => exact move.throughout splits h
  | suspend =>
    cases h with
    | awaiting _ own under => exact .awaiting _ own under
  | @member members i m m' _ _ queue rest found _ ih =>
    cases h with
    | joined _ inside behind =>
      refine .joined queue (fun n hn => ?_) behind
      rcases List.mem_or_eq_of_mem_set hn with hn | rfl
      · exact inside n hn
      · exact ih (inside m (List.mem_of_getElem? found))
  | requeue members queue queue' =>
    cases h with
    | joined _ inside behind => exact .joined queue' inside behind
  | raise => exact .failed _
  | join =>
    cases h with
    | joined _ _ behind => exact .ready behind

/-- **What holds throughout a walk goes on to hold throughout it.** -/
theorem Steps.throughout (steps : Steps s walk w walk' w') (h : walk.Throughout P R) :
    walk'.Throughout P R := by
  induction steps with
  | refl => exact h
  | head first _ ih => exact ih (first.throughout splits h)

end

end Walk

/-! ## runs -/

namespace Run

variable {P : Item Branch → Prop} {R : Branch → Prop}
  {name : String} {policy : Policy} {definition : List Chain} {signal : Signal} {run : Run}

theorem Becomes.walk {elapsed : Nat} {polled : Polled} {after : Run}
    (h : Becomes run elapsed polled after) : after.walk = polled.walk := by
  cases h with
  | rejected | pending => rfl
  | completed _ _ e =>
    subst e
    rfl

/-- what holds everywhere in the tree of a signal holds throughout the walks of its runs -/
theorem Reachable.throughout (splits : ∀ item, P item → item.Splits → ∀ b ∈ item.members, R b)
    (everywhere : Everywhere P signal.tree.branches) (reachable : Reachable signal run) :
    run.walk.Throughout P R := by
  induction reachable with
  | start started =>
    obtain ⟨args, -, rfl⟩ := Signal.start_eq started
    exact .ready everywhere
  | @poll run isOpen elapsed store _ ih =>
    cases settled : run.settled with
    | some _ =>
      rw [Run.poll, settled]
      exact ih
    | none =>
      rw [(poll_becomes settled isOpen elapsed store).2.walk]
      exact (poll_steps _ run.walk ⟨store, run.shared⟩).throughout splits ih
  | @wake run address _ ih =>
    exact (wake_steps (run.setting (fun _ => false) 0) address run.walk ⟨default, run.shared⟩).throughout
      splits ih
  | @gateOpened run gate _ ih =>
    refine gateOpened_keeps (P := fun run => run.walk.Throughout P R) gate (fun _ => ih) ?_
    exact fun run address h => (wake_steps (run.setting (fun _ => false) 0) address run.walk
      ⟨default, run.shared⟩).throughout splits h

/-- the steps that a run has come to are where their marks say -/
theorem Reachable.marked (created : Signal.create name policy definition = .ok signal)
    (reachable : Reachable signal run) :
    run.walk.Throughout (Item.Marked false) Branch.Concurrent := by
  obtain ⟨accepted, rfl⟩ := Signal.create_eq created
  exact reachable.throughout (fun _ marked splits => marked.concurrent splits)
    (marked_compile accepted)

end Run

end SignalFlow
