import SignalFlow.Proofs.Definition.Everywhere
import SignalFlow.Proofs.Run.Beside
import SignalFlow.Proofs.Run.Refinement
/-!
# Polls of small groups

* `Slim`     a list without large groups, also under the outputs;
* `Calm`     a walk without large groups and without a failure in it;
* `Quiet`    a journal in which no step was given up;
* `Closes`   a journal is quiet, or ends with the one step that was given up, if there is an error;
* `Calmly`   a journal closes with the error of a walk, and without one the walk is calm.

A poll of a calm walk goes up to the first failure and no further: the step that is given up is the last
entry of the journal (`pollWith_calmly`).
-/

namespace SignalFlow

open Chain Walk SignalFlow.Tree

/-! ## definitions without large groups -/

/-- no group of the list is large, nor one in the lists under its outputs -/
inductive Slim : List (Item Branch) → Prop
  | nil : Slim []
  | cons {item : Item Branch} {rest : List (Item Branch)} : item.members.length ≤ smallGroup →
      (∀ b ∈ item.members, ∀ output, Slim (b.next output)) → Slim rest → Slim (item :: rest)

section
variable {items rest : List (Item Branch)}

theorem Slim.append (h : Slim items) (h' : Slim rest) : Slim (items ++ rest) := by
  induction h with
  | nil => exact h'
  | cons few under _ _ ih => exact .cons few under ih

theorem Everywhere.slim
    (h : Everywhere (fun item => item.members.length ≤ smallGroup) items) : Slim items := by
  induction h with
  | nil => exact .nil
  | cons few _ _ under ih => exact .cons few under ih

theorem slim_compileItems {list : List Chain} (h : WellFormed false list)
    (small : ∀ group ∈ groups list, groupSize group ≤ smallGroup) :
    Slim (compileItems false [] 0 0 [] list).result := by
  have lone (b : Branch) : (Item.step b).members.length ≤ smallGroup := Nat.le_add_left 1 29
  refine (everywhere_compileItems h lone (fun group hg _ position next table bs steps => ?_) ..).slim
  show bs.length ≤ smallGroup
  have few := small group hg
  rw [← length_members position 0 next table, steps, filterMap_step?] at few
  exact few

end

/-! ## journals -/

/-- the branch that this entry gives up -/
def Event.givenUp? : Event → Option Nat
  | .givenUp id => some id
  | .began .. | .ended .. => none

theorem mem_of_givenUp? {journal : List Event} {index id : Nat}
    (found : (journal[index]?.bind Event.givenUp?) = some id) : .givenUp id ∈ journal := by
  obtain ⟨event, there, own⟩ := Option.bind_eq_some_iff.mp found
  cases event with
  | givenUp _ =>
    cases own
    exact List.mem_of_getElem? there
  | began _ _ | ended _ _ _ => cases own

/-- no step was given up -/
def Quiet (journal : List Event) : Prop := ∀ id, Event.givenUp id ∉ journal

/-- no step was given up if there is no error, and else the last entry gives up the only one -/
def Closes (journal : List Event) : Option RunError → Prop
  | none => Quiet journal
  | some _ => ∃ front id, journal = front ++ [.givenUp id] ∧ Quiet front

section
variable {journal front : List Event} {error? : Option RunError} {id : Nat}

theorem Quiet.append (h : Quiet front) (h' : Quiet journal) : Quiet (front ++ journal) :=
  fun id hid => (List.mem_append.mp hid).elim (h id) (h' id)

theorem quiet_singleton {event : Event} (other : ∀ id, event ≠ .givenUp id) : Quiet [event] :=
  fun id hid => other id (List.mem_singleton.mp hid).symm

/-- a step that was given up is the last entry, and there is an error -/
theorem Closes.last (h : Closes journal error?) (there : front ++ [.givenUp id] <+: journal) :
    error?.isSome = true ∧ journal = front ++ [.givenUp id] ∧ Quiet front := by
  have given : .givenUp id ∈ journal :=
    there.subset (List.mem_append_right _ (List.mem_singleton_self _))
  cases error? with
  | none => exact absurd given (h id)
  | some error =>
    obtain ⟨before, other, rfl, quiet⟩ := h
    rcases List.prefix_concat_iff.mp there with same | inside
    · have whole := (List.append_inj' same rfl).1
      exact ⟨rfl, same.symm, whole ▸ quiet⟩
    · exact absurd (inside.subset (List.mem_append_right _ (List.mem_singleton_self _))) (quiet id)

end

/-! ## walks in small groups -/

/-- a walk without large groups, and without a failure in it -/
inductive Calm : Walk → Prop
  | ready {items : List (Item Branch)} : Slim items → Calm (.ready items)
  | awaiting {b : Branch} (program : AsyncProgram) : (∀ output, Slim (b.next output)) →
      Calm (.awaiting b program)
  | joined {members : List Walk} {rest : List (Item Branch)} : (∀ m ∈ members, Calm m) →
      Slim rest → Calm (.joined members none rest)
  | stalled (b : Branch) : Calm (.stalled b)

/-- the journal closes with the error of the walk, and without one the walk is calm -/
structure Calmly (walk : Walk) (w : World) : Prop where
  closes : Closes w.shared.journal walk.error?
  calm : walk.error? = none → Calm walk

section
variable {s : Setting} {walk walk' : Walk} {w w' : World} {rest : List (Item Branch)} {b : Branch}

theorem Calm.error? (h : Calm walk) : walk.error? = none := by
  cases h <;> rfl

theorem Calm.calmly (h : Calm walk) (quiet : Quiet w.shared.journal) : Calmly walk w :=
  ⟨h.error? ▸ quiet, fun _ => h⟩

theorem Setting.Ends.closes {shared : Shared} {ended : Shared × After} {error? : Option RunError}
    (h : s.Ends b shared ended error?) (quiet : Quiet shared.journal) :
    Closes ended.1.journal (ended.2.walk b rest).error? := by
  cases h with
  | outcome output payload => exact quiet.append (quiet_singleton fun _ e => nomatch e)
  | stall => exact quiet
  | givenUp error => exact ⟨shared.journal, b.id, rfl, quiet⟩

theorem Setting.Ends.calm {shared : Shared} {ended : Shared × After} {error? : Option RunError}
    (h : s.Ends b shared ended error?) (under : ∀ output, Slim (b.next output)) (slim : Slim rest)
    (fine : (ended.2.walk b rest).error? = none) : Calm (ended.2.walk b rest) := by
  cases h with
  | outcome output payload => exact .ready ((under output).append slim)
  | stall => exact .stalled b
  | givenUp error => cases fine

theorem quiet_start (bs : List Branch) (quiet : Quiet w.shared.journal) :
    Quiet (start bs w).1.shared.journal := by
  rw [journal_start]
  refine quiet.append fun id hid => ?_
  obtain ⟨b, -, same⟩ := List.mem_map.mp hid
  cases same

theorem calm_joinedOf {bs : List Branch} (few : bs.length ≤ smallGroup)
    (under : ∀ b ∈ bs, ∀ output, Slim (b.next output)) (slim : Slim rest) :
    Calm (joinedOf (start bs w).2 rest) := by
  rw [joinedOf, start_members, List.length_map, if_pos few]
  refine .joined (fun m hm => ?_) slim
  obtain ⟨b, hb, rfl⟩ := List.mem_map.mp hm
  exact .awaiting _ (under b hb)

theorem Walk.Move.closes (move : Move s walk w walk' w') (quiet : Quiet w.shared.journal) :
    Closes w'.shared.journal walk'.error? := by
  cases move with
  | @sync b step rest w body =>
    have began : Quiet (w.shared.begin b).journal :=
      quiet.append (quiet_singleton fun _ e => nomatch e)
    exact (Setting.conclude_ends _).closes began
  | @lone b => exact quiet_start [b] quiet
  | group bs => exact quiet_start bs quiet
  | @settle b program result => exact (Setting.settle_ends result).closes quiet

theorem Walk.Move.calm (move : Move s walk w walk' w') (calm : Calm walk)
    (fine : walk'.error? = none) : Calm walk' := by
  cases calm with
  | @ready items slim =>
    cases slim with
    | nil => cases move
    | @cons item rest few under slim =>
      cases move with
      | @sync b step =>
        exact (Setting.conclude_ends _).calm (under b (List.mem_singleton_self b)) slim fine
      | lone => exact calm_joinedOf few under slim
      | group => exact calm_joinedOf few under slim
  | awaiting _ own =>
    cases move with
    | @settle _ _ result => exact (Setting.settle_ends result).calm own .nil fine
  | joined | stalled => cases move

/-! ## polls -/

/-- this poll takes a calm walk up to the first failure -/
def Soothes (poll : Nat → Walk → World → Polled) : Prop :=
  ∀ index walk w, Calm walk → Quiet w.shared.journal →
    Calmly (poll index walk w).walk (poll index walk w).world

theorem pollEach_calmly {poll : Nat → Walk → World → Polled} (soothes : Soothes poll)
    {members : List Walk} (calm : ∀ m ∈ members, Calm m) (index : Nat)
    (quiet : Quiet w.shared.journal) :
    let round := pollEach poll index members w
    Closes round.world.shared.journal (firstError? round.members) ∧
      (firstError? round.members = none → ∀ m ∈ round.members, Calm m) := by
  induction members generalizing index w with
  | nil => exact ⟨quiet, fun _ => calm⟩
  | cons m members ih =>
    obtain ⟨first, others⟩ := List.forall_mem_cons.mp calm
    cases done : m.isDone with
    | true =>
      obtain ⟨closes, after⟩ := ih others (index + 1) quiet
      rw [pollEach_done done]
      dsimp only
      rw [firstError?, List.findSome?_cons, first.error?]
      exact ⟨closes, fun fine => List.forall_mem_cons.mpr ⟨first, after fine⟩⟩
    | false =>
      have own := soothes index m w first quiet
      cases found : (poll index m w).walk.error? with
      | some error =>
        have closes := own.closes
        rw [found] at closes
        rw [pollEach_failed done (by rw [found]; rfl)]
        dsimp only
        rw [firstError?, List.findSome?_cons, found]
        exact ⟨closes, fun fine => absurd fine (Option.some_ne_none error)⟩
      | none =>
        have quiet' := own.closes
        rw [found] at quiet'
        obtain ⟨closes, after⟩ := ih others (index + 1) quiet'
        rw [pollEach_next done (by rw [found]; rfl)]
        dsimp only
        rw [firstError?, List.findSome?_cons, found]
        exact ⟨closes, fun fine => List.forall_mem_cons.mpr ⟨own.calm found, after fine⟩⟩

/-- **A poll of a calm walk goes up to the first failure.** The journal closes with the error of the walk,
and without an error the walk is calm again. -/
theorem pollWith_calmly (fuel : Nat) (here : Address) (calm : Calm walk)
    (quiet : Quiet w.shared.journal) :
    let polled := pollWith s fuel here walk w
    Calmly polled.walk polled.world := by
  induction fuel generalizing here walk w with
  | zero => exact calm.calmly quiet
  | succ fuel ih =>
    cases view s w walk with
    | @move _ walk' w' move =>
      rw [move.pollWith]
      have closes := move.closes quiet
      cases found : walk'.error? with
      | none =>
        rw [found] at closes
        exact ih here (move.calm calm found) closes
      | some error =>
        cases error?_eq_some found
        rw [(Still.failed error).pollWith]
        exact ⟨closes, move.calm calm⟩
    | still still =>
      rw [still.pollWith]
      exact calm.calmly quiet
    | @suspended b program left gate suspended =>
      rw [pollWith_suspended suspended]
      obtain ⟨waiting, waits⟩ := w.shared.waitAt_eq gate here
      rw [waits]
      cases calm with
      | awaiting _ own => exact (Calm.awaiting left own).calmly quiet
    | @paused b program left paused =>
      rw [pollWith_paused paused]
      cases calm with
      | awaiting _ own => exact (Calm.awaiting left own).calmly quiet
    | joined members queue rest =>
      cases calm with
      | joined calm slim =>
        have soothes : Soothes fun index => pollWith s fuel (here ++ [index]) :=
          fun index m w calm quiet => ih (here ++ [index]) calm quiet
        have round := pollEach_calmly soothes calm 0 quiet
        rw [pollWith, pollGroup]
        generalize pollEach (fun index => pollWith s fuel (here ++ [index])) 0 members w = after
          at round ⊢
        obtain ⟨closes, calmer⟩ := round
        dsimp only
        cases found : firstError? after.members with
        | some error =>
          rw [found] at closes
          exact ⟨closes, fun fine => absurd fine (Option.some_ne_none error)⟩
        | none =>
          rw [found] at closes
          dsimp only
          split
          · exact ih here (.ready slim) closes
          · exact (Calm.joined (calmer found) slim).calmly closes

end

theorem calm_wake {walk : Walk} (calm : Calm walk) (address : Address) :
    Calm (walk.wake address).1 := by
  induction address generalizing walk with
  | nil => exact calm
  | cons index address ih =>
    cases calm with
    | ready slim => exact .ready slim
    | awaiting program own => exact .awaiting program own
    | stalled b => exact .stalled b
    | @joined members rest calm slim =>
      rw [wake]
      split
      · exact .joined calm slim
      · next m found =>
        refine .joined (fun m' hm => ?_) slim
        rcases List.mem_or_eq_of_mem_set hm with hm | rfl
        · exact calm m' hm
        · exact ih (calm m (List.mem_of_getElem? found))

end SignalFlow
