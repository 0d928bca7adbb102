import SignalFlow.Proofs.Run.Poll
/-!
# Polls as steps

* `Walk.Step`    one step: a move, a body that is suspended, a step of a member of a group, and what
                 becomes of a group: its queue changes, the error of a member ends it, or it is over;
* `Walk.Steps`   any number of steps.

A poll is done in such steps (`poll_steps`), and so is a wake (`wake_steps`). So what each step
preserves is preserved by polls in any order, on any stores, with any gates open.
-/

namespace SignalFlow

theorem Shared.waitAt_eq (shared : Shared) (gate : String) (here : Address) :
    ∃ waiting, shared.waitAt gate here = { shared with waiting } := by
  unfold waitAt
  split
  · exact ⟨shared.waiting, rfl⟩
  · exact ⟨_, rfl⟩

namespace Walk

/-- one step of a walk -/
inductive Step (s : Setting) : Walk → World → Walk → World → Prop
  | move {walk walk' : Walk} {w w' : World} : Move s walk w walk' w' → Step s walk w walk' w'
  | suspend {b : Branch} {program left : AsyncProgram} {gate : Option String} {w : World}
      (waiting : List (String × Address)) :
      program.resume s.isOpen w.store = .suspended gate left →
      Step s (awaiting b program) w (awaiting b left) { w with shared := { w.shared with waiting } }
  | member {members : List Walk} {index : Nat} {m m' : Walk} {w w' : World}
      (queue : Option (List Nat)) (rest : List (Item Branch)) :
      members[index]? = some m → Step s m w m' w' →
      Step s (joined members queue rest) w (joined (members.set index m') queue rest) w'
  | requeue (members : List Walk) (queue queue' : Option (List Nat)) (rest : List (Item Branch))
      (w : World) : Step s (joined members queue rest) w (joined members queue' rest) w
  | raise {members : List Walk} {error : RunError} (queue : Option (List Nat))
      (rest : List (Item Branch)) (w : World) :
      failed error ∈ members → Step s (joined members queue rest) w (failed error) w
  | join {members : List Walk} (queue : Option (List Nat)) (rest : List (Item Branch)) (w : World) :
      (∀ m ∈ members, m.isDone = true) → Step s (joined members queue rest) w (ready rest) w

/-- any number of steps -/
inductive Steps (s : Setting) : Walk → World → Walk → World → Prop
  | refl (walk : Walk) (w : World) : Steps s walk w walk w
  | head {walk walk' walk'' : Walk} {w w' w'' : World} :
      Step s walk w walk' w' → Steps s walk' w' walk'' w'' → Steps s walk w walk'' w''

section
variable {s : Setting} {walk walk' walk'' m m' : Walk} {w w' w'' : World}
  {queue : Option (List Nat)} {rest : List (Item Branch)}

theorem Step.steps (h : Step s walk w walk' w') : Steps s walk w walk' w' := .head h (.refl ..)

theorem Steps.trans (h : Steps s walk w walk' w') (h' : Steps s walk' w' walk'' w'') :
    Steps s walk w walk'' w'' := by
  induction h with
  | refl => exact h'
  | head first _ ih => exact .head first (ih h')

theorem getElem?_set_cases {members : List Walk} {index i : Nat} {n : Walk}
    (there : index < members.length)
    (found : (members.set index m')[i]? = some n) :
    index = i ∧ n = m' ∨ index ≠ i ∧ members[i]? = some n := by
  by_cases same : index = i
  · subst same
    rw [List.getElem?_set_self there] at found
    cases found
    exact .inl ⟨rfl, rfl⟩
  · rw [List.getElem?_set_ne same] at found
    exact .inr ⟨same, found⟩

theorem Steps.member (h : Steps s m w m' w') {members : List Walk} {index : Nat}
    (found : members[index]? = some m) :
    Steps s (joined members queue rest) w (joined (members.set index m') queue rest) w' := by
  induction h generalizing members with
  | refl m w =>
    obtain ⟨inside, same⟩ := List.getElem?_eq_some_iff.mp found
    rw [← same, List.set_getElem_self]
    exact .refl ..
  | @head m _ _ w _ _ first _ ih =>
    have inside : index < members.length := (List.getElem?_eq_some_iff.mp found).1
    have behind := ih (List.getElem?_set_self inside)
    rw [List.set_set] at behind
    exact .head (.member queue rest found first) behind

/-- the member behind those that have had their turn -/
theorem Steps.turn (h : Steps s m w m' w') (front members : List Walk) (queue : Option (List Nat))
    (rest : List (Item Branch)) :
    Steps s (joined (front ++ m :: members) queue rest) w (joined (front ++ m' :: members) queue rest)
      w' := by
  have found : (front ++ m :: members)[front.length]? = some m := by simp
  have turn : Steps s (joined (front ++ m :: members) queue rest) w
      (joined ((front ++ m :: members).set front.length m') queue rest) w' := h.member found
  rwa [List.set_append_right _ _ (Nat.le_refl _), Nat.sub_self, List.set_cons_zero] at turn

theorem error?_eq_some {error : RunError} (h : walk.error? = some error) : walk = failed error := by
  cases walk with
  | failed e =>
    cases h
    rfl
  | ready _ | awaiting _ _ | joined _ _ _ | stalled _ => cases h

theorem eq_of_isDone (h : walk.isDone = true) : walk = ready [] := by
  unfold isDone at h
  split at h
  · rfl
  · cases h

theorem mem_of_firstError? {members : List Walk} {error : RunError}
    (h : firstError? members = some error) : failed error ∈ members := by
  obtain ⟨m, hm, found⟩ := List.exists_of_findSome?_eq_some h
  exact error?_eq_some found ▸ hm

theorem mem_of_earliestError? {members : List Walk} {error : RunError}
    (h : earliestError? members = some error) : failed error ∈ members := by
  induction members with
  | nil => cases h
  | cons m members ih =>
    rw [earliestError?] at h
    split at h
    · exact List.mem_cons_of_mem _ (ih h)
    · exact error?_eq_some h ▸ List.mem_cons_self

/-! ## polls of groups -/

section
variable {poll : Nat → Walk → World → Polled} {index : Nat} {members : List Walk}

theorem pollEach_done (done : m.isDone = true) :
    pollEach poll index (m :: members) w =
      let round := pollEach poll (index + 1) members w
      { round with members := m :: round.members } := by
  rw [pollEach, if_pos done]

theorem pollEach_failed (busy : m.isDone = false)
    (failed : (poll index m w).walk.error?.isSome = true) :
    pollEach poll index (m :: members) w =
      { world := (poll index m w).world, members := (poll index m w).walk :: members
        woken := (poll index m w).woken } := by
  rw [pollEach, if_neg (Bool.eq_false_iff.mp busy)]
  exact if_pos failed

theorem pollEach_next (busy : m.isDone = false)
    (fine : (poll index m w).walk.error?.isSome = false) :
    pollEach poll index (m :: members) w =
      let round := pollEach poll (index + 1) members (poll index m w).world
      { round with
        members := (poll index m w).walk :: round.members
        woken := (poll index m w).woken || round.woken } := by
  rw [pollEach, if_neg (Bool.eq_false_iff.mp busy)]
  exact if_neg (Bool.eq_false_iff.mp fine)

end

/-- this poll is done in steps -/
def Stepwise (s : Setting) (poll : Nat → Walk → World → Polled) : Prop :=
  ∀ index walk w, Steps s walk w (poll index walk w).walk (poll index walk w).world

variable {poll : Nat → Walk → World → Polled} (stepwise : Stepwise s poll)
include stepwise

/-- the members before `members` have had their turn -/
theorem pollEach_steps (front members : List Walk) (index : Nat) (w : World) :
    let round := pollEach poll index members w
    Steps s (joined (front ++ members) queue rest) w (joined (front ++ round.members) queue rest)
      round.world := by
  induction members generalizing front index w with
  | nil => exact .refl ..
  | cons m members ih =>
    have own : Steps s (joined (front ++ m :: members) queue rest) w
        (joined (front ++ (poll index m w).walk :: members) queue rest) (poll index m w).world :=
      (stepwise index m w).turn front members queue rest
    unfold pollEach
    split
    · have behind := ih (front ++ [m]) (index + 1) w
      simpa only [List.append_assoc, List.cons_append, List.nil_append] using behind
    · dsimp only
      split
      · exact own
      · have behind := ih (front ++ [(poll index m w).walk]) (index + 1) (poll index m w).world
        refine own.trans ?_
        simpa only [List.append_assoc, List.cons_append, List.nil_append] using behind

theorem pollEach_after (queue : Option (List Nat)) (rest : List (Item Branch))
    (front members : List Walk) (index : Nat) (w : World) :
    let round := pollEach poll index members w
    Steps s (joined (front ++ m :: members) queue rest) w
      (joined (front ++ m :: round.members) queue rest) round.world := by
  simpa only [List.append_assoc, List.cons_append, List.nil_append] using
    pollEach_steps stepwise (front ++ [m]) members index w

theorem pollQueued_steps (fuel left yielded : Nat) (round : Round) :
    let after := pollQueued poll fuel left yielded round
    Steps s (joined round.members queue rest) round.world (joined after.members queue rest)
      after.world := by
  induction fuel generalizing left yielded round with
  | zero => exact .refl ..
  | succ fuel ih =>
    unfold pollQueued
    split
    · exact .refl ..
    · next index waiting _ =>
      split
      · exact ih left yielded { round with queue := waiting }
      · next m found =>
        have own : Steps s (joined round.members queue rest) round.world
            (joined (round.members.set index (poll index m round.world).walk) queue rest)
            (poll index m round.world).world := (stepwise index m round.world).member found
        -- whatever is queued, the round stops here or goes on with these members
        dsimp only
        repeat' split
        all_goals first
          | exact own
          | exact own.trans (ih _ _ ⟨_, _, _, _⟩)

theorem pollQueued_after (queue : Option (List Nat)) (rest : List (Item Branch))
    (fuel left yielded : Nat) (round : Round) {index : Nat} {waiting : List Nat}
    (queued : round.queue = index :: waiting) (found : round.members[index]? = some m) :
    let polled := poll index m round.world
    let after := pollQueued poll (fuel + 1) left yielded round
    Steps s (joined (round.members.set index polled.walk) queue rest) polled.world
      (joined after.members queue rest) after.world := by
  have behind (left yielded : Nat) (round : Round) :
      Steps s (joined round.members queue rest) round.world
        (joined (pollQueued poll fuel left yielded round).members queue rest)
        (pollQueued poll fuel left yielded round).world :=
    pollQueued_steps stepwise fuel left yielded round
  rw [pollQueued, queued]
  dsimp only
  rw [found]
  dsimp only
  repeat' split
  all_goals first
    | exact .refl ..
    | exact behind _ _ ⟨_, _, _, _⟩

theorem pollGroup_steps (queue : Option (List Nat)) (rest : List (Item Branch))
    (members : List Walk) (polled : Option (List Nat)) (w : World) :
    let round := (pollGroup poll members polled w).1
    Steps s (joined members queue rest) w (joined round.members queue rest) round.world := by
  cases polled with
  | none => exact pollEach_steps stepwise [] members 0 w
  | some waiting => exact pollQueued_steps stepwise _ _ _ ⟨w, members, waiting, false⟩

omit stepwise in
theorem mem_of_pollGroup (poll : Nat → Walk → World → Polled) (members : List Walk)
    (queue : Option (List Nat)) (w : World) :
    ∀ error, (pollGroup poll members queue w).2 = some error →
      failed error ∈ (pollGroup poll members queue w).1.members := by
  intro error h
  cases queue with
  | none => exact mem_of_firstError? h
  | some waiting => exact mem_of_earliestError? h

end

/-! ## polls -/

section
variable (s : Setting)

theorem pollWith_steps (fuel : Nat) (here : Address) (walk : Walk) (w : World) :
    let polled := pollWith s fuel here walk w
    Steps s walk w polled.walk polled.world := by
  induction fuel generalizing here walk w with
  | zero => exact .refl ..
  | succ fuel ih =>
    cases view s w walk with
    | move h =>
      rw [h.pollWith]
      exact .head (.move h) (ih ..)
    | still h =>
      rw [h.pollWith]
      exact .refl ..
    | suspended h =>
      rw [pollWith_suspended h]
      obtain ⟨waiting, waits⟩ := w.shared.waitAt_eq _ here
      rw [waits]
      exact (Step.suspend waiting h).steps
    | paused h =>
      rw [pollWith_paused h]
      exact (Step.suspend w.shared.waiting h).steps
    | joined members queue rest =>
      have stepwise : Stepwise s (fun index => pollWith s fuel (here ++ [index])) :=
        fun index m w => ih (here ++ [index]) m w
      have reached := pollGroup_steps stepwise queue rest members queue w
      have raised :=
        mem_of_pollGroup (fun index => pollWith s fuel (here ++ [index])) members queue w
      rw [pollWith]
      generalize pollGroup (fun index => pollWith s fuel (here ++ [index])) members queue w = group
        at reached raised ⊢
      obtain ⟨round, error⟩ := group
      cases error with
      | some error => exact reached.trans (Step.raise queue rest _ (raised error rfl)).steps
      | none =>
        dsimp only
        split
        · next all => exact reached.trans (.head (.join queue rest _ (List.all_eq_true.mp all)) (ih ..))
        · exact reached.trans (Step.requeue ..).steps

/-- **A poll is done in steps.** -/
theorem poll_steps (walk : Walk) (w : World) :
    Steps s walk w (poll s walk w).walk (poll s walk w).world :=
  pollWith_steps s (walk.weight + 1) [] walk w

/-- **A wake is done in steps.** -/
theorem wake_steps (address : Address) (walk : Walk) (w : World) :
    Steps s walk w (walk.wake address).1 w := by
  induction address generalizing walk with
  | nil => exact .refl ..
  | cons index address ih =>
    cases walk with
    | ready _ | awaiting _ _ | stalled _ | failed _ => exact .refl ..
    | joined members queue rest =>
      rw [wake]
      split
      · exact .refl ..
      · next m found =>
        have own : Steps s (joined members queue rest) w
            (joined (members.set index (m.wake address).1) queue rest) w := (ih m).member found
        dsimp only
        repeat' split
        all_goals first
          | exact own
          | exact own.trans (Step.requeue ..).steps

end

end Walk

end SignalFlow
