import SignalFlow.Proofs.Run.Calm
import SignalFlow.Proofs.Run.Effects
import SignalFlow.Proofs.Run.Errors
import SignalFlow.Proofs.Run.Pending
/-!
# Rejection is immediate and final

* `Walk.EndsIn`    a body ends with a result, and leaves this world;
* `Walk.Leaves`    a body is suspended, and this is left of it;
* `Walk.Visited`   whoever is still awaited was suspended on the way from one walk to another;
* `Run.During`     in a poll of a run, a walk of it does something;
* `Run.Prompt`     a run under way stands on a calm walk, and its journal closes with its rejection.

A walk that fails gives up its step (`Walk.Makes.givenUp`), and a walk that writes nothing into the
journal changes nothing else (`Walk.Steps.unchanged`). In a poll of a calm walk the step that is given up
is the last entry of the journal, so nothing comes behind the failure (`Walk.Passes.stops`).

`Run.Reachable.rejected_at_once`: without large groups, a poll in which a body fails rejects the run with
its error and leaves all as the failure left it. A large group waits with the error of a member for all
members before it (`waits_with_error`).
-/

namespace SignalFlow

open Branch Chain Walk

/-! ## failures in the journal -/

section
variable {s : Setting} {b : Branch} {result : StepResult} {error : RunError} {L : Doing}
  {u u' walk walk' leaf : Walk} {x x' y w w' : World}

theorem Walk.Makes.givenUp (made : Makes s b result (.failed error) u x u' x') :
    ∃ front, x.shared.journal <+: front ∧ x'.shared.journal = front ++ [.givenUp b.id] := by
  obtain ⟨finished, left⟩ := made
  cases finished with
  | @run step _ rest body came =>
    have fail := After.eq_fail left
    clear left
    unfold Setting.runSync at fail ⊢
    generalize (step x.shared.args).run { store := x.store, writable := true } = ran at fail ⊢
    obtain ⟨view, own⟩ := ran
    obtain ⟨-, given⟩ := (Setting.conclude_ends own).failed fail
    dsimp only
    rw [given]
    exact ⟨(x.shared.begin b).journal, List.prefix_append .., rfl⟩
  | settle came =>
    obtain ⟨-, given⟩ := (Setting.settle_ends result).failed (After.eq_fail left)
    refine ⟨x.shared.journal, List.prefix_refl _, ?_⟩
    show (s.settle b result x.shared).1.journal = _
    rw [given]
    rfl

theorem Walk.Passes.givenUp
    (passes : Passes s (Makes s b result (.failed error)) walk w walk' w') :
    ∃ front, w.shared.journal <+: front ∧ front ++ [.givenUp b.id] <+: w'.shared.journal := by
  obtain ⟨top, x, top', x', first, inside, last⟩ := passes
  obtain ⟨u, u', made⟩ := inside.done
  obtain ⟨front, before, given⟩ := made.givenUp
  exact ⟨front, List.IsPrefix.trans first.grows before, given ▸ last.grows⟩

/-! ## journals that do not grow -/

theorem Walk.Move.unchanged (move : Move s walk w walk' w')
    (same : w'.shared.journal = w.shared.journal) : w' = w := by
  have begun (bs : List Branch) (w : World)
      (same : (start bs w).1.shared.journal = w.shared.journal) : (start bs w).1 = w := by
    rw [journal_start] at same
    rw [List.map_eq_nil_iff.mp (List.append_right_eq_self.mp same)]
    rfl
  cases move with
  | @sync b step rest _ body =>
    have longer : w.shared.journal ++ [.began b.id w.shared.args] <+: _ :=
      Setting.runSync_grows (s := s) step
    rw [same] at longer
    have short := longer.length_le
    rw [List.length_append, List.length_singleton] at short
    omega
  | @lone b step => exact begun [b] w same
  | group bs => exact begun bs w same
  | @settle b program result =>
    have ends : s.Ends b w.shared (s.settle b result w.shared) _ := Setting.settle_ends result
    generalize s.settle b result w.shared = ended at ends same
    generalize s.memberError? b result = error? at ends
    cases ends with
    | stall => rfl
    | outcome output payload => cases List.append_right_eq_self.mp same
    | givenUp error => cases List.append_right_eq_self.mp same

/-- a walk that writes nothing into the journal changes nothing but who waits -/
theorem Walk.Steps.unchanged (steps : Steps s walk w walk' w')
    (same : w'.shared.journal = w.shared.journal) :
    ∃ waiting, w' = { w with shared := { w.shared with waiting } } := by
  induction steps with
  | refl => exact ⟨_, rfl⟩
  | @head walk walk₁ walk' w w₁ w' first behind ih =>
    -- the journal does not grow in between either
    have back : w₁.shared.journal <+: w.shared.journal := same ▸ behind.grows
    have here : w₁.shared.journal = w.shared.journal :=
      List.IsPrefix.eq_of_length_le back (List.IsPrefix.length_le first.grows)
    obtain ⟨waiting, rfl⟩ := ih (same.trans here.symm)
    rcases first.moved with inside | ⟨waiting', rfl⟩
    · obtain ⟨u, u', move⟩ := inside.done
      rw [move.unchanged here]
      exact ⟨waiting, rfl⟩
    · exact ⟨waiting, rfl⟩

/-! ## the first failure -/

theorem Calm.not_failed (calm : Calm walk) : ¬ (Walk.failed error).In walk := by
  intro has
  induction has with
  | own => cases calm
  | inside queue rest hm _ ih =>
    cases calm with
    | joined each _ => exact ih (each _ hm)

theorem Walk.Inside.made (h : Inside L walk w walk' w') (ended : leaf.Ended) (has : leaf.In walk') :
    leaf.In walk ∨ ∃ u u', L u w u' w' ∧ leaf.In u' := by
  induction h with
  | here own => exact .inr ⟨_, _, own, has⟩
  | member queue rest found _ ih =>
    obtain ⟨n, hn, there⟩ := in_joined ended has
    rcases List.mem_or_eq_of_mem_set hn with old | rfl
    · exact .inl (.inside queue rest old there)
    · exact (ih there).imp_left (.inside queue rest (List.mem_of_getElem? found))

/-- **The first failure is the last thing that a calm walk does**, if its journal closes. -/
theorem Walk.Passes.stops (calm : Calm walk) (closes : Closes w'.shared.journal walk'.error?)
    (passes : Passes s (fun u x u' x' => Makes s b result (.failed error) u x u' x' ∧ x' = y)
      walk w walk' w') :
    walk'.error? = some error ∧
      ∃ waiting, w' = { y with shared := { y.shared with waiting } } := by
  obtain ⟨top, x, top', x', first, inside, last⟩ := passes
  obtain ⟨u, u', made, rfl⟩ := inside.done
  obtain ⟨front, before, given⟩ := made.givenUp
  have grown : front ++ [.givenUp b.id] <+: w'.shared.journal := given ▸ last.grows
  obtain ⟨failed, whole, quiet⟩ := closes.last grown
  have ended (other : RunError) : (Walk.failed other).Ended := trivial
  -- no other step was given up before
  have fine (other : RunError) : ¬ (Walk.failed other).In top := by
    intro has
    rcases first.made (ended other) has with has | ⟨c, _, passes⟩
    · exact calm.not_failed has
    · obtain ⟨front', -, given'⟩ := passes.givenUp
      exact quiet c.id ((given'.trans before).subset
        (List.mem_append_right _ (List.mem_singleton_self _)))
  obtain ⟨other, found⟩ := Option.isSome_iff_exists.mp failed
  have same : other = error := by
    have has : (Walk.failed other).In walk' := error?_eq_some found ▸ .own
    rcases last.made (ended other) has with has | ⟨c, _, passes⟩
    · rcases inside.made (ended other) has with has | ⟨v, v', ⟨⟨-, rfl⟩, -⟩, there⟩
      · exact absurd has (fine other)
      · cases there
        rfl
    · -- nor is one given up behind, since the journal ends here
      obtain ⟨front', before', given'⟩ := passes.givenUp
      have length := before'.length_le
      have short := given'.length_le
      rw [given, ← whole] at length
      rw [List.length_append, List.length_singleton] at short
      omega
  exact ⟨same ▸ found, last.unchanged (whole.trans given.symm)⟩

/-! ## bodies that end, and bodies that are left -/

/-- the body of a branch ends with a result, and leaves this world -/
def Walk.EndsIn (s : Setting) (b : Branch) (result : StepResult) (left : World) : Doing :=
  fun walk w walk' w' => Finishes s b result walk w walk' w' ∧ w' = left

/-- the body of a branch is suspended, and this is left of it -/
def Walk.Leaves (s : Setting) (b : Branch) (program : AsyncProgram) : Doing :=
  fun walk w walk' w' => Suspends s b walk w walk' w' ∧ walk' = awaiting b program

/-- whatever is left of a body was left by it on the way -/
def Walk.Visited (s : Setting) : Doing := fun walk w walk' w' =>
  ∀ b program, Awaits b program walk' → Passes s (Leaves s b program) walk w walk' w'

theorem Walk.Visited.after {walk'' : Walk} {w'' : World} (steps : Steps s walk w walk' w')
    (h : Visited s walk' w' walk'' w'') : Visited s walk w walk'' w'' :=
  fun b program awaits => .after steps (h b program awaits)

theorem pollEach_visited {poll : Nat → Walk → World → Polled} (stepwise : Stepwise s poll)
    {members : List Walk} (queue : Option (List Nat)) (rest : List (Item Branch))
    (visits : ∀ m ∈ members, ∀ index w, (poll index m w).walk.error? = none →
      Visited s m w (poll index m w).walk (poll index m w).world)
    (front : List Walk) (index : Nat) (w : World) :
    let round := pollEach poll index members w
    firstError? round.members = none → ∀ m ∈ round.members, ∀ b program, Awaits b program m →
      Passes s (Leaves s b program) (joined (front ++ members) queue rest) w
        (joined (front ++ round.members) queue rest) round.world := by
  induction members generalizing front index w with
  | nil => exact fun _ _ hm => nomatch hm
  | cons m members ih =>
    obtain ⟨own, others⟩ := List.forall_mem_cons.mp visits
    cases done : m.isDone with
    | true =>
      rw [pollEach_done done]
      intro round fine n hn b program awaits
      rw [firstError?, List.findSome?_cons, eq_of_isDone done] at fine
      rcases List.mem_cons.mp hn with rfl | hn
      · rw [eq_of_isDone done] at awaits
        cases awaits
      · have behind := ih others (front ++ [m]) (index + 1) w fine n hn b program awaits
        simpa only [List.append_assoc, List.cons_append, List.nil_append] using behind
    | false =>
      cases found : (poll index m w).walk.error? with
      | some error =>
        rw [pollEach_failed done (by rw [found]; rfl)]
        intro round fine
        rw [firstError?, List.findSome?_cons, found] at fine
        cases fine
      | none =>
        rw [pollEach_next done (by rw [found]; rfl)]
        intro round fine n hn b program awaits
        rw [firstError?, List.findSome?_cons, found] at fine
        rcases List.mem_cons.mp hn with rfl | hn
        · have passes := (own index w found b program awaits).turn front members queue rest
          exact passes.before (pollEach_after stepwise queue rest front members (index + 1) _)
        · have first := (stepwise index m w).turn front members queue rest
          have behind := ih others (front ++ [(poll index m w).walk]) (index + 1) (poll index m w).world
            fine n hn b program awaits
          refine .after first ?_
          simpa only [List.append_assoc, List.cons_append, List.nil_append] using behind

theorem joined_visited (here : Address) {members : List Walk} {rest : List (Item Branch)}
    (visits : ∀ m ∈ members, ∀ index w, (pollAt s (here ++ [index]) m w).walk.error? = none →
      Visited s m w (pollAt s (here ++ [index]) m w).walk (pollAt s (here ++ [index]) m w).world)
    (behind : ∀ w, (pollAt s here (ready rest) w).walk.error? = none →
      Visited s (ready rest) w (pollAt s here (ready rest) w).walk (pollAt s here (ready rest) w).world)
    (fine : (pollAt s here (joined members none rest) w).walk.error? = none) :
    Visited s (joined members none rest) w (pollAt s here (joined members none rest) w).walk
      (pollAt s here (joined members none rest) w).world := by
  have stepwise : Stepwise s (fun index => pollAt s (here ++ [index])) :=
    fun index m w => pollWith_steps s (m.weight + 1) (here ++ [index]) m w
  have visited := pollEach_visited stepwise none rest visits [] 0 w
  have reached := pollGroup_steps stepwise none rest members none w
  rw [pollAt_joined] at fine ⊢
  rw [pollGroup] at reached fine ⊢
  generalize pollEach (fun index => pollAt s (here ++ [index])) 0 members w = round
    at visited reached fine ⊢
  dsimp only at fine ⊢
  cases found : firstError? round.members with
  | some error =>
    rw [found] at fine
    cases fine
  | none =>
    rw [found] at fine
    dsimp only at fine ⊢
    by_cases finished : round.members.all isDone = true
    · rw [if_pos finished] at fine ⊢
      have join := Step.join (s := s) none rest round.world (List.all_eq_true.mp finished)
      exact .after (reached.trans join.steps) (behind round.world fine)
    · rw [if_neg finished]
      intro b program awaits
      cases awaits with
      | inside _ _ hm awaits => exact visited found _ hm b program awaits

/-- **A poll of a calm walk leaves nobody out**: whatever is left of a body was left by it in this poll. -/
theorem pollAt_visited (here : Address) (calm : Calm walk)
    (fine : (pollAt s here walk w).walk.error? = none) :
    Visited s walk w (pollAt s here walk w).walk (pollAt s here walk w).world := by
  induction size : walk.weight using Nat.strongRecOn generalizing here walk w with
  | ind bound ih =>
    subst size
    cases view s w walk with
    | @move _ walk' w' move =>
      rw [pollAt_move move] at fine ⊢
      cases found : walk'.error? with
      | some error =>
        cases error?_eq_some found
        rw [pollAt_still (.failed error)] at fine
        cases fine
      | none =>
        exact .after (Step.move move).steps (ih _ move.weight_lt here (move.calm calm found) fine rfl)
    | still still =>
      rw [pollAt_still still]
      intro b program awaits
      cases still <;> cases awaits
    | @suspended b program left gate found =>
      rw [pollAt_suspended found]
      rintro _ _ ⟨⟩
      exact .of_inside (.here ⟨suspends_waitAt found here, rfl⟩) (.refl ..)
    | @paused b program left found =>
      rw [pollAt_paused found]
      rintro _ _ ⟨⟩
      exact .of_inside (.here ⟨.mk _ found, rfl⟩) (.refl ..)
    | joined members queue rest =>
      cases calm with
      | joined calm slim =>
        refine joined_visited here (fun m hm index w fine => ?_) (fun w fine => ?_) fine
        · have light := weight_le_weights hm
          exact ih _ (by simp only [Walk.weight]; omega) _ (calm m hm) fine rfl
        · exact ih _ (by simp only [Walk.weight]; omega) here (.ready slim) fine rfl

end

/-! ## runs -/

namespace Run

/-- in this poll of a run, a walk of it does this -/
def During (run : Run) (isOpen : String → Bool) (elapsed : Nat) (store : Store)
    (L : Setting → Doing) : Prop :=
  let s := run.setting isOpen elapsed
  let polled := run.walk.poll s ⟨store, run.shared⟩
  Passes s (L s) run.walk ⟨store, run.shared⟩ polled.walk polled.world

/-- a run under way stands on a calm walk, and its journal closes with its rejection -/
structure Prompt (run : Run) : Prop where
  calm : run.settled = none → Calm run.walk
  closes : Closes run.shared.journal run.rejection?

section
variable {name : String} {policy : Policy} {definition : List Chain} {signal : Signal}
  {run : Run} {isOpen : String → Bool} {elapsed : Nat} {store : Store} {L : Setting → Doing}

theorem During.stands (created : Signal.create name policy definition = .ok signal)
    (reachable : Reachable signal run) (pending : run.settled = none)
    (h : run.During isOpen elapsed store L) :
    run.During isOpen elapsed store fun s u x u' x' => L s u x u' x' ∧
      Stands (allOf signal.tree.branches) x.shared.slot u ∧
      x.shared.slots.length = signal.tree.size := by
  obtain ⟨top, x, top', x', first, inside, last⟩ := h
  obtain ⟨track, -⟩ :=
    (reachable.onTrack created pending store).steps (Signal.numbered created) first
  exact ⟨top, x, top', x', first, inside.imp (fun stands hm => stands.member hm)
    (fun _ _ stands own => ⟨own, stands, track.length⟩) track.stands, last⟩

theorem Prompt.poll (prompt : Prompt run) (pending : run.settled = none) (isOpen : String → Bool)
    (elapsed : Nat) (store : Store) :
    let polled := run.walk.poll (run.setting isOpen elapsed) ⟨store, run.shared⟩
    Calmly polled.walk polled.world := by
  have quiet := prompt.closes
  rw [Run.rejection?, pending] at quiet
  exact pollWith_calmly (run.walk.weight + 1) [] (prompt.calm pending) quiet

theorem Reachable.prompt (created : Signal.create name policy definition = .ok signal)
    (small : ∀ group ∈ groups definition, groupSize group ≤ smallGroup)
    (reachable : Reachable signal run) : Prompt run := by
  induction reachable with
  | start started =>
    obtain ⟨accepted, compiled⟩ := Signal.create_eq created
    have slim := slim_compileItems (wellFormed_of_analyze accepted) small
    obtain ⟨args, -, rfl⟩ := Signal.start_eq started
    rw [compiled]
    exact ⟨fun _ => .ready slim, fun _ => List.not_mem_nil⟩
  | @poll run isOpen elapsed store _ prompt =>
    cases settled : run.settled with
    | some _ =>
      rw [Run.poll, settled]
      exact prompt
    | none =>
      obtain ⟨closes, calm⟩ := prompt.poll settled isOpen elapsed store
      have becomes := (poll_becomes settled isOpen elapsed store).2
      rw [← becomes.rejection? settled, ← becomes.like.journal] at closes
      refine ⟨fun open' => ?_, closes⟩
      generalize (run.poll isOpen elapsed store).1 = after at becomes open'
      cases becomes with
      | rejected | completed => cases open'
      | pending fine _ => exact calm fine
  | wake address _ prompt => exact ⟨fun open' => calm_wake (prompt.calm open') address, prompt.closes⟩
  | gateOpened gate _ prompt =>
    refine gateOpened_keeps gate (fun waiting => ⟨prompt.calm, prompt.closes⟩) ?_
    exact fun run address prompt =>
      ⟨fun open' => calm_wake (prompt.calm open') address, prompt.closes⟩

theorem Prompt.visited (prompt : Prompt run) (pending : run.settled = none)
    (open' : (run.poll isOpen elapsed store).1.settled = none) (b : Branch) (program : AsyncProgram)
    (awaits : Awaits b program (run.poll isOpen elapsed store).1.walk) :
    run.During isOpen elapsed store fun s => Leaves s b program := by
  have becomes := (poll_becomes pending isOpen elapsed store).2
  have visited := pollAt_visited (s := run.setting isOpen elapsed) (w := ⟨store, run.shared⟩) []
    (prompt.calm pending)
  generalize (run.poll isOpen elapsed store).1 = after at becomes open' awaits
  cases becomes with
  | rejected | completed => cases open'
  | pending fine _ => exact visited fine b program awaits

variable {b : Branch} {result : StepResult} {error : RunError} {left : World}

theorem During.rejected (created : Signal.create name policy definition = .ok signal)
    (reachable : Reachable signal run) (prompt : Prompt run) (pending : run.settled = none)
    (blames : signal.Blames b result error)
    (h : run.During isOpen elapsed store fun s => EndsIn s b result left) :
    let after := run.poll isOpen elapsed store
    after.1.settled = some (.rejected error) ∧ after.2 = left.store ∧
      left.shared.Like after.1.shared := by
  have setting := (reachable.sound created).setting isOpen elapsed
  obtain ⟨top, x, top', x', first, inside, last⟩ := h.stands created reachable pending
  obtain ⟨stored, becomes⟩ := poll_becomes pending isOpen elapsed store
  have made := inside.mono (M := fun u x u' x' => Makes _ b result (.failed error) u x u' x' ∧ x' = left)
    fun u u' ⟨⟨ended, same⟩, stands, _⟩ =>
      ⟨ended.makes stands blames (congrArg Setting.signal setting) (congrArg Setting.policy setting), same⟩
  obtain ⟨found, waiting, same⟩ :=
    Passes.stops (prompt.calm pending) (prompt.poll pending isOpen elapsed store).closes
      ⟨top, x, top', x', first, made, last⟩
  have like := becomes.like
  rw [← becomes.rejection? pending] at found
  rw [same] at stored like
  exact ⟨settled_of_rejection? found, stored, like.args, like.journal, like.length, like.slot⟩

theorem Reachable.rejected_during (created : Signal.create name policy definition = .ok signal)
    (reachable : Reachable signal run) (prompt : Prompt run) (pending : run.settled = none)
    (rejected : (run.poll isOpen elapsed store).1.settled = some (.rejected error)) :
    ∃ b ∈ signal.tree.specs, ∃ result left, signal.Blames b result error ∧
      run.During isOpen elapsed store fun s => EndsIn s b result left := by
  have setting := (reachable.sound created).setting isOpen elapsed
  have numbered := Signal.numbered created
  have found : (run.poll isOpen elapsed store).1.rejection? = some error := by
    rw [Run.rejection?, rejected]
  rw [(poll_becomes pending isOpen elapsed store).2.rejection? pending] at found
  have ended : (Walk.failed error).Ended := trivial
  rcases (poll_steps (run.setting isOpen elapsed) run.walk ⟨store, run.shared⟩).made ended
      (error?_eq_some found ▸ .own) with has | ⟨b, result, passes⟩
  · exact absurd has (prompt.calm pending).not_failed
  · have during : run.During isOpen elapsed store fun s => Makes s b result (.failed error) := passes
    obtain ⟨top, x, top', x', first, inside, last⟩ := during.stands created reachable pending
    obtain ⟨u, u', made, stands, length⟩ := inside.done
    obtain ⟨hb, blames, -⟩ := made.blames stands (fun b hb => length ▸ numbered.inside b hb)
      (congrArg Setting.signal setting) (congrArg Setting.policy setting)
    obtain ⟨accepted, rfl⟩ := Signal.create_eq created
    exact ⟨b, Tree.specs_compile accepted ▸ hb, result, x', blames, top, x, top', x', first,
      inside.mono fun _ _ own => ⟨own.1.1, rfl⟩, last⟩

end

/-- **Rejection is immediate and final** where no group is large. If a body ends in a poll of a run under
way, at any depth in the walk, with a result that an error blames, then this poll rejects the run with the
error, and leaves the store, the arguments and the journal as that body left them. A poll rejects the run
for such a body only, and if it leaves the run under way, every body that is still awaited was suspended
in it. A step that was given up stands last in the journal of a run that was rejected, and no other step
was given up. A settled run stays as it is, whatever polls, wakes and gates come after, and writes to no
store. -/
theorem Reachable.rejected_at_once {name : String} {policy : Policy} {definition : List Chain}
    {signal : Signal} {run : Run} (created : Signal.create name policy definition = .ok signal)
    (small : ∀ group ∈ groups definition, groupSize group ≤ smallGroup)
    (reachable : Reachable signal run) :
    (run.settled = none → ∀ isOpen elapsed store,
      let after := run.poll isOpen elapsed store
      (∀ b result error left, signal.Blames b result error →
        run.During isOpen elapsed store (fun s => EndsIn s b result left) →
        after.1.settled = some (.rejected error) ∧ after.2 = left.store ∧
          left.shared.Like after.1.shared) ∧
      (∀ error, after.1.settled = some (.rejected error) →
        ∃ b ∈ signal.tree.specs, ∃ result left, signal.Blames b result error ∧
          run.During isOpen elapsed store fun s => EndsIn s b result left) ∧
      (after.1.settled = none → ∀ b program, Awaits b program after.1.walk →
        run.During isOpen elapsed store fun s => Leaves s b program)) ∧
    (∀ id, .givenUp id ∈ run.shared.journal →
      (∃ error, run.settled = some (.rejected error)) ∧
        ∃ front, run.shared.journal = front ++ [.givenUp id] ∧ ∀ other, .givenUp other ∉ front) ∧
    (run.settled.isSome = true → ∀ after, Later run after →
      Fixed run after ∧ ∀ isOpen elapsed store, (after.poll isOpen elapsed store).2 = store) := by
  have prompt := reachable.prompt created small
  refine ⟨fun pending isOpen elapsed store => ⟨fun b result error left blames during => ?_,
    fun error rejected => ?_, fun open' => ?_⟩, fun id given => ?_, fun settled after later => ?_⟩
  · exact during.rejected created reachable prompt pending blames
  · exact reachable.rejected_during created prompt pending rejected
  · exact prompt.visited pending open'
  · have closes := prompt.closes
    unfold Run.rejection? at closes
    split at closes
    · next error rejected =>
      obtain ⟨front, last, journal, quiet⟩ := closes
      rw [journal, List.mem_append, List.mem_singleton] at given
      have own := given.resolve_left (quiet id)
      cases own
      exact ⟨⟨error, rejected⟩, front, journal, quiet⟩
    · exact absurd given (closes id)
    · exact absurd given (closes id)
  · have fixed := later.fixed settled
    refine ⟨fixed, fun isOpen elapsed store => ?_⟩
    rw [atRest_of_settled (fixed.settled ▸ settled)]

/-- a member of a group under an output of a member of a group fails, with a sibling waiting in each -/
theorem rejected_at_once_nested :
    let ask : Action := ⟨0, "ask", [], none, .async fun _ => .wait "window" (.finish (.ok .next))⟩
    let load : Action := ⟨1, "load", [], none, .sync fun _ => .finish (.ok (.via "found" .null))⟩
    let send : Action := ⟨2, "send", [], none, .async fun _ => .wait "door" (.finish (.error "full"))⟩
    let definition := [Chain.parallel [.action load,
      .paths [("found", [.parallel [.action send, .action ask], .action load])], .action ask],
      .action load]
    let isOpen := fun gate => gate == "door"
    let error := RunError.asyncStepFailed ⟨"page", "send",
      [.index 0, .index 0, .key "outputs", .key "found", .index 0, .index 0]⟩ "full"
    ∃ signal run, Signal.create "page" .stall definition = .ok signal ∧
      (∀ group ∈ groups definition, groupSize group ≤ smallGroup) ∧ Reachable signal run ∧
      run.settled = none ∧
      let after := run.poll isOpen 0 default
      after.1.settled = some (.rejected error) ∧
      (∃ b ∈ signal.tree.specs, ∃ result left, signal.Blames b result error ∧
        run.During isOpen 0 default (fun s => EndsIn s b result left) ∧
        after.2 = left.store ∧ left.shared.Like after.1.shared) ∧
      (∃ front, after.1.shared.journal = front ++ [.givenUp 1] ∧ ∀ other, .givenUp other ∉ front) ∧
      ∀ final, Later after.1 final → Fixed after.1 final := by
  intro ask load send definition isOpen error
  let signal : Signal := ⟨"page", Tree.compile definition, .stall⟩
  let first : Run := { id := "r", signal, startedAt := default
                       shared := .initial [] signal.tree.size, walk := .ready signal.tree.branches }
  let run : Run := (first.poll (fun _ => false) 0 default).1
  have created : Signal.create "page" .stall definition = .ok signal := rfl
  have started : signal.start "r" default (.data .null) = .ok first := rfl
  have reachable : Reachable signal run := (Reachable.start started).poll ..
  have small : ∀ group ∈ groups definition, groupSize group ≤ smallGroup := by
    simp [definition, groups, groupsOf, groupsUnder, groupSize, isAction, smallGroup,
      List.countP_cons]
  have pending : run.settled = none := Option.isNone_iff_eq_none.mp (by decide +kernel)
  have rejected : (run.poll isOpen 0 default).1.settled = some (.rejected error) :=
    settled_of_rejection? (by decide +kernel)
  have given : .givenUp 1 ∈ (run.poll isOpen 0 default).1.shared.journal :=
    mem_of_givenUp? (show ((run.poll isOpen 0 default).1.shared.journal[5]?.bind Event.givenUp?) = some 1
      by decide +kernel)
  obtain ⟨immediate, -, -⟩ := reachable.rejected_at_once created small
  obtain ⟨rejects, blamed, -⟩ := immediate pending isOpen 0 default
  obtain ⟨b, hb, result, left, blames, during⟩ := blamed error rejected
  obtain ⟨-, stored, like⟩ := rejects b result error left blames during
  obtain ⟨-, closed, final⟩ := (reachable.poll isOpen 0 default).rejected_at_once created small
  have settled : (run.poll isOpen 0 default).1.settled.isSome = true := by rw [rejected]; rfl
  exact ⟨signal, run, created, small, reachable, pending, rejected,
    ⟨b, hb, result, left, blames, during, stored, like⟩, (closed 1 given).2,
    fun after later => (final settled after later).1⟩

/-- a group of 31: the second member has failed and the first one waits, so the run is not rejected, and
the last member goes on to a step that writes to the store -/
theorem waits_with_error :
    let ask : Action := ⟨0, "ask", [], none, .async fun _ => .wait "door" (.finish (.ok .next))⟩
    let send : Action := ⟨1, "send", [], none, .async fun _ => .finish (.error "full")⟩
    let idle : Action := ⟨2, "idle", [], none, .async fun _ => .finish (.ok .next)⟩
    let load : Action := ⟨3, "load", [], none, .async fun _ => .finish (.ok (.via "found" .null))⟩
    let save : Action := ⟨4, "save", [], none, .sync fun _ =>
      .call ["saved"] (.set .null) fun _ => .finish (.ok .next)⟩
    let definition := [Chain.parallel ([.action ask, .action send] ++
      List.replicate 28 (.action idle) ++ [.action load, .paths [("found", [.action save])]])]
    ∃ signal run, Signal.create "page" .reject definition = .ok signal ∧
      signal.start "r" default (.data .null) = .ok run ∧
      let after := run.poll (fun _ => false) 0 default
      after.1.settled.isNone = true ∧
      after.1.shared.journal[31]?.bind Event.givenUp? = some 1 ∧
      after.1.shared.journal[61]?.bind Event.begun? = some 31 ∧
      (default : Store).contains ["saved"] = false ∧ after.2.contains ["saved"] = true := by
  intro ask send idle load save definition
  let signal : Signal := ⟨"page", Tree.compile definition, .reject⟩
  have created : Signal.create "page" .reject definition = .ok signal := rfl
  have started : signal.start "r" default (.data .null) = .ok _ := rfl
  exact ⟨signal, _, created, started, by decide +kernel, by decide +kernel, by decide +kernel,
    by decide +kernel, by decide +kernel⟩

end Run

end SignalFlow
