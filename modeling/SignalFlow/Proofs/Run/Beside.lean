import SignalFlow.Proofs.Run.Acts
import SignalFlow.Proofs.Store.Below
/-!
# A walk does the same on stores that are alike

* `Branch.Below`   whatever arguments the branch begins on in a journal, its body keeps below the keys
                   `K` of the root;
* `Walk.Below`     so do all branches that a walk can come to, and the bodies that it waits for;
* `World.Like`     the same state of a run, on stores that are alike below `K`;
* `Together`       a poll does the same in worlds that are alike, and changes nothing but below `K`.

The journal is that of the whole run, which only grows (`Walk.Steps.grows`): what a body is begun on
anywhere in a poll stands in it. `pollWith_together` is by induction on the fuel, and goes through the
polls of the members of a group one by one.
-/

namespace SignalFlow

open Branch Walk

/-! ## journals grow -/

/-- the journal of the one is the beginning of that of the other -/
def World.Grows (w w' : World) : Prop := w.shared.journal <+: w'.shared.journal

section
variable {s : Setting} {b : Branch} {shared : Shared} {walk walk' : Walk} {w w' w'' : World}

theorem World.Grows.trans (h : w.Grows w') (h' : w'.Grows w'') : w.Grows w'' := List.IsPrefix.trans h h'

theorem Setting.Ends.grows {ended : Shared × After} {error? : Option RunError}
    (h : s.Ends b shared ended error?) : shared.journal <+: ended.1.journal := by
  cases h with
  | outcome output payload => exact List.prefix_append ..
  | stall => exact List.prefix_refl _
  | givenUp error => exact List.prefix_append ..

theorem Setting.runSync_grows (step : Args → SyncProgram) :
    w.shared.journal ++ [.began b.id w.shared.args] <+: (s.runSync b step w).1.shared.journal := by
  unfold runSync
  generalize (step w.shared.args).run { store := w.store, writable := true } = ran
  obtain ⟨view, result⟩ := ran
  let logged := (w.shared.begin b).updateSlot b.id fun slot => { slot with mutations := view.log }
  have ends : s.Ends b logged (s.conclude b result logged) _ := conclude_ends result
  exact ends.grows

namespace Walk

theorem start_world (bs : List Branch) (w : World) :
    (start bs w).1 = { w with shared := bs.foldl Shared.begin w.shared } := by
  induction bs generalizing w with
  | nil => rfl
  | cons b bs ih => exact ih { w with shared := w.shared.begin b }

theorem journal_start (bs : List Branch) (w : World) :
    (start bs w).1.shared.journal =
      w.shared.journal ++ bs.map fun b => .began b.id w.shared.args := by
  induction bs generalizing w with
  | nil => exact (List.append_nil _).symm
  | cons b bs ih =>
    have behind := ih { w with shared := w.shared.begin b }
    show (start bs { w with shared := w.shared.begin b }).1.shared.journal = _
    rw [behind, List.map_cons]
    exact List.append_assoc ..

theorem Move.grows (h : Move s walk w walk' w') : w.Grows w' := by
  have begun (bs : List Branch) (w : World) : w.Grows (start bs w).1 := by
    show w.shared.journal <+: (start bs w).1.shared.journal
    rw [journal_start]
    exact List.prefix_append ..
  cases h with
  | sync rest w body => exact (List.prefix_append ..).trans (Setting.runSync_grows _)
  | @lone b step rest w body => exact begun [b] w
  | group bs rest w => exact begun bs w
  | settle ended => exact (Setting.settle_ends _).grows

theorem Step.grows (h : Step s walk w walk' w') : w.Grows w' := by
  induction h with
  | move move => exact move.grows
  | member _ _ _ _ ih => exact ih
  | suspend | requeue | raise | join => exact List.prefix_refl _

theorem Steps.grows (h : Steps s walk w walk' w') : w.Grows w' := by
  induction h with
  | refl => exact List.prefix_refl _
  | head first _ ih => exact first.grows.trans ih

end Walk

end

/-! ## what a walk can come to -/

section
variable (K : String → Prop) (journal : List Event)

/-- whatever the branch begins on in the journal, its body keeps below the keys -/
def Branch.Below (b : Branch) : Prop :=
  ∀ args, .began b.id args ∈ journal → b.action.Below K args

/-- all that a walk can come to keeps below the keys -/
inductive Walk.Below : Walk → Prop
  | ready {items : List (Item Branch)} : (∀ b ∈ allOf items, b.Below K journal) →
      Below (.ready items)
  | awaiting {b : Branch} {program : AsyncProgram} : (∀ c ∈ b.under, c.Below K journal) →
      program.Below K → Below (.awaiting b program)
  | joined {members : List Walk} {rest : List (Item Branch)} (queue : Option (List Nat)) :
      (∀ m ∈ members, Below m) → (∀ b ∈ allOf rest, b.Below K journal) →
      Below (.joined members queue rest)
  | stalled (b : Branch) : Below (.stalled b)
  | failed (error : RunError) : Below (.failed error)

/-- the same state of a run, on stores that are alike -/
structure World.Like (u w : World) : Prop where
  shared : u.shared = w.shared
  store : u.store.Like K w.store

structure Walk.Polled.Like (p q : Polled) : Prop where
  walk : p.walk = q.walk
  woken : p.woken = q.woken
  world : p.world.Like K q.world

structure Walk.Round.Like (p q : Round) : Prop where
  members : p.members = q.members
  queue : p.queue = q.queue
  woken : p.woken = q.woken
  world : p.world.Like K q.world

/-- if the journal has all that is begun, the poll does the same in worlds that are alike, and leaves
the rest of the store as it was -/
def Together (poll : Nat → Walk → World → Polled) : Prop :=
  ∀ index walk u w, walk.Below K journal → World.Like K u w →
    (poll index walk w).world.shared.journal ⊆ journal →
    (poll index walk u).Like K (poll index walk w) ∧
      u.store.Keeps K (poll index walk u).world.store ∧
      (poll index walk w).walk.Below K journal

end

section
variable {K : String → Prop} {journal : List Event} {s : Setting} {walk walk' : Walk}
  {u w w' : World} {b : Branch} {rest : List (Item Branch)}

/-! ## moves -/

theorem Walk.Below.after {after : After} (within : Setting.Within b after)
    (under : ∀ c ∈ b.under, c.Below K journal) (behind : ∀ c ∈ allOf rest, c.Below K journal) :
    (after.walk b rest).Below K journal := by
  cases after with
  | follow items =>
    obtain ⟨output, rfl⟩ := within
    refine .ready fun c hc => ?_
    rw [allOf_append] at hc
    rcases List.mem_append.mp hc with hc | hc
    · exact under c ((allOf_next_sublist b output).subset hc)
    · exact behind c hc
  | stall => exact .stalled b
  | fail error => exact .failed error

theorem start_like (rest : List (Item Branch)) {bs : List Branch}
    (below : ∀ b ∈ bs, ∀ c ∈ all b, c.Below K journal)
    (behind : ∀ b ∈ allOf rest, b.Below K journal) (like : World.Like K u w)
    (listed : (start bs w).1.shared.journal ⊆ journal) :
    joinedOf (start bs u).2 rest = joinedOf (start bs w).2 rest ∧
      (start bs u).1.Like K (start bs w).1 ∧ u.store.Keeps K (start bs u).1.store ∧
      (joinedOf (start bs w).2 rest).Below K journal := by
  obtain ⟨shared, store⟩ := like
  have own (b : Branch) (hb : b ∈ bs) : b.action.Below K w.shared.args := by
    refine below b hb b (mem_all_self b) _ (listed ?_)
    rw [journal_start]
    exact List.mem_append_right _ (List.mem_map_of_mem hb)
  have bodies : (start bs u).2 = (start bs w).2 := by
    rw [start_members, start_members, shared]
    exact List.map_congr_left fun b hb => congrArg (awaiting b) ((own b hb).started_like store).1
  refine ⟨by rw [bodies], ?_, ?_, ?_⟩
  · rw [start_world, start_world, shared]
    exact ⟨rfl, store⟩
  · rw [start_world]
    exact .refl _
  · refine .joined _ (fun m hm => ?_) behind
    rw [start_members] at hm
    obtain ⟨b, hb, rfl⟩ := List.mem_map.mp hm
    refine .awaiting (fun c hc => below b hb c ((under_sublist b).subset hc)) ?_
    exact ((own b hb).started_like ⟨store.right, store.right, fun _ _ => rfl⟩).2

theorem runSync_like {step : Args → SyncProgram} (below : (step w.shared.args).Below K)
    (like : World.Like K u w) :
    (s.runSync b step u).2 = (s.runSync b step w).2 ∧
      (s.runSync b step u).1.Like K (s.runSync b step w).1 ∧
      u.store.Keeps K (s.runSync b step u).1.store := by
  obtain ⟨shared, store⟩ := like
  have views : View.Like K { store := u.store, writable := true }
      { store := w.store, writable := true } := ⟨rfl, rfl, store⟩
  obtain ⟨same, after, keeps⟩ := below.run_like views
  unfold Setting.runSync
  rw [shared]
  generalize (step w.shared.args).run { store := u.store, writable := true } = mine
    at same after keeps ⊢
  generalize (step w.shared.args).run { store := w.store, writable := true } = theirs
    at same after ⊢
  obtain ⟨view, result⟩ := mine
  obtain ⟨view', result'⟩ := theirs
  cases same
  obtain ⟨-, log, store⟩ := after
  dsimp only at log store keeps ⊢
  rw [log]
  exact ⟨rfl, ⟨rfl, store⟩, keeps⟩

theorem Walk.Move.beside (move : Move s walk w walk' w') (below : walk.Below K journal)
    (like : World.Like K u w) (listed : w'.shared.journal ⊆ journal) :
    ∃ u', Move s walk u walk' u' ∧ World.Like K u' w' ∧ u.store.Keeps K u'.store ∧
      walk'.Below K journal := by
  cases move with
  | @sync b step rest w body =>
    cases below with
    | ready below =>
      have inside (c : Branch) (hc : c ∈ all b ++ allOf rest) : c.Below K journal :=
        below c (by rwa [allOf])
      have begun : .began b.id w.shared.args ∈ journal :=
        listed ((Setting.runSync_grows step).subset (List.mem_append_right _ List.mem_cons_self))
      have own := inside b (List.mem_append_left _ (mem_all_self b)) _ begun
      rw [Action.Below, body] at own
      obtain ⟨same, after, keeps⟩ := runSync_like (s := s) (b := b) own like
      refine ⟨_, same ▸ .sync rest u body, after, keeps, ?_⟩
      refine Walk.Below.after (s.within_conclude b _ _) (fun c hc => ?_) fun c hc => ?_
      · exact inside c (List.mem_append_left _ ((under_sublist b).subset hc))
      · exact inside c (List.mem_append_right _ hc)
  | @lone b step rest w body =>
    cases below with
    | ready below =>
      have inside (c : Branch) (hc : c ∈ all b ++ allOf rest) : c.Below K journal :=
        below c (by rwa [allOf])
      obtain ⟨same, after, keeps, behind⟩ := start_like rest
        (List.forall_mem_singleton.mpr fun c hc => inside c (List.mem_append_left _ hc))
        (fun c hc => inside c (List.mem_append_right _ hc)) like listed
      exact ⟨_, same ▸ .lone rest u body, after, keeps, behind⟩
  | group bs rest w =>
    cases below with
    | ready below =>
      have inside (c : Branch) (hc : c ∈ allOfMembers bs ++ allOf rest) : c.Below K journal :=
        below c (by rwa [allOf])
      obtain ⟨same, after, keeps, behind⟩ := start_like rest
        (fun b hb c hc => inside c (List.mem_append_left _ ((all_sublist_allOfMembers hb).subset hc)))
        (fun c hc => inside c (List.mem_append_right _ hc)) like listed
      exact ⟨_, same ▸ .group bs rest u, after, keeps, behind⟩
  | @settle b program result w ended =>
    cases below with
    | awaiting under own =>
      rw [← own.resume_like like.store] at ended
      have move : Move s (.awaiting b program) u _ _ := .settle ended
      rw [like.shared] at move
      refine ⟨_, move, ⟨rfl, like.store⟩, .refl _, ?_⟩
      exact Walk.Below.after (s.within_settle b result w.shared) under fun _ hc =>
        absurd hc List.not_mem_nil

/-! ## polls of groups -/

section
variable {poll : Nat → Walk → World → Polled} (stepwise : Stepwise s poll)
  (together : Together K journal poll)
include stepwise

/-- what the first poll lists stays listed -/
theorem pollEach_first (index : Nat) (m : Walk) (members : List Walk) (w : World)
    (busy : ¬ m.isDone = true) :
    (poll index m w).world.Grows (pollEach poll index (m :: members) w).world := by
  rw [pollEach, if_neg busy]
  dsimp only
  split
  · exact List.prefix_refl _
  · have behind : Steps s (joined members none []) _ (joined _ none []) _ :=
      pollEach_steps stepwise [] members (index + 1) (poll index m w).world
    exact behind.grows

include together

theorem pollEach_together (members : List Walk) (index : Nat)
    (below : ∀ m ∈ members, m.Below K journal) (like : World.Like K u w)
    (listed : (pollEach poll index members w).world.shared.journal ⊆ journal) :
    (pollEach poll index members u).Like K (pollEach poll index members w) ∧
      u.store.Keeps K (pollEach poll index members u).world.store ∧
      ∀ m ∈ (pollEach poll index members w).members, m.Below K journal := by
  induction members generalizing index u w with
  | nil => exact ⟨⟨rfl, rfl, rfl, like⟩, .refl _, below⟩
  | cons m members ih =>
    obtain ⟨own, others⟩ := List.forall_mem_cons.mp below
    by_cases done : m.isDone = true
    · rw [pollEach, if_pos done] at listed ⊢
      rw [pollEach, if_pos done]
      obtain ⟨⟨same, queue, woken, after⟩, keeps, below⟩ := ih (index + 1) others like listed
      exact ⟨⟨congrArg (m :: ·) same, queue, woken, after⟩, keeps,
        List.forall_mem_cons.mpr ⟨own, below⟩⟩
    · have first := pollEach_first stepwise index m members w done
      obtain ⟨polled, keeps, own⟩ := together index m u w own like
        fun _ h => listed (first.subset h)
      rw [pollEach, if_neg done] at listed ⊢
      rw [pollEach, if_neg done]
      generalize poll index m u = p at polled keeps ⊢
      generalize poll index m w = q at polled own listed ⊢
      obtain ⟨u', walk, woken⟩ := p
      obtain ⟨w', walk', woken'⟩ := q
      obtain ⟨rfl, rfl, after⟩ := polled
      dsimp only at after keeps own listed ⊢
      by_cases failed : walk.error?.isSome = true
      · rw [if_pos failed, if_pos failed]
        exact ⟨⟨rfl, rfl, rfl, after⟩, keeps, List.forall_mem_cons.mpr ⟨own, others⟩⟩
      · rw [if_neg failed] at listed ⊢
        rw [if_neg failed]
        obtain ⟨⟨same, queue, woken', after⟩, further, below⟩ := ih (index + 1) others after listed
        exact ⟨⟨congrArg (walk :: ·) same, queue, congrArg (woken || ·) woken', after⟩,
          keeps.trans further, List.forall_mem_cons.mpr ⟨own, below⟩⟩

omit together in
theorem pollQueued_first (fuel left yielded : Nat) (round : Round) {index : Nat}
    {queue : List Nat} {m : Walk} (queued : round.queue = index :: queue)
    (found : round.members[index]? = some m) :
    (poll index m round.world).world.Grows (pollQueued poll (fuel + 1) left yielded round).world := by
  have behind (left yielded : Nat) (round : Round) :
      round.world.Grows (pollQueued poll fuel left yielded round).world := by
    have steps : Steps s (joined round.members none []) _ (joined _ none []) _ :=
      pollQueued_steps stepwise fuel left yielded round
    exact steps.grows
  rw [pollQueued, queued]
  dsimp only
  rw [found]
  dsimp only
  repeat' split
  all_goals first
    | exact List.prefix_refl _
    | exact behind _ _ ⟨_, _, _, _⟩

theorem pollQueued_together (fuel left yielded : Nat) {mine round : Round}
    (like : mine.Like K round) (below : ∀ m ∈ round.members, m.Below K journal)
    (listed : (pollQueued poll fuel left yielded round).world.shared.journal ⊆ journal) :
    (pollQueued poll fuel left yielded mine).Like K (pollQueued poll fuel left yielded round) ∧
      mine.world.store.Keeps K (pollQueued poll fuel left yielded mine).world.store ∧
      ∀ m ∈ (pollQueued poll fuel left yielded round).members, m.Below K journal := by
  induction fuel generalizing left yielded mine round with
  | zero => exact ⟨like, .refl _, below⟩
  | succ fuel ih =>
    obtain ⟨u, members, queue, woken⟩ := mine
    obtain ⟨w, members', queue', woken'⟩ := round
    obtain ⟨rfl, rfl, rfl, worlds⟩ := like
    dsimp only at worlds below
    cases queue with
    | nil => exact ⟨⟨rfl, rfl, rfl, worlds⟩, .refl _, below⟩
    | cons index queue =>
      cases found : members[index]? with
      | none =>
        simp only [pollQueued, found] at listed ⊢
        exact ih left yielded ⟨rfl, rfl, rfl, worlds⟩ below listed
      | some m =>
        have first := pollQueued_first stepwise fuel left yielded
          ⟨w, members, index :: queue, woken⟩ rfl found
        obtain ⟨polled, keeps, own⟩ := together index m u w
          (below m (List.mem_of_getElem? found)) worlds fun _ h => listed (first.subset h)
        have others (walk : Walk) (own : walk.Below K journal) :
            ∀ m ∈ members.set index walk, m.Below K journal := by
          intro n hn
          rcases List.mem_or_eq_of_mem_set hn with hn | rfl
          · exact below n hn
          · exact own
        simp only [pollQueued, found] at listed ⊢
        generalize poll index m u = p at polled keeps ⊢
        generalize poll index m w = q at polled own listed ⊢
        obtain ⟨u', walk, again⟩ := p
        obtain ⟨w', walk', again'⟩ := q
        obtain ⟨rfl, rfl, after⟩ := polled
        dsimp only at after keeps own listed ⊢
        have below := others walk own
        revert listed
        have stop (queue : List Nat) (woken : Bool) :
            Round.Like K ⟨u', members.set index walk, queue, woken⟩
              ⟨w', members.set index walk, queue, woken⟩ := ⟨rfl, rfl, rfl, after⟩
        have go (left yielded : Nat) (queue : List Nat) (woken : Bool)
            (listed : (pollQueued poll fuel left yielded
              ⟨w', members.set index walk, queue, woken⟩).world.shared.journal ⊆ journal) := by
          obtain ⟨like, further, below⟩ := ih left yielded (stop queue woken) below listed
          exact And.intro like (And.intro (keeps.trans further) below)
        repeat' split
        all_goals intro listed
        all_goals first
          | exact ⟨stop _ _, keeps, below⟩
          | exact go _ _ _ _ listed

theorem pollGroup_together {members : List Walk} (queue : Option (List Nat))
    (below : ∀ m ∈ members, m.Below K journal) (like : World.Like K u w)
    (listed : (pollGroup poll members queue w).1.world.shared.journal ⊆ journal) :
    (pollGroup poll members queue u).1.Like K (pollGroup poll members queue w).1 ∧
      (pollGroup poll members queue u).2 = (pollGroup poll members queue w).2 ∧
      u.store.Keeps K (pollGroup poll members queue u).1.world.store ∧
      ∀ m ∈ (pollGroup poll members queue w).1.members, m.Below K journal := by
  cases queue with
  | none =>
    obtain ⟨same, keeps, after⟩ := pollEach_together stepwise together members 0 below like listed
    exact ⟨same, congrArg firstError? same.members, keeps, after⟩
  | some queue =>
    have start : Round.Like K { world := u, members, queue } { world := w, members, queue } :=
      ⟨rfl, rfl, rfl, like⟩
    obtain ⟨same, keeps, after⟩ := pollQueued_together stepwise together
      ((members.length + 1) * (members.length + 1)) (unfinished members) 0 start below listed
    exact ⟨same, congrArg earliestError? same.members, keeps, after⟩

end

/-! ## polls -/

/-- **A poll does the same in worlds that are alike below `K`**, and changes nothing else. -/
theorem pollWith_together (fuel : Nat) (here : Address) (below : walk.Below K journal)
    (like : World.Like K u w)
    (listed : (pollWith s fuel here walk w).world.shared.journal ⊆ journal) :
    (pollWith s fuel here walk u).Like K (pollWith s fuel here walk w) ∧
      u.store.Keeps K (pollWith s fuel here walk u).world.store ∧
      (pollWith s fuel here walk w).walk.Below K journal := by
  induction fuel generalizing here walk u w with
  | zero => exact ⟨⟨rfl, rfl, like⟩, .refl _, below⟩
  | succ fuel ih =>
    cases view s w walk with
    | @move _ walk' w' move =>
      rw [move.pollWith] at listed ⊢
      have grows : w'.Grows (pollWith s fuel here walk' w').world :=
        (pollWith_steps s fuel here walk' w').grows
      obtain ⟨u', mine, after, keeps, below⟩ := move.beside below like fun _ h =>
        listed (grows.subset h)
      rw [mine.pollWith]
      obtain ⟨same, further, below⟩ := ih here below after listed
      exact ⟨same, keeps.trans further, below⟩
    | still still =>
      rw [still.pollWith, still.pollWith]
      exact ⟨⟨rfl, rfl, like⟩, .refl _, below⟩
    | @suspended b program left gate suspended =>
      cases below with
      | awaiting under own =>
        have mine := (own.resume_like like.store).trans suspended
        rw [pollWith_suspended suspended, pollWith_suspended mine, like.shared]
        exact ⟨⟨rfl, rfl, rfl, like.store⟩, .refl _, .awaiting under (own.suspended suspended)⟩
    | @paused b program left suspended =>
      cases below with
      | awaiting under own =>
        have mine := (own.resume_like like.store).trans suspended
        rw [pollWith_paused suspended, pollWith_paused mine]
        exact ⟨⟨rfl, rfl, like⟩, .refl _, .awaiting under (own.suspended suspended)⟩
    | joined members queue rest =>
      cases below with
      | joined _ inside behind =>
        have stepwise : Stepwise s fun index => pollWith s fuel (here ++ [index]) :=
          fun index m w => pollWith_steps s fuel (here ++ [index]) m w
        have together : Together K journal fun index => pollWith s fuel (here ++ [index]) :=
          fun index m u w below like listed => ih (here ++ [index]) below like listed
        have group := pollGroup_together stepwise together queue inside like
        rw [pollWith] at listed ⊢
        rw [pollWith]
        generalize pollGroup (fun index => pollWith s fuel (here ++ [index])) members queue u = mine
          at group ⊢
        generalize pollGroup (fun index => pollWith s fuel (here ++ [index])) members queue w = theirs
          at group listed ⊢
        obtain ⟨⟨u', members', queue', woken⟩, error⟩ := mine
        obtain ⟨⟨w', members'', queue'', woken'⟩, error'⟩ := theirs
        dsimp only at group
        cases error' with
        | some error' =>
          dsimp only at listed ⊢
          obtain ⟨⟨rfl, rfl, rfl, after⟩, rfl, keeps, -⟩ := group listed
          exact ⟨⟨rfl, rfl, after⟩, keeps, .failed error'⟩
        | none =>
          dsimp only at listed ⊢
          by_cases all : members''.all isDone = true
          · rw [if_pos all] at listed ⊢
            have grows : w'.Grows (pollWith s fuel here (ready rest) w').world :=
              (pollWith_steps s fuel here (ready rest) w').grows
            obtain ⟨⟨rfl, rfl, rfl, after⟩, rfl, keeps, -⟩ := group fun _ h =>
              listed (grows.subset h)
            dsimp only at after keeps ⊢
            rw [if_pos all]
            obtain ⟨⟨same, again, last⟩, further, below⟩ := ih here (.ready behind) after listed
            exact ⟨⟨same, congrArg (woken || ·) again, last⟩, keeps.trans further, below⟩
          · rw [if_neg all] at listed ⊢
            obtain ⟨⟨rfl, rfl, rfl, after⟩, rfl, keeps, below⟩ := group listed
            dsimp only at after keeps below ⊢
            rw [if_neg all]
            exact ⟨⟨rfl, rfl, after⟩, keeps, .joined _ below behind⟩

theorem below_wake (below : walk.Below K journal) (address : Address) :
    (walk.wake address).1.Below K journal := by
  induction address generalizing walk with
  | nil => exact below
  | cons index address ih =>
    cases below with
    | ready below => exact .ready below
    | awaiting under own => exact .awaiting under own
    | stalled b => exact .stalled b
    | failed error => exact .failed error
    | @joined members rest queue inside behind =>
      rw [wake]
      split
      · exact .joined queue inside behind
      · next m found =>
        have others : ∀ n ∈ members.set index (m.wake address).1, n.Below K journal := by
          intro n hn
          rcases List.mem_or_eq_of_mem_set hn with hn | rfl
          · exact inside n hn
          · exact ih (inside m (List.mem_of_getElem? found))
        dsimp only
        repeat' split
        all_goals exact .joined _ others behind

end

end SignalFlow
