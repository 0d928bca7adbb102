import SignalFlow.Proofs.Run.LifeCycle
import SignalFlow.Proofs.Run.Throughout
/-!
# Moments of a run

* `Walk.In`        a walk is another one, or a member of it at any depth;
* `Walk.Inside`    what one walk can do is done by a walk, or by a member of it at any depth;
* `Walk.Finishes`  the body of a branch ends with a result, and the walk goes on;
* `Walk.Passes`    it was done on the way from one walk to another;
* `Run.Past`       it was done in some poll in the past of a run;
* `Run.Since`      it was done in some poll since a run was another one;
* `Walk.Stands`    what is known of a walk, at any depth, at such a moment.

A walk that is stalled or has failed was left so by a body that ended (`Run.Reachable.made`), and so was
a run that was rejected (`Run.Reachable.rejected_made`). What is known at a moment of the past leads to
the run as it is by a row of changes (`Run.Past.moment`).
-/

namespace SignalFlow

open Branch Walk Relation

namespace Walk

/-- what a walk can do, in a world -/
abbrev Doing := Walk → World → Walk → World → Prop

/-- the one walk is the other, or a member of it at any depth -/
inductive In (leaf : Walk) : Walk → Prop
  | own : In leaf leaf
  | inside {members : List Walk} {m : Walk} (queue : Option (List Nat))
      (rest : List (Item Branch)) :
      m ∈ members → In leaf m → In leaf (joined members queue rest)

/-- a walk does it, or a member of it at any depth -/
inductive Inside (L : Doing) : Doing
  | here {walk walk' : Walk} {w w' : World} : L walk w walk' w' → Inside L walk w walk' w'
  | member {members : List Walk} {index : Nat} {m m' : Walk} {w w' : World}
      (queue : Option (List Nat)) (rest : List (Item Branch)) :
      members[index]? = some m → Inside L m w m' w' →
      Inside L (joined members queue rest) w (joined (members.set index m') queue rest) w'

/-- the body of a branch ends with a result -/
inductive Finishes (s : Setting) (b : Branch) (result : StepResult) : Doing
  | run {step : Args → SyncProgram} {w : World} (rest : List (Item Branch)) :
      b.action.body = .sync step →
      ((step w.shared.args).run { store := w.store, writable := true }).2 = result →
      Finishes s b result (ready (.step b :: rest)) w ((s.runSync b step w).2.walk b rest)
        (s.runSync b step w).1
  | settle {program : AsyncProgram} {w : World} :
      program.resume s.isOpen w.store = .finished result →
      Finishes s b result (awaiting b program) w ((s.settle b result w.shared).2.walk b [])
        { w with shared := (s.settle b result w.shared).1 }

/-- the body of a branch ends, and this walk is left -/
def Makes (s : Setting) (b : Branch) (result : StepResult) (left : Walk) : Doing :=
  fun walk w walk' w' => Finishes s b result walk w walk' w' ∧ walk' = left

/-- it is done on the way from one walk to the other -/
def Passes (s : Setting) (L : Doing) : Doing := fun walk w walk' w' =>
  ∃ u x u' x', Steps s walk w u x ∧ Inside L u x u' x' ∧ Steps s u' x' walk' w'

/-- a walk that nothing becomes of -/
def Ended : Walk → Prop
  | stalled _ | failed _ => True
  | ready _ | awaiting _ _ | joined _ _ _ => False

section
variable {s : Setting} {L : Doing} {walk walk' leaf : Walk} {w w' : World}
  {members : List Walk} {queue : Option (List Nat)} {rest : List (Item Branch)} {b : Branch}

theorem Finishes.move {result : StepResult} (h : Finishes s b result walk w walk' w') :
    Move s walk w walk' w' := by
  cases h with
  | run rest body _ => exact .sync rest _ body
  | settle ended => exact .settle ended

theorem Inside.step (each : ∀ u x u' x', L u x u' x' → Step s u x u' x')
    (h : Inside L walk w walk' w') : Step s walk w walk' w' := by
  induction h with
  | here own => exact each _ _ _ _ own
  | member queue rest found _ ih => exact .member queue rest found ih

/-- what is done may be said in other words, knowing what holds of the members on the way down -/
theorem Inside.imp {M : Doing} {Φ : Walk → Prop}
    (down : ∀ {members queue rest m}, Φ (joined members queue rest) → m ∈ members → Φ m)
    (each : ∀ u u', Φ u → L u w u' w' → M u w u' w') (h : Inside L walk w walk' w') (top : Φ walk) :
    Inside M walk w walk' w' := by
  induction h with
  | here own => exact .here (each _ _ top own)
  | member queue rest found _ ih =>
    exact .member queue rest found (ih each (down top (List.mem_of_getElem? found)))

/-- whatever else is done there is done inside too -/
theorem Inside.place (h : Inside L walk w walk' w') : ∃ u x u' x', L u x u' x' ∧
    ∀ M : Doing, M u x u' x' → Inside M walk w walk' w' := by
  induction h with
  | here own => exact ⟨_, _, _, _, own, fun _ => .here⟩
  | member queue rest found _ ih =>
    obtain ⟨u, x, u', x', own, put⟩ := ih
    exact ⟨u, x, u', x', own, fun M other => .member queue rest found (put M other)⟩

theorem Passes.of_inside (h : Inside L walk w walk' w')
    {walk'' : Walk} {w'' : World} (behind : Steps s walk' w' walk'' w'') :
    Passes s L walk w walk'' w'' := ⟨walk, w, walk', w', .refl .., h, behind⟩

theorem Passes.after {walk'' : Walk} {w'' : World} (steps : Steps s walk w walk' w')
    (h : Passes s L walk' w' walk'' w'') : Passes s L walk w walk'' w'' := by
  obtain ⟨u, x, u', x', first, inside, last⟩ := h
  exact ⟨u, x, u', x', steps.trans first, inside, last⟩

theorem Passes.before {walk'' : Walk} {w'' : World} (h : Passes s L walk w walk' w')
    (steps : Steps s walk' w' walk'' w'') : Passes s L walk w walk'' w'' := by
  obtain ⟨u, x, u', x', first, inside, last⟩ := h
  exact ⟨u, x, u', x', first, inside, last.trans steps⟩

theorem Passes.member {index : Nat} {m m' : Walk} (found : members[index]? = some m)
    (h : Passes s L m w m' w') :
    Passes s L (joined members queue rest) w (joined (members.set index m') queue rest) w' := by
  obtain ⟨u, x, u', x', first, inside, last⟩ := h
  have there : index < members.length := (List.getElem?_eq_some_iff.mp found).1
  have within := Inside.member queue rest (List.getElem?_set_self there) inside
  have behind : Steps s (joined ((members.set index u).set index u') queue rest) x'
      (joined (((members.set index u).set index u').set index m') queue rest) w' :=
    last.member (List.getElem?_set_self (by rwa [List.length_set]))
  simp only [List.set_set] at within behind
  exact ⟨_, x, _, x', first.member found, within, behind⟩

theorem Passes.turn {m m' : Walk} (h : Passes s L m w m' w') (front members : List Walk)
    (queue : Option (List Nat)) (rest : List (Item Branch)) :
    Passes s L (joined (front ++ m :: members) queue rest) w
      (joined (front ++ m' :: members) queue rest) w' := by
  obtain ⟨u, x, u', x', first, inside, last⟩ := h
  have there : (front ++ u :: members)[front.length]? = some u := by simp
  have within := Inside.member queue rest there inside
  rw [List.set_append_right _ _ (Nat.le_refl _), Nat.sub_self, List.set_cons_zero] at within
  exact ⟨_, x, _, x', first.turn front members queue rest, within, last.turn front members queue rest⟩

/-- what holds of a walk, and of the members of whatever it holds of, holds of the one that does it -/
theorem Inside.doer {Φ : Walk → Prop}
    (down : ∀ {members queue rest m}, Φ (joined members queue rest) → m ∈ members → Φ m)
    (h : Inside L walk w walk' w') (top : Φ walk) : ∃ u u', L u w u' w' ∧ Φ u := by
  induction h with
  | here own => exact ⟨_, _, own, top⟩
  | member queue rest found _ ih => exact ih (down top (List.mem_of_getElem? found))

theorem Inside.done (h : Inside L walk w walk' w') : ∃ u u', L u w u' w' := by
  induction h with
  | here own => exact ⟨_, _, own⟩
  | member _ _ _ _ ih => exact ih

theorem Inside.mono {M : Doing} (each : ∀ u u', L u w u' w' → M u w u' w')
    (h : Inside L walk w walk' w') : Inside M walk w walk' w' := by
  induction h with
  | here own => exact .here (each _ _ own)
  | member queue rest found _ ih => exact .member queue rest found (ih each)

/-! ## what leaves a walk stalled or failed -/

theorem in_joined (ended : leaf.Ended) (has : leaf.In (joined members queue rest)) :
    ∃ m ∈ members, leaf.In m := by
  cases has with
  | own => exact ended.elim
  | inside _ _ hm has => exact ⟨_, hm, has⟩

theorem Move.made (move : Move s walk w walk' w') (ended : leaf.Ended) (has : leaf.In walk') :
    ∃ b result, Makes s b result leaf walk w walk' w' := by
  have after {b : Branch} {rest : List (Item Branch)} {after : After}
      (has : leaf.In (after.walk b rest)) : after.walk b rest = leaf := by
    cases after with
    | follow items =>
      cases has with
      | own => exact ended.elim
    | stall | fail _ =>
      cases has with
      | own => rfl
  have start (bs : List Branch) (rest : List (Item Branch)) (w : World)
      (has : leaf.In (joinedOf (start bs w).2 rest)) : False := by
    obtain ⟨m, hm, has⟩ := in_joined ended has
    rw [start_members] at hm
    obtain ⟨c, _, rfl⟩ := List.mem_map.mp hm
    cases has with
    | own => exact ended
  cases move with
  | @sync b step rest w body => exact ⟨b, _, .run rest body rfl, after has⟩
  | @lone b step rest w body => exact (start [b] rest w has).elim
  | group bs rest w => exact (start bs rest w has).elim
  | @settle b program result w finished => exact ⟨b, result, .settle finished, after has⟩

theorem Step.made (step : Step s walk w walk' w') (ended : leaf.Ended) (has : leaf.In walk') :
    leaf.In walk ∨ ∃ b result, Inside (Makes s b result leaf) walk w walk' w' := by
  induction step with
  | move move =>
    obtain ⟨b, result, made⟩ := move.made ended has
    exact .inr ⟨b, result, .here made⟩
  | suspend =>
    cases has with
    | own => exact ended.elim
  | @member members i m m' _ _ queue rest found _ ih =>
    obtain ⟨n, hn, there⟩ := in_joined ended has
    rcases List.mem_or_eq_of_mem_set hn with old | rfl
    · exact .inl (.inside queue rest old there)
    · rcases ih there with before | ⟨b, result, made⟩
      · exact .inl (.inside queue rest (List.mem_of_getElem? found) before)
      · exact .inr ⟨b, result, .member queue rest found made⟩
  | requeue members queue queue' rest =>
    obtain ⟨m, hm, has⟩ := in_joined ended has
    exact .inl (.inside queue rest hm has)
  | raise queue rest _ raised =>
    cases has with
    | own => exact .inl (.inside queue rest raised .own)
  | join =>
    cases has with
    | own => exact ended.elim

theorem Steps.made (steps : Steps s walk w walk' w') (ended : leaf.Ended) (has : leaf.In walk') :
    leaf.In walk ∨ ∃ b result, Passes s (Makes s b result leaf) walk w walk' w' := by
  induction steps with
  | refl => exact .inl has
  | head first behind ih =>
    rcases ih has with has | ⟨b, result, u, x, u', x', before, made, after⟩
    · rcases first.made ended has with has | ⟨b, result, made⟩
      · exact .inl has
      · exact .inr ⟨b, result, _, _, _, _, .refl .., made, behind⟩
    · exact .inr ⟨b, result, u, x, u', x', .head first before, made, after⟩

theorem in_wake (ended : leaf.Ended) (address : Address) (has : leaf.In (walk.wake address).1) :
    leaf.In walk := by
  induction address generalizing walk with
  | nil => exact has
  | cons index address ih =>
    cases walk with
    | ready _ | awaiting _ _ | stalled _ | failed _ => exact has
    | joined members queue rest =>
      rw [wake] at has
      split at has
      · exact has
      · next m found =>
        have among {queue' : Option (List Nat)}
            (has : leaf.In (joined (members.set index (m.wake address).1) queue' rest)) :
            leaf.In (joined members queue rest) := by
          obtain ⟨n, hn, has⟩ := in_joined ended has
          rcases List.mem_or_eq_of_mem_set hn with old | rfl
          · exact .inside queue rest old has
          · exact .inside queue rest (List.mem_of_getElem? found) (ih has)
        dsimp only at has
        repeat' split at has
        all_goals exact among has

/-! ## what is known of a walk that does something -/

/-- the walk stands where the slots say, is marked, and waits for what is left of the bodies of its
branches -/
structure Stands (bs : List Branch) (slot : Nat → Slot) (walk : Walk) : Prop where
  trail : ∃ scope, Trail slot scope walk ∧ scope.branches ⊆ bs
  marked : walk.Throughout (Item.Marked false) Branch.Concurrent
  watched : walk.Watched Attended slot

variable {bs : List Branch} {slot : Nat → Slot} {item : Item Branch}

theorem Stands.list (h : Stands bs slot (joined members queue rest)) :
    ∃ items, Trail slot (.list items) (joined members queue rest) ∧ allOf items ⊆ bs := by
  obtain ⟨scope, trail, sub⟩ := h.trail
  cases scope with
  | list items => exact ⟨items, trail, sub⟩
  | member b =>
    cases trail with
    | entered entered trail =>
      exact ⟨_, trail, List.Subset.trans ((taken_sublist slot b).trans (under_sublist b)).subset sub⟩

theorem Stands.member {m : Walk} (h : Stands bs slot (joined members queue rest))
    (hm : m ∈ members) : Stands bs slot m := by
  refine ⟨?_, ?_, fun b program awaits => h.watched b program (.inside queue rest hm awaits)⟩
  · obtain ⟨items, trail, sub⟩ := h.list
    cases trail with
    | @joined _ item _ _ _ reaches fresh length each =>
      obtain ⟨i, found⟩ := List.mem_iff_getElem?.mp hm
      have inside : i < item.members.length := length ▸ (List.getElem?_eq_some_iff.mp found).1
      have member := List.getElem?_eq_getElem inside
      have left := reaches.sublist
      rw [allOf_cons] at left
      have own := (all_sublist_allOfMembers (List.mem_of_getElem? member)).trans
        ((List.sublist_append_left ..).trans left)
      exact ⟨.member item.members[i], each i _ m member found,
        List.Subset.trans own.subset sub⟩
  · cases h.marked with
    | joined _ inside _ => exact inside m hm

theorem Stands.next (h : Stands bs slot (ready (item :: rest))) :
    item.members ⊆ bs ∧ Fresh slot item.members := by
  obtain ⟨scope, trail, sub⟩ := h.trail
  cases scope with
  | list items =>
    obtain ⟨own, fresh⟩ := trail.next
    exact ⟨List.Subset.trans own.subset sub, fresh⟩
  | member b =>
    cases trail with
    | entered entered trail =>
      obtain ⟨own, fresh⟩ := trail.next
      have inside := (taken_sublist slot b).trans (under_sublist b)
      exact ⟨List.Subset.trans (own.trans inside).subset sub, fresh⟩

theorem Stands.sequential (h : Stands bs slot (ready (.step b :: rest))) :
    b ∈ bs ∧ b.spec.isAsync = false := by
  obtain ⟨among, -⟩ := h.next
  refine ⟨among (List.mem_singleton_self b), ?_⟩
  cases h.marked with
  | ready everywhere =>
    cases everywhere with
    | cons marked _ _ => exact marked

theorem Stands.open {program : AsyncProgram} (h : Stands bs slot (awaiting b program)) :
    b ∈ bs ∧ (slot b.id).Begun := by
  obtain ⟨scope, trail, sub⟩ := h.trail
  cases trail with
  | awaiting _ opened => exact ⟨sub (mem_all_self b), opened.begun⟩
  | entered _ trail => cases trail

end

end Walk

/-! ## runs -/

namespace Run

/-- in some poll in the past of a run, a walk of it did this -/
def Past (signal : Signal) (L : Setting → Doing) (run : Run) : Prop :=
  ∃ (before : Run) (isOpen : String → Bool) (elapsed : Nat) (store : Store),
    let s := before.setting isOpen elapsed
    let polled := before.walk.poll s ⟨store, before.shared⟩
    Reachable signal before ∧ before.settled = none ∧
      Passes s (L s) before.walk ⟨store, before.shared⟩ polled.walk polled.world ∧
      Later (before.poll isOpen elapsed store).1 run

section
variable {name : String} {policy : Policy} {definition : List Chain} {signal : Signal}
  {run after : Run} {leaf : Walk} {L : Setting → Doing}

theorem Past.later (past : Past signal L run) (later : Later run after) : Past signal L after := by
  obtain ⟨before, isOpen, elapsed, store, reachable, pending, passes, since⟩ := past
  exact ⟨before, isOpen, elapsed, store, reachable, pending, passes, since.trans later⟩

theorem Past.place (past : Past signal L run) : ∃ s u x u' x', L s u x u' x' ∧
    ∀ M : Setting → Doing, M s u x u' x' → Past signal M run := by
  obtain ⟨before, isOpen, elapsed, store, reachable, pending, ⟨top, v, top', v', first, inside, last⟩,
    later⟩ := past
  obtain ⟨u, x, u', x', own, put⟩ := inside.place
  exact ⟨_, u, x, u', x', own, fun M other => ⟨before, isOpen, elapsed, store, reachable, pending,
    ⟨top, v, top', v', first, put _ other, last⟩, later⟩⟩

theorem Past.mono {M : Setting → Doing} (each : ∀ s u x u' x', L s u x u' x' → M s u x u' x')
    (past : Past signal L run) : Past signal M run := by
  obtain ⟨s, u, x, u', x', own, put⟩ := past.place
  exact put M (each s u x u' x' own)

/-- a walk that is stalled or has failed was left so by a body that ended -/
theorem Reachable.made (reachable : Reachable signal run) (ended : leaf.Ended)
    (has : leaf.In run.walk) :
    ∃ b result, Past signal (fun s => Makes s b result leaf) run := by
  induction reachable with
  | start started =>
    obtain ⟨args, -, rfl⟩ := Signal.start_eq started
    cases has with
    | own => exact ended.elim
  | @poll run isOpen elapsed store reachable ih =>
    cases settled : run.settled with
    | some _ =>
      rw [atRest_of_settled (by rw [settled]; rfl)] at has ⊢
      exact ih has
    | none =>
      rw [(poll_becomes settled isOpen elapsed store).2.walk] at has
      rcases (poll_steps _ run.walk ⟨store, run.shared⟩).made ended has with has | ⟨b, result, passes⟩
      · obtain ⟨b, result, past⟩ := ih has
        exact ⟨b, result, past.later (.poll isOpen elapsed store .now)⟩
      · exact ⟨b, result, run, isOpen, elapsed, store, reachable, settled, passes, .now⟩
  | wake address _ ih =>
    obtain ⟨b, result, past⟩ := ih (in_wake ended address has)
    exact ⟨b, result, past.later (.wake address .now)⟩
  | @gateOpened run gate _ ih =>
    have before : leaf.In run.walk := by
      have keeps := gateOpened_keeps (P := fun after => leaf.In after.walk → leaf.In run.walk) gate
        (fun _ has => has) fun after address before has => before (in_wake ended address has)
      exact keeps has
    obtain ⟨b, result, past⟩ := ih before
    exact ⟨b, result, past.later (.gateOpened gate .now)⟩

/-- a run that is settled was settled by one poll, and has not changed since -/
theorem Reachable.settling (reachable : Reachable signal run) (settled : run.settled.isSome = true) :
    ∃ (before : Run) (isOpen : String → Bool) (elapsed : Nat) (store : Store),
      Reachable signal before ∧ before.settled = none ∧
      (before.poll isOpen elapsed store).1.settled = run.settled ∧
      Later (before.poll isOpen elapsed store).1 run := by
  induction reachable with
  | start started =>
    obtain ⟨args, -, rfl⟩ := Signal.start_eq started
    cases settled
  | @poll run isOpen elapsed store reachable ih =>
    cases ended : run.settled with
    | some _ =>
      rw [atRest_of_settled (by rw [ended]; rfl)] at settled ⊢
      exact ih settled
    | none => exact ⟨run, isOpen, elapsed, store, reachable, ended, rfl, .now⟩
  | wake address _ ih =>
    obtain ⟨before, isOpen, elapsed, store, reachable, pending, same, later⟩ := ih settled
    exact ⟨before, isOpen, elapsed, store, reachable, pending, same, later.wake address⟩
  | @gateOpened run gate _ ih =>
    rw [run.settled_gateOpened gate] at settled ⊢
    obtain ⟨before, isOpen, elapsed, store, reachable, pending, same, later⟩ := ih settled
    exact ⟨before, isOpen, elapsed, store, reachable, pending, same, later.gateOpened gate⟩

/-- **A run that was rejected was so by a body that ended.** -/
theorem Reachable.rejected_made {error : RunError} (reachable : Reachable signal run)
    (rejected : run.settled = some (.rejected error)) :
    ∃ b result, Past signal (fun s => Makes s b result (.failed error)) run := by
  obtain ⟨before, isOpen, elapsed, store, reached, pending, same, later⟩ :=
    reachable.settling (by rw [rejected]; rfl)
  have becomes := (poll_becomes pending isOpen elapsed store).2
  have walk : (before.poll isOpen elapsed store).1.walk = .failed error := by
    rw [becomes.walk]
    rw [rejected] at same
    generalize (before.poll isOpen elapsed store).1 = after at becomes same
    cases becomes with
    | rejected found =>
      cases same
      exact error?_eq_some found
    | completed => cases same
    | pending =>
      rw [pending] at same
      cases same
  have ended : (Walk.failed error).Ended := trivial
  obtain ⟨b, result, past⟩ := (reached.poll isOpen elapsed store).made ended (walk ▸ .own)
  exact ⟨b, result, past.later later⟩

/-- in some poll since the run was `first`, a walk of it did this -/
def Since (first : Run) (L : Setting → Doing) (run : Run) : Prop :=
  ∃ (before : Run) (isOpen : String → Bool) (elapsed : Nat) (store : Store),
    let s := before.setting isOpen elapsed
    let polled := before.walk.poll s ⟨store, before.shared⟩
    Later first before ∧ before.settled = none ∧
      Passes s (L s) before.walk ⟨store, before.shared⟩ polled.walk polled.world ∧
      Later (before.poll isOpen elapsed store).1 run

theorem Since.later {first : Run} (since : Since first L run) (later : Later run after) :
    Since first L after := by
  obtain ⟨before, isOpen, elapsed, store, earlier, pending, passes, behind⟩ := since
  exact ⟨before, isOpen, elapsed, store, earlier, pending, passes, behind.trans later⟩

/-- **A moment since then.** A row of changes led up to it, whatever did it stood where the slots said, and
all that has become of the run since is a row of changes. -/
theorem Since.moment (created : Signal.create name policy definition = .ok signal)
    (each : ∀ s u x u' x', L s u x u' x' → Step s u x u' x') {first : Run}
    (reachable : Reachable signal first) (since : Since first L run) :
    ∃ s u x u' x', s.signal = name ∧ s.policy = policy ∧ L s u x u' x' ∧
      Stands (allOf signal.tree.branches) x.shared.slot u ∧
      x.shared.slots.length = signal.tree.size ∧
      ReflTransGen (Shared.Change policy (allOf signal.tree.branches)) first.shared x.shared ∧
      ReflTransGen (Shared.Change policy (allOf signal.tree.branches)) x'.shared run.shared := by
  obtain ⟨before, isOpen, elapsed, store, earlier, pending, ⟨top, x, top', x', front, inside, last⟩,
    later⟩ := since
  have changed := earlier.changes created reachable
  have reachable := earlier.reachable reachable
  have numbered := Signal.numbered created
  have sound := reachable.sound created
  have standing := sound.trail pending
  have watched := reachable.watched kept_attended created pending
  have marked := reachable.marked created
  have belongs : (before.setting isOpen elapsed).signal = name ∧
      (before.setting isOpen elapsed).policy = policy := by
    rw [sound.setting, (Signal.create_eq created).2]
    exact ⟨rfl, rfl⟩
  have polled := (poll_becomes pending isOpen elapsed store).2.like
  generalize before.setting isOpen elapsed = s at front inside last belongs polled
  have size : before.shared.slots.length = signal.tree.size := sound.length
  -- up to the moment
  obtain ⟨trail, frame⟩ := front.keeps _ (size ▸ numbered) standing
  obtain ⟨did, watched⟩ := front.did kept_attended (size ▸ numbered) standing watched
  have length : x.shared.slots.length = signal.tree.size := frame.length.trans size
  have marked := front.throughout (fun _ marked splits => marked.concurrent splits) marked
  have top : Stands (allOf signal.tree.branches) x.shared.slot top :=
    ⟨⟨_, trail, List.Subset.refl _⟩, marked, watched⟩
  obtain ⟨u, u', own, stands⟩ := inside.doer (fun h hm => h.member hm) top
  have reached := Did.all_changes did
  rw [belongs.2] at reached
  -- and from there on
  have step := inside.step (each s)
  obtain ⟨trail', frame'⟩ := step.keeps _ (length ▸ numbered) trail
  obtain ⟨-, watched'⟩ := step.did kept_attended _ (length ▸ numbered) trail watched
  have length' : x'.shared.slots.length = signal.tree.size := frame'.length.trans length
  obtain ⟨did, -⟩ := last.did kept_attended (length' ▸ numbered) trail' watched'
  have changes := Did.all_changes did
  rw [belongs.2] at changes
  refine ⟨s, u, x, u', x', belongs.1, belongs.2, own, stands, length, changed.trans reached, ?_⟩
  exact (changes.tail (.like polled)).trans
    (later.changes created (reachable.poll isOpen elapsed store))

/-- **A moment of the past.** Whatever did it stood where the slots said, and all that has become of the
run since is a row of changes. -/
theorem Past.moment (created : Signal.create name policy definition = .ok signal)
    (each : ∀ s u x u' x', L s u x u' x' → Step s u x u' x') (past : Past signal L run) :
    ∃ s u x u' x', s.signal = name ∧ s.policy = policy ∧ L s u x u' x' ∧
      Stands (allOf signal.tree.branches) x.shared.slot u ∧
      x.shared.slots.length = signal.tree.size ∧
      ReflTransGen (Shared.Change policy (allOf signal.tree.branches)) x'.shared run.shared := by
  obtain ⟨before, isOpen, elapsed, store, reachable, pending, passes, later⟩ := past
  have since : Since before L run := ⟨before, isOpen, elapsed, store, .now, pending, passes, later⟩
  obtain ⟨s, u, x, u', x', named, ruled, own, stands, length, -, changes⟩ :=
    since.moment created each reachable
  exact ⟨s, u, x, u', x', named, ruled, own, stands, length, changes⟩

end

end Run

end SignalFlow
