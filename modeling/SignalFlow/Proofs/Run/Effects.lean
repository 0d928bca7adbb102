import SignalFlow.Proofs.Run.Moments
/-!
# What a walk can do

* `Guarded`        a body that ran through at once in a group did so on a view that may not be written
                   to;
* `Effect`         what one step of a walk does to the world: concurrent branches begin, a sequential
                   body runs, a concurrent body ends, or bodies wait;
* `Walk.OnTrack`   what is known of the walk of a run, also in the middle of a poll;
* `Lasting`        what every effect keeps;
* `Run.Shows`      it is true of a run under way, and of the state in which a run was settled.

Every step of a walk that stands where the slots say is an effect (`Walk.Step.effect`), so a poll is a
row of them (`Run.Reachable.poll_effects`), and what every effect keeps goes on to show: from the start
of a run (`Run.Reachable.shows`), from any later point (`Run.Later.shows`), and from something that was
done in the middle of a poll (`Run.Past.shows`).
-/

namespace SignalFlow

open Branch Walk Relation

/-! ## the bodies of members -/

/-- the body of a member that runs through at once has run on a view that may not be written to -/
def Guarded (b : Branch) (program : AsyncProgram) (slot : Slot) : Prop :=
  ∀ step, b.action.body = .sync step → ∃ args store, slot.args = some args ∧
    program = .finish ((step args).run { store, writable := false }).2

theorem kept_guarded : Kept Guarded where
  begun b args store := by
    intro step body
    unfold Action.started
    rw [body]
    exact ⟨args, store, rfl, rfl⟩
  suspended := by
    intro b program slot isOpen store gate left guarded suspended step body
    obtain ⟨args, store, -, rfl⟩ := guarded step body
    cases suspended

theorem Kept.and {Q R : Branch → AsyncProgram → Slot → Prop} (kept : Kept Q) (kept' : Kept R) :
    Kept fun b program slot => Q b program slot ∧ R b program slot :=
  ⟨fun b args store => ⟨kept.begun b args store, kept'.begun b args store⟩,
    fun both suspended => ⟨kept.suspended both.1 suspended, kept'.suspended both.2 suspended⟩⟩

/-! ## effects -/

/-- what one step of a walk through these branches does to the world -/
inductive Effect (s : Setting) (bs : List Branch) (w : World) : World → Prop
  | begin {members : List Branch} : members ⊆ bs → (∀ b ∈ members, b.Concurrent) →
      Fresh w.shared.slot members → Effect s bs w (start members w).1
  | run {b : Branch} {step : Args → SyncProgram} : b ∈ bs → b.spec.isAsync = false →
      b.action.body = .sync step → w.shared.slot b.id = {} → Effect s bs w (s.runSync b step w).1
  | settle {b : Branch} {program : AsyncProgram} {result : StepResult} : b ∈ bs → b.Concurrent →
      (w.shared.slot b.id).Begun → Guarded b program (w.shared.slot b.id) →
      program.resume s.isOpen w.store = .finished result →
      Effect s bs w { w with shared := (s.settle b result w.shared).1 }
  | wait (waiting : List (String × Address)) :
      Effect s bs w { w with shared := { w.shared with waiting } }

section
variable {s : Setting} {bs : List Branch} {walk walk' : Walk} {w w' : World} {b : Branch}
  {items : List (Item Branch)}

theorem Setting.Ends.frame {shared : Shared} {ended : Shared × After} {error? : Option RunError}
    (h : s.Ends b shared ended error?) : Frame [b] shared ended.1 := by
  cases h with
  | outcome output payload => exact Shared.frame_finish output payload s.elapsed
  | stall => exact .refl ..
  | givenUp error => exact Shared.frame_abandon s.elapsed

theorem frame_runSync (step : Args → SyncProgram) :
    Frame [b] w.shared (s.runSync b step w).1.shared := by
  have first : Frame [b] w.shared (w.shared.begin b) := Shared.frame_begin
  exact (first.trans (Frame.update b _ _)).trans (Setting.conclude_ends _).frame

/-- a branch that has begun in a sequential list keeps its slot -/
theorem Effect.slot (effect : Effect s bs w w') (unique : Unique bs) (hb : b ∈ bs)
    (sequential : ¬ b.Concurrent) (begun : (w.shared.slot b.id).Begun) :
    w'.shared.slot b.id = w.shared.slot b.id := by
  have fresh {c : Branch} (untouched : w.shared.slot c.id = {}) : c.id ≠ b.id := by
    intro same
    rw [same] at untouched
    rw [untouched] at begun
    cases begun.seen
  cases effect with
  | @begin members _ _ untouched =>
    exact (frame_start members w).same b.id fun c hc => fresh (untouched c hc)
  | @run c step _ _ _ untouched =>
    exact (frame_runSync step).same b.id (List.forall_mem_singleton.mpr (fresh untouched))
  | @settle c _ result hc concurrent _ _ _ =>
    refine (Setting.settle_ends result).frame.same b.id (List.forall_mem_singleton.mpr fun same => ?_)
    exact sequential (unique.eq hc hb same ▸ concurrent)
  | wait => rfl

/-- a step is a move of the walk or of a member of it, or nothing but who waits has changed -/
theorem Walk.Step.moved (step : Step s walk w walk' w') :
    Inside (Move s) walk w walk' w' ∨
      ∃ waiting, w' = { w with shared := { w.shared with waiting } } := by
  induction step with
  | move move => exact .inl (.here move)
  | suspend waiting => exact .inr ⟨waiting, rfl⟩
  | member queue rest found _ ih => exact ih.imp_left (.member queue rest found)
  | requeue | raise | join => exact .inr ⟨_, rfl⟩

theorem Walk.Move.effect (move : Move s walk w walk' w') (stands : Stands bs w.shared.slot walk)
    (guarded : walk.Watched Guarded w.shared.slot) : Effect s bs w w' := by
  have group {item : Item Branch} {rest : List (Item Branch)}
      (stands : Stands bs w.shared.slot (ready (item :: rest))) (splits : item.Splits) :
      Effect s bs w (start item.members w).1 := by
    obtain ⟨among, fresh⟩ := stands.next
    cases stands.marked with
    | ready everywhere =>
      cases everywhere with
      | cons marked _ _ => exact .begin among (marked.concurrent splits) fresh
  cases move with
  | sync rest _ body =>
    obtain ⟨hb, sequential⟩ := stands.sequential
    exact .run hb sequential body (stands.next.2 _ (List.mem_singleton_self _))
  | lone rest _ body => exact group stands ⟨_, body⟩
  | group members rest => exact group stands trivial
  | @settle b program result _ ended =>
    obtain ⟨hb, begun⟩ := stands.open
    cases stands.marked with
    | awaiting _ concurrent _ => exact .settle hb concurrent begun (guarded b program .own) ended

theorem Walk.Step.effect (step : Step s walk w walk' w') (stands : Stands bs w.shared.slot walk)
    (guarded : walk.Watched Guarded w.shared.slot) : Effect s bs w w' := by
  rcases step.moved with inside | ⟨waiting, rfl⟩
  · clear step
    induction inside with
    | here move => exact move.effect stands guarded
    | member queue rest found _ ih =>
      have hm := List.mem_of_getElem? found
      exact ih (stands.member hm) fun b program awaits =>
        guarded b program (.inside queue rest hm awaits)
  · exact .wait waiting

/-! ## walks of runs -/

/-- the walk of a run, in the middle of a poll as well: it stands where the slots say, is marked, and
waits for what is left of the bodies of its branches -/
structure Walk.OnTrack (signal : Signal) (walk : Walk) (w : World) : Prop where
  length : w.shared.slots.length = signal.tree.size
  trail : Trail w.shared.slot (.list signal.tree.branches) walk
  marked : walk.Throughout (Item.Marked false) Branch.Concurrent
  watched : walk.Watched (fun b program slot => Attended b program slot ∧ Guarded b program slot)
    w.shared.slot

section
variable {signal : Signal}

theorem Walk.OnTrack.stands (h : walk.OnTrack signal w) :
    Stands (allOf signal.tree.branches) w.shared.slot walk :=
  ⟨⟨_, h.trail, List.Subset.refl _⟩, h.marked, fun b program awaits => (h.watched b program awaits).1⟩

theorem Walk.OnTrack.effect (h : walk.OnTrack signal w) (step : Step s walk w walk' w') :
    Effect s (allOf signal.tree.branches) w w' :=
  step.effect h.stands fun b program awaits => (h.watched b program awaits).2

variable (numbered : Numbered signal.tree.size (allOf signal.tree.branches))
include numbered

theorem Walk.OnTrack.step (h : walk.OnTrack signal w) (step : Step s walk w walk' w') :
    walk'.OnTrack signal w' := by
  obtain ⟨trail, frame⟩ := step.keeps _ (h.length ▸ numbered) h.trail
  obtain ⟨-, watched⟩ :=
    step.did (kept_attended.and kept_guarded) _ (h.length ▸ numbered) h.trail h.watched
  exact ⟨frame.length.trans h.length, trail,
    step.throughout (fun _ marked splits => marked.concurrent splits) h.marked, watched⟩

/-- **Whatever the walk of a run does is a row of effects.** -/
theorem Walk.OnTrack.steps (h : walk.OnTrack signal w) (steps : Steps s walk w walk' w') :
    walk'.OnTrack signal w' ∧ ReflTransGen (Effect s (allOf signal.tree.branches)) w w' := by
  induction steps with
  | refl => exact ⟨h, .refl⟩
  | head first _ ih =>
    obtain ⟨track, effects⟩ := ih (h.step numbered first)
    exact ⟨track, .head (h.effect first) effects⟩

end

end

/-! ## runs -/

/-- every effect keeps it -/
def Lasting (bs : List Branch) (P : Shared → Prop) : Prop :=
  ∀ s w w', Effect s bs w w' → P w.shared → P w'.shared

theorem Lasting.row {bs : List Branch} {P : Shared → Prop} {s : Setting} {w w' : World}
    (lasting : Lasting bs P) (effects : ReflTransGen (Effect s bs) w w') (now : P w.shared) :
    P w'.shared := by
  induction effects with
  | refl => exact now
  | tail _ last ih => exact lasting _ _ _ last ih

namespace Run

/-- it is true of a run under way, and of the state in which a run was settled -/
structure Shows (P : Shared → Prop) (run : Run) : Prop where
  pending : run.settled = none → P run.shared
  like : ∃ shared, P shared ∧ shared.Like run.shared

variable {name : String} {policy : Policy} {definition : List Chain} {signal : Signal}
  {run after : Run} {P : Shared → Prop}

theorem Reachable.onTrack (created : Signal.create name policy definition = .ok signal)
    (reachable : Reachable signal run) (pending : run.settled = none) (store : Store) :
    run.walk.OnTrack signal ⟨store, run.shared⟩ := by
  have sound := reachable.sound created
  exact ⟨sound.length, sound.trail pending, reachable.marked created,
    reachable.watched (kept_attended.and kept_guarded) created pending⟩

theorem Reachable.poll_effects (created : Signal.create name policy definition = .ok signal)
    (reachable : Reachable signal run) (isOpen : String → Bool) (elapsed : Nat) (store : Store) :
    ∃ w, ReflTransGen (Effect (run.setting isOpen elapsed) (allOf signal.tree.branches))
        ⟨store, run.shared⟩ w ∧
      (run.poll isOpen elapsed store).2 = w.store ∧
      w.shared.Like (run.poll isOpen elapsed store).1.shared := by
  cases settled : run.settled with
  | some _ =>
    rw [atRest_of_settled (by rw [settled]; rfl)]
    exact ⟨_, .refl, rfl, rfl, rfl, rfl, fun _ => .inl rfl⟩
  | none =>
    obtain ⟨left, becomes⟩ := poll_becomes settled isOpen elapsed store
    obtain ⟨-, effects⟩ := (reachable.onTrack created settled store).steps (Signal.numbered created)
      (poll_steps (run.setting isOpen elapsed) run.walk ⟨store, run.shared⟩)
    exact ⟨_, effects, left, becomes.like⟩

theorem Becomes.shows {elapsed : Nat} {polled : Polled} (becomes : Becomes run elapsed polled after)
    (now : P polled.world.shared) : after.Shows P := by
  refine ⟨fun pending => ?_, _, now, becomes.like⟩
  cases becomes with
  | rejected | completed => cases pending
  | pending => exact now

variable (created : Signal.create name policy definition = .ok signal)
  (lasting : Lasting (allOf signal.tree.branches) P)
include created lasting

/-- **What every effect keeps goes on to show**, whatever becomes of a run. -/
theorem Later.shows (reachable : Reachable signal run) (later : Later run after)
    (now : run.Shows P) : after.Shows P := by
  induction later with
  | now => exact now
  | @poll after isOpen elapsed store later ih =>
    cases settled : after.settled with
    | some _ =>
      rw [atRest_of_settled (by rw [settled]; rfl)]
      exact ih
    | none =>
      have track := (later.reachable reachable).onTrack created settled store
      obtain ⟨-, effects⟩ := track.steps (Signal.numbered created)
        (poll_steps (after.setting isOpen elapsed) after.walk ⟨store, after.shared⟩)
      exact (poll_becomes settled isOpen elapsed store).2.shows
        (lasting.row effects (ih.pending settled))
  | wake address _ ih => exact ⟨ih.pending, ih.like⟩
  | @gateOpened after gate _ ih =>
    refine gateOpened_keeps (P := Shows P) gate (fun waiting => ?_)
      fun _ _ shows => ⟨shows.pending, shows.like⟩
    obtain ⟨shared, holds, like⟩ := ih.like
    exact ⟨fun pending => lasting (after.setting (fun _ => false) 0) ⟨default, after.shared⟩ _
      (.wait waiting) (ih.pending pending), shared, holds, like.args, like.journal, like.length,
      like.slot⟩

theorem Reachable.shows (reachable : Reachable signal run)
    (first : ∀ args, P (.initial args signal.tree.size)) : run.Shows P := by
  obtain ⟨origin, id, startedAt, input, started, later⟩ := reachable.later
  refine later.shows created lasting (.start started) ?_
  obtain ⟨args, -, rfl⟩ := Signal.start_eq started
  exact ⟨fun _ => first args, _, first args, rfl, rfl, rfl, fun _ => .inl rfl⟩

/-- what is true behind something that was done, and is kept by every effect, shows -/
theorem Past.shows {L : Setting → Doing} (each : ∀ s u x u' x', L s u x u' x' → Step s u x u' x')
    (behind : ∀ s u x u' x', s.policy = policy → L s u x u' x' →
      Stands (allOf signal.tree.branches) x.shared.slot u → x.shared.slots.length = signal.tree.size →
      P x'.shared) (past : Past signal L run) : run.Shows P := by
  obtain ⟨before, isOpen, elapsed, store, reachable, pending, ⟨top, x, top', x', first, inside, last⟩,
    later⟩ := past
  have numbered := Signal.numbered created
  have same : (before.setting isOpen elapsed).policy = policy := by
    rw [(reachable.sound created).setting, (Signal.create_eq created).2]
  have becomes := (poll_becomes pending isOpen elapsed store).2
  generalize before.setting isOpen elapsed = s at first inside last same becomes
  obtain ⟨track, -⟩ := (reachable.onTrack created pending store).steps numbered first
  obtain ⟨u, u', own, stands⟩ := inside.doer (fun h hm => h.member hm) track.stands
  obtain ⟨-, effects⟩ := (track.step numbered (inside.step (each s))).steps numbered last
  exact later.shows created lasting (reachable.poll isOpen elapsed store)
    (becomes.shows (lasting.row effects (behind s u x u' x' same own stands track.length)))

end Run

end SignalFlow
