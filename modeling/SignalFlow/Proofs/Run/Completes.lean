import SignalFlow.Proofs.Definition.Everywhere
import SignalFlow.Proofs.Run.Arrives
import SignalFlow.Proofs.Run.Scene
/-!
# What a walk is completed with

* `Walk.Completes`   a walk through which nothing waits: it leads from one scene to another when the
                     members of each group end in the order in which they stand;
* `Item.Flat`        a group whose members have nothing under their outputs;
* `Item.Apart`       a group whose members have laid nothing under one key;
* `Leaf`             what the walk of a member of a flat group can be.

There is one scene at most that a walk is completed with (`Completes.unique`). A step of a walk can be
taken in its turn instead (`Step.completes`): the members of a group that stand before it only end, and
write nothing to the store (`Completes.at_turn`, `Completes.before_end`).
-/

namespace SignalFlow

open Branch Walk

/-! ## walks that are completed -/

/-- an item at which a walk splits -/
def Item.Splits : Item Branch → Prop
  | .step b => ∃ body, b.action.body = .async body
  | .group _ => True

namespace Walk

inductive Completes (policy : Policy) : Walk → Scene → Scene → Prop
  | done (p : Scene) : Completes policy (ready []) p p
  | step {b : Branch} {body : Args → SyncProgram} {rest : List (Item Branch)} {p q : Scene}
      {view : SignalFlow.View} {result : StepResult} {output : Option String} {payload : Value} :
      b.action.body = .sync body → p.slot b.id = {} →
      (body p.args).run { store := p.store, writable := true } = (view, result) →
      b.Yields policy result output payload →
      Completes policy (ready (b.next output ++ rest)) ((p.ran b view).finish b output payload) q →
      Completes policy (ready (.step b :: rest)) p q
  | begin {item : Item Branch} {rest : List (Item Branch)} {p q : Scene} :
      item.Splits → (∀ b ∈ item.members, p.slot b.id = {}) →
      Completes policy
        (joinedOf (item.members.map fun b => awaiting b (b.action.started p.args p.store)) rest)
        (item.members.foldl Scene.begin p) q →
      Completes policy (ready (item :: rest)) p q
  | member {b : Branch} {program : AsyncProgram} {p q : Scene} {outcome : Outcome}
      {output : Option String} :
      (p.slot b.id).hasExecuted = false → program.run p.store = .ok outcome →
      b.action.resolve outcome.path = .ok output →
      Completes policy (ready (b.next output)) (p.finish b output outcome.payload) q →
      Completes policy (awaiting b program) p q
  | join {queue : Option (List Nat)} {rest : List (Item Branch)} {p q : Scene} :
      Completes policy (ready rest) p q → Completes policy (joined [] queue rest) p q
  | alongside {m : Walk} {members : List Walk} {queue : Option (List Nat)}
      {rest : List (Item Branch)} {p q r : Scene} :
      Completes policy m p q → Completes policy (joined members queue rest) q r →
      Completes policy (joined (m :: members) queue rest) p r

section
variable {policy : Policy} {walk : Walk} {p q r : Scene} {members : List Walk}
  {queue queue' : Option (List Nat)} {rest : List (Item Branch)}

/-- **There is one scene at most that a walk is completed with.** -/
theorem Completes.unique (h : Completes policy walk p q) (h' : Completes policy walk p r) : r = q := by
  induction h generalizing r with
  | done p =>
    cases h' with
    | done => rfl
  | step body fresh ran yields _ ih =>
    cases h' with
    | step body' _ ran' yields' behind' =>
      cases body.symm.trans body'
      cases ran.symm.trans ran'
      obtain ⟨rfl, rfl⟩ := yields.unique yields'
      exact ih behind'
    | begin splits =>
      obtain ⟨other, body'⟩ := splits
      cases body.symm.trans body'
  | begin splits _ _ ih =>
    cases h' with
    | step body' =>
      obtain ⟨other, body⟩ := splits
      cases body.symm.trans body'
    | begin _ _ behind' => exact ih behind'
  | member _ ran resolved _ ih =>
    cases h' with
    | member _ ran' resolved' behind' =>
      cases ran.symm.trans ran'
      cases resolved.symm.trans resolved'
      exact ih behind'
  | join _ ih =>
    cases h' with
    | join behind' => exact ih behind'
  | alongside _ _ first behind =>
    cases h' with
    | alongside first' behind' =>
      obtain rfl := first first'
      exact behind behind'

theorem Completes.settles (h : Completes policy walk p q) : p.Settles q := by
  induction h with
  | done p => exact fun _ _ => rfl
  | @step b body rest p q view result output payload _ fresh _ _ _ ih =>
    have pending : ((p.ran b view).slot b.id).hasExecuted = false := by
      unfold Scene.ran Scene.begin
      rw [Scene.change_self, Scene.change_self]
    exact ((p.settles_ran fresh view).trans (Scene.settles_finish _ pending output payload)).trans ih
  | begin _ fresh _ ih => exact (Scene.settles_begin _ fresh).trans ih
  | member pending _ _ _ ih => exact (Scene.settles_finish _ pending _ _).trans ih
  | join _ ih => exact ih
  | alongside _ _ first behind => exact first.trans behind

theorem Completes.requeue (h : Completes policy (joined members queue' rest) p q) :
    Completes policy (joined members queue rest) p q := by
  induction members generalizing p with
  | nil =>
    cases h with
    | join behind => exact .join behind
  | cons m members ih =>
    cases h with
    | alongside first behind => exact .alongside first (ih behind)

theorem Completes.join_all (h : Completes policy (ready rest) p q)
    (all : ∀ m ∈ members, m.isDone = true) : Completes policy (joined members queue rest) p q := by
  induction members with
  | nil => exact .join h
  | cons m members ih =>
    obtain ⟨first, others⟩ := List.forall_mem_cons.mp all
    rw [eq_of_isDone first]
    exact .alongside (.done p) (ih others)

theorem Completes.not_failed {error : RunError}
    (h : Completes policy (joined members queue rest) p q) : failed error ∉ members := by
  induction members generalizing p with
  | nil => exact List.not_mem_nil
  | cons m members ih =>
    cases h with
    | alongside first behind =>
      intro found
      rcases List.mem_cons.mp found with rfl | found
      · cases first
      · exact ih behind found

/-- a change that a member makes can be made when the members before it have ended, if each of them
leads on from a changed scene as it does from the scene itself -/
theorem Completes.at_turn {change : Scene → Scene} {apt : Scene → Prop} {index : Nat} {m m' : Walk}
    (found : members[index]? = some m)
    (own : ∀ p q, apt p → Completes policy m' (change p) q → Completes policy m p q)
    (past : ∀ j n, j < index → members[j]? = some n → ∀ p q, apt p →
      Completes policy n (change p) q → q.Settles r →
        ∃ p', apt p' ∧ Completes policy n p p' ∧ q = change p')
    (now : apt p) (h : Completes policy (joined (members.set index m') queue rest) (change p) r) :
    Completes policy (joined members queue rest) p r := by
  induction members generalizing index p with
  | nil => cases found
  | cons n members ih =>
    cases index with
    | zero =>
      cases found
      cases h with
      | alongside first behind => exact .alongside (own p _ now first) behind
    | succ index =>
      cases h with
      | @alongside _ _ _ _ _ q _ first behind =>
        obtain ⟨p', next, first', rfl⟩ := past 0 n (Nat.succ_pos _) rfl p q now first behind.settles
        refine .alongside first' (ih found (fun j n' lt hn => ?_) next behind)
        exact past (j + 1) n' (Nat.succ_lt_succ lt) hn

end

end Walk

/-! ## groups whose members may end in any order -/

/-- the entries of the payload that a step has ended with -/
def Slot.laid (slot : Slot) : Args := (slot.output.map Value.entries).getD []

/-- two steps have laid nothing under one key -/
def Slot.Apart (x y : Slot) : Prop := ∀ e ∈ x.laid, ∀ e' ∈ y.laid, e.1 ≠ e'.1

/-- nothing stands under the outputs of the members of a group -/
def Item.Flat : Item Branch → Prop
  | .step _ => True
  | .group bs => ∀ b ∈ bs, ∀ output, b.next output = []

/-- no two members of a group have laid anything under one key -/
def Item.Apart (slot : Nat → Slot) (item : Item Branch) : Prop :=
  item.members.Pairwise fun b c => (slot b.id).Apart (slot c.id)

instance (x y : Slot) : Decidable (x.Apart y) :=
  inferInstanceAs (Decidable (∀ e ∈ x.laid, ∀ e' ∈ y.laid, e.1 ≠ e'.1))

instance (slot : Nat → Slot) (item : Item Branch) : Decidable (item.Apart slot) :=
  inferInstanceAs (Decidable (item.members.Pairwise fun b c => (slot b.id).Apart (slot c.id)))

theorem Slot.Apart.symm {x y : Slot} (h : x.Apart y) : y.Apart x :=
  fun e he e' he' same => h e' he' e he same.symm

theorem Slot.laid_ended (slot : Slot) (output : Option String) (payload : Value) :
    (slot.ended output payload).laid = payload.entries := by
  cases payload <;> rfl

theorem Reaches.everywhere {slot : Nat → Slot} {P : Item Branch → Prop}
    {items left : List (Item Branch)} (h : Reaches slot items left) (all : Everywhere P items) :
    Everywhere P left := by
  induction h with
  | here items => exact all
  | past _ _ ih =>
    cases all with
    | cons _ _ behind => exact ih behind
  | @into b left rest _ _ ih =>
    cases all with
    | cons _ under behind => exact (ih (under b (List.mem_singleton_self b) _)).append behind

/-- the walk of a member with nothing under its outputs -/
inductive Leaf (b : Branch) : Walk → Prop
  | awaiting (program : AsyncProgram) : Leaf b (.awaiting b program)
  | ended : Leaf b (.ready [])
  | failed (error : RunError) : Leaf b (.failed error)

theorem Trail.leaf {slot : Nat → Slot} {b : Branch} {m : Walk} (trail : Trail slot (.member b) m)
    (flat : ∀ output, b.next output = []) : Leaf b m := by
  have nowhere : b.taken slot = [] := flat _
  cases trail with
  | awaiting program _ => exact .awaiting program
  | givenUp error _ => exact .failed error
  | entered _ trail =>
    rw [nowhere] at trail
    cases trail with
    | ready reaches _ =>
      cases reaches with
      | here => exact .ended
    | joined _ reaches _ _ _ => cases reaches
    | stalled reaches _ _ => cases reaches
    | failed error _ => exact .failed error

/-! ## steps -/

theorem AsyncProgram.run_of_suspended {isOpen : String → Bool} {store : Store}
    {gate : Option String} {program left : AsyncProgram}
    (h : program.resume isOpen store = .suspended gate left) :
    program.run store = left.run store := by
  induction program with
  | finish result => cases h
  | get path next ih => exact ih (store.get? path) h
  | wait gate next ih =>
    rw [AsyncProgram.resume] at h
    split at h
    · exact ih h
    · cases h
      rfl
  | pause next =>
    cases h
    rfl

namespace Walk

section
variable {s : Setting} {walk walk' m m' : Walk} {w w' : World} {b : Branch}
  {items : List (Item Branch)} {q r : Scene}

/-- a member whose body is running stays suspended, ends with an outcome, or fails -/
theorem Step.awaiting {program : AsyncProgram} (step : Step s (awaiting b program) w m w')
    (inside : b.id < w.shared.slots.length) :
    (∃ left, m = awaiting b left ∧ w'.scene = w.scene ∧ program.run w.store = left.run w.store) ∨
    (∃ outcome output, m = ready (b.next output) ∧ program.run w.store = .ok outcome ∧
      b.action.resolve outcome.path = .ok output ∧
      w'.scene = w.scene.finish b output outcome.payload) ∨
    ∃ error, m = failed error := by
  cases step with
  | suspend waiting suspended =>
    exact .inl ⟨_, rfl, rfl, AsyncProgram.run_of_suspended suspended⟩
  | move move =>
    cases move with
    | @settle _ _ result _ ended =>
      have ran := AsyncProgram.run_of_resume ended
      unfold Setting.settle
      cases result with
      | error message => exact .inr (.inr ⟨_, rfl⟩)
      | ok outcome =>
        dsimp only
        cases resolved : b.action.resolve outcome.path with
        | error name => exact .inr (.inr ⟨_, rfl⟩)
        | ok output =>
          refine .inr (.inl ⟨outcome, output, ?_, ran, resolved, ?_⟩)
          · exact congrArg ready (List.append_nil _)
          · exact World.scene_finish inside output outcome.payload s.elapsed

theorem Move.completes (move : Move s walk w walk' w')
    (numbered : Numbered w.shared.slots.length (allOf items))
    (trail : Trail w.shared.slot (.list items) walk) (h : Completes s.policy walk' w'.scene r) :
    Completes s.policy walk w.scene r := by
  -- what begins here is untouched, and each of its branches has a slot
  have group {item : Item Branch} {rest : List (Item Branch)} (splits : item.Splits)
      (trail : Trail w.shared.slot (.list items) (ready (item :: rest)))
      (h : Completes s.policy (joinedOf (start item.members w).2 rest)
        (start item.members w).1.scene r) : Completes s.policy (ready (item :: rest)) w.scene r := by
    obtain ⟨sub, fresh⟩ := trail.next
    have inside : ∀ b ∈ item.members, b.id < w.shared.slots.length :=
      fun b hb => numbered.inside b (sub.subset hb)
    rw [start_members, World.scene_start inside] at h
    exact .begin splits (fun b hb => congrArg Slot.untimed (fresh b hb)) h
  cases move with
  | @sync b body rest w isSync =>
    obtain ⟨sub, fresh⟩ := trail.next
    have own : b ∈ (Item.step b).members := List.mem_singleton_self b
    have inside := numbered.inside b (sub.subset own)
    have untouched : w.scene.slot b.id = {} := congrArg Slot.untimed (fresh b own)
    generalize ran : (body w.shared.args).run { store := w.store, writable := true } = both
    obtain ⟨view, result⟩ := both
    rcases s.runSync_scene isSync inside ran with
      ⟨output, payload, yields, follows, scene⟩ | stalls | ⟨error, fails⟩
    · rw [follows, scene] at h
      exact .step isSync untouched ran yields h
    · rw [stalls] at h
      cases h
    · rw [fails] at h
      cases h
  | lone rest w body => exact group ⟨_, body⟩ trail h
  | group bs rest w => exact group trivial trail h
  | settle => cases trail

/-- a group whose members may end in any order, as this scene has them -/
def Free (q : Scene) (item : Item Branch) : Prop := item.Flat ∧ item.Apart q.slot

theorem Completes.leaf {policy : Policy} {p : Scene} (h : Completes policy m p r)
    (flat : ∀ output, b.next output = []) (leaf : Leaf b m) :
    (m = ready [] ∧ r = p) ∨
    ∃ program outcome output, m = awaiting b program ∧ (p.slot b.id).hasExecuted = false ∧
      program.run p.store = .ok outcome ∧ b.action.resolve outcome.path = .ok output ∧
      r = p.finish b output outcome.payload := by
  cases leaf with
  | awaiting program =>
    cases h with
    | @member _ _ _ _ outcome output pending ran resolved behind =>
      rw [flat] at behind
      cases behind
      exact .inr ⟨program, outcome, output, rfl, pending, ran, resolved, rfl⟩
  | ended =>
    cases h
    exact .inl ⟨rfl, rfl⟩
  | failed error => cases h

/-- a member of a flat group may end before another does, if the two lay nothing under one key -/
theorem Completes.before_end {policy : Policy} {p t : Scene} {c : Branch} {output : Option String}
    {payload : Value} (h : Completes policy m (p.finish b output payload) t)
    (flat : ∀ output, c.next output = []) (leaf : Leaf c m)
    (different : c.id ≠ b.id) (pending : (p.slot b.id).hasExecuted = false) (settles : t.Settles q)
    (apart : (q.slot b.id).Apart (q.slot c.id)) :
    ∃ p', p'.store = p.store ∧ (p'.slot b.id).hasExecuted = false ∧ Completes policy m p p' ∧
      t = p'.finish b output payload := by
  rcases Completes.leaf h flat leaf with
    ⟨rfl, rfl⟩ | ⟨program, outcome, output', rfl, pending', ran, resolved, rfl⟩
  · exact ⟨p, rfl, pending, .done p, rfl⟩
  · have other : b.id ≠ c.id := Ne.symm different
    rw [p.finish_of_ne other] at pending'
    -- both have ended in what the walk is completed with, and show there what they have laid
    have laidC : q.slot c.id =
        ((p.finish b output payload).slot c.id).ended output' outcome.payload := by
      rw [settles c.id (by rw [Scene.finish_self]; rfl), Scene.finish_self]
    have laidB : q.slot b.id = (p.slot b.id).ended output payload := by
      have own := ((p.finish b output payload).finish_of_ne different output' outcome.payload).trans
        (p.finish_self output payload)
      rw [settles b.id (by rw [own]; rfl), own]
    rw [laidB, laidC] at apart
    unfold Slot.Apart at apart
    rw [Slot.laid_ended, Slot.laid_ended] at apart
    refine ⟨p.finish c output' outcome.payload, rfl, ?_, .member pending' ran resolved ?_, ?_⟩
    · rw [p.finish_of_ne different]
      exact pending
    · rw [flat]
      exact .done _
    · exact p.finish_comm other apart output output'

theorem completes_member (step : Step s m w m' w')
    (below : ∀ items, Numbered w.shared.slots.length (allOf items) →
      Trail w.shared.slot (.list items) m → Everywhere (Free q) items →
      Completes s.policy m' w'.scene r → Completes s.policy m w.scene r)
    (numbered : Numbered w.shared.slots.length (all b)) (trail : Trail w.shared.slot (.member b) m)
    (under : ∀ output, Everywhere (Free q) (b.next output))
    (h : Completes s.policy m' w'.scene r) : Completes s.policy m w.scene r := by
  cases trail with
  | awaiting program opened =>
    rcases step.awaiting (numbered.inside b (mem_all_self b)) with
      ⟨left, rfl, scene, same⟩ | ⟨outcome, output, rfl, ran, resolved, scene⟩ | ⟨error, rfl⟩
    · rw [scene] at h
      cases h with
      | member pending ran resolved behind => exact .member pending (same.trans ran) resolved behind
    · rw [scene] at h
      exact .member opened.begun.pending ran resolved h
    · cases h
  | givenUp error opened =>
    cases step with
    | move move => cases move
  | entered entered trail =>
    have inside := (taken_sublist w.shared.slot b).trans (under_sublist b)
    exact below _ (numbered.sublist inside) trail (under _) h

/-- the members before `index` have nothing under their outputs, and lay nothing where `b` does -/
def Ahead (q : Scene) (b : Branch) (members : List Walk) (index : Nat) : Prop :=
  ∀ j n, j < index → members[j]? = some n → ∃ c : Branch, (∀ output, c.next output = []) ∧
    c.id ≠ b.id ∧ (q.slot b.id).Apart (q.slot c.id) ∧ Leaf c n

section
variable {policy : Policy} {p : Scene} {members : List Walk} {queue : Option (List Nat)}
  {rest : List (Item Branch)} {index : Nat} {program left : AsyncProgram}

/-- nothing is written to the store until a member that is suspended has its turn -/
theorem Completes.before_suspended (found : members[index]? = some (awaiting b program))
    (ahead : Ahead q b members index) (same : program.run p.store = left.run p.store)
    (h : Completes policy (joined (members.set index (awaiting b left)) queue rest) p r) :
    Completes policy (joined members queue rest) p r := by
  have later : ∀ p' t, p'.store = p.store → Completes policy (awaiting b left) (id p') t →
      Completes policy (awaiting b program) p' t := by
    intro p' t store h
    cases h with
    | member pending ran resolved behind =>
      refine .member pending ?_ resolved behind
      rw [id_eq, store, ← same] at ran
      rw [store]
      exact ran
  refine h.at_turn found later (fun j n lt hn p' t store first _ => ?_) rfl
  obtain ⟨c, flat, -, -, leaf⟩ := ahead j n lt hn
  have kept : t.store = p.store := by
    rcases Completes.leaf first flat leaf with ⟨-, same⟩ | ⟨_, _, _, -, -, -, -, same⟩
    · rw [same]
      exact store
    · rw [same]
      exact store
  exact ⟨t, kept, first, rfl⟩

theorem Completes.before_ended {outcome : Outcome} {output : Option String}
    (found : members[index]? = some (awaiting b program)) (ahead : Ahead q b members index)
    (pending : (p.slot b.id).hasExecuted = false) (ran : program.run p.store = .ok outcome)
    (resolved : b.action.resolve outcome.path = .ok output) (settles : r.Settles q)
    (h : Completes policy (joined (members.set index (ready (b.next output))) queue rest)
      (p.finish b output outcome.payload) r) : Completes policy (joined members queue rest) p r := by
  have later : ∀ p' t, (p'.store = p.store ∧ (p'.slot b.id).hasExecuted = false) →
      Completes policy (ready (b.next output)) (p'.finish b output outcome.payload) t →
      Completes policy (awaiting b program) p' t := by
    intro p' t ⟨store, pending⟩ behind
    exact .member pending (store ▸ ran) resolved behind
  refine h.at_turn found later (fun j n lt hn p' t now first ends => ?_) ⟨rfl, pending⟩
  obtain ⟨c, flat, different, apart, leaf⟩ := ahead j n lt hn
  obtain ⟨p'', store, open', completes, same⟩ :=
    Completes.before_end first flat leaf different now.2 (ends.trans settles) apart
  exact ⟨p'', ⟨store.trans now.1, open'⟩, completes, same⟩

end

theorem completes_grouped {bs : List Branch} {members : List Walk} {queue : Option (List Nat)}
    {rest : List (Item Branch)} {i : Nat} (step : Step s m w m' w')
    (numbered : Numbered w.shared.slots.length (allOfMembers bs))
    (length : members.length = bs.length)
    (each : ∀ (j : Nat) c n, bs[j]? = some c → members[j]? = some n →
      Trail w.shared.slot (.member c) n)
    (free : Free q (.group bs)) (hb : bs[i]? = some b) (found : members[i]? = some m)
    (settles : r.Settles q)
    (h : Completes s.policy (joined (members.set i m') queue rest) w'.scene r) :
    Completes s.policy (joined members queue rest) w.scene r := by
  obtain ⟨flat, apart⟩ := free
  have own := List.mem_of_getElem? hb
  have trail := each i b m hb found
  have ahead : Ahead q b members i := by
    intro j n lt hn
    have inside : j < bs.length := length ▸ (List.getElem?_eq_some_iff.mp hn).1
    have hc := List.getElem?_eq_getElem inside
    have mem := List.mem_of_getElem? hc
    have different := Unique.members numbered.unique hc hb (Nat.ne_of_lt lt) _ (mem_all_self _) b
      (mem_all_self b)
    obtain ⟨there, rfl⟩ := List.getElem?_eq_some_iff.mp hb
    have before := List.pairwise_iff_getElem.mp apart j i inside there lt
    exact ⟨bs[j], flat _ mem, different, before.symm, (each j _ n hc hn).leaf (flat _ mem)⟩
  cases trail.leaf (flat b own) with
  | awaiting program =>
    have pending : (w.scene.slot b.id).hasExecuted = false := by
      cases trail with
      | awaiting _ opened => exact opened.begun.pending
      | entered _ trail => cases trail
    have inside := numbered.inside b ((all_sublist_allOfMembers own).subset (mem_all_self b))
    rcases step.awaiting inside with
      ⟨left, rfl, scene, same⟩ | ⟨outcome, output, rfl, ran, resolved, scene⟩ | ⟨error, rfl⟩
    · rw [scene] at h
      exact h.before_suspended found ahead same
    · rw [scene] at h
      exact h.before_ended found ahead pending ran resolved settles
    · have there : i < members.length := (List.getElem?_eq_some_iff.mp found).1
      exact absurd (List.mem_set there _) h.not_failed
  | ended | failed =>
    cases step with
    | move move => cases move

/-- **A step of a walk can be taken in its turn.** -/
theorem Step.completes (step : Step s walk w walk' w') :
    ∀ items r, Numbered w.shared.slots.length (allOf items) →
      Trail w.shared.slot (.list items) walk → Everywhere (Free q) items → r.Settles q →
      Completes s.policy walk' w'.scene r → Completes s.policy walk w.scene r := by
  induction step with
  | move move => exact fun items r numbered trail _ _ h => move.completes numbered trail h
  | suspend => exact fun _ _ _ trail => nomatch trail
  | @member members i m m' w w' queue rest found step ih =>
    intro items r numbered trail free settles h
    cases trail with
    | @joined _ item _ _ _ reaches _ length each =>
      have sub := reaches.sublist
      rw [allOf_cons] at sub
      have group := numbered.sublist ((List.sublist_append_left _ (allOf rest)).trans sub)
      have inside : i < item.members.length := length ▸ (List.getElem?_eq_some_iff.mp found).1
      have hb := List.getElem?_eq_getElem inside
      generalize item.members[i] = b at hb
      have trail := each i b m hb found
      cases reaches.everywhere free with
      | cons own under _ =>
        cases item with
        | group bs => exact completes_grouped step group length each own hb found settles h
        | step one =>
          -- a group of one, whose only member is the first to have its turn
          obtain ⟨n, rfl⟩ := List.length_eq_one_iff.mp length
          have first : i = 0 := Nat.lt_one_iff.mp inside
          subst first
          cases found
          cases h with
          | alongside first behind =>
            have mem := List.mem_of_getElem? hb
            refine .alongside (completes_member step (fun items numbered trail free h => ?_)
              (group.sublist (all_sublist_allOfMembers mem)) trail (under b mem) first) behind
            exact ih items _ numbered trail free (behind.settles.trans settles) h
  | requeue members queue queue' rest w => exact fun _ _ _ _ _ _ h => h.requeue
  | raise => exact fun _ _ _ _ _ _ h => nomatch h
  | join queue rest w all => exact fun _ _ _ _ _ _ h => h.join_all all

theorem Steps.completes (steps : Steps s walk w walk' w')
    (numbered : Numbered w.shared.slots.length (allOf items))
    (trail : Trail w.shared.slot (.list items) walk) (free : Everywhere (Free r) items)
    (h : Completes s.policy walk' w'.scene r) : Completes s.policy walk w.scene r := by
  induction steps with
  | refl => exact h
  | head first _ ih =>
    obtain ⟨trail', frame⟩ := first.keeps items numbered trail
    have behind := ih (frame.length.symm ▸ numbered) trail' h
    exact first.completes items r numbered trail free (fun _ _ => rfl) behind

end

end Walk

end SignalFlow
