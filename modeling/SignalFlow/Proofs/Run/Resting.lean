import Mathlib.Data.List.Perm.Subperm
import SignalFlow.Proofs.Run.Moments
/-!
# Walks at rest

A walk that is left unfinished goes on only when somebody polls it again. It rests when each of its
unfinished parts has a reason to wait and no member of a group in it is queued.

* `Setting.Extends`  more walks wait at gates, all of them at gates that are closed;
* `Walk.Rests`       a walk rests;
* `Walk.Someone`     somebody in a walk has a reason to wait;
* `Walk.Queued`      in a group with a queue, each unfinished member is in the queue, or rests;
* `Walk.Tended`      so it is in every group of a walk, at any depth;
* `Walk.Avoids`      nothing of a kind was done on the way;
* `Walk.Covers`      the reasons cover whatever a poll may leave unfinished.

A poll leaves a walk that is tended tended, and an unfinished one asks to be polled again, or rests
(`pollAt_minded`). So no member is forgotten. A wake leaves a walk tended when the walk that it reaches
loses its reason to wait (`wake_tended`).
-/

namespace SignalFlow

open Branch

/-! ## waiting at gates -/

/-- whoever waited goes on to wait, and whoever else does waits at a gate that is closed -/
structure Setting.Extends (s : Setting) (shared shared' : Shared) : Prop where
  kept : shared.waiting ⊆ shared'.waiting
  shut : ∀ entry ∈ shared'.waiting, entry ∈ shared.waiting ∨ s.isOpen entry.1 = false

section
variable {s : Setting} {shared shared' shared'' : Shared} {gate : String}

theorem Setting.Extends.of_same (same : shared'.waiting = shared.waiting) : s.Extends shared shared' :=
  ⟨same ▸ List.Subset.refl _, fun _ h => .inl (same ▸ h)⟩

theorem Setting.Extends.refl (s : Setting) (shared : Shared) : s.Extends shared shared := .of_same rfl

theorem Setting.Extends.trans (h : s.Extends shared shared') (h' : s.Extends shared' shared'') :
    s.Extends shared shared'' :=
  ⟨List.Subset.trans h.kept h'.kept, fun entry there => (h'.shut entry there).elim (h.shut entry) .inr⟩

theorem Setting.extends_waitAt (closed : s.isOpen gate = false) (here : Address) :
    s.Extends shared (shared.waitAt gate here) := by
  unfold Shared.waitAt
  split
  · exact .refl s shared
  · refine ⟨List.subset_append_left .., fun entry there => ?_⟩
    rcases List.mem_append.mp there with before | own
    · exact .inl before
    · obtain rfl := List.mem_singleton.mp own
      exact .inr closed

theorem Shared.mem_waitAt (shared : Shared) (gate : String) (here : Address) :
    (gate, here) ∈ (shared.waitAt gate here).waiting := by
  unfold waitAt
  split
  · next there => exact List.contains_iff_mem.mp there
  · exact List.mem_append_right _ (List.mem_singleton_self _)

/-- a body that is suspended at a gate has found it closed, and waits for it to open -/
theorem AsyncProgram.waits_of_suspended {isOpen : String → Bool} {store : Store}
    {program left : AsyncProgram} (h : program.resume isOpen store = .suspended (some gate) left) :
    isOpen gate = false ∧ ∃ next, left = .wait gate next := by
  induction program with
  | finish => cases h
  | get path next ih => exact ih _ h
  | wait door next ih =>
    rw [resume] at h
    split at h
    · exact ih h
    · next closed =>
      cases h
      exact ⟨Bool.eq_false_iff.mpr closed, next, rfl⟩
  | pause => cases h

end

namespace Walk

/-- the one walk stands at this address in the other -/
inductive At (leaf : Walk) : Address → Walk → Prop
  | own : At leaf [] leaf
  | member {members : List Walk} {index : Nat} {m : Walk} {address : Address}
      (queue : Option (List Nat)) (rest : List (Item Branch)) :
      members[index]? = some m → At leaf address m → At leaf (index :: address) (joined members queue rest)

theorem At.in {leaf walk : Walk} {address : Address} (h : leaf.At address walk) : leaf.In walk := by
  induction h with
  | own => exact .own
  | member queue rest found _ ih => exact .inside queue rest (List.mem_of_getElem? found) ih

/-- what a walk at an address waits for -/
abbrev Reason := Address → Walk → Prop

/-- every unfinished part of the walk has a reason to wait, and nobody is queued -/
inductive Rests (K : Reason) : Address → Walk → Prop
  | awaiting {here : Address} {b : Branch} {program : AsyncProgram} :
      K here (awaiting b program) → Rests K here (awaiting b program)
  | stalled {here : Address} {b : Branch} : K here (stalled b) → Rests K here (stalled b)
  | joined {here : Address} {members : List Walk} {queue : Option (List Nat)}
      (rest : List (Item Branch)) : queue.getD [] = [] → (∃ m ∈ members, m.isPending = true) →
      (∀ i m, members[i]? = some m → m.isPending = true → Rests K (here ++ [i]) m) →
      Rests K here (joined members queue rest)

/-- there is somebody in the walk who has a reason to wait -/
def Someone (K : Reason) (here : Address) (walk : Walk) : Prop :=
  ∃ address leaf, leaf.At address walk ∧ K (here ++ address) leaf

/-- a queue without repetitions has every unfinished member that does not rest -/
structure Queued (K : Reason) (here : Address) (members : List Walk) (waiting : List Nat) : Prop where
  once : waiting.Nodup
  inside : ∀ i ∈ waiting, i < members.length
  known : ∀ i m, members[i]? = some m → m.isPending = true →
    i ∈ waiting ∨ Rests K (here ++ [i]) m

/-- no unfinished member is forgotten in any group of the walk -/
inductive Tended (K : Reason) : Address → Walk → Prop
  | ready (here : Address) (items : List (Item Branch)) : Tended K here (ready items)
  | awaiting (here : Address) (b : Branch) (program : AsyncProgram) :
      Tended K here (awaiting b program)
  | stalled {here : Address} {b : Branch} : K here (stalled b) → Tended K here (stalled b)
  | failed (here : Address) (error : RunError) : Tended K here (failed error)
  | joined {here : Address} {members : List Walk} {queue : Option (List Nat)}
      (rest : List (Item Branch)) : (∀ i m, members[i]? = some m → Tended K (here ++ [i]) m) →
      (∀ waiting, queue = some waiting → Queued K here members waiting) →
      Tended K here (joined members queue rest)

section
variable {K K' : Reason} {here : Address} {walk : Walk} {members : List Walk}
  {queue : Option (List Nat)} {rest : List (Item Branch)} {waiting : List Nat}

theorem isPending_of (busy : walk.isDone = false) (fine : walk.error? = none) :
    walk.isPending = true := by
  rw [isPending, busy, fine]
  rfl

theorem exists_pending {members : List Walk} (fine : earliestError? members = none)
    (busy : ¬ members.all isDone = true) : ∃ m ∈ members, m.isPending = true := by
  induction members with
  | nil => exact absurd rfl busy
  | cons m members ih =>
    rw [earliestError?] at fine
    by_cases done : m.isDone = true
    · rw [if_pos done] at fine
      rw [List.all_cons, done, Bool.true_and] at busy
      obtain ⟨n, hn, pending⟩ := ih fine busy
      exact ⟨n, List.mem_cons_of_mem _ hn, pending⟩
    · rw [if_neg done] at fine
      exact ⟨m, List.mem_cons_self, isPending_of (Bool.eq_false_iff.mpr done) fine⟩

theorem earliestError?_of_first {members : List Walk} (fine : firstError? members = none) :
    earliestError? members = none := by
  induction members with
  | nil => rfl
  | cons m members ih =>
    have each := List.findSome?_eq_none_iff.mp fine
    rw [earliestError?]
    split
    · exact ih (List.findSome?_eq_none_iff.mpr fun n hn => each n (List.mem_cons_of_mem _ hn))
    · exact each m List.mem_cons_self

/-- only reasons in the walk matter -/
theorem Rests.mono (each : ∀ x leaf, here <+: x → K x leaf → K' x leaf) (h : Rests K here walk) :
    Rests K' here walk := by
  induction h with
  | awaiting own => exact .awaiting (each _ _ (List.prefix_refl _) own)
  | stalled own => exact .stalled (each _ _ (List.prefix_refl _) own)
  | joined rest quiet some _ ih =>
    exact .joined rest quiet some fun i m found pending => ih i m found pending
      fun x leaf inside => each x leaf ((List.prefix_append ..).trans inside)

theorem Queued.mono (each : ∀ x leaf, here <+: x → K x leaf → K' x leaf)
    (h : Queued K here members waiting) : Queued K' here members waiting :=
  ⟨h.once, h.inside, fun i m found pending => (h.known i m found pending).imp_right
    (Rests.mono fun x leaf inside => each x leaf ((List.prefix_append ..).trans inside))⟩

theorem Queued.length_le (h : Queued K here members waiting) : waiting.length ≤ members.length := by
  have within : waiting ⊆ List.range members.length := fun i hi =>
    List.mem_range.mpr (h.inside i hi)
  have short := (List.Nodup.subperm h.once within).length_le
  rwa [List.length_range] at short

theorem Tended.mono (each : ∀ x leaf, here <+: x → K x leaf → K' x leaf) (h : Tended K here walk) :
    Tended K' here walk := by
  induction h with
  | ready here items => exact .ready here items
  | awaiting here b program => exact .awaiting here b program
  | stalled own => exact .stalled (each _ _ (List.prefix_refl _) own)
  | failed here error => exact .failed here error
  | joined rest _ queued ih =>
    refine .joined rest (fun i m found => ih i m found fun x leaf inside =>
      each x leaf ((List.prefix_append ..).trans inside)) fun waiting same => ?_
    exact (queued waiting same).mono each

theorem Tended.member (h : Tended K here (Walk.joined members queue rest)) {i : Nat} {m : Walk}
    (found : members[i]? = some m) : Tended K (here ++ [i]) m := by
  cases h with
  | joined _ each _ => exact each i m found

theorem Tended.queued (h : Tended K here (Walk.joined members (some waiting) rest)) :
    Queued K here members waiting := by
  cases h with
  | joined _ _ queued => exact queued waiting rfl

theorem Someone.mono (each : ∀ x leaf, K x leaf → K' x leaf) (h : Someone K here walk) :
    Someone K' here walk := by
  obtain ⟨address, leaf, stands, own⟩ := h
  exact ⟨address, leaf, stands, each _ _ own⟩

theorem Someone.member {i : Nat} {m : Walk} (h : Someone K (here ++ [i]) m)
    (found : members[i]? = some m) : Someone K here (Walk.joined members queue rest) := by
  obtain ⟨address, leaf, stands, own⟩ := h
  rw [List.append_assoc] at own
  exact ⟨i :: address, leaf, .member queue rest found stands, own⟩

theorem Rests.someone (h : Rests K here walk) : Someone K here walk := by
  induction h with
  | @awaiting here b program own => exact ⟨[], _, .own, (List.append_nil here).symm ▸ own⟩
  | @stalled here b own => exact ⟨[], _, .own, (List.append_nil here).symm ▸ own⟩
  | joined rest _ some _ ih =>
    obtain ⟨m, hm, pending⟩ := some
    obtain ⟨i, found⟩ := List.mem_iff_getElem?.mp hm
    exact (ih i m found pending).member found

theorem tended_joinedOf (awaits : ∀ m ∈ members, ∃ b program, m = Walk.awaiting b program) :
    Tended K here (joinedOf members rest) := by
  refine .joined rest (fun i m found => ?_) fun waiting same => ?_
  · obtain ⟨b, program, rfl⟩ := awaits m (List.mem_of_getElem? found)
    exact .awaiting _ b program
  · split at same
    · cases same
    · cases same
      refine ⟨List.nodup_range, fun i hi => List.mem_range.mp hi, fun i m found _ => .inl ?_⟩
      exact List.mem_range.mpr (List.getElem?_eq_some_iff.mp found).1

theorem tended_start (bs : List Branch) (rest : List (Item Branch)) (w : World) :
    Tended K here (joinedOf (start bs w).2 rest) := by
  refine tended_joinedOf fun m hm => ?_
  rw [start_members] at hm
  obtain ⟨b, -, rfl⟩ := List.mem_map.mp hm
  exact ⟨b, _, rfl⟩

theorem tended_walk {b : Branch} {after : After}
    (stalls : ∀ c, after.walk b rest = Walk.stalled c → K here (Walk.stalled c)) :
    Tended K here (after.walk b rest) := by
  cases after with
  | follow items => exact .ready here _
  | stall => exact .stalled (stalls b rfl)
  | fail error => exact .failed here error

end

/-! ## one member changes -/

section
variable {K K' : Reason} {here : Address} {members : List Walk} {index : Nat}
  {waiting waiting' : List Nat} {m m' : Walk}

theorem queue_concat {bound : Nat} (once : waiting.Nodup) (inside : ∀ i ∈ waiting, i < bound)
    (fresh : index ∉ waiting) (there : index < bound) :
    (waiting ++ [index]).Nodup ∧ ∀ i ∈ waiting ++ [index], i < bound := by
  refine ⟨List.nodup_append.mpr ⟨once, List.nodup_singleton _, fun i hi j hj same => ?_⟩,
    List.forall_mem_append.mpr ⟨inside, List.forall_mem_singleton.mpr there⟩⟩
  exact fresh (List.mem_singleton.mp hj ▸ same ▸ hi)

variable (elsewhere : ∀ i x leaf, index ≠ i → here ++ [i] <+: x → K x leaf → K' x leaf)
include elsewhere

theorem tended_set (each : ∀ i m, members[i]? = some m → Tended K (here ++ [i]) m)
    (there : index < members.length) (own : Tended K' (here ++ [index]) m') :
    ∀ i n, (members.set index m')[i]? = some n → Tended K' (here ++ [i]) n := by
  intro i n found
  rcases getElem?_set_cases there found with ⟨rfl, rfl⟩ | ⟨other, same⟩
  · exact own
  · exact (each i n same).mono fun x leaf => elsewhere i x leaf other

theorem Queued.set (h : Queued K here members waiting) (there : index < members.length)
    (once : waiting'.Nodup) (inside : ∀ i ∈ waiting', i < members.length)
    (more : ∀ i ∈ waiting, index ≠ i → i ∈ waiting')
    (own : m'.isPending = true → index ∈ waiting' ∨ Rests K' (here ++ [index]) m') :
    Queued K' here (members.set index m') waiting' := by
  refine ⟨once, fun i hi => ?_, fun i n found pending => ?_⟩
  · rw [List.length_set]
    exact inside i hi
  · rcases getElem?_set_cases there found with ⟨rfl, rfl⟩ | ⟨other, same⟩
    · exact own pending
    · exact (h.known i n same pending).imp (fun hi => more i hi other)
        (Rests.mono fun x leaf => elsewhere i x leaf other)

theorem Rests.set {queue : Option (List Nat)} {rest : List (Item Branch)}
    (h : Rests K here (Walk.joined members queue rest)) (found : members[index]? = some m)
    (alike : m'.isPending = m.isPending)
    (own : m.isPending = true → queue.getD [] = [] → Rests K (here ++ [index]) m →
      Rests K' (here ++ [index]) m') :
    Rests K' here (Walk.joined (members.set index m') queue rest) := by
  have there : index < members.length := (List.getElem?_eq_some_iff.mp found).1
  cases h with
  | joined _ quiet some each =>
    refine .joined rest quiet ?_ fun i n found' pending => ?_
    · obtain ⟨n, hn, pending⟩ := some
      obtain ⟨i, found'⟩ := List.mem_iff_getElem?.mp hn
      by_cases same : index = i
      · subst same
        cases found.symm.trans found'
        exact ⟨m', List.mem_set there m', alike.trans pending⟩
      · refine ⟨n, List.mem_iff_getElem?.mpr ⟨i, ?_⟩, pending⟩
        rwa [List.getElem?_set_ne same]
    · rcases getElem?_set_cases there found' with ⟨rfl, rfl⟩ | ⟨other, same⟩
      · have pending := alike.symm.trans pending
        exact own pending quiet (each _ m found pending)
      · exact (each i n same pending).mono fun x leaf => elsewhere i x leaf other

/-- the first in a queue has been polled, and is not to be polled again -/
theorem Queued.next (h : Queued K here members (index :: waiting))
    (rests : m'.isPending = true → Rests K' (here ++ [index]) m') :
    Queued K' here (members.set index m') waiting := by
  obtain ⟨-, once⟩ := List.nodup_cons.mp h.once
  obtain ⟨there, inside⟩ := List.forall_mem_cons.mp h.inside
  exact h.set elsewhere there once inside
    (fun i hi other => (List.mem_cons.mp hi).resolve_left (Ne.symm other))
    fun pending => .inr (rests pending)

/-- the first in a queue has been polled, and asks to be polled again -/
theorem Queued.requeue (h : Queued K here members (index :: waiting)) :
    Queued K' here (members.set index m') (waiting ++ [index]) := by
  obtain ⟨fresh, once⟩ := List.nodup_cons.mp h.once
  obtain ⟨there, inside⟩ := List.forall_mem_cons.mp h.inside
  obtain ⟨once, inside⟩ := queue_concat once inside fresh there
  refine h.set elsewhere there once inside (fun i hi other => ?_) fun _ => .inl ?_
  · exact List.mem_append_left _ ((List.mem_cons.mp hi).resolve_left (Ne.symm other))
  · exact List.mem_append_right _ (List.mem_singleton_self index)

end

/-! ## polls of groups -/

/-- nothing of this kind is done on the way -/
def Avoids (s : Setting) (L : Doing) (walk : Walk) (w : World) (walk' : Walk) (w' : World) : Prop :=
  ¬ Passes s L walk w walk' w'

section
variable {s : Setting} {L : Doing} {walk walk' walk'' m m' : Walk} {w w' w'' : World}
  {members : List Walk} {queue : Option (List Nat)} {rest : List (Item Branch)}

theorem Avoids.behind (free : Avoids s L walk w walk'' w'') (steps : Steps s walk w walk' w') :
    Avoids s L walk' w' walk'' w'' := fun passes => free (passes.after steps)

theorem Avoids.before (free : Avoids s L walk w walk'' w'') (steps : Steps s walk' w' walk'' w'') :
    Avoids s L walk w walk' w' := fun passes => free (passes.before steps)

theorem Avoids.member {index : Nat} (found : members[index]? = some m)
    (free : Avoids s L (joined members queue rest) w (joined (members.set index m') queue rest) w') :
    Avoids s L m w m' w' := fun passes => free (passes.member found)

theorem Avoids.turn {front : List Walk} (free : Avoids s L (joined (front ++ m :: members) queue rest) w
      (joined (front ++ m' :: members) queue rest) w') : Avoids s L m w m' w' :=
  fun passes => free (passes.turn front members queue rest)

theorem Avoids.first (free : Avoids s L walk w walk'' w'') (steps : Steps s walk' w' walk'' w'') :
    ¬ L walk w walk' w' := fun own => free (.of_inside (.here own) steps)

end

/-- `K` has a reason for whatever a poll may leave unfinished, as long as nothing is done that `L` tells;
a body that pauses needs no reason if `again` holds -/
structure Covers (s : Setting) (L : Doing) (again : Prop) (K : Shared → Reason) : Prop where
  mono : ∀ {shared shared' : Shared} {here walk}, s.Extends shared shared' →
    K shared here walk → K shared' here walk
  waits : ∀ {b program left gate w} (here : Address),
    program.resume s.isOpen w.store = .suspended (some gate) left →
    ¬ L (awaiting b program) w (awaiting b left) { w with shared := w.shared.waitAt gate here } →
    K (w.shared.waitAt gate here) here (awaiting b left)
  pauses : ∀ {b program left w}, program.resume s.isOpen w.store = .suspended none left →
    ¬ L (awaiting b program) w (awaiting b left) w → again
  stalls : ∀ {walk w walk' w' b} (here : Address), Move s walk w walk' w' → ¬ L walk w walk' w' →
    walk' = stalled b → K w'.shared here (stalled b)

/-- an unfinished walk asks to be polled again, or rests; and somebody in it has a reason to wait, unless
`again` holds -/
structure Remains (again : Prop) (K : Reason) (here : Address) (walk : Walk) (woken : Bool) : Prop where
  asks : woken = true ∨ Rests K here walk
  someone : again ∨ Someone K here walk

/-- the walk is left tended, and one that is unfinished has a reason to remain -/
structure Polled.Minded (s : Setting) (again : Prop) (K : Shared → Reason) (here : Address) (w : World)
    (polled : Polled) : Prop where
  grows : s.Extends w.shared polled.world.shared
  tended : Tended (K polled.world.shared) here polled.walk
  remains : polled.walk.isPending = true →
    Remains again (K polled.world.shared) here polled.walk polled.woken

/-- the members from `base` on are left tended, and each of them that is unfinished has a reason to
remain, unless there is an error -/
structure Round.EachMinded (s : Setting) (again : Prop) (K : Shared → Reason) (here : Address)
    (base : Nat) (w : World) (round : Round) : Prop where
  grows : s.Extends w.shared round.world.shared
  tended : ∀ i m, round.members[i]? = some m →
    Tended (K round.world.shared) (here ++ [base + i]) m
  remains : firstError? round.members = none → ∀ i m, round.members[i]? = some m →
    m.isPending = true → Remains again (K round.world.shared) (here ++ [base + i]) m round.woken

/-- the members are left tended, and so is their queue -/
structure Round.QueueMinded (s : Setting) (K : Shared → Reason) (here : Address) (w : World)
    (round : Round) : Prop where
  grows : s.Extends w.shared round.world.shared
  tended : ∀ i m, round.members[i]? = some m → Tended (K round.world.shared) (here ++ [i]) m
  queued : Queued (K round.world.shared) here round.members round.queue

section
variable {again : Prop} {K K' : Reason} {here : Address} {walk : Walk} {woken woken' : Bool}

theorem Remains.of_rests (rests : Rests K here walk) : Remains again K here walk woken :=
  ⟨.inr rests, .inr rests.someone⟩

theorem Remains.mono (each : ∀ x leaf, K x leaf → K' x leaf) (asked : woken = true → woken' = true)
    (h : Remains again K here walk woken) : Remains again K' here walk woken' :=
  ⟨h.asks.imp asked (Rests.mono fun x leaf _ => each x leaf), h.someone.imp_right (Someone.mono each)⟩

end

theorem Round.QueueMinded.after {s : Setting} {K : Shared → Reason} {here : Address} {w w' : World}
    {round : Round} (h : round.QueueMinded s K here w') (grows : s.Extends w.shared w'.shared) :
    round.QueueMinded s K here w :=
  ⟨grows.trans h.grows, h.tended, h.queued⟩

/-- what a poll of a group comes to that neither ends nor goes on -/
def Round.left (round : Round) (queue : Option (List Nat)) (rest : List (Item Branch)) : Polled :=
  ⟨round.world, joined round.members (queue.map fun _ => round.queue) rest, round.woken⟩

/-- this poll minds walks that are not heavier than `bound` -/
def Minds (s : Setting) (L : Doing) (again : Prop) (K : Shared → Reason) (here : Address)
    (bound : Nat) (poll : Nat → Walk → World → Polled) : Prop :=
  ∀ index m w, m.weight ≤ bound → Tended (K w.shared) (here ++ [index]) m →
    Avoids s L m w (poll index m w).walk (poll index m w).world →
    (poll index m w).Minded s again K (here ++ [index]) w

section
variable {s : Setting} {L : Doing} {again : Prop} {K : Shared → Reason} {here : Address}
  {bound : Nat} {poll : Nat → Walk → World → Polled} (covers : Covers s L again K)
  (stepwise : Stepwise s poll) (minds : Minds s L again K here bound poll)
  (queue : Option (List Nat)) (rest : List (Item Branch))
include covers

theorem Round.EachMinded.cons {base : Nat} {w w' : World} {round : Round} {m : Walk}
    (h : round.EachMinded s again K here (base + 1) w') (woken : Bool)
    (grows : s.Extends w.shared w'.shared)
    (tended : Tended (K w'.shared) (here ++ [base]) m)
    (remains : m.isPending = true → Remains again (K w'.shared) (here ++ [base]) m woken) :
    Round.EachMinded s again K here base w
      { round with members := m :: round.members, woken := woken || round.woken } where
  grows := grows.trans h.grows
  tended := by
    rintro (_ | i) n found
    · cases found
      exact tended.mono fun _ _ _ => covers.mono h.grows
    · rw [Nat.add_left_comm, Nat.add_comm i]
      exact h.tended i n found
  remains := by
    intro fine i n found pending
    rw [firstError?, List.findSome?_cons] at fine
    cases i with
    | zero =>
      cases found
      exact (remains pending).mono (fun _ _ => covers.mono h.grows) fun asked =>
        Bool.or_eq_true_iff.mpr (.inl asked)
    | succ i =>
      have behind : firstError? round.members = none := by
        cases error : m.error? with
        | some e =>
          rw [error] at fine
          cases fine
        | none =>
          rw [error] at fine
          exact fine
      rw [Nat.add_left_comm, Nat.add_comm i]
      exact (h.remains behind i n found pending).mono (fun _ _ => id) fun asked =>
        Bool.or_eq_true_iff.mpr (.inr asked)

include stepwise minds

theorem pollEach_minded (front members : List Walk) (index : Nat) (w : World)
    (light : ∀ m ∈ members, m.weight ≤ bound)
    (h : ∀ i m, members[i]? = some m → Tended (K w.shared) (here ++ [index + i]) m)
    (free : Avoids s L (joined (front ++ members) queue rest) w
      (joined (front ++ (pollEach poll index members w).members) queue rest)
      (pollEach poll index members w).world) :
    (pollEach poll index members w).EachMinded s again K here index w := by
  induction members generalizing front index w with
  | nil =>
    exact ⟨.refl s _, h, fun _ _ _ found => nomatch found⟩
  | cons m members ih =>
    obtain ⟨own, others⟩ := List.forall_mem_cons.mp light
    have first : Tended (K w.shared) (here ++ [index]) m := h 0 m rfl
    have behind (w' : World) (grows : s.Extends w.shared w'.shared) (i : Nat) (n : Walk)
        (found : members[i]? = some n) : Tended (K w'.shared) (here ++ [index + 1 + i]) n := by
      rw [Nat.add_right_comm, Nat.add_assoc]
      exact (h (i + 1) n found).mono fun _ _ _ => covers.mono grows
    have moved (m' : Walk) (members : List Walk) : front ++ m' :: members = front ++ [m'] ++ members :=
      List.append_cons ..
    cases done : m.isDone with
    | true =>
      rw [pollEach_done done] at free ⊢
      rw [moved m members, moved m (Round.members _)] at free
      refine (ih (front ++ [m]) (index + 1) w others (behind w (.refl s _)) free).cons covers
        false (.refl s _) first fun pending => ?_
      rw [isPending, done] at pending
      cases pending
    | false =>
      cases failed : (poll index m w).walk.error?.isSome with
      | true =>
        rw [pollEach_failed done failed] at free ⊢
        have minded := minds index m w own first free.turn
        refine ⟨minded.grows, ?_, fun fine => ?_⟩
        · rintro (_ | i) n found
          · cases found
            exact minded.tended
          · rw [Nat.add_left_comm, Nat.add_comm i]
            exact behind _ minded.grows i n found
        · obtain ⟨error, e⟩ := Option.isSome_iff_exists.mp failed
          rw [firstError?, List.findSome?_cons, e] at fine
          cases fine
      | false =>
        rw [pollEach_next done failed] at free ⊢
        have last := pollEach_after (m := (poll index m w).walk) stepwise queue rest front members
          (index + 1) (poll index m w).world
        have steps : Steps s (joined (front ++ m :: members) queue rest) w
            (joined (front ++ (poll index m w).walk :: members) queue rest) (poll index m w).world :=
          (stepwise index m w).turn front members queue rest
        have minded := minds index m w own first (free.before last).turn
        have free := free.behind steps
        rw [moved _ members, moved _ (Round.members _)] at free
        exact (ih (front ++ [(poll index m w).walk]) (index + 1) _ others (behind _ minded.grows)
          free).cons covers _ minded.grows minded.tended minded.remains

/-- a queue runs empty, unless the group ends or asks to be polled again -/
theorem pollQueued_minded (lightens : Lightens poll) (fuel left yielded : Nat) (round : Round)
    (light : ∀ m ∈ round.members, m.weight ≤ bound)
    (h : round.QueueMinded s K here round.world)
    (enough : 2 * round.queue.length + (1 - yielded) ≤ fuel) (few : yielded ≤ 1)
    (free : Avoids s L (joined round.members queue rest) round.world
      (joined (pollQueued poll fuel left yielded round).members queue rest)
      (pollQueued poll fuel left yielded round).world) :
    let after := pollQueued poll fuel left yielded round
    after.QueueMinded s K here round.world ∧
      ((after.woken = true ∧ ∃ i m, after.members[i]? = some m ∧
          (again ∨ Someone (K after.world.shared) (here ++ [i]) m)) ∨ after.queue = [] ∨
        (earliestError? after.members).isSome = true ∨ after.members.all isDone = true) := by
  induction fuel generalizing left yielded round with
  | zero =>
    have empty : round.queue = [] := List.eq_nil_of_length_eq_zero (by omega)
    exact ⟨h, .inr (.inl empty)⟩
  | succ fuel ih =>
    obtain ⟨w, members, waiting, woken⟩ := round
    cases waiting with
    | nil => exact ⟨h, .inr (.inl rfl)⟩
    | cons index waiting =>
      have there : index < members.length := h.queued.inside index List.mem_cons_self
      have found : members[index]? = some members[index] := List.getElem?_eq_getElem there
      generalize members[index] = m at found
      have last := pollQueued_after stepwise queue rest fuel left yielded
        ⟨w, members, index :: waiting, woken⟩ rfl found
      have first : Steps s (joined members queue rest) w
          (joined (members.set index (poll index m w).walk) queue rest) (poll index m w).world :=
        (stepwise index m w).member found
      have own := light m (List.mem_of_getElem? found)
      have minded := minds index m w own (h.tended index m found)
        (Avoids.member found (free.before last))
      have light' : ∀ n ∈ members.set index (poll index m w).walk, n.weight ≤ bound := by
        intro n hn
        rcases List.mem_or_eq_of_mem_set hn with hn | rfl
        · exact light n hn
        · exact Nat.le_trans (lightens index m w) own
      have mono (i : Nat) (x : Address) (leaf : Walk) (_ : index ≠ i) (_ : here ++ [i] <+: x) :
          K w.shared x leaf → K (poll index m w).world.shared x leaf := covers.mono minded.grows
      have tended := tended_set mono h.tended there minded.tended
      -- the round goes on with what is queued now; a poll that puts its member back into the queue
      -- uses up a yield, and the second one stops the group, so the fuel is enough
      have goes (left yielded : Nat) {queue' : List Nat}
          (queued : Queued (K (poll index m w).world.shared) here
            (members.set index (poll index m w).walk) queue')
          (enough : 2 * queue'.length + (1 - yielded) ≤ fuel) (few : yielded ≤ 1) :=
        ih left yielded ⟨(poll index m w).world, members.set index (poll index m w).walk, queue',
          woken || (poll index m w).woken⟩ light'
          ⟨.refl s _, tended, queued⟩ enough few
      have behind := free.behind first
      rw [List.length_cons] at enough
      simp only [pollQueued, found] at behind ⊢
      by_cases pending : (poll index m w).walk.isPending = true
      · have set : (members.set index (poll index m w).walk)[index]? = some (poll index m w).walk :=
          List.getElem?_set_self there
        have remains := minded.remains pending
        by_cases asked : (poll index m w).woken = true
        · have queued : Queued (K (poll index m w).world.shared) here
              (members.set index (poll index m w).walk) (waiting ++ [index]) := h.queued.requeue mono
          simp only [if_pos pending, if_pos asked] at behind ⊢
          by_cases stop : 2 ≤ yielded + 1 ∨ left ≤ 1
          · rw [if_pos stop]
            exact ⟨⟨minded.grows, tended, queued⟩, .inl ⟨rfl, index, _, set, remains.someone⟩⟩
          · rw [if_neg stop] at behind ⊢
            have kept := goes (left - 1) (yielded + 1) queued (by simp; omega) (by omega) behind
            exact ⟨kept.1.after minded.grows, kept.2⟩
        · have queued := Queued.next mono h.queued fun _ => remains.asks.resolve_left asked
          simp only [if_pos pending, if_neg asked] at behind ⊢
          by_cases stop : 2 ≤ yielded ∨ left ≤ 1
          · rw [if_pos stop]
            exact ⟨⟨minded.grows, tended, queued⟩, .inl ⟨rfl, index, _, set, remains.someone⟩⟩
          · rw [if_neg stop] at behind ⊢
            have kept := goes (left - 1) yielded queued (by omega) few behind
            exact ⟨kept.1.after minded.grows, kept.2⟩
      · have queued := Queued.next mono h.queued fun own : (poll index m w).walk.isPending = true =>
          absurd own pending
        simp only [if_neg pending] at behind ⊢
        by_cases stop : (earliestError? (members.set index (poll index m w).walk)).isSome = true ∨
            (members.set index (poll index m w).walk).all isDone = true
        · rw [if_pos (Bool.or_eq_true_iff.mpr stop)]
          exact ⟨⟨minded.grows, tended, queued⟩, .inr (.inr stop)⟩
        · rw [if_neg (fun both => stop (Bool.or_eq_true_iff.mp both))] at behind ⊢
          have kept := goes _ 0 queued (by omega) (Nat.zero_le _) behind
          exact ⟨kept.1.after minded.grows, kept.2⟩

theorem pollGroup_minded {members : List Walk} {queue : Option (List Nat)} {w : World}
    (lightens : Lightens poll) (light : ∀ m ∈ members, m.weight ≤ bound)
    (h : Tended (K w.shared) here (joined members queue rest))
    (free : let round := (pollGroup poll members queue w).1
      Avoids s L (joined members queue rest) w (joined round.members queue rest) round.world) :
    let group := pollGroup poll members queue w
    s.Extends w.shared group.1.world.shared ∧
      (group.2 = none → ¬ group.1.members.all isDone = true →
        (group.1.left queue rest).Minded s again K here w) := by
  cases queue with
  | none =>
    have minded := pollEach_minded covers stepwise minds none rest [] members 0 w light
      (fun i m found => by rw [Nat.zero_add]; exact h.member found) free
    refine ⟨minded.grows, fun fine busy => ?_⟩
    have tended : Tended (K (pollEach poll 0 members w).world.shared) here
        (joined (pollEach poll 0 members w).members none rest) := by
      refine .joined rest (fun i m found => ?_) fun _ same => nomatch same
      have own := minded.tended i m found
      rwa [Nat.zero_add] at own
    have remains (i : Nat) (m : Walk) (found : (pollEach poll 0 members w).members[i]? = some m)
        (pending : m.isPending = true) : Remains again (K (pollEach poll 0 members w).world.shared)
          (here ++ [i]) m (pollEach poll 0 members w).woken := by
      have own := minded.remains fine i m found pending
      rwa [Nat.zero_add] at own
    have some := exists_pending (earliestError?_of_first fine) busy
    refine ⟨minded.grows, tended, fun _ => ⟨?_, ?_⟩⟩
    · by_cases asked : (pollEach poll 0 members w).woken = true
      · exact .inl asked
      · exact .inr (.joined rest rfl some fun i m found pending =>
          (remains i m found pending).asks.resolve_left asked)
    · obtain ⟨m, hm, pending⟩ := some
      obtain ⟨i, found⟩ := List.mem_iff_getElem?.mp hm
      exact (remains i m found pending).someone.imp_right fun own => own.member found
  | some waiting =>
    have queued : Queued (K w.shared) here members waiting := h.queued
    have enough : 2 * waiting.length + (1 - 0) ≤ (members.length + 1) * (members.length + 1) := by
      have short := queued.length_le
      rw [Nat.add_one_mul_add_one]
      omega
    obtain ⟨minded, ending⟩ := pollQueued_minded covers stepwise minds (some waiting) rest lightens
      ((members.length + 1) * (members.length + 1)) (unfinished members) 0
      ⟨w, members, waiting, false⟩ light
      ⟨.refl s _, fun i m found => h.member found, queued⟩ enough (Nat.zero_le 1) free
    refine ⟨minded.grows, fun fine busy => ?_⟩
    have fine : earliestError? (pollGroup poll members (some waiting) w).1.members = none := fine
    refine ⟨minded.grows, .joined rest minded.tended fun _ same => ?_, fun _ => ?_⟩
    · cases same
      exact minded.queued
    · rcases ending with ⟨asked, i, m, found, someone⟩ | empty | error | finished
      · exact ⟨.inl asked, someone.imp_right fun own => own.member found⟩
      · -- nobody is queued, so whoever is unfinished rests
        refine .of_rests (.joined rest empty (exists_pending fine busy) fun i m found pending => ?_)
        refine (minded.queued.known i m found pending).resolve_left fun there => ?_
        rw [empty] at there
        cases there
      · change (earliestError? (pollGroup poll members (some waiting) w).1.members).isSome = true at error
        rw [fine] at error
        cases error
      · exact absurd finished busy

end

/-! ## polls -/

section
variable {s : Setting} {L : Doing} {again : Prop} {K : Shared → Reason} {walk walk' : Walk}
  {w w' : World}

theorem waiting_of_ends {b : Branch} {shared : Shared} {ended : Shared × After}
    {error? : Option RunError} (h : s.Ends b shared ended error?) :
    ended.1.waiting = shared.waiting := by
  cases h <;> rfl

theorem waiting_start (bs : List Branch) (w : World) :
    (start bs w).1.shared.waiting = w.shared.waiting := by
  induction bs generalizing w with
  | nil => rfl
  | cons b bs ih => exact ih { w with shared := w.shared.begin b }

theorem Move.waiting (move : Move s walk w walk' w') : w'.shared.waiting = w.shared.waiting := by
  cases move with
  | @sync b step rest w body =>
    unfold Setting.runSync
    generalize (step w.shared.args).run { store := w.store, writable := true } = ran
    obtain ⟨view, result⟩ := ran
    have kept (shared : Shared) : (s.conclude b result shared).1.waiting = shared.waiting :=
      waiting_of_ends (Setting.conclude_ends result)
    exact kept _
  | lone => exact waiting_start ..
  | group => exact waiting_start ..
  | settle => exact waiting_of_ends (Setting.settle_ends _)

variable (covers : Covers s L again K)
include covers

theorem Move.tended (here : Address) (move : Move s walk w walk' w') (free : ¬ L walk w walk' w') :
    Tended (K w'.shared) here walk' := by
  cases move with
  | sync rest w body =>
    exact tended_walk fun c same => covers.stalls here (.sync rest w body) free same
  | lone rest w body => exact tended_start _ rest w
  | group bs rest w => exact tended_start bs rest w
  | settle ended =>
    exact tended_walk fun c same => covers.stalls here (.settle ended) free same

/-- **A poll forgets nobody.** It leaves a walk that is tended tended, and an unfinished one asks to be
polled again, or rests. -/
theorem pollAt_minded {here : Address} (h : Tended (K w.shared) here walk)
    (free : Avoids s L walk w (pollAt s here walk w).walk (pollAt s here walk w).world) :
    (pollAt s here walk w).Minded s again K here w := by
  induction size : walk.weight using Nat.strongRecOn generalizing here walk w with
  | ind bound ih =>
    subst size
    cases view s w walk with
    | @move _ walk' w' move =>
      rw [pollAt_move move] at free ⊢
      have steps : Steps s walk' w' _ _ := pollWith_steps s (walk'.weight + 1) here walk' w'
      have tended := move.tended covers here (free.first steps)
      have minded := ih _ move.weight_lt tended (free.behind (Step.move move).steps) rfl
      exact ⟨.trans (.of_same move.waiting) minded.grows, minded.tended, minded.remains⟩
    | still still =>
      rw [pollAt_still still]
      refine ⟨.refl s _, h, fun pending => .of_rests ?_⟩
      cases still with
      | done => cases pending
      | stalled b =>
        cases h with
        | stalled own => exact .stalled own
      | failed error => cases pending
    | @suspended b program left gate found =>
      rw [pollAt_suspended found] at free ⊢
      have reason := covers.waits here found (free.first (.refl ..))
      have closed := (AsyncProgram.waits_of_suspended found).1
      exact ⟨Setting.extends_waitAt closed here, .awaiting here b left,
        fun _ => .of_rests (.awaiting reason)⟩
    | @paused b program left found =>
      rw [pollAt_paused found] at free ⊢
      have asks := covers.pauses found (free.first (.refl ..))
      exact ⟨.refl s _, .awaiting here b left, fun _ => ⟨.inl rfl, .inl asks⟩⟩
    | joined members queue rest =>
      have stepwise : Stepwise s (fun index => pollAt s (here ++ [index])) :=
        fun index m w => pollWith_steps s (m.weight + 1) (here ++ [index]) m w
      have minds : Minds s L again K here (weights members) (fun index => pollAt s (here ++ [index])) := by
        intro index m w light tended free
        exact ih m.weight (by simp only [weight]; omega) tended free rfl
      have lightens : Lightens (fun index => pollAt s (here ++ [index])) :=
        fun index m w => weight_pollWith_le s (m.weight + 1) (here ++ [index]) m w
      have minded := pollGroup_minded covers stepwise minds rest lightens
        (fun m hm => weight_le_weights hm) h
      have reached := pollGroup_steps stepwise queue rest members queue w
      have raised := mem_of_pollGroup (fun index => pollAt s (here ++ [index])) members queue w
      rw [pollAt_joined] at free ⊢
      generalize pollGroup (fun index => pollAt s (here ++ [index])) members queue w = group
        at minded reached raised free ⊢
      obtain ⟨round, error⟩ := group
      cases error with
      | some error =>
        obtain ⟨grows, -⟩ := minded (free.before (Step.raise queue rest _ (raised error rfl)).steps)
        refine ⟨grows, .failed here error, fun pending => ?_⟩
        cases pending
      | none =>
        dsimp only at free ⊢
        by_cases finished : round.members.all isDone = true
        · rw [if_pos finished] at free ⊢
          have all := List.all_eq_true.mp finished
          have last : Steps s (ready rest) round.world _ _ :=
            pollWith_steps s ((ready rest).weight + 1) here (ready rest) round.world
          obtain ⟨grows, -⟩ := minded (free.before (.head (.join queue rest _ all) last))
          have behind := ih (ready rest).weight (by simp only [weight]; omega) (.ready here rest)
            (free.behind (reached.trans (Step.join queue rest _ all).steps)) rfl
          refine ⟨grows.trans behind.grows, behind.tended, fun pending => ?_⟩
          exact (behind.remains pending).mono (fun _ _ => id) fun asked =>
            Bool.or_eq_true_iff.mpr (.inr asked)
        · rw [if_neg finished] at free ⊢
          exact (minded (free.before (Step.requeue ..).steps)).2 rfl finished

end

/-! ## wakes -/

section
variable {K K' : Reason} {here : Address} {members : List Walk} {waiting : List Nat}

theorem isPending_wake (address : Address) (walk : Walk) :
    (walk.wake address).1.isPending = walk.isPending := by
  cases address with
  | nil => rfl
  | cons index address =>
    cases walk with
    | ready | awaiting | stalled | failed => rfl
    | joined members queue rest =>
      rw [wake]
      split
      · rfl
      · dsimp only
        repeat' split
        all_goals rfl

theorem address_ne {i index : Nat} {address x : Address} (other : index ≠ i)
    (inside : here ++ [i] <+: x) : x ≠ here ++ index :: address := by
  rintro rfl
  rw [List.prefix_append_right_inj] at inside
  exact other (List.cons_prefix_cons.mp inside).1.symm

variable (stalls : ∀ x b, K x (stalled b) → K' x (stalled b))
include stalls

/-- **A wake forgets nobody.** If only the walk that is reached loses its reason to wait, a walk that is
tended is left so; and one that rests goes on to rest, unless the word comes all the way out. -/
theorem wake_tended (address : Address) (walk : Walk)
    (kept : ∀ x leaf, K x leaf → K' x leaf ∨ x = here ++ address) (h : Tended K here walk) :
    Tended K' here (walk.wake address).1 ∧
      ((walk.wake address).2 = true ∨ (Rests K here walk → Rests K' here (walk.wake address).1)) := by
  induction address generalizing here walk with
  | nil =>
    refine ⟨?_, .inl rfl⟩
    rw [List.append_nil] at kept
    cases h with
    | ready => exact .ready here _
    | awaiting => exact .awaiting here _ _
    | stalled own => exact .stalled (stalls here _ own)
    | failed => exact .failed here _
    | joined rest each queued =>
      -- whoever stands further in is not the one that is reached
      have further {i : Nat} {x : Address} {leaf : Walk} (inside : here ++ [i] <+: x) (own : K x leaf) :
          K' x leaf := by
        refine (kept x leaf own).resolve_right fun same => ?_
        have short := (same ▸ inside).length_le
        rw [List.length_append, List.length_singleton] at short
        omega
      refine .joined rest (fun i m found => (each i m found).mono fun _ _ => further)
        fun waiting same => ?_
      have queued := queued waiting same
      exact ⟨queued.once, queued.inside, fun i m found pending =>
        (queued.known i m found pending).imp_right (Rests.mono fun _ _ => further)⟩
  | cons index address ih =>
    cases walk with
    | ready items => exact ⟨.ready here items, .inl rfl⟩
    | awaiting b program => exact ⟨.awaiting here b program, .inl rfl⟩
    | failed error => exact ⟨.failed here error, .inl rfl⟩
    | stalled b =>
      cases h with
      | stalled own => exact ⟨.stalled (stalls here b own), .inl rfl⟩
    | joined members queue rest =>
      have elsewhere (i : Nat) (x : Address) (leaf : Walk) (other : index ≠ i)
          (inside : here ++ [i] <+: x) (own : K x leaf) : K' x leaf :=
        (kept x leaf own).resolve_right (address_ne other inside)
      rw [wake]
      cases found : members[index]? with
      | none =>
        have all (i : Nat) (m : Walk) (there : members[i]? = some m) (x : Address) (leaf : Walk) :
            here ++ [i] <+: x → K x leaf → K' x leaf := by
          refine elsewhere i x leaf ?_
          rintro rfl
          rw [found] at there
          cases there
        refine ⟨.joined rest (fun i m there => (h.member there).mono (all i m there)) ?_, .inr ?_⟩
        · rintro waiting rfl
          exact ⟨h.queued.once, h.queued.inside, fun i m there pending =>
            (h.queued.known i m there pending).imp_right (Rests.mono (all i m there))⟩
        · rintro (_ | _ | ⟨_, quiet, some, each⟩)
          exact .joined rest quiet some fun i m there pending =>
            (each i m there pending).mono (all i m there)
      | some m =>
        have own : ∀ x leaf, K x leaf → K' x leaf ∨ x = (here ++ [index]) ++ address := by
          rw [List.append_assoc]
          exact kept
        obtain ⟨tended, reached⟩ := ih m own (h.member found)
        have alike := isPending_wake address m
        have there : index < members.length := (List.getElem?_eq_some_iff.mp found).1
        dsimp only
        generalize m.wake address = woken at tended reached alike ⊢
        obtain ⟨m', reach⟩ := woken
        have each := tended_set elsewhere (fun i n same => h.member same) there tended
        cases queue with
        | none =>
          refine ⟨.joined rest each fun _ same => ?_, ?_⟩
          · cases same
          · exact reached.imp_right fun own rests =>
              rests.set elsewhere found alike fun _ _ resting => own resting
        | some waiting =>
          have queued : Queued K here members waiting := h.queued
          dsimp only
          by_cases told : (reach && m.isPending && !waiting.contains index) = true
          · rw [if_pos told]
            obtain ⟨-, fresh⟩ := Bool.and_eq_true_iff.mp told
            obtain ⟨once, inside⟩ := queue_concat queued.once queued.inside
              (by simpa using fresh : index ∉ waiting) there
            refine ⟨.joined rest each fun _ same => ?_, .inl rfl⟩
            cases same
            exact queued.set elsewhere there once inside (fun i hi _ => List.mem_append_left _ hi)
              fun _ => .inl (List.mem_append_right _ (List.mem_singleton_self index))
          · rw [if_neg told]
            -- the word has not come so far, or the member is in the queue already
            have silent (pending : m.isPending = true) : index ∈ waiting ∨
                (Rests K (here ++ [index]) m → Rests K' (here ++ [index]) m') := by
              refine reached.imp_left fun reach => ?_
              by_contra fresh
              exact told (by simp_all)
            refine ⟨.joined rest each fun _ same => ?_, .inr fun rests => ?_⟩
            · cases same
              refine queued.set elsewhere there queued.once queued.inside (fun i hi _ => hi) fun own => ?_
              have pending := alike.symm.trans own
              rcases silent pending with there | own
              · exact .inl there
              · exact (queued.known index m found pending).imp_right own
            · refine rests.set elsewhere found alike fun pending quiet resting => ?_
              refine (silent pending).elim (fun there => ?_) fun own => own resting
              rw [show waiting = [] from quiet] at there
              cases there

end

end Walk

end SignalFlow
