import SignalFlow.Proofs.Run.Slots
import SignalFlow.Proofs.Run.Step
/-!
# How far a walk has come

What the slots say about the branches of a list, and how a walk through the list agrees with them.

* `Fresh`       branches that have not begun;
* `Open`        a branch that has begun and has no outcome, with nothing under it begun;
* `Entered`     a branch that has ended, with nothing begun under it but in the list it led to;
* `Finished`    a branch that has ended, and the list it led to is finished as well;
* `Reaches`     what is left of a list when everything before it is behind the walk;
* `Orderly`     a list in which no step has begun early, however far it has come;
* `Trail`       a walk stands where the slots say.

`Trail` implies `Orderly` (`Trail.orderly`), and a walk that is done leaves a finished list behind
(`Trail.done`). Every predicate depends on the slots of its own branches only, and not on whether
branches are marked as executing, which the end of a run resets: the lemmas named `alike`.
-/

namespace SignalFlow

open Branch

/-- the list under the output that a branch took -/
def Branch.taken (slot : Nat → Slot) (b : Branch) : List (Item Branch) :=
  b.next (slot b.id).outputPath

section
variable (slot : Nat → Slot)

/-- none of these branches has begun -/
def Fresh (bs : List Branch) : Prop := ∀ b ∈ bs, slot b.id = {}

/-- a branch has begun and has no outcome, and nothing under it has begun -/
structure Open (b : Branch) : Prop where
  begun : (slot b.id).Begun
  under : Fresh slot b.under

/-- a branch has ended, and nothing under it has begun but in the list that it led to -/
structure Entered (b : Branch) : Prop where
  executed : (slot b.id).Executed
  elsewhere : ∀ c ∈ b.under, (∀ d ∈ allOf (b.taken slot), d.id ≠ c.id) → slot c.id = {}

/-- a branch has ended, and every branch in the list that it led to is finished -/
inductive Finished : Branch → Prop
  | mk {b : Branch} : Entered slot b →
      (∀ item ∈ b.taken slot, ∀ c ∈ item.members, Finished c) → Finished b

/-- every branch in the list is finished -/
def Done (items : List (Item Branch)) : Prop := ∀ item ∈ items, ∀ b ∈ item.members, Finished slot b

/-- what is left of a list when everything before it is behind the walk -/
inductive Reaches : List (Item Branch) → List (Item Branch) → Prop
  | here (items : List (Item Branch)) : Reaches items items
  | past {item : Item Branch} {rest left : List (Item Branch)} :
      (∀ b ∈ item.members, Finished slot b) → Reaches rest left → Reaches (item :: rest) left
  | into {b : Branch} {left : List (Item Branch)} (rest : List (Item Branch)) :
      Entered slot b → Reaches (b.taken slot) left → Reaches (.step b :: rest) (left ++ rest)

/-- no step of the list has begun early -/
inductive Orderly : List (Item Branch) → Prop
  | fresh {items : List (Item Branch)} : Fresh slot (allOf items) → Orderly items
  | past {item : Item Branch} {rest : List (Item Branch)} :
      (∀ b ∈ item.members, Finished slot b) → Orderly rest → Orderly (item :: rest)
  -- what an open branch could lead to has not begun, so each branch leads to an orderly list
  | here {item : Item Branch} {rest : List (Item Branch)} :
      (∀ b ∈ item.members, Open slot b ∨ Entered slot b) →
      (∀ b ∈ item.members, Orderly (b.taken slot)) → Fresh slot (allOf rest) →
      Orderly (item :: rest)

end

/-- what a walk goes through: a list, or a member of a group and what is under it -/
inductive Scope
  | list (items : List (Item Branch))
  | member (b : Branch)

/-- the branches that a walk can come to -/
def Scope.branches : Scope → List Branch
  | list items => allOf items
  | member b => all b

/-- the walk stands where the slots say -/
inductive Trail (slot : Nat → Slot) : Scope → Walk → Prop
  | ready {items left : List (Item Branch)} :
      Reaches slot items left → Fresh slot (allOf left) → Trail slot (.list items) (.ready left)
  | joined {items : List (Item Branch)} {item : Item Branch} {members : List Walk}
      {rest : List (Item Branch)} (queue : Option (List Nat)) :
      Reaches slot items (item :: rest) → Fresh slot (allOf rest) →
      members.length = item.members.length →
      (∀ (i : Nat) b m, item.members[i]? = some b → members[i]? = some m →
        Trail slot (.member b) m) →
      Trail slot (.list items) (.joined members queue rest)
  | stalled {items : List (Item Branch)} {b : Branch} {rest : List (Item Branch)} :
      Reaches slot items (.step b :: rest) → Open slot b → Fresh slot (allOf rest) →
      Trail slot (.list items) (.stalled b)
  | failed {items : List (Item Branch)} (error : RunError) :
      Orderly slot items → Trail slot (.list items) (.failed error)
  | awaiting {b : Branch} (program : AsyncProgram) :
      Open slot b → Trail slot (.member b) (.awaiting b program)
  | givenUp {b : Branch} (error : RunError) :
      Open slot b → Trail slot (.member b) (.failed error)
  | entered {b : Branch} {walk : Walk} :
      Entered slot b → Trail slot (.list (b.taken slot)) walk → Trail slot (.member b) walk

/-! ## lists -/

section
variable {slot : Nat → Slot} {items front rest middle left : List (Item Branch)}
  {item : Item Branch} {b : Branch}

theorem Fresh.mono {bs more : List Branch} (h : Fresh slot more) (smaller : bs ⊆ more) :
    Fresh slot bs := fun b hb => h b (smaller hb)

theorem Fresh.append : Fresh slot (allOf (front ++ rest)) ↔
    Fresh slot (allOf front) ∧ Fresh slot (allOf rest) := by
  rw [allOf_append]
  exact List.forall_mem_append

theorem Done.append : Done slot (front ++ rest) ↔ Done slot front ∧ Done slot rest :=
  List.forall_mem_append

theorem Done.cons : Done slot (item :: rest) ↔
    (∀ b ∈ item.members, Finished slot b) ∧ Done slot rest := List.forall_mem_cons

theorem Done.nil : Done slot [] := fun _ h => nomatch h

theorem taken_sublist (slot : Nat → Slot) (b : Branch) :
    (allOf (b.taken slot)).Sublist b.under := allOf_next_sublist b _

theorem under_sublist (b : Branch) : b.under.Sublist (all b) := by
  rw [all_eq]
  exact List.sublist_cons_self ..

theorem all_sublist_under (hi : item ∈ b.taken slot) {c : Branch} (hc : c ∈ item.members) :
    (all c).Sublist b.under := (all_sublist_allOf hi hc).trans (taken_sublist slot b)

theorem Reaches.sublist (h : Reaches slot items left) : (allOf left).Sublist (allOf items) := by
  induction h with
  | here items => exact .refl _
  | past _ _ ih =>
    rw [allOf_cons]
    exact ih.trans (List.sublist_append_right ..)
  | @into b left rest _ _ ih =>
    rw [allOf_append, allOf, all_eq]
    exact ((ih.trans (allOf_next_sublist b _)).cons b).append (.refl _)

theorem Reaches.done (h : Reaches slot items left) (done : Done slot left) : Done slot items := by
  induction h with
  | here items => exact done
  | past finished _ ih => exact Done.cons.mpr ⟨finished, ih done⟩
  | @into b left rest entered _ ih =>
    obtain ⟨inside, behind⟩ := Done.append.mp done
    exact Done.cons.mpr ⟨List.forall_mem_singleton.mpr (.mk entered (ih inside)), behind⟩

/-- what is left of two lists is left of the first, or the first is finished -/
theorem Reaches.split (h : Reaches slot (front ++ rest) left) :
    (∃ inner, left = inner ++ rest ∧ Reaches slot front inner) ∨
      (Done slot front ∧ Reaches slot rest left) := by
  generalize e : front ++ rest = items at h
  induction h generalizing front with
  | here items => exact .inl ⟨front, e.symm, .here front⟩
  | past finished behind ih =>
    cases front with
    | nil =>
      rw [List.nil_append] at e
      exact .inr ⟨.nil, e ▸ .past finished behind⟩
    | cons item front =>
      cases e
      rcases ih rfl with ⟨inner, same, reaches⟩ | ⟨done, reaches⟩
      · exact .inl ⟨inner, same, .past finished reaches⟩
      · exact .inr ⟨Done.cons.mpr ⟨finished, done⟩, reaches⟩
  | @into b left behind entered inside _ =>
    cases front with
    | nil =>
      rw [List.nil_append] at e
      exact .inr ⟨.nil, e ▸ .into behind entered inside⟩
    | cons item front =>
      cases e
      exact .inl ⟨left ++ front, (List.append_assoc ..).symm, .into front entered inside⟩

theorem Reaches.trans (h : Reaches slot items middle) (h' : Reaches slot middle left) :
    Reaches slot items left := by
  induction h generalizing left with
  | here items => exact h'
  | past finished _ ih => exact .past finished (ih h')
  | @into b middle rest entered inside ih =>
    rcases h'.split with ⟨inner, rfl, reaches⟩ | ⟨done, reaches⟩
    · exact .into rest entered (ih reaches)
    · exact .past (List.forall_mem_singleton.mpr (.mk entered (inside.done done))) reaches

/-- what is shown of each branch of a group beside its walk holds of every branch of the group -/
theorem forall_of_paired {bs : List Branch} {members : List Walk} {P : Branch → Prop}
    (length : members.length = bs.length)
    (each : ∀ (i : Nat) b m, bs[i]? = some b → members[i]? = some m → P b) : ∀ b ∈ bs, P b := by
  intro b hb
  obtain ⟨i, inside, rfl⟩ := List.mem_iff_getElem.mp hb
  exact each i _ _ (List.getElem?_eq_getElem inside)
    (List.getElem?_eq_getElem (length ▸ inside))

/-! ## order -/

theorem Done.orderly (h : Done slot items) : Orderly slot items := by
  induction items with
  | nil => exact .fresh fun _ h => nomatch h
  | cons item rest ih =>
    obtain ⟨finished, behind⟩ := Done.cons.mp h
    exact .past finished (ih behind)

theorem Orderly.split (h : Orderly slot (front ++ rest)) :
    (Orderly slot front ∧ Fresh slot (allOf rest)) ∨ (Done slot front ∧ Orderly slot rest) := by
  induction front with
  | nil => exact .inr ⟨.nil, h⟩
  | cons item front ih =>
    cases h with
    | fresh fresh =>
      obtain ⟨first, behind⟩ := Fresh.append.mp fresh
      exact .inl ⟨.fresh first, behind⟩
    | past finished behind =>
      rcases ih behind with ⟨orderly, fresh⟩ | ⟨done, orderly⟩
      · exact .inl ⟨.past finished orderly, fresh⟩
      · exact .inr ⟨Done.cons.mpr ⟨finished, done⟩, orderly⟩
    | here partly inside fresh =>
      obtain ⟨first, behind⟩ := Fresh.append.mp fresh
      exact .inl ⟨.here partly inside first, behind⟩

theorem Reaches.orderly (h : Reaches slot items left) (orderly : Orderly slot left) :
    Orderly slot items := by
  induction h with
  | here items => exact orderly
  | past finished _ ih => exact .past finished (ih orderly)
  | @into b left rest entered inside ih =>
    rcases orderly.split with ⟨first, fresh⟩ | ⟨done, behind⟩
    · exact .here (List.forall_mem_singleton.mpr (.inr entered))
        (List.forall_mem_singleton.mpr (ih first)) fresh
    · exact .past (List.forall_mem_singleton.mpr (.mk entered (inside.done done))) behind

theorem Open.orderly (h : Open slot b) : Orderly slot (b.taken slot) :=
  .fresh (h.under.mono (taken_sublist slot b).subset)

/-- what a walk through a list or through a member of a group shows of the order of steps -/
def Scope.Orderly (slot : Nat → Slot) : Scope → Prop
  | list items => SignalFlow.Orderly slot items
  | member b => (Open slot b ∨ Entered slot b) ∧ SignalFlow.Orderly slot (b.taken slot)

/-- **A walk that stands where the slots say has begun no step early.** -/
theorem Trail.orderly {scope : Scope} {walk : Walk} (h : Trail slot scope walk) :
    scope.Orderly slot := by
  induction h with
  | ready reaches fresh => exact reaches.orderly (.fresh fresh)
  | @joined items item members rest queue reaches fresh length _ ih =>
    have each : ∀ b ∈ item.members, Scope.Orderly slot (.member b) := forall_of_paired length ih
    exact reaches.orderly (.here (fun b hb => (each b hb).1) (fun b hb => (each b hb).2) fresh)
  | stalled reaches opened fresh =>
    exact reaches.orderly (.here (List.forall_mem_singleton.mpr (.inl opened))
      (List.forall_mem_singleton.mpr opened.orderly) fresh)
  | failed error orderly => exact orderly
  | awaiting program opened => exact ⟨.inl opened, opened.orderly⟩
  | givenUp error opened => exact ⟨.inl opened, opened.orderly⟩
  | entered entered _ ih => exact ⟨.inr entered, ih⟩

/-- **A walk that is done leaves a finished list behind.** -/
theorem Trail.done {walk : Walk} (h : Trail slot (.list items) walk)
    (ended : walk.isDone = true) : Done slot items := by
  cases h with
  | @ready _ left reaches _ =>
    cases left with
    | nil => exact reaches.done .nil
    | cons item left => cases ended
  | joined | stalled | failed => cases ended

theorem Trail.finished {m : Walk} (h : Trail slot (.member b) m) (ended : m.isDone = true) :
    Finished slot b := by
  cases h with
  | awaiting | givenUp => cases ended
  | entered entered trail => exact .mk entered (trail.done ended)

end

/-! ## slots that say the same -/

/-- the slot is as it was, or not executing any more -/
def Slot.Like (x y : Slot) : Prop := y = x ∨ y = { x with isExecuting := false }

section
variable {x y : Slot}

theorem Slot.Like.fresh (h : Slot.Like {} y) : y = {} := h.elim id id

theorem Slot.Like.begun (h : x.Like y) (begun : x.Begun) : y.Begun := by
  rcases h with rfl | rfl
  · exact begun
  · exact ⟨begun.seen, begun.pending⟩

theorem Slot.Like.executed (h : x.Like y) (executed : x.Executed) : y.Executed := by
  rcases h with rfl | rfl
  · exact executed
  · exact ⟨executed.seen, executed.ended, rfl⟩

theorem Slot.Like.outputPath (h : x.Like y) : y.outputPath = x.outputPath := by
  rcases h with rfl | rfl <;> rfl

end

/-- the slots of these branches say the same -/
def Alike (slot slot' : Nat → Slot) (bs : List Branch) : Prop :=
  ∀ b ∈ bs, (slot b.id).Like (slot' b.id)

/-- no number stands twice -/
def Unique (bs : List Branch) : Prop := bs.Pairwise fun b c => b.id ≠ c.id

section
variable {slot slot' : Nat → Slot} {items rest left : List (Item Branch)} {b : Branch}
  {bs more : List Branch}

theorem Alike.mono (h : Alike slot slot' more) (smaller : bs ⊆ more) : Alike slot slot' bs :=
  fun b hb => h b (smaller hb)

theorem Unique.sublist (h : Unique more) (smaller : bs.Sublist more) : Unique bs :=
  List.Pairwise.sublist smaller h

theorem Unique.append (h : Unique (bs ++ more)) :
    Unique bs ∧ Unique more ∧ ∀ b ∈ bs, ∀ c ∈ more, b.id ≠ c.id := List.pairwise_append.mp h

theorem Unique.eq {c : Branch} (h : Unique bs) (hb : b ∈ bs) (hc : c ∈ bs) (same : b.id = c.id) :
    b = c := by
  obtain ⟨i, insideI, rfl⟩ := List.mem_iff_getElem.mp hb
  obtain ⟨j, insideJ, rfl⟩ := List.mem_iff_getElem.mp hc
  have pairs := List.pairwise_iff_getElem.mp h
  rcases Nat.lt_trichotomy i j with lt | rfl | gt
  · exact absurd same (pairs i j insideI insideJ lt)
  · rfl
  · exact absurd same.symm (pairs j i insideJ insideI gt)

theorem Unique.own (h : Unique (all b)) : ∀ c ∈ b.under, b.id ≠ c.id := by
  rw [all_eq] at h
  exact (List.pairwise_cons.mp h).1

theorem taken_alike (own : (slot b.id).Like (slot' b.id)) : b.taken slot' = b.taken slot :=
  congrArg b.next own.outputPath

theorem Fresh.alike (h : Fresh slot bs) (same : Alike slot slot' bs) : Fresh slot' bs := by
  intro b hb
  have own := same b hb
  rw [h b hb] at own
  exact own.fresh

theorem Open.alike (h : Open slot b) (same : Alike slot slot' (all b)) : Open slot' b :=
  ⟨(same b (mem_all_self b)).begun h.begun, h.under.alike (same.mono (under_sublist b).subset)⟩

/-- what is in the list that the branch led to does not matter -/
theorem Entered.alike (h : Entered slot b) (own : (slot b.id).Like (slot' b.id))
    (same : ∀ c ∈ b.under, (∀ d ∈ allOf (b.taken slot), d.id ≠ c.id) →
      (slot c.id).Like (slot' c.id)) : Entered slot' b := by
  refine ⟨own.executed h.executed, fun c hc other => ?_⟩
  rw [taken_alike own] at other
  have like := same c hc other
  rw [h.elsewhere c hc other] at like
  exact like.fresh

theorem Finished.alike (h : Finished slot b) (same : Alike slot slot' (all b)) :
    Finished slot' b := by
  induction h with
  | @mk b entered _ ih =>
    have own := same b (mem_all_self b)
    have below := same.mono (under_sublist b).subset
    refine .mk (entered.alike own fun c hc _ => below c hc) fun item hi c hc => ?_
    rw [taken_alike own] at hi
    exact ih item hi c hc (below.mono (all_sublist_under hi hc).subset)

theorem Orderly.alike (h : Orderly slot items) (same : Alike slot slot' (allOf items)) :
    Orderly slot' items := by
  induction h with
  | fresh fresh => exact .fresh (fresh.alike same)
  | @past item rest finished _ ih =>
    rw [allOf_cons] at same
    obtain ⟨first, behind⟩ := List.forall_mem_append.mp same
    refine .past (fun b hb => (finished b hb).alike ?_) (ih behind)
    exact Alike.mono first (all_sublist_allOfMembers hb).subset
  | @here item rest partly _ fresh ih =>
    rw [allOf_cons] at same
    obtain ⟨first, behind⟩ := List.forall_mem_append.mp same
    have each : ∀ b ∈ item.members, Alike slot slot' (all b) := fun b hb =>
      Alike.mono first (all_sublist_allOfMembers hb).subset
    refine .here (fun b hb => ?_) (fun b hb => ?_) (fresh.alike behind)
    · refine (partly b hb).imp (·.alike (each b hb)) (·.alike (each b hb b (mem_all_self b)) ?_)
      exact fun c hc _ => each b hb c ((under_sublist b).subset hc)
    · rw [taken_alike (each b hb b (mem_all_self b))]
      exact ih b hb ((each b hb).mono ((taken_sublist slot b).trans (under_sublist b)).subset)

/-- what is left does not matter, only what is behind -/
theorem Reaches.alike (h : Reaches slot items left) (unique : Unique (allOf items))
    (same : ∀ b ∈ allOf items, (∀ d ∈ allOf left, d.id ≠ b.id) →
      (slot b.id).Like (slot' b.id)) : Reaches slot' items left := by
  induction h with
  | here items => exact .here items
  | @past item rest left finished reaches ih =>
    rw [allOf_cons] at unique same
    obtain ⟨-, behind, apart⟩ := unique.append
    refine .past (fun b hb => (finished b hb).alike fun c hc => ?_)
      (ih behind fun b hb => same b (List.mem_append_right _ hb))
    have inside := (all_sublist_allOfMembers hb).subset hc
    exact same c (List.mem_append_left _ inside) fun d hd e =>
      apart c inside d (reaches.sublist.subset hd) e.symm
  | @into b left rest entered reaches ih =>
    rw [allOf, all_eq] at unique same
    rw [allOf_append] at same
    obtain ⟨above, -, apart⟩ := unique.append
    obtain ⟨own, below⟩ := List.pairwise_cons.mp above
    have inside := (taken_sublist slot b).subset
    have kept : ∀ c ∈ b :: b.under, (∀ d ∈ allOf left, d.id ≠ c.id) →
        (slot c.id).Like (slot' c.id) := fun c hc other =>
      same c (List.mem_append_left _ hc) (List.forall_mem_append.mpr
        ⟨other, fun d hd e => apart c hc d hd e.symm⟩)
    have like := kept b List.mem_cons_self fun d hd e =>
      own d (inside (reaches.sublist.subset hd)) e.symm
    -- `b` and what is elsewhere under it are behind; the list it led to keeps what is left of it
    refine .into rest (entered.alike like fun c hc other => ?_) (taken_alike like ▸ ?_)
    · exact kept c (List.mem_cons_of_mem _ hc) fun d hd => other d (reaches.sublist.subset hd)
    · exact ih (below.sublist (allOf_next_sublist b _)) fun c hc =>
        kept c (List.mem_cons_of_mem _ (inside hc))

theorem Trail.alike {scope : Scope} {walk : Walk} (h : Trail slot scope walk)
    (unique : Unique scope.branches) (same : Alike slot slot' scope.branches) :
    Trail slot' scope walk := by
  induction h with
  | ready reaches fresh =>
    exact .ready (reaches.alike unique fun b hb _ => same b hb)
      (fresh.alike (same.mono reaches.sublist.subset))
  | @joined items item members rest queue reaches fresh length _ ih =>
    have sub := reaches.sublist
    rw [allOf_cons] at sub
    have inside : ∀ b ∈ item.members, (all b).Sublist (allOf items) := fun b hb =>
      ((all_sublist_allOfMembers hb).trans (List.sublist_append_left ..)).trans sub
    refine .joined queue (reaches.alike unique fun b hb _ => same b hb)
      (fresh.alike (same.mono ((List.sublist_append_right ..).trans sub).subset)) length
      fun i b m hb hm => ?_
    have hb' := inside b (List.mem_of_getElem? hb)
    exact ih i b m hb hm (unique.sublist hb') (same.mono hb'.subset)
  | @stalled items b rest reaches opened fresh =>
    have sub := reaches.sublist
    rw [allOf] at sub
    exact .stalled (reaches.alike unique fun b hb _ => same b hb)
      (opened.alike (same.mono ((List.sublist_append_left ..).trans sub).subset))
      (fresh.alike (same.mono ((List.sublist_append_right ..).trans sub).subset))
  | failed error orderly => exact .failed error (orderly.alike same)
  | awaiting program opened => exact .awaiting program (opened.alike same)
  | givenUp error opened => exact .givenUp error (opened.alike same)
  | @entered b walk entered _ ih =>
    have own := same b (mem_all_self b)
    have sub := (taken_sublist slot b).trans (under_sublist b)
    have below : Unique b.under := by
      rw [Scope.branches, all_eq] at unique
      exact (List.pairwise_cons.mp unique).2
    refine .entered (entered.alike own fun c hc _ => same c ((under_sublist b).subset hc)) ?_
    rw [taken_alike own]
    exact ih (below.sublist (allOf_next_sublist b _)) (same.mono sub.subset)

end

end SignalFlow
