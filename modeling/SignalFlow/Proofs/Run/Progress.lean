import SignalFlow.Proofs.Run.Trail
/-!
# Every step keeps the trail

* `Numbered`   branches with numbers of their own, each with a slot;
* `Keeps`      a step that leaves a walk standing where the slots say, and changes the slots of the
               branches that the walk can come to and no others.

`Step.keeps` is by induction on the step. A step of a member of a group is one of the walk that goes on
under the member; it keeps the trails of the other members because their branches are others.
-/

namespace SignalFlow

open Branch Walk

/-- branches with numbers of their own, each with a slot -/
structure Numbered (size : Nat) (bs : List Branch) : Prop where
  unique : Unique bs
  inside : ∀ b ∈ bs, b.id < size

section
variable {size : Nat} {bs more : List Branch} {before after : Shared}

theorem Numbered.sublist (h : Numbered size more) (smaller : bs.Sublist more) : Numbered size bs :=
  ⟨h.unique.sublist smaller, fun b hb => h.inside b (smaller.subset hb)⟩

theorem Unique.parts {α : Type} {parts : List α} {f : α → List Branch}
    (unique : Unique (parts.flatMap f)) {i j : Nat} {x y : α} (hi : parts[i]? = some x)
    (hj : parts[j]? = some y) (other : i ≠ j) : ∀ b ∈ f x, ∀ c ∈ f y, b.id ≠ c.id := by
  obtain ⟨insideI, rfl⟩ := List.getElem?_eq_some_iff.mp hi
  obtain ⟨insideJ, rfl⟩ := List.getElem?_eq_some_iff.mp hj
  have pairs := List.pairwise_iff_getElem.mp (List.pairwise_flatMap.mp unique).2
  rcases Nat.lt_or_gt_of_ne other with lt | gt
  · exact pairs i j insideI insideJ lt
  · exact fun b hb c hc same => pairs j i insideJ insideI gt c hc b hb same.symm

theorem Unique.members {i j : Nat} {b c : Branch} (unique : Unique (allOfMembers bs))
    (hi : bs[i]? = some b) (hj : bs[j]? = some c) (other : i ≠ j) :
    ∀ d ∈ all b, ∀ e ∈ all c, d.id ≠ e.id := by
  rw [allOfMembers_eq] at unique
  exact unique.parts hi hj other

theorem Frame.fresh (frame : Frame bs before after) (fresh : Fresh before.slot more)
    (apart : ∀ b ∈ bs, ∀ c ∈ more, b.id ≠ c.id) : Fresh after.slot more :=
  fun c hc => (frame.same c.id fun b hb => apart b hb c hc).trans (fresh c hc)

/-- what is behind a walk stays behind it while what is left changes -/
theorem Frame.reaches {items left : List (Item Branch)} (frame : Frame bs before after)
    (reaches : Reaches before.slot items left) (unique : Unique (allOf items))
    (inside : bs ⊆ allOf left) : Reaches after.slot items left :=
  reaches.alike unique fun b _ other =>
    .inl (frame.same b.id fun c hc => other c (inside hc))

theorem Frame.entered {b : Branch} (frame : Frame [b] before after)
    (fresh : Fresh before.slot b.under) (unique : Unique (all b))
    (executed : (after.slot b.id).Executed) :
    Entered after.slot b ∧ Fresh after.slot (allOf (b.taken after.slot)) := by
  have under : Fresh after.slot b.under :=
    frame.fresh fresh (List.forall_mem_singleton.mpr unique.own)
  exact ⟨⟨executed, fun c hc _ => under c hc⟩, under.mono (taken_sublist _ b).subset⟩

theorem Frame.open {b : Branch} (frame : Frame [b] before after)
    (fresh : Fresh before.slot b.under) (unique : Unique (all b))
    (begun : (after.slot b.id).Begun) : Open after.slot b :=
  ⟨begun, frame.fresh fresh (List.forall_mem_singleton.mpr unique.own)⟩

end

/-- the walk still stands where the slots say, and no slots but those of its branches have changed -/
def Keeps (scope : Scope) (walk : Walk) (w : World) (walk' : Walk) (w' : World) : Prop :=
  Numbered w.shared.slots.length scope.branches → Trail w.shared.slot scope walk →
    Trail w'.shared.slot scope walk' ∧ Frame scope.branches w.shared w'.shared

section
variable {s : Setting} {walk walk' m m' : Walk} {w w' : World} {items : List (Item Branch)}
  {b : Branch}

/-! ## moves -/

theorem keeps_sync {step : Args → SyncProgram} (rest : List (Item Branch)) :
    Keeps (.list items) (.ready (.step b :: rest)) w ((s.runSync b step w).2.walk b rest)
      (s.runSync b step w).1 := by
  intro numbered trail
  cases trail with
  | ready reaches fresh =>
    have sub := reaches.sublist
    rw [allOf] at sub fresh
    obtain ⟨above, behind⟩ := List.forall_mem_append.mp fresh
    obtain ⟨first, -, apart⟩ := (numbered.unique.sublist sub).append
    have own : b ∈ all b ++ allOf rest := List.mem_append_left _ (mem_all_self b)
    obtain ⟨frame, shown⟩ := Setting.runSync_shown (s := s)
      (numbered.inside b (sub.subset own)) step w.store
    have alone : [b] ⊆ all b ++ allOf rest := List.cons_subset.mpr ⟨own, List.nil_subset _⟩
    have reaches' := frame.reaches reaches numbered.unique (by rwa [allOf])
    have behind' := frame.fresh behind
      (List.forall_mem_singleton.mpr fun c hc => apart b (mem_all_self b) c hc)
    have under := Fresh.mono above (under_sublist b).subset
    refine ⟨?_, (frame.mono alone).mono sub.subset⟩
    generalize s.runSync b step w = ran at frame shown reaches' behind' ⊢
    obtain ⟨w', after⟩ := ran
    dsimp only at frame shown reaches' behind' ⊢
    cases after with
    | follow list =>
      obtain ⟨executed, rfl⟩ := shown
      obtain ⟨entered, inside⟩ := frame.entered under first executed
      exact .ready (reaches'.trans (.into rest entered (.here _))) (Fresh.append.mpr ⟨inside, behind'⟩)
    | stall => exact .stalled reaches' (frame.open under first shown) behind'
    | fail error =>
      have opened := frame.open under first shown
      exact .failed error (reaches'.orderly (.here (List.forall_mem_singleton.mpr (.inl opened))
        (List.forall_mem_singleton.mpr opened.orderly) behind'))

theorem keeps_start (item : Item Branch) (rest : List (Item Branch)) :
    Keeps (.list items) (.ready (item :: rest)) w (joinedOf (start item.members w).2 rest)
      (start item.members w).1 := by
  intro numbered trail
  cases trail with
  | ready reaches fresh =>
    have sub := reaches.sublist
    rw [allOf_cons] at sub fresh
    obtain ⟨above, behind⟩ := List.forall_mem_append.mp fresh
    obtain ⟨first, -, apart⟩ := (numbered.unique.sublist sub).append
    have own : item.members ⊆ allOfMembers item.members := fun b hb =>
      (all_sublist_allOfMembers hb).subset (mem_all_self b)
    have front : item.members ⊆ allOfMembers item.members ++ allOf rest :=
      fun b hb => List.mem_append_left _ (own hb)
    have frame := frame_start item.members w
    have begun := start_begun fun b hb => numbered.inside b (sub.subset (front hb))
    refine ⟨.joined _ (frame.reaches reaches numbered.unique (by rwa [allOf_cons]))
      (frame.fresh behind fun b hb c hc => apart b (own hb) c hc)
      (by rw [start_members, List.length_map]) fun i b m hb hm => ?_,
      (frame.mono front).mono sub.subset⟩
    rw [start_members, List.getElem?_map, hb] at hm
    cases hm
    have member := List.mem_of_getElem? hb
    refine .awaiting _ ⟨begun b member, frame.fresh ?_ fun c hc d hd => ?_⟩
    · exact Fresh.mono above
        ((under_sublist b).trans (all_sublist_allOfMembers member)).subset
    · obtain ⟨j, hj⟩ := List.mem_iff_getElem?.mp hc
      by_cases same : i = j
      · subst same
        rw [hb] at hj
        cases hj
        exact (first.sublist (all_sublist_allOfMembers member)).own d hd
      · exact fun e => Unique.members first hb hj same d ((under_sublist b).subset hd) c
          (mem_all_self c) e.symm

theorem keeps_settle (program : AsyncProgram) (result : StepResult) :
    Keeps (.member b) (.awaiting b program) w ((s.settle b result w.shared).2.walk b [])
      { w with shared := (s.settle b result w.shared).1 } := by
  intro numbered trail
  have opened : Open w.shared.slot b := by
    cases trail with
    | awaiting _ opened => exact opened
    | entered _ trail => cases trail
  obtain ⟨frame, shown, moves⟩ := Setting.settle_shown (s := s)
    (numbered.inside b (mem_all_self b)) opened.begun result
  refine ⟨?_, frame.mono (List.cons_subset.mpr ⟨mem_all_self b, List.nil_subset _⟩)⟩
  dsimp only
  generalize s.settle b result w.shared = settled at frame shown moves ⊢
  obtain ⟨shared, after⟩ := settled
  dsimp only at frame shown moves ⊢
  cases after with
  | follow list =>
    obtain ⟨executed, rfl⟩ := shown
    obtain ⟨entered, inside⟩ := frame.entered opened.under numbered.unique executed
    rw [After.walk, List.append_nil]
    exact .entered entered (.ready (.here _) inside)
  | stall => exact absurd rfl moves
  | fail error => exact .givenUp error (frame.open opened.under numbered.unique shown)

/-! ## steps -/

/-- a step of a member, if a step of the walk under it keeps the trail -/
theorem keeps_member (step : Step s m w m' w')
    (below : ∀ items, Keeps (.list items) m w m' w') : Keeps (.member b) m w m' w' := by
  intro numbered trail
  cases trail with
  | awaiting program opened =>
    cases step with
    | move h =>
      cases h with
      | settle ended => exact keeps_settle program _ numbered (.awaiting program opened)
    | suspend waiting _ => exact ⟨.awaiting _ opened, rfl, fun _ _ => rfl⟩
  | givenUp error opened =>
    cases step with
    | move h => cases h
  | entered entered trail =>
    have inside := (taken_sublist w.shared.slot b).trans (under_sublist b)
    -- the step stays within the list that `b` led to, so `b` goes on showing the way to it
    obtain ⟨trail', frame⟩ := below _ (numbered.sublist inside) trail
    have own : (w.shared.slot b.id).Like (w'.shared.slot b.id) := .inl <|
      frame.same b.id fun c hc e => numbered.unique.own c ((taken_sublist _ b).subset hc) e.symm
    refine ⟨.entered (entered.alike own fun c _ other => .inl (frame.same c.id other)) ?_,
      frame.mono inside.subset⟩
    rw [taken_alike own]
    exact trail'

/-- **A step keeps the trail.** -/
theorem Walk.Step.keeps (step : Step s walk w walk' w') :
    ∀ items, Keeps (.list items) walk w walk' w' := by
  induction step with
  | move h =>
    intro items
    cases h with
    | sync rest w body => exact keeps_sync rest
    | @lone b _ rest w body => exact keeps_start (.step b) rest
    | group bs rest w => exact keeps_start (.group bs) rest
    | settle ended => exact fun _ trail => nomatch trail
  | suspend => exact fun _ _ trail => nomatch trail
  | @member members i m m' w w' queue rest found step ih =>
    intro items numbered trail
    cases trail with
    | @joined _ item _ _ _ reaches fresh length each =>
      have sub := reaches.sublist
      rw [allOf_cons] at sub
      obtain ⟨first, -, apart⟩ := (numbered.unique.sublist sub).append
      have inside : i < item.members.length :=
        length ▸ (List.getElem?_eq_some_iff.mp found).1
      have hb := List.getElem?_eq_getElem inside
      generalize item.members[i] = b at hb
      have own := all_sublist_allOfMembers (List.mem_of_getElem? hb)
      have front := own.trans (List.sublist_append_left _ (allOf rest))
      obtain ⟨trail', frame⟩ := keeps_member step ih (numbered.sublist (front.trans sub))
        (each i b m hb found)
      refine ⟨.joined queue
        (frame.reaches reaches numbered.unique (by rw [allOf_cons]; exact front.subset))
        (frame.fresh fresh fun c hc d hd => apart c (own.subset hc) d hd)
        (by rw [List.length_set, length]) fun j c n hc hn => ?_,
        frame.mono (front.trans sub).subset⟩
      by_cases same : i = j
      · subst same
        rw [List.getElem?_set_self (List.getElem?_eq_some_iff.mp found).1] at hn
        rw [hb] at hc
        cases hc
        cases hn
        exact trail'
      · rw [List.getElem?_set_ne same] at hn
        refine (each j c n hc hn).alike
          (first.sublist (all_sublist_allOfMembers (List.mem_of_getElem? hc))) fun d hd => ?_
        exact .inl (frame.same d.id fun e he => Unique.members first hb hc same e he d hd)
  | requeue members queue queue' rest w =>
    intro items _ trail
    cases trail with
    | joined _ reaches fresh length each =>
      exact ⟨.joined queue' reaches fresh length each, .refl ..⟩
  | raise queue rest w raised =>
    exact fun items _ trail => ⟨.failed _ trail.orderly, .refl ..⟩
  | join queue rest w all =>
    intro items _ trail
    cases trail with
    | @joined _ item _ _ _ reaches fresh length each =>
      have finished : ∀ b ∈ item.members, Finished w.shared.slot b :=
        forall_of_paired length fun i b m hb hm =>
          (each i b m hb hm).finished (all m (List.mem_of_getElem? hm))
      exact ⟨.ready (reaches.trans (.past finished (.here rest))) fresh, .refl ..⟩

theorem Walk.Steps.keeps (steps : Steps s walk w walk' w') (items : List (Item Branch)) :
    Keeps (.list items) walk w walk' w' := by
  induction steps with
  | refl => exact fun _ trail => ⟨trail, .refl ..⟩
  | head first _ ih =>
    intro numbered trail
    obtain ⟨trail, frame⟩ := first.keeps items numbered trail
    obtain ⟨trail, frame'⟩ := ih (frame.length.symm ▸ numbered) trail
    exact ⟨trail, frame.trans frame'⟩

end

end SignalFlow
