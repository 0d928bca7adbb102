import SignalFlow.Proofs.Run.Reachable
/-!
# No step begins early

* `Tree.Holds`   the compiled lists of a tree, outermost and nested.

`Run.Reachable.ordered`: in every reachable run, once an item of a list has begun, everything before it
in the list is finished, with the lists that it led to; and a list under an output is begun only when the
branch above it has ended through this output.
-/

namespace SignalFlow

open Branch

/-- the compiled lists of a tree: the outermost one, and those under the outputs of branches in them -/
inductive Tree.Holds (tree : Tree) : List (Item Branch) → Prop
  | outermost : Holds tree tree.branches
  | under {list items : List (Item Branch)} {item : Item Branch} {b : Branch}
      {outputs : List (String × List (Item Branch))} {output : String} :
      Holds tree list → item ∈ list → b ∈ item.members → b.outputs = some outputs →
      (output, items) ∈ outputs → Holds tree items

section
variable {slot : Nat → Slot} {items front behind : List (Item Branch)} {item : Item Branch}
  {b c : Branch} {outputs : List (String × List (Item Branch))} {output : String}

theorem Unique.under (unique : Unique (allOf items)) (hi : item ∈ items) (hb : b ∈ item.members) :
    Unique b.under := unique.sublist ((under_sublist b).trans (all_sublist_allOf hi hb))

theorem allOf_sublist_under (found : b.outputs = some outputs) (mem : (output, items) ∈ outputs) :
    (allOf items).Sublist b.under := by
  rw [Branch.under, found]
  exact allUnder_of_mem mem

theorem Fresh.not_begun (fresh : Fresh slot (allOf items)) (hi : item ∈ items)
    (hc : c ∈ item.members) : ¬ (slot c.id).args.isSome = true := by
  rw [fresh c ((all_sublist_allOf hi hc).subset (mem_all_self c))]
  exact Bool.false_ne_true

theorem Orderly.before (orderly : Orderly slot (front ++ item :: behind)) (hc : c ∈ item.members)
    (begun : (slot c.id).args.isSome = true) : Done slot front := by
  rcases orderly.split with ⟨-, fresh⟩ | ⟨done, -⟩
  · exact absurd begun (fresh.not_begun List.mem_cons_self hc)
  · exact done

/-- under a branch of an orderly list nothing has begun, or it has ended and led to an orderly list -/
theorem Orderly.member (orderly : Orderly slot items) (hi : item ∈ items) (hb : b ∈ item.members) :
    Fresh slot b.under ∨ (Entered slot b ∧ Orderly slot (b.taken slot)) := by
  induction orderly with
  | fresh fresh =>
    exact .inl (fresh.mono ((under_sublist b).trans (all_sublist_allOf hi hb)).subset)
  | past finished _ ih =>
    cases hi with
    | head =>
      obtain ⟨entered, inside⟩ := finished b hb
      exact .inr ⟨entered, Done.orderly inside⟩
    | tail _ hi => exact ih hi
  | here partly inside fresh _ =>
    cases hi with
    | head => exact (partly b hb).imp (·.under) fun entered => ⟨entered, inside b hb⟩
    | tail _ hi => exact .inl (fresh.mono ((under_sublist b).trans (all_sublist_allOf hi hb)).subset)

/-- the lists under the outputs of a branch that has ended: one is the list that it led to -/
theorem Entered.entry (entered : Entered slot b) (unique : Unique b.under)
    (found : b.outputs = some outputs) (hi : (output, items) ∈ outputs) :
    ((slot b.id).outputPath = some output ∧ b.taken slot = items) ∨ Fresh slot (allOf items) := by
  have under : b.under = outputs.flatMap fun entry => allOf entry.2 := by
    rw [Branch.under, found, Option.getD_some, allUnder_eq]
  have inside := (allOf_sublist_under found hi).subset
  rcases b.next_eq (slot b.id).outputPath with none | ⟨name, list, outputs', took, same, got, taken⟩
  · refine .inr fun c hc => entered.elsewhere c (inside hc) ?_
    rw [Branch.taken, none]
    exact fun _ hd => absurd hd List.not_mem_nil
  · cases found.symm.trans same
    obtain ⟨i, hi⟩ := List.mem_iff_getElem?.mp hi
    obtain ⟨j, hj⟩ := List.mem_iff_getElem?.mp (Keyed.mem_of_get? got)
    by_cases one : i = j
    · subst one
      cases hi.symm.trans hj
      exact .inl ⟨took, taken⟩
    · rw [under] at unique
      refine .inr fun c hc => entered.elsewhere c (inside hc) ?_
      rw [Branch.taken, taken]
      exact fun d hd e => unique.parts hi hj one c hc d hd e.symm

theorem Tree.Holds.orderly {tree : Tree} (held : tree.Holds items)
    (unique : Unique (allOf tree.branches)) (orderly : Orderly slot tree.branches) :
    Orderly slot items ∧ Unique (allOf items) := by
  induction held with
  | outermost => exact ⟨orderly, unique⟩
  | @under list items item b outputs output _ hi hb found mem ih =>
    obtain ⟨orderly, unique⟩ := ih
    have below := unique.under hi hb
    have inside := allOf_sublist_under found mem
    refine ⟨?_, below.sublist inside⟩
    rcases orderly.member hi hb with fresh | ⟨entered, behind⟩
    · exact .fresh (fresh.mono inside.subset)
    · rcases entered.entry below found mem with ⟨-, same⟩ | fresh
      · exact same ▸ behind
      · exact .fresh fresh

end

namespace Run

variable {name : String} {policy : Policy} {definition : List Chain} {signal : Signal} {run : Run}

/-- **No step begins early**, whatever the order of polls and of the completions between them, also in
runs that were settled, were rejected or have stalled. -/
theorem Reachable.ordered (created : Signal.create name policy definition = .ok signal)
    (reachable : Reachable signal run) :
    (∀ front item behind, signal.tree.Holds (front ++ item :: behind) →
      (∃ c ∈ item.members, (run.shared.slot c.id).args.isSome = true) →
      ∀ earlier ∈ front, ∀ b ∈ earlier.members, Finished run.shared.slot b) ∧
    (∀ list item b outputs output items inner c,
      signal.tree.Holds list → item ∈ list → b ∈ item.members → b.outputs = some outputs →
      (output, items) ∈ outputs → inner ∈ items → c ∈ inner.members →
      (run.shared.slot c.id).args.isSome = true →
      (run.shared.slot b.id).hasExecuted = true ∧
        (run.shared.slot b.id).outputPath = some output) := by
  have orderly := (reachable.sound created).orderly
  have unique := (Signal.numbered created).unique
  constructor
  · rintro front item behind held ⟨c, hc, begun⟩
    exact (held.orderly unique orderly).1.before hc begun
  · intro list item b outputs output items inner c held hi hb found mem hinner hc begun
    obtain ⟨orderly, unique⟩ := held.orderly unique orderly
    rcases orderly.member hi hb with fresh | ⟨entered, -⟩
    · exact absurd begun ((fresh.mono (allOf_sublist_under found mem).subset).not_begun hinner hc)
    · rcases entered.entry (unique.under hi hb) found mem with ⟨took, -⟩ | fresh
      · exact ⟨entered.executed.ended, took⟩
      · exact absurd begun (fresh.not_begun hinner hc)

/-- a list under an output that waits at a gate, which is opened between two polls -/
theorem ordered_after_wait :
    let load : Action :=
      ⟨0, "load", ["found"], none, .sync fun _ => .finish (.ok (.via "found" .null))⟩
    let ask : Action := ⟨1, "ask", [], none, .async fun _ => .wait "door" (.finish (.ok .next))⟩
    let definition := [Chain.action load, .paths [("found", [.action ask])], .action load]
    ∃ signal run first last, Signal.create "page" .reject definition = .ok signal ∧
      Reachable signal run ∧ signal.tree.branches = [.step first, .step last] ∧
      (run.shared.slot last.id).args.isSome = true ∧ Finished run.shared.slot first := by
  intro load ask definition
  let signal : Signal := ⟨"page", Tree.compile definition, .reject⟩
  have created : Signal.create "page" .reject definition = .ok signal := rfl
  have reachable := signal.reachable_afterGate "door"
  have begun : ((signal.afterGate "door").shared.slot 2).args.isSome = true := by decide +kernel
  refine ⟨signal, signal.afterGate "door", _, _, created, reachable, rfl, begun, ?_⟩
  exact (reachable.ordered created).1 [_] _ [] .outermost ⟨_, List.mem_singleton_self _, begun⟩ _
    (List.mem_singleton_self _) _ (List.mem_singleton_self _)

end Run

end SignalFlow
