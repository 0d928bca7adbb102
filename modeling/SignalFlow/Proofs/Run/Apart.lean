import SignalFlow.Proofs.Run.Order
import SignalFlow.Proofs.Run.Throughout
/-!
# Steps that are under way at the same time

* `Tree.Apart`   two branches that are, or stand under, different members of one group.

In an orderly tree a branch that has begun and has no outcome keeps everything behind it, in any list
around it, from beginning (`Orderly.fresh_behind`). So two such branches are apart (`Tree.Holds.apart`).
-/

namespace SignalFlow

open Branch

/-- the branches are, or stand under, different members of one group -/
def Tree.Apart (tree : Tree) (b c : Branch) : Prop :=
  ∃ (list : List (Item Branch)) (item : Item Branch) (i j : Nat) (m n : Branch), tree.Holds list ∧
    item ∈ list ∧ item.members[i]? = some m ∧ item.members[j]? = some n ∧ i ≠ j ∧
    b ∈ all m ∧ c ∈ all n

section
variable {slot : Nat → Slot} {items front behind : List (Item Branch)} {item : Item Branch}
  {b c m : Branch}

theorem Slot.Begun.touched {x : Slot} (begun : x.Begun) : x ≠ {} := by
  rintro rfl
  cases begun.seen

theorem Slot.Begun.not_executed {x : Slot} (begun : x.Begun) : ¬ x.Executed :=
  fun executed => Bool.false_ne_true (begun.pending.symm.trans executed.ended)

theorem Entered.inside (entered : Entered slot m) (unique : Unique m.under) (hc : c ∈ m.under)
    (touched : slot c.id ≠ {}) : c ∈ allOf (m.taken slot) := by
  by_contra outside
  refine touched (entered.elsewhere c hc fun d hd same => outside ?_)
  rwa [← unique.eq ((taken_sublist slot m).subset hd) hc same]

theorem Finished.ended (finished : Finished slot m) (unique : Unique (all m)) :
    ∀ c ∈ all m, slot c.id = {} ∨ (slot c.id).Executed := by
  induction finished with
  | @mk m entered _ ih =>
    rw [all_eq] at unique ⊢
    have below : Unique m.under := (List.pairwise_cons.mp unique).2
    refine List.forall_mem_cons.mpr ⟨.inr entered.executed, fun c hc => ?_⟩
    by_cases touched : slot c.id = {}
    · exact .inl touched
    · obtain ⟨item, hi, d, hd, own⟩ := mem_allOf.mp (entered.inside below hc touched)
      exact ih item hi d hd (below.sublist (all_sublist_under hi hd)) c own

theorem Done.not_begun (done : Done slot items) (unique : Unique (allOf items)) (hb : b ∈ allOf items) :
    ¬ (slot b.id).Begun := by
  intro begun
  obtain ⟨item, hi, m, hm, hb⟩ := mem_allOf.mp hb
  rcases (done item hi m hm).ended (unique.sublist (all_sublist_allOf hi hm)) b hb with fresh | ended
  · exact begun.touched fresh
  · exact begun.not_executed ended

/-- **Nothing begins behind a step that has no outcome**, in any list around it. -/
theorem Orderly.fresh_behind (orderly : Orderly slot (front ++ behind)) (unique : Unique (allOf front))
    (hb : b ∈ allOf front) (begun : (slot b.id).Begun) : Fresh slot (allOf behind) := by
  rcases orderly.split with ⟨-, fresh⟩ | ⟨done, -⟩
  · exact fresh
  · exact absurd begun (done.not_begun unique hb)

/-- a member of a group above a step that has no outcome has ended, and led to it -/
theorem Orderly.above (orderly : Orderly slot items) (unique : Unique (allOf items)) (hi : item ∈ items)
    (hm : m ∈ item.members) (hb : b ∈ m.under) (begun : (slot b.id).Begun) :
    Entered slot m ∧ b ∈ allOf (m.taken slot) := by
  rcases orderly.member hi hm with fresh | ⟨entered, -⟩
  · exact absurd (fresh b hb) begun.touched
  · exact ⟨entered, entered.inside (unique.under hi hm) hb begun.touched⟩

theorem Tree.Holds.taken {tree : Tree} (held : tree.Holds items) (hi : item ∈ items)
    (hm : m ∈ item.members) (hb : b ∈ allOf (m.taken slot)) : tree.Holds (m.taken slot) := by
  rcases m.next_eq (slot m.id).outputPath with none | ⟨name, list, outputs, -, found, got, next⟩
  · rw [Branch.taken, none] at hb
    cases hb
  · rw [Branch.taken, next]
    exact .under held hi hm found (Keyed.mem_of_get? got)

theorem Orderly.together (orderly : Orderly slot items) (unique : Unique (allOf items))
    (hb : b ∈ allOf items) (hc : c ∈ allOf items) (begun : (slot b.id).Begun)
    (begun' : (slot c.id).Begun) :
    ∃ item ∈ items, b ∈ allOfMembers item.members ∧ c ∈ allOfMembers item.members := by
  induction items with
  | nil => cases hb
  | cons item rest ih =>
    have alone : allOf [item] = allOfMembers item.members := by
      rw [allOf_cons, allOf, List.append_nil]
    rw [← List.singleton_append] at orderly
    rw [allOf_cons] at unique hb hc
    obtain ⟨first, last, -⟩ := unique.append
    rw [← alone] at first hb hc
    rcases List.mem_append.mp hb with hb | hb <;> rcases List.mem_append.mp hc with hc | hc
    · rw [alone] at hb hc
      exact ⟨item, List.mem_cons_self, hb, hc⟩
    · exact absurd (orderly.fresh_behind first hb begun c hc) begun'.touched
    · exact absurd (orderly.fresh_behind first hc begun' b hb) begun.touched
    · rcases orderly.split with ⟨-, fresh⟩ | ⟨-, behind⟩
      · exact absurd (fresh b hb) begun.touched
      · obtain ⟨item, hi, both⟩ := ih behind last hb hc
        exact ⟨item, List.mem_cons_of_mem _ hi, both⟩

/-- **Two steps that have begun and have no outcome are apart.** -/
theorem Tree.Holds.apart {tree : Tree} (unique : Unique (allOf tree.branches))
    (orderly : Orderly slot tree.branches) (held : tree.Holds items) (hb : b ∈ allOf items)
    (hc : c ∈ allOf items) (begun : (slot b.id).Begun) (begun' : (slot c.id).Begun)
    (other : b.id ≠ c.id) : tree.Apart b c := by
  induction weight : itemsWeight items using Nat.strongRecOn generalizing items with
  | ind bound ih =>
    obtain ⟨inOrder, own⟩ := held.orderly unique orderly
    obtain ⟨item, hi, hb, hc⟩ := inOrder.together own hb hc begun begun'
    rw [allOfMembers_eq] at hb hc
    obtain ⟨m, hm, hb⟩ := List.mem_flatMap.mp hb
    obtain ⟨n, hn, hc⟩ := List.mem_flatMap.mp hc
    obtain ⟨i, atI⟩ := List.mem_iff_getElem?.mp hm
    obtain ⟨j, atJ⟩ := List.mem_iff_getElem?.mp hn
    by_cases same : i = j
    · subst same
      cases atI.symm.trans atJ
      -- the member has ended if one of them is under it, and then it is neither of them
      have under {b c : Branch} (hb : b ∈ all m) (hc : c ∈ all m) (begun : (slot b.id).Begun)
          (begun' : (slot c.id).Begun) (other : b.id ≠ c.id) : b ∈ m.under := by
        rw [all_eq] at hb hc
        rcases List.mem_cons.mp hb with rfl | hb
        · rcases List.mem_cons.mp hc with rfl | hc
          · exact absurd rfl other
          · exact absurd (inOrder.above own hi hm hc begun').1.executed begun.not_executed
        · exact hb
      have inside := (inOrder.above own hi hm (under hb hc begun begun' other) begun).2
      have inside' := (inOrder.above own hi hm (under hc hb begun' begun other.symm) begun').2
      have lighter := Nat.lt_of_lt_of_le (itemsWeight_next_lt m (slot m.id).outputPath)
        (weight_le_itemsWeight hi hm)
      exact ih _ (weight ▸ lighter) (held.taken hi hm inside) inside inside' rfl
    · exact ⟨items, item, i, j, m, n, held, hi, atI, atJ, same, hb, hc⟩

end

end SignalFlow
