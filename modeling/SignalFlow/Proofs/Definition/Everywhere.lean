import SignalFlow.Proofs.Definition.Branches
/-!
# What holds everywhere in a compiled list

* `Everywhere`   a property holds of every item of a list, and of every item in the lists under its
                 outputs.

`everywhere_compileItems`: a property of the groups of an accepted definition, with the members as they
are compiled, holds everywhere in what the definition is compiled to.
-/

namespace SignalFlow

open Chain SignalFlow.Tree

inductive Everywhere (P : Item Branch → Prop) : List (Item Branch) → Prop
  | nil : Everywhere P []
  | cons {item : Item Branch} {rest : List (Item Branch)} : P item →
      (∀ b ∈ item.members, ∀ output, Everywhere P (b.next output)) → Everywhere P rest →
      Everywhere P (item :: rest)

section
variable {P Q : Item Branch → Prop} {items rest : List (Item Branch)}

theorem Everywhere.append (h : Everywhere P items) (h' : Everywhere P rest) :
    Everywhere P (items ++ rest) := by
  induction h with
  | nil => exact h'
  | cons own under _ _ ih => exact .cons own under ih

theorem Everywhere.and (h : Everywhere P items) (h' : Everywhere Q items) :
    Everywhere (fun item => P item ∧ Q item) items := by
  induction h with
  | nil => exact .nil
  | cons own _ _ under ih =>
    cases h' with
    | cons own' under' behind' =>
      exact .cons ⟨own, own'⟩ (fun b hb output => under b hb output (under' b hb output)) (ih behind')

theorem Everywhere.next_of_steps {bs : List Branch} (h : Everywhere P (bs.map Item.step)) :
    ∀ b ∈ bs, ∀ output, Everywhere P (b.next output) := by
  induction bs with
  | nil => exact fun _ hb => nomatch hb
  | cons b bs ih =>
    cases h with
    | cons _ under behind =>
      have own := under b (List.mem_singleton_self b)
      exact List.forall_mem_cons.mpr ⟨own, ih behind⟩

/-! ## compiled lists -/

theorem everywhere_compileOutputs {outputs : List (String × List Chain)}
    (lists : ∀ entry ∈ outputs, ∀ position index next table,
      Everywhere P (compileItems false position index next table entry.2).result)
    (here : Position) (next : Nat) (table : List Action) (output : String) :
    Everywhere P ((Keyed.get? output (compileOutputs here next table outputs).result).getD []) := by
  induction outputs generalizing next table with
  | nil => exact .nil
  | cons entry rest ih =>
    have own := lists entry List.mem_cons_self (here.output entry.1) 0 next table
    have others := ih fun e he => lists e (List.mem_cons_of_mem _ he)
    rw [compileOutputs_cons, Keyed.get?]
    split
    · exact own
    · exact others _ _

/-- **What holds of every group as it is compiled, and of every step, holds everywhere.** -/
theorem everywhere_compileItems {concurrent : Bool} {list : List Chain}
    (h : WellFormed concurrent list) (steps : ∀ b, P (.step b))
    (each : ∀ group ∈ groups list, WellFormed true group → ∀ position next table bs,
      (compileItems true position 0 next table group).result = bs.map Item.step → P (.group bs))
    (position : Position) (index next : Nat) (table : List Action) :
    Everywhere P (compileItems concurrent position index next table list).result := by
  induction h generalizing position index next table with
  | nil => exact .nil
  | step clear _ ih =>
    rw [compileItems_action _ _ _ _ _ _ clear]
    refine .cons (steps _) (List.forall_mem_singleton.mpr fun output => ?_) (ih each ..)
    cases output <;> exact .nil
  | @mapped concurrent a outputs rest _ _ _ _ lists ih =>
    have behind := ih fun group hg => each group (by simp [groups, hg])
    have inside := fun entry he => lists entry he fun group hg =>
      each group (by simp [groups, groupsOf, groups_subset_groupsUnder he hg])
    rw [compileItems_mapped]
    refine .cons (steps _) (List.forall_mem_singleton.mpr fun output => ?_) (behind ..)
    cases output with
    | none => exact .nil
    | some output => exact everywhere_compileOutputs inside _ _ _ output
  | @group members rest inside _ _ ihInside ih =>
    have behind := ih fun group hg => each group (by simp [groups, hg])
    have own := each members (by simp [groups, groupsOf]) inside (position.item index) next table
    have below := ihInside (fun group hg => each group (by simp [groups, groupsOf, hg]))
      (position.item index) 0 next table
    obtain ⟨bs, steps⟩ := compileItems_members inside (position.item index) 0 next table
    rw [steps] at below
    rw [compileItems_group]
    show Everywhere P (.group ((compileItems true (position.item index) 0 next table members).result
      |>.filterMap Item.step?) :: _)
    rw [steps, filterMap_step?]
    exact .cons (own bs steps) below.next_of_steps (behind ..)

end

end SignalFlow
