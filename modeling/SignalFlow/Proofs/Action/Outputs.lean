import SignalFlow.Action.Basic
import Mathlib.Data.List.Basic
/-!
# The outputs that actions declare

* `Action.including`   some outputs, and another one if it is not among them;
* `Action.Built`       a new action, or what the builders make of one.

Each builder keeps a default output among those that are declared (`Action.declares_withOutputs`,
`Action.declares_withDefaultOutput`). So every action that was built declares its default
(`Action.Built.declares_default`), and an outcome that names no output leads to it
(`Action.Built.resolve_none`).
-/

namespace SignalFlow

namespace Action

variable {a : Action} {identity : Nat} {output chosen : String} {outputs : List String}

theorem declares_iff : a.declares output = true ↔ a.outputs = [] ∨ output ∈ a.outputs := by
  rw [declares, Bool.or_eq_true, List.isEmpty_iff, List.contains_iff_mem]

/-! ## builders -/

def including (chosen : String) (outputs : List String) : List String :=
  if outputs.contains chosen then outputs else outputs ++ [chosen]

theorem mem_including : output ∈ including chosen outputs ↔ output ∈ outputs ∨ output = chosen := by
  unfold including
  split
  · next there =>
    have there : chosen ∈ outputs := List.contains_iff_mem.mp there
    exact ⟨.inl, fun h => h.elim id fun same => same ▸ there⟩
  · exact List.mem_append.trans (or_congr_right List.mem_singleton)

theorem including_ne_nil (chosen : String) (outputs : List String) : including chosen outputs ≠ [] :=
  List.ne_nil_of_mem (mem_including.mpr (.inr rfl))

theorem outputs_withOutputs_of_none (default : a.defaultOutput = none) (identity : Nat)
    (outputs : List String) : (a.withOutputs identity outputs).outputs = outputs := by
  rw [withOutputs, default]

theorem outputs_withOutputs_of_some (default : a.defaultOutput = some chosen) (identity : Nat)
    (outputs : List String) :
    (a.withOutputs identity outputs).outputs = including chosen outputs := by
  rw [withOutputs, default]
  rfl

theorem outputs_withDefaultOutput (a : Action) (identity : Nat) (chosen : String) :
    (a.withDefaultOutput identity chosen).outputs =
      if a.outputs = [] then [] else including chosen a.outputs := by
  unfold withDefaultOutput including
  cases listed : a.outputs with
  | nil => rfl
  | cons first rest =>
    rw [if_neg (List.cons_ne_nil first rest)]
    cases (first :: rest).contains chosen <;> rfl

/-- other outputs take the place of those that were declared, but a default output stays -/
theorem declares_withOutputs : (a.withOutputs identity outputs).declares output = true ↔
    outputs = [] ∧ a.defaultOutput = none ∨ output ∈ outputs ∨ a.defaultOutput = some output := by
  rw [declares_iff]
  cases default : a.defaultOutput with
  | none =>
    rw [outputs_withOutputs_of_none default]
    simp
  | some chosen =>
    rw [outputs_withOutputs_of_some default, mem_including]
    simp [including_ne_nil, @eq_comm _ chosen output]

theorem declares_withDefaultOutput : (a.withDefaultOutput identity chosen).declares output = true ↔
    a.declares output = true ∨ output = chosen := by
  rw [declares_iff, declares_iff, outputs_withDefaultOutput]
  split
  · next empty => exact ⟨fun _ => .inl (.inl empty), fun _ => .inl rfl⟩
  · next listed => simp [including_ne_nil, mem_including, listed]

/-- a new action, or what the builders make of one -/
inductive Built : Action → Prop
  | new (identity : Nat) (name : String) (body : Body) : Built { identity, name, body }
  | withOutputs {a : Action} (identity : Nat) (outputs : List String) :
      Built a → Built (a.withOutputs identity outputs)
  | withDefaultOutput {a : Action} (identity : Nat) (output : String) :
      Built a → Built (a.withDefaultOutput identity output)

/-- **A default output is declared**, whatever the builders were called with. -/
theorem Built.declares_default (built : a.Built) (default : a.defaultOutput = some output) :
    a.declares output = true := by
  cases built with
  | new => cases default
  | withOutputs => exact declares_withOutputs.mpr (.inr (.inr default))
  | withDefaultOutput => exact declares_withDefaultOutput.mpr (.inr (Option.some.inj default).symm)

/-! ## outcomes -/

theorem resolve_some_iff :
    a.resolve (some output) = .ok (some output) ↔ a.outputs = [] ∨ output ∈ a.outputs := by
  rw [← declares_iff, resolve]
  show (if a.declares output then _ else _) = _ ↔ _
  split
  · next declared => exact iff_of_true rfl declared
  · next forbidden => exact iff_of_false (fun h => nomatch h) forbidden

theorem Built.resolve_none (built : a.Built) : a.resolve none = .ok a.defaultOutput := by
  unfold resolve
  cases default : a.defaultOutput with
  | none => rfl
  | some output => exact if_pos (built.declares_default default)

end Action

end SignalFlow
