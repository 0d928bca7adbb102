import SignalFlow.Definition.Analyze
import SignalFlow.Proofs.Action.Outputs
import SignalFlow.Run.State
/-!
# The order of the builders

* `Action.Alike`        two actions of one name, with one default, that declare the same outputs;
* `Branch.withAction`   a branch with another action.

Definitions with actions that are alike are checked alike (`Action.Alike.checkItems`), and their steps
take the same outputs (`Action.Alike.conclude`, `Action.Alike.settle`). `Action.builders_agree_iff`: what
the two builders make of an action is alike in either order just if some output is listed. With an empty
list the action may take any output in the one order, but only its default in the other.
-/

namespace SignalFlow

open Chain

namespace Branch

def withAction (a : Action) : Branch → Branch
  | mk spec outputs => mk { spec with action := a } outputs

theorem action_withAction (a : Action) (b : Branch) : (b.withAction a).action = a := by
  cases b
  rfl

end Branch

namespace Action

/-- two actions of one name, with one default, that declare the same outputs -/
structure Alike (a other : Action) : Prop where
  name : a.name = other.name
  default : a.defaultOutput = other.defaultOutput
  declares : ∀ output, a.declares output = other.declares output

namespace Alike

variable {a other : Action} (h : a.Alike other)
include h

/-! ## checks -/

theorem checkOutputs (signal : String) (here : Position) (maps : List (String × List Chain)) :
    Chain.checkOutputs signal here a maps = Chain.checkOutputs signal here other maps := by
  induction maps with
  | nil => rfl
  | cons entry maps ih =>
    obtain ⟨output, items⟩ := entry
    rw [Chain.checkOutputs, Chain.checkOutputs, h.declares, h.name, ih]

/-- a list in which the one action stands before an output map is checked as with the other -/
theorem checkItems (signal : String) (here : Position) (concurrent : Bool) (index : Nat)
    (previous : Option Chain) (front : List Chain) (maps : List (String × List Chain))
    (behind : List Chain) :
    Chain.checkItems signal here concurrent index previous
        (front ++ .action a :: .paths maps :: behind) =
      Chain.checkItems signal here concurrent index previous
        (front ++ .action other :: .paths maps :: behind) := by
  induction front generalizing index previous with
  | nil =>
    simp only [List.nil_append, Chain.checkItems, checkItem, h.checkOutputs]
  | cons item front ih =>
    rw [List.cons_append, List.cons_append, Chain.checkItems, Chain.checkItems, ih]

/-! ## steps -/

theorem resolve (path : Option String) : a.resolve path = other.resolve path := by
  unfold Action.resolve
  rw [h.default]
  simp only [h.declares]

variable (s : Setting) (b : Branch) (result : StepResult) (shared : Shared)

theorem conclude :
    s.conclude (b.withAction a) result shared = s.conclude (b.withAction other) result shared := by
  obtain ⟨spec, outputs⟩ := b
  unfold Setting.conclude Setting.stepFailed
  simp only [Branch.action_withAction, h.resolve, h.declares]
  rfl

theorem settle :
    s.settle (b.withAction a) result shared = s.settle (b.withAction other) result shared := by
  obtain ⟨spec, outputs⟩ := b
  unfold Setting.settle
  simp only [Branch.action_withAction, h.resolve]
  rfl

end Alike

/-! ## the two orders -/

section
variable {outputs : List String} {chosen output : String}

theorem declares_outputs_default (identity last : Nat) (a : Action) (none : a.defaultOutput = none) :
    ((a.withOutputs identity outputs).withDefaultOutput last chosen).declares output = true ↔
      outputs = [] ∨ output ∈ outputs ∨ output = chosen := by
  rw [declares_withDefaultOutput, declares_withOutputs, none]
  simp [or_assoc]

theorem declares_default_outputs (identity last : Nat) (a : Action) :
    ((a.withDefaultOutput identity chosen).withOutputs last outputs).declares output = true ↔
      output ∈ outputs ∨ output = chosen := by
  rw [declares_withOutputs, withDefaultOutput]
  simp [@eq_comm _ chosen output]

variable {a : Action} (none : a.defaultOutput = none) (listed : outputs ≠ [])
include none listed

theorem alike_of_listed (i j i' j' : Nat) :
    ((a.withOutputs i outputs).withDefaultOutput j chosen).Alike
      ((a.withDefaultOutput i' chosen).withOutputs j' outputs) := by
  refine ⟨rfl, rfl, fun output => ?_⟩
  rw [Bool.eq_iff_iff, declares_outputs_default i j a none, declares_default_outputs]
  exact or_iff_right listed

theorem eq_of_listed (i i' last : Nat) :
    (a.withOutputs i outputs).withDefaultOutput last chosen =
      (a.withDefaultOutput i' chosen).withOutputs last outputs := by
  have same : ((a.withOutputs i outputs).withDefaultOutput last chosen).outputs =
      ((a.withDefaultOutput i' chosen).withOutputs last outputs).outputs := by
    rw [outputs_withDefaultOutput, outputs_withOutputs_of_none none, if_neg listed,
      outputs_withOutputs_of_some rfl]
  exact congrArg (fun outputs => Action.mk last a.name outputs (some chosen) a.body) same

end

section
variable {a : Action} {output : String}

theorem analyze_of_declares (may : a.declares output = true) (signal : String) :
    analyze signal [.action a, .paths [(output, [])]] = .ok () := by
  simp only [analyze, Chain.checkItems, checkItem, Chain.checkOutputs, may, if_true]

theorem analyze_of_not_declares (mayNot : a.declares output = false) (signal : String) :
    analyze signal [.action a, .paths [(output, [])]] =
      .error ⟨signal, [.index 1], .undeclaredOutput a.name output⟩ := by
  simp only [analyze, Chain.checkItems, checkItem, Chain.checkOutputs, mayNot]
  rfl

end

/-- **The order of the builders matters for an empty list only.** In either order the action has the
default, and declares it and what is listed. If some output is listed it declares nothing else: the same
action comes of both orders, up to its identity, so every definition with it is checked alike, and its
steps take the same outputs. If none is, then with the default chosen last the action may take any output,
and with the default chosen first no other one: its checks are stricter and its steps fail. -/
theorem builders_order (identity : Nat) (name : String) (body : Body) (outputs : List String)
    (chosen : String) (i j i' j' : Nat) :
    let new : Action := { identity, name, body }
    let first := (new.withOutputs i outputs).withDefaultOutput j chosen
    let second := (new.withDefaultOutput i' chosen).withOutputs j' outputs
    (first.defaultOutput = some chosen ∧ second.defaultOutput = some chosen ∧
      ∀ output,
        (first.declares output = true ↔ outputs = [] ∨ output ∈ outputs ∨ output = chosen) ∧
        (second.declares output = true ↔ output ∈ outputs ∨ output = chosen)) ∧
    (outputs ≠ [] → (j = j' → first = second) ∧
      (∀ output, first.declares output = second.declares output) ∧
      (∀ signal here concurrent index previous front maps behind,
        Chain.checkItems signal here concurrent index previous
            (front ++ .action first :: .paths maps :: behind) =
          Chain.checkItems signal here concurrent index previous
            (front ++ .action second :: .paths maps :: behind)) ∧
      ∀ (s : Setting) (b : Branch) result shared,
        s.conclude (b.withAction first) result shared =
          s.conclude (b.withAction second) result shared ∧
        s.settle (b.withAction first) result shared = s.settle (b.withAction second) result shared) ∧
    (outputs = [] → ∀ output, output ≠ chosen →
      (∀ signal, analyze signal [.action first, .paths [(output, [])]] = .ok () ∧
        analyze signal [.action second, .paths [(output, [])]] =
          .error ⟨signal, [.index 1], .undeclaredOutput name output⟩) ∧
      first.resolve (some output) = .ok (some output) ∧
      second.resolve (some output) = .error output) := by
  intro new first second
  have declaresFirst (output : String) : first.declares output = true ↔
      outputs = [] ∨ output ∈ outputs ∨ output = chosen := declares_outputs_default i j new rfl
  have declaresSecond (output : String) : second.declares output = true ↔
      output ∈ outputs ∨ output = chosen := declares_default_outputs i' j' new
  refine ⟨⟨rfl, rfl, fun output => ⟨declaresFirst output, declaresSecond output⟩⟩, fun listed => ?_,
    fun empty output other => ?_⟩
  · have alike : first.Alike second := alike_of_listed rfl listed i j i' j'
    refine ⟨?_, alike.declares, alike.checkItems,
      fun s b result shared => ⟨alike.conclude .., alike.settle ..⟩⟩
    rintro rfl
    exact eq_of_listed rfl listed i i' j
  · have may : first.declares output = true := (declaresFirst output).mpr (.inl empty)
    have mayNot : second.declares output = false := by
      rw [Bool.eq_false_iff, ne_eq, declaresSecond, empty]
      simp [other]
    exact ⟨fun signal => ⟨analyze_of_declares may signal, analyze_of_not_declares mayNot signal⟩,
      if_pos may, if_neg (Bool.eq_false_iff.mp mayNot)⟩

/-- one output is listed: both orders declare it and the default, and accept an output map for each -/
theorem builders_order_listed :
    let new : Action := { identity := 0, name := "save", body := .sync fun _ => .finish (.ok .next) }
    let first := (new.withOutputs 1 ["saved"]).withDefaultOutput 2 "kept"
    let second := (new.withDefaultOutput 1 "kept").withOutputs 2 ["saved"]
    ["saved"] ≠ [] ∧ first = second ∧ first.outputs = ["saved", "kept"] ∧
      analyze "page" [.action second, .paths [("kept", []), ("saved", [])]] = .ok () := by
  intro new first second
  have listed : ["saved"] ≠ [] := List.cons_ne_nil "saved" []
  obtain ⟨-, same, -⟩ := builders_order 0 "save" new.body ["saved"] "kept" 1 2 1 2
  have alike : first = second := (same listed).1 rfl
  exact ⟨listed, alike, by decide, by rw [← alike]; rfl⟩

/-- with an empty list the orders differ: the default alone may be taken where it was chosen first -/
theorem builders_differ :
    let new : Action := { identity := 0, name := "save", body := .sync fun _ => .finish (.ok .next) }
    let first := (new.withOutputs 1 []).withDefaultOutput 2 "kept"
    let second := (new.withDefaultOutput 1 "kept").withOutputs 2 []
    ¬ ((∀ output, first.declares output = second.declares output) ∧
        (∀ maps, analyze "page" [.action first, .paths maps] =
          analyze "page" [.action second, .paths maps]) ∧
        ∀ path, first.resolve path = second.resolve path) ∧
      first.declares "saved" = true ∧ second.declares "saved" = false ∧
      analyze "page" [.action first, .paths [("saved", [])]] = .ok () ∧
      analyze "page" [.action second, .paths [("saved", [])]] =
        .error ⟨"page", [.index 1], .undeclaredOutput "save" "saved"⟩ ∧
      first.resolve (some "saved") = .ok (some "saved") ∧
      second.resolve (some "saved") = .error "saved" := by
  intro new first second
  have may : first.declares "saved" = true := by decide
  have mayNot : second.declares "saved" = false := by decide
  refine ⟨fun ⟨declares, _⟩ => ?_, may, mayNot, rfl, rfl, rfl, rfl⟩
  rw [declares, mayNot] at may
  cases may

end Action

end SignalFlow
