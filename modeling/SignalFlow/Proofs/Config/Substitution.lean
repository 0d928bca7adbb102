import SignalFlow.Config.Load
/-!
# What substitution puts into a document

`Value.substitute` is described by two things that do not know of errors: the contents of the
`!env_var` nodes in the order of the document, and the value in which every such node has been
filled.

* `Value.nodes`           the contents of the `!env_var` nodes;
* `Value.filled`          the value with something in the place of each of them;
* `Value.substitute_eq`   substitution fails as the first node fails that cannot be replaced, and
                          gives the filled value if there is none;
* `Value.mem_nodes_filled`  an `!env_var` node that is left behind came with what was put in.

`Yaml.load_filled`: what is loaded is what was read, with every node filled by what its text stands for.
The text of a variable or a fallback is read as a whole document, so it may put a collection or a
tag in the place of its node, another `!env_var` node too, which then stays. `Yaml.load_scalars`
says what holds where the texts stand for scalars, and `Yaml.load_nested` shows a text that does not.
-/

namespace SignalFlow.Yaml

namespace Value

/-- neither a collection nor tagged -/
def isScalar : Value → Bool
  | .null | .bool _ | .int _ | .float _ | .string _ => true
  | .sequence _ | .mapping _ | .tagged _ _ => false

mutual

/-- the contents of the `!env_var` nodes, a key before its value; contents are not looked into -/
def nodes : Value → List Value
  | .tagged tag content => if tag = Environment.referenceTag then [content] else nodes content
  | .sequence items => nodesOfItems items
  | .mapping entries => nodesOfEntries entries
  | _ => []

def nodesOfItems : List Value → List Value
  | [] => []
  | item :: rest => nodes item ++ nodesOfItems rest

def nodesOfEntries : List (Value × Value) → List Value
  | [] => []
  | (key, value) :: rest => nodes key ++ nodes value ++ nodesOfEntries rest

end

section
variable (fill : Value → Value)

mutual

/-- the value with `fill content` in the place of each `!env_var` node -/
def filled : Value → Value
  | .tagged tag content =>
    if tag = Environment.referenceTag then fill content else .tagged tag (filled content)
  | .sequence items => .sequence (filledItems items)
  | .mapping entries => .mapping (filledEntries [] entries)
  | scalar => scalar

def filledItems : List Value → List Value
  | [] => []
  | item :: rest => filled item :: filledItems rest

/-- the entries put behind those that are done -/
def filledEntries (done : List (Value × Value)) : List (Value × Value) → List (Value × Value)
  | [] => done
  | (key, value) :: rest => filledEntries (put (filled key) (filled value) done) rest

end

end

theorem nodes_of_isScalar {v : Value} (scalar : v.isScalar = true) : v.nodes = [] := by
  cases v with
  | sequence _ | mapping _ | tagged _ _ => cases scalar
  | _ => rfl

section
variable {tag : String} (content : Value)

@[simp] theorem nodes_reference : (tagged Environment.referenceTag content).nodes = [content] := by
  simp [nodes]

theorem nodes_tagged (other : tag ≠ Environment.referenceTag) :
    (tagged tag content).nodes = content.nodes := by
  simp [nodes, other]

@[simp] theorem filled_reference (fill : Value → Value) :
    (tagged Environment.referenceTag content).filled fill = fill content := by
  simp [filled]

theorem filled_tagged (fill : Value → Value) (other : tag ≠ Environment.referenceTag) :
    (tagged tag content).filled fill = .tagged tag (content.filled fill) := by
  simp [filled, other]

end

/-! ## substitution by nodes -/

/-- why an `!env_var` node with this content cannot be replaced -/
def refusal? (env : Environment) (content : Value) : Option ConfigError :=
  match substitution env content with
  | .ok _ => none
  | .error e => some e

/-- what takes the place of an `!env_var` node that can be replaced -/
def replacement (env : Environment) (content : Value) : Value :=
  match substitution env content with
  | .ok value => value
  | .error _ => .null

/-- `result`, unless there is an error -/
def unlessRefused {α : Type} (refusal : Option ConfigError) (result : α) : Except ConfigError α :=
  match refusal with
  | none => .ok result
  | some e => .error e

theorem unlessRefused_eq_ok {α : Type} {refusal : Option ConfigError} {result given : α}
    (done : unlessRefused refusal result = .ok given) : refusal = none ∧ given = result := by
  cases refusal with
  | none => exact ⟨rfl, by cases done; rfl⟩
  | some e => cases done

section
variable (env : Environment)

theorem substitution_eq (content : Value) :
    substitution env content = unlessRefused (refusal? env content) (replacement env content) := by
  unfold refusal? replacement
  cases substitution env content <;> rfl

mutual

/-- **Substitution fills the nodes of a value**, unless one of them cannot be replaced; then it fails as
the first of these does -/
theorem substitute_eq (v : Value) :
    v.substitute env = unlessRefused (v.nodes.findSome? (refusal? env)) (v.filled (replacement env)) := by
  cases v with
  | tagged tag content =>
    unfold substitute
    by_cases own : tag = Environment.referenceTag
    · subst own
      rw [if_pos rfl, substitution_eq, nodes_reference, filled_reference]
      cases found : refusal? env content <;> simp [found]
    · rw [if_neg own, substitute_eq content, nodes_tagged content own, filled_tagged content _ own]
      cases content.nodes.findSome? (refusal? env) <;> rfl
  | sequence items =>
    unfold substitute nodes filled
    rw [substituteItems_eq items]
    cases (nodesOfItems items).findSome? (refusal? env) <;> rfl
  | mapping entries =>
    unfold substitute nodes filled
    rw [substituteEntries_eq [] entries]
    cases (nodesOfEntries entries).findSome? (refusal? env) <;> rfl
  | _ => rfl

theorem substituteItems_eq (items : List Value) :
    substituteItems env items =
      unlessRefused ((nodesOfItems items).findSome? (refusal? env))
        (filledItems (replacement env) items) := by
  cases items with
  | nil => rfl
  | cons item rest =>
    unfold substituteItems nodesOfItems filledItems
    rw [substitute_eq item, substituteItems_eq rest, List.findSome?_append]
    cases item.nodes.findSome? (refusal? env) <;>
      cases (nodesOfItems rest).findSome? (refusal? env) <;> rfl

theorem substituteEntries_eq (done entries : List (Value × Value)) :
    substituteEntries env done entries =
      unlessRefused ((nodesOfEntries entries).findSome? (refusal? env))
        (filledEntries (replacement env) done entries) := by
  cases entries with
  | nil => rfl
  | cons entry rest =>
    obtain ⟨key, value⟩ := entry
    unfold substituteEntries nodesOfEntries filledEntries
    rw [substitute_eq key, substitute_eq value, List.append_assoc, List.findSome?_append,
      List.findSome?_append]
    cases key.nodes.findSome? (refusal? env) with
    | some e => rfl
    | none =>
      cases value.nodes.findSome? (refusal? env) with
      | some e => rfl
      | none => exact substituteEntries_eq _ rest

end

end

/-! ## nodes that are left -/

section
variable {fill : Value → Value} {asked : Value}

/-- an entry that is put brings in the nodes of its key and its value only -/
theorem mem_nodesOfEntries_put {key value : Value} {entries : List (Value × Value)}
    (left : asked ∈ nodesOfEntries (put key value entries)) :
    asked ∈ key.nodes ∨ asked ∈ value.nodes ∨ asked ∈ nodesOfEntries entries := by
  induction entries with
  | nil => simpa [put, nodesOfEntries] using left
  | cons entry rest ih =>
    obtain ⟨k, v⟩ := entry
    unfold put at left
    split at left
    · simp only [nodesOfEntries, List.mem_append] at left ⊢
      obtain (inKey | inValue) | inRest := left
      · exact .inr (.inr (.inl (.inl inKey)))
      · exact .inr (.inl inValue)
      · exact .inr (.inr (.inr inRest))
    · simp only [nodesOfEntries, List.mem_append] at left ⊢
      obtain here | behind := left
      · exact .inr (.inr (.inl here))
      · exact (ih behind).imp_right (.imp_right .inr)

mutual

theorem mem_nodes_filled (v : Value) (left : asked ∈ (v.filled fill).nodes) :
    ∃ content ∈ v.nodes, asked ∈ (fill content).nodes := by
  cases v with
  | tagged tag content =>
    by_cases own : tag = Environment.referenceTag
    · subst own
      rw [filled_reference] at left
      exact ⟨content, by simp, left⟩
    · rw [filled_tagged content fill own, nodes_tagged _ own] at left
      rw [nodes_tagged content own]
      exact mem_nodes_filled content left
  | sequence items => exact mem_nodesOfItems_filled items left
  | mapping entries =>
    obtain old | new := mem_nodesOfEntries_filled [] entries left
    · cases old
    · exact new
  | _ => cases left

theorem mem_nodesOfItems_filled (items : List Value)
    (left : asked ∈ nodesOfItems (filledItems fill items)) :
    ∃ content ∈ nodesOfItems items, asked ∈ (fill content).nodes := by
  cases items with
  | nil => cases left
  | cons item rest =>
    unfold filledItems nodesOfItems at left
    unfold nodesOfItems
    obtain left | left := List.mem_append.1 left
    · obtain ⟨content, mem, found⟩ := mem_nodes_filled item left
      exact ⟨content, List.mem_append_left _ mem, found⟩
    · obtain ⟨content, mem, found⟩ := mem_nodesOfItems_filled rest left
      exact ⟨content, List.mem_append_right _ mem, found⟩

theorem mem_nodesOfEntries_filled (done entries : List (Value × Value))
    (left : asked ∈ nodesOfEntries (filledEntries fill done entries)) :
    asked ∈ nodesOfEntries done ∨
      ∃ content ∈ nodesOfEntries entries, asked ∈ (fill content).nodes := by
  cases entries with
  | nil => exact .inl left
  | cons entry rest =>
    obtain ⟨key, value⟩ := entry
    unfold filledEntries at left
    simp only [nodesOfEntries, List.mem_append]
    -- a node is among the entries done so far, in the key, in the value or further behind
    obtain old | ⟨content, mem, found⟩ := mem_nodesOfEntries_filled _ rest left
    · obtain inKey | inValue | old := mem_nodesOfEntries_put old
      · obtain ⟨content, mem, found⟩ := mem_nodes_filled key inKey
        exact .inr ⟨content, .inl (.inl mem), found⟩
      · obtain ⟨content, mem, found⟩ := mem_nodes_filled value inValue
        exact .inr ⟨content, .inl (.inr mem), found⟩
      · exact .inl old
    · exact .inr ⟨content, .inr mem, found⟩

end

theorem nodes_filled_eq_nil {v : Value} (clean : ∀ content ∈ v.nodes, (fill content).nodes = []) :
    (v.filled fill).nodes = [] := by
  refine List.eq_nil_iff_forall_not_mem.2 fun asked left => ?_
  obtain ⟨content, mem, found⟩ := mem_nodes_filled v left
  rw [clean content mem] at found
  cases found

end

/-! ## documents -/

theorem of_refusal?_eq_none {env : Environment} {content : Value}
    (replaced : refusal? env content = none) :
    ∃ asked found, content = .string asked ∧ (Reference.ofText asked).text? env = some found ∧
      replacement env content = ofText found := by
  cases content with
  | string asked =>
    cases named : (Reference.ofText asked).text? env with
    | some found => exact ⟨asked, found, rfl, named, by simp [replacement, substitution, named]⟩
    | none => simp [refusal?, substitution, named] at replaced
  | _ => cases replaced

end Value

open SignalFlow.Yaml.Value

/-- a loaded document is the one that was read with every `!env_var` node filled by the value that the
text found for it stands for -/
theorem load_filled {env : Environment} {text : String} {v w : Value}
    (read : read? text = some v) (loaded : load env text = .ok w) :
    w = v.filled (replacement env) ∧
      ∀ content ∈ v.nodes, ∃ asked found, content = .string asked ∧
        (Reference.ofText asked).text? env = some found ∧ replacement env content = ofText found := by
  simp only [load, read] at loaded
  rw [substitute_eq] at loaded
  obtain ⟨replaced, rfl⟩ := unlessRefused_eq_ok loaded
  exact ⟨rfl, fun content mem => of_refusal?_eq_none (List.findSome?_eq_none_iff.1 replaced content mem)⟩

/-- where every text that is found stands for a scalar, each `!env_var` node gives way to one, and none
is left -/
theorem load_scalars {env : Environment} {text : String} {v w : Value}
    (read : read? text = some v) (loaded : load env text = .ok w)
    (scalars : ∀ asked found, .string asked ∈ v.nodes →
      (Reference.ofText asked).text? env = some found → (ofText found).isScalar = true) :
    w = v.filled (replacement env) ∧
      (∀ content ∈ v.nodes, substitution env content = .ok (replacement env content) ∧
        (replacement env content).isScalar = true) ∧
      w.nodes = [] := by
  obtain ⟨rfl, named⟩ := load_filled read loaded
  have settled : ∀ content ∈ v.nodes, substitution env content = .ok (replacement env content) ∧
      (replacement env content).isScalar = true := by
    intro content mem
    obtain ⟨asked, found, rfl, hit, value⟩ := named content mem
    rw [value]
    exact ⟨by simp [substitution, hit], scalars asked found mem hit⟩
  exact ⟨rfl, settled, nodes_filled_eq_nil fun content mem => nodes_of_isScalar (settled content mem).2⟩

/-! ## a document that is one node -/

/-- the text of an `!env_var` node -/
def Value.asked? : Value → Option String
  | .tagged tag (.string text) => if tag = Environment.referenceTag then some text else none
  | _ => none

theorem Value.eq_of_asked? {v : Value} {text : String} (asks : v.asked? = some text) :
    v = .tagged Environment.referenceTag (.string text) := by
  unfold asked? at asks
  split at asks
  · next tag asked =>
    split at asks
    · next own => rw [own, Option.some.inj asks]
    · cases asks
  · cases asks

/-- the environment in which `TRACES` is set and nothing else -/
def traces (text : String) : Environment := .ofList [("TRACES", text)]

theorem text?_traces (text : String) :
    (Reference.ofText "TRACES").text? (traces text) = some text := by
  have named : Reference.ofText "TRACES" = ⟨"TRACES", none⟩ := by decide +kernel
  have isName : Environment.isName "TRACES" = true := by decide +kernel
  simp [named, Reference.text?, Environment.get?, isName, traces, Environment.ofList]

theorem read?_traces :
    read? "!env_var TRACES" = some (.tagged Environment.referenceTag (.string "TRACES")) := by
  have asks : (read? "!env_var TRACES").bind asked? = some "TRACES" := by decide +kernel
  obtain ⟨v, read, own⟩ := Option.bind_eq_some_iff.1 asks
  rw [read, eq_of_asked? own]

/-- any text at all is put in as what it is in YAML -/
theorem load_traces (text : String) :
    load (traces text) "!env_var TRACES" = .ok (ofText text) := by
  simp only [load, read?_traces]
  simp [substitute, substitution, text?_traces]

/-- a variable that is a number gives a number -/
theorem load_scalars_number :
    ∃ v w, read? "!env_var TRACES" = some v ∧ load (traces "10") "!env_var TRACES" = .ok w ∧
      w.word? = some 10 ∧ w = v.filled (replacement (traces "10")) ∧
      (∀ content ∈ v.nodes,
        substitution (traces "10") content = .ok (replacement (traces "10") content) ∧
          (replacement (traces "10") content).isScalar = true) ∧
      w.nodes = [] := by
  refine ⟨_, _, read?_traces, load_traces "10", by decide +kernel,
    load_scalars read?_traces (load_traces "10") fun asked found mem hit => ?_⟩
  obtain rfl : asked = "TRACES" := by simpa using mem
  obtain rfl : "10" = found := by simpa [text?_traces] using hit
  decide +kernel

/-- a text that asks for its own variable in a list: the list takes the place of the node, and the node
that came with it stays -/
theorem load_nested :
    ∃ v w, read? "!env_var TRACES" = some v ∧
      load (traces "[!env_var TRACES]") "!env_var TRACES" = .ok w ∧
      v.nodes = [.string "TRACES"] ∧
      (replacement (traces "[!env_var TRACES]") (.string "TRACES")).isScalar = false ∧
      w.isScalar = false ∧ w.nodes ≠ [] := by
  refine ⟨_, _, read?_traces, load_traces _, nodes_reference _, by decide +kernel, by decide +kernel, ?_⟩
  have left : (ofText "[!env_var TRACES]").nodes.length = 1 := by decide +kernel
  exact List.ne_nil_of_length_pos (by omega)

end SignalFlow.Yaml
