import SignalFlow.Yaml.Event
import SignalFlow.Yaml.Plain
/-!
# YAML documents

`Yaml.read?` gives the value that a text stands for. A text holds at most one document; an empty one
stands for null. Keys of a mapping must differ.

An alias stands for the node with its anchor. Anchors are numbered by how many names came before, so
a name that is given again may share its number with a later one; of the nodes with one number the
last counts. Collections may be 128 deep, aliases included, and aliases may be followed a hundred
times as often as there are events.
-/

namespace SignalFlow.Yaml

/-- the events of a document with aliases by number -/
structure Document where
  events : Array Event
  /-- the number of each alias, at its place among the events -/
  targets : List (Nat × Nat)
  /-- the place of the node with each number, the last one first -/
  places : List (Nat × Nat)
  deriving Inhabited

namespace Document

def lookUp {α : Type} (key : α) [DecidableEq α] (entries : List (α × Nat)) : Option Nat :=
  (entries.find? (·.1 = key)).map (·.2)

def propertiesOf : Event → Properties
  | .scalar properties .. | .sequenceStart properties | .mappingStart properties => properties
  | _ => {}

/-- number the anchors; an alias needs an anchor before it -/
def number (names : List (String × Nat)) (targets places : List (Nat × Nat)) (place : Nat) :
    List Event → Option (List (Nat × Nat) × List (Nat × Nat))
  | [] => some (targets, places)
  | .alias name :: rest =>
    match lookUp name names with
    | some n => number names ((place, n) :: targets) places (place + 1) rest
    | none => none
  | e :: rest =>
    match (propertiesOf e).anchor with
    | some name =>
      let n := names.length
      let others := names.filter (·.1 != name)
      number ((name, n) :: others) targets ((n, place) :: places) (place + 1) rest
    | none => number names targets places (place + 1) rest

def ofEvents? (events : List Event) : Option Document :=
  (number [] [] [] 0 events).map fun (targets, places) =>
    { events := events.toArray, targets, places }

/-! ## values -/

/-- a tag as values show it: with one exclamation mark in front -/
def shownTag (tag : String) : String :=
  match tag.toList with
  | '!' :: _ :: _ => tag
  | _ => "!" ++ tag

/-- the value of a scalar; a tag counts unless it was dealt with before -/
def scalarValue? (properties : Properties) (plain tagDone : Bool) (text : String) : Option Value :=
  let untagged := if plain then Value.ofPlain? text else some (.string text)
  match properties.tag, tagDone with
  | some tag, false =>
    if tag = .standard "bool" then (boolText? text).map .bool
    else if tag = .standard "int" then ((integer? text.toList).bind Value.ofInteger?).join
    else if tag = .standard "float" then (float? text).map .float
    else if tag = .standard "null" then if isNullText text then some .null else none
    else if tag.isOwn then untagged
    else some (.string text)
  | _, _ => untagged

/-- a value with the place behind its node and the aliases followed so far -/
structure Built (α : Type) where
  result : α
  place : Nat
  jumps : Nat

section
variable (doc : Document)

mutual

/-- the value of the node at a place; `depth` more collections may be open -/
def value : Nat → (tagDone : Bool) → (depth place jumps : Nat) → Option (Built Value)
  | 0, _, _, _, _ => none
  | n + 1, tagDone, depth, place, jumps =>
    match doc.events[place]? with
    | none => none
    | some (.alias _) =>
      if doc.events.size * 100 < jumps + 1 then none
      else
        match (lookUp place doc.targets).bind fun number => lookUp number doc.places with
        | none => none
        | some target =>
          (value n tagDone depth target (jumps + 1)).map fun built => { built with place := place + 1 }
    | some (.sequenceEnd) | some (.mappingEnd) => none
    | some e =>
      match if tagDone then none else (propertiesOf e).tag.bind Tag.name? with
      | some name =>
        (value n true depth place jumps).map fun built =>
          { built with result := .tagged (shownTag name) built.result }
      | none =>
        match e with
        | .scalar properties plain text =>
          (scalarValue? properties plain tagDone text).map fun v => ⟨v, place + 1, jumps⟩
        | .sequenceStart _ =>
          if depth = 0 then none
          else (items n (depth - 1) (place + 1) jumps).map fun built =>
            { built with result := .sequence built.result }
        | .mappingStart _ =>
          if depth = 0 then none
          else (entries n (depth - 1) [] (place + 1) jumps).map fun built =>
            { built with result := .mapping built.result }
        | _ => none

def items : Nat → (depth place jumps : Nat) → Option (Built (List Value))
  | 0, _, _, _ => none
  | n + 1, depth, place, jumps =>
    if doc.events[place]? = some .sequenceEnd then some ⟨[], place + 1, jumps⟩
    else
      match value n false depth place jumps with
      | none => none
      | some first =>
        (items n depth first.place first.jumps).map fun rest =>
          { rest with result := first.result :: rest.result }

/-- the entries of a mapping behind those that were read -/
def entries : Nat → (depth : Nat) → List (Value × Value) → (place jumps : Nat) →
    Option (Built (List (Value × Value)))
  | 0, _, _, _, _ => none
  | n + 1, depth, read, place, jumps =>
    if doc.events[place]? = some .mappingEnd then some ⟨read, place + 1, jumps⟩
    else
      match value n false depth place jumps with
      | none => none
      | some key =>
        if Value.hasKey key.result read then none
        else
          match value n false depth key.place key.jumps with
          | none => none
          | some v => entries n depth (read ++ [(key.result, v.result)]) v.place v.jumps

end

end

def toValue? (doc : Document) : Option Value :=
  if doc.events.isEmpty then some .null
  else (doc.value (300 * (doc.events.size + 2)) false 128 0 0).map (·.result)

end Document

def read? (text : String) : Option Value := do
  let tokens ← Token.scan? text
  let events ← Event.ofTokens? tokens
  let document ← Document.ofEvents? events
  document.toValue?

end SignalFlow.Yaml
