import SignalFlow.Yaml.Token
/-!
# Events of a YAML document

`Event.ofTokens?` reads the tokens of a text that holds at most one document and lists its nodes in
order: a scalar or an alias as one event, a collection as the events between its start and its end.
An empty text has no events. A node that is left out counts as an empty plain scalar.

Every reader takes the tokens that are left and gives back those behind what it read; the events
are added at the end of those before.
-/

namespace SignalFlow.Yaml

/-- what may stand in front of a node -/
structure Properties where
  anchor : Option String := none
  /-- the tag in full -/
  tag : Option Tag := none
  deriving Inhabited, DecidableEq

inductive Event
  | alias (name : String)
  | scalar (properties : Properties) (plain : Bool) (text : String)
  | sequenceStart (properties : Properties)
  | sequenceEnd
  | mappingStart (properties : Properties)
  | mappingEnd
  deriving Inhabited, DecidableEq

namespace Event

/-- the tokens left and the events so far -/
structure Reading where
  tokens : List Token
  events : Array Event
  deriving Inhabited

namespace Reading

def head (r : Reading) : Token := r.tokens.headD .streamEnd

def skip (r : Reading) : Reading := { r with tokens := r.tokens.drop 1 }

def emit (r : Reading) (e : Event) : Reading := { r with events := r.events.push e }

def emitEmpty (r : Reading) : Reading := r.emit (.scalar {} true "")

end Reading

/-- anchor and tag in front of a node, in either order -/
def properties? (handles : Handles) (r : Reading) : Option (Properties × Reading) :=
  match r.tokens with
  | .anchor name :: .tag tag :: rest =>
    (tag.resolve? handles).map fun tag => ({ anchor := some name, tag := some tag }, { r with tokens := rest })
  | .tag tag :: .anchor name :: rest =>
    (tag.resolve? handles).map fun tag => ({ anchor := some name, tag := some tag }, { r with tokens := rest })
  | .anchor name :: rest => some ({ anchor := some name }, { r with tokens := rest })
  | .tag tag :: rest =>
    (tag.resolve? handles).map fun tag => ({ tag := some tag }, { r with tokens := rest })
  | _ => some ({}, r)

/-- may a node be left out before this token? -/
def endsBlockPart : Token → Bool
  | .key | .value | .blockEnd => true
  | _ => false

section
variable (handles : Handles)

mutual

/-- a node; `block` allows blocks, `loose` a sequence that is not indented further -/
def node : Nat → (block loose : Bool) → Reading → Option Reading
  | 0, _, _, _ => none
  | n + 1, block, loose, r =>
    match r.head with
    | .alias name => some (r.skip.emit (.alias name))
    | _ =>
      match properties? handles r with
      | none => none
      | some (properties, r) =>
        match r.head with
        | .scalar plain text => some (r.skip.emit (.scalar properties plain text))
        | .flowSequenceStart => flowSequence n true (r.skip.emit (.sequenceStart properties))
        | .flowMappingStart => flowMapping n true (r.skip.emit (.mappingStart properties))
        | .blockSequenceStart =>
          if block then blockSequence n (r.skip.emit (.sequenceStart properties))
          else leftOut properties r
        | .blockMappingStart =>
          if block then blockMapping n (r.skip.emit (.mappingStart properties))
          else leftOut properties r
        | .blockEntry =>
          if loose then looseSequence n (r.emit (.sequenceStart properties))
          else leftOut properties r
        | _ => leftOut properties r

/-- the entries of a sequence in a block of its own -/
def blockSequence : Nat → Reading → Option Reading
  | 0, _ => none
  | n + 1, r =>
    match r.head with
    | .blockEntry =>
      let r := r.skip
      match r.head with
      | .blockEntry | .blockEnd => blockSequence n r.emitEmpty
      | _ => (node n true false r).bind (blockSequence n)
    | .blockEnd => some (r.skip.emit .sequenceEnd)
    | _ => none

/-- the entries of a sequence that is not indented further than the key before it -/
def looseSequence : Nat → Reading → Option Reading
  | 0, _ => none
  | n + 1, r =>
    match r.head with
    | .blockEntry =>
      let r := r.skip
      match r.head with
      | .blockEntry | .key | .value | .blockEnd => looseSequence n r.emitEmpty
      | _ => (node n true false r).bind (looseSequence n)
    | _ => some (r.emit .sequenceEnd)

def blockMapping : Nat → Reading → Option Reading
  | 0, _ => none
  | n + 1, r =>
    match r.head with
    | .key =>
      let r := r.skip
      if endsBlockPart r.head then blockValue n r.emitEmpty
      else (node n true true r).bind (blockValue n)
    | .blockEnd => some (r.skip.emit .mappingEnd)
    | _ => none

def blockValue : Nat → Reading → Option Reading
  | 0, _ => none
  | n + 1, r =>
    match r.head with
    | .value =>
      let r := r.skip
      if endsBlockPart r.head then blockMapping n r.emitEmpty
      else (node n true true r).bind (blockMapping n)
    | _ => blockMapping n r.emitEmpty

def flowSequence : Nat → (first : Bool) → Reading → Option Reading
  | 0, _, _ => none
  | n + 1, first, r =>
    match r.head, first with
    | .flowSequenceEnd, _ => some (r.skip.emit .sequenceEnd)
    | .flowEntry, false => flowItem n r.skip
    | _, true => flowItem n r
    | _, false => none

/-- one entry of a sequence in brackets, then those behind it -/
def flowItem : Nat → Reading → Option Reading
  | 0, _ => none
  | n + 1, r =>
    match r.head with
    | .flowSequenceEnd => some (r.skip.emit .sequenceEnd)
    | .key => (flowPair n (r.skip.emit (.mappingStart {}))).bind (flowSequence n false)
    | _ => (node n false false r).bind (flowSequence n false)

/-- a mapping of one entry in a sequence in brackets, behind its key token -/
def flowPair : Nat → Reading → Option Reading
  | 0, _ => none
  | n + 1, r =>
    let key := match r.head with
      | .value | .flowEntry | .flowSequenceEnd => some r.skip.emitEmpty
      | _ => node n false false r
    key.bind fun r =>
      let value := match r.head with
        | .value =>
          match r.skip.head with
          | .flowEntry | .flowSequenceEnd => some r.skip.emitEmpty
          | _ => node n false false r.skip
        | _ => some r.emitEmpty
      value.map fun r => r.emit .mappingEnd

def flowMapping : Nat → (first : Bool) → Reading → Option Reading
  | 0, _, _ => none
  | n + 1, first, r =>
    match r.head, first with
    | .flowMappingEnd, _ => some (r.skip.emit .mappingEnd)
    | .flowEntry, false => flowEntry n r.skip
    | _, true => flowEntry n r
    | _, false => none

/-- one entry of a mapping in braces, then those behind it -/
def flowEntry : Nat → Reading → Option Reading
  | 0, _ => none
  | n + 1, r =>
    match r.head with
    | .flowMappingEnd => some (r.skip.emit .mappingEnd)
    | .key =>
      let r := r.skip
      match r.head with
      | .value | .flowEntry | .flowMappingEnd => flowValue n r.emitEmpty
      | _ => (node n false false r).bind (flowValue n)
    | _ => (node n false false r).bind fun r => flowMapping n false r.emitEmpty

/-- a value in braces, then the entries behind it -/
def flowValue : Nat → Reading → Option Reading
  | 0, _ => none
  | n + 1, r =>
    match r.head with
    | .value =>
      match r.skip.head with
      | .flowEntry | .flowMappingEnd => flowMapping n false r.skip.emitEmpty
      | _ => (node n false false r.skip).bind (flowMapping n false)
    | _ => flowMapping n false r.emitEmpty

/-- properties without a node stand for an empty one -/
def leftOut (properties : Properties) (r : Reading) : Option Reading :=
  if properties = {} then none else some (r.emit (.scalar properties true ""))

end

end

/-! ## documents -/

/-- the directives in front of a document: one version at most, 1.1 or 1.2, each handle once -/
def directives? (version : Bool) (handles : Handles) : List Token → Option (Handles × List Token)
  | .versionDirective major minor :: rest =>
    if version || major != 1 || (minor != 1 && minor != 2) then none
    else directives? true handles rest
  | .tagDirective handle text :: rest =>
    if handles.any (·.1 = handle) then none
    else directives? version (handles ++ [(handle, text)]) rest
  | tokens => some (handles, tokens)

def isDirective : Token → Bool
  | .versionDirective .. | .tagDirective .. => true
  | _ => false

/-- the content of a document whose start is marked -/
def content? (handles : Handles) (fuel : Nat) (r : Reading) : Option Reading :=
  match r.head with
  | .documentStart | .documentEnd | .streamEnd => some r.emitEmpty
  | t => if isDirective t then some r.emitEmpty else node handles fuel true false r

/-- the events of a text with at most one document -/
def ofTokens? (tokens : List Token) : Option (List Event) :=
  let fuel := 4 * tokens.length + 8
  match tokens with
  | [] | .streamEnd :: _ => some []
  | t :: _ =>
    let read := if isDirective t || t = .documentStart then
        match directives? false [] tokens with
        | some (own, .documentStart :: rest) => content? (own ++ usualHandles) fuel ⟨rest, #[]⟩
        | _ => none
      else node usualHandles fuel true false ⟨tokens, #[]⟩
    match read with
    | none => none
    | some r =>
      if (r.tokens.dropWhile (· = .documentEnd)).headD .streamEnd = .streamEnd then
        some r.events.toList
      else none

end Event

end SignalFlow.Yaml
