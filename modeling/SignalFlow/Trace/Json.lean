import SignalFlow.Trace.Record
/-!
# Traces as JSON

* `Trace.toJson`   writes a trace; output maps become objects, so their keys are put in order;
* `Trace.ofJson?`  reads one. Unknown keys are passed over, an optional part may be missing or null
                   and any other part may not. An object in a list of branches is a branch, a list
                   is a group.

The encoder takes the way to build an object as a parameter: `Value.ofEntries` sorts the entries,
`Value.object` leaves them in the order of a report.
-/

namespace SignalFlow

def Segment.toJson : Segment → Value
  | .index n => .nat n
  | .key name => .string name

def Segment.ofJson? : Value → Option Segment
  | .string name => some (.key name)
  | v => v.word?.map .index

/-! ## writing -/

section
variable (object : List (String × Value) → Value)

def Slot.entries (slot : Slot) : List (String × Value) :=
  [("args", .ofOption (slot.args.map .object)),
    ("output", .ofOption slot.output),
    ("duration", .ofOption (slot.duration.map .nat)),
    ("mutations", .array (slot.mutations.map (Mutation.encode object))),
    ("output_path", .ofOption (slot.outputPath.map .string)),
    ("is_executing", .bool slot.isExecuting),
    ("has_executed", .bool slot.hasExecuted)]

def Occurrence.entries (o : Occurrence) : List (String × Value) :=
  [("name", .string o.name), ("path", .array (o.position.map Segment.toJson)),
    ("is_async", .bool o.isAsync), ("action_index", .nat o.actionIndex)]

namespace Record

mutual

def encode : Record → Value
  | mk occurrence slot (some outputs) =>
    object (occurrence.entries ++ slot.entries object
      ++ [("outputs", object (encodeOutputs outputs))])
  | mk occurrence slot none => object (occurrence.entries ++ slot.entries object)

def encodeOutputs : List (String × List (Item Record)) → List (String × Value)
  | [] => []
  | (output, items) :: rest => (output, .array (encodeItems items)) :: encodeOutputs rest

def encodeItems : List (Item Record) → List Value
  | [] => []
  | .step r :: rest => encode r :: encodeItems rest
  | .group members :: rest => .array (encodeMembers members) :: encodeItems rest

def encodeMembers : List Record → List Value
  | [] => []
  | r :: rest => encode r :: encodeMembers rest

end

end Record

def Trace.encode (trace : Trace) : Value :=
  object [("id", .string trace.id), ("name", .string trace.name), ("args", .object trace.args),
    ("branches", .array (Record.encodeItems object trace.branches)),
    ("is_executing", .bool trace.isExecuting),
    ("duration", .ofOption (trace.duration.map .nat)),
    ("started_at", .string trace.startedAt.text)]

end

def Trace.toJson (trace : Trace) : Value := trace.encode .ofEntries

/-- a trace as a report, parts in the order in which they are declared -/
def Trace.report (trace : Trace) : Value := trace.encode .object

/-! ## reading -/

namespace Value

def text? : Value → Option String
  | string s => some s
  | _ => none

def flag? : Value → Option Bool
  | bool b => some b
  | _ => none

def items? : Value → Option (List Value)
  | array items => some items
  | _ => none

def fields? : Value → Option (List (String × Value))
  | object fields => some fields
  | _ => none

/-- a part that may be missing or null -/
def optional (read : Value → Option α) : Option Value → Option (Option α)
  | none | some null => some none
  | some v => (read v).map some

end Value

/-- a name, alone or as the key of an empty value -/
def Mutator.ofJson? : Value → Option Mutator
  | .string name => ofName? name
  | .object [(name, .null)] | .object [(name, .object [])] => ofName? name
  | _ => none

def Mutation.ofParts? (name path args : Value) : Option Mutation := do
  let method ← Mutator.ofJson? name
  let path ← (← path.items?).mapM Value.text?
  let args ← args.items?
  some { method, path, args }

def Mutation.ofJson? : Value → Option Mutation
  | .object fields => do
    Mutation.ofParts? (← Fields.get? "name" fields) (← Fields.get? "path" fields)
      (← Fields.get? "args" fields)
  | .array [name, path, args] => Mutation.ofParts? name path args
  | _ => none

def Slot.ofFields? (fields : List (String × Value)) : Option Slot := do
  let args ← Value.optional Value.fields? (Fields.get? "args" fields)
  let output ← Value.optional some (Fields.get? "output" fields)
  let duration ← Value.optional Value.word? (Fields.get? "duration" fields)
  let mutations ← (← (← Fields.get? "mutations" fields).items?).mapM Mutation.ofJson?
  let outputPath ← Value.optional Value.text? (Fields.get? "output_path" fields)
  let isExecuting ← (← Fields.get? "is_executing" fields).flag?
  let hasExecuted ← (← Fields.get? "has_executed" fields).flag?
  some { args, output, duration, mutations, outputPath, isExecuting, hasExecuted }

def Occurrence.ofFields? (fields : List (String × Value)) : Option Occurrence := do
  let name ← (← Fields.get? "name" fields).text?
  let position ← (← (← Fields.get? "path" fields).items?).mapM Segment.ofJson?
  let isAsync ← (← Fields.get? "is_async" fields).flag?
  let actionIndex ← (← Fields.get? "action_index" fields).word?
  some { name, position, isAsync, actionIndex }

namespace Record

mutual

def ofJson? : Value → Option Record
  | .object fields =>
    match Occurrence.ofFields? fields, Slot.ofFields? fields, mapOfFields? fields with
    | some occurrence, some slot, some outputs => some (mk occurrence slot outputs)
    | _, _, _ => none
  | _ => none

/-- the output map among the entries of a record -/
def mapOfFields? : List (String × Value) →
    Option (Option (List (String × List (Item Record))))
  | [] => some none
  | (key, v) :: rest => if key = "outputs" then mapOfJson? v else mapOfFields? rest

def mapOfJson? : Value → Option (Option (List (String × List (Item Record))))
  | .null => some none
  | .object fields => (outputsOfFields? fields).map some
  | _ => none

def outputsOfFields? : List (String × Value) → Option (List (String × List (Item Record)))
  | [] => some []
  | (output, v) :: rest =>
    match listOfJson? v, outputsOfFields? rest with
    | some items, some outputs => some ((output, items) :: outputs)
    | _, _ => none

def listOfJson? : Value → Option (List (Item Record))
  | .array items => itemsOfList? items
  | _ => none

def itemsOfList? : List Value → Option (List (Item Record))
  | [] => some []
  | v :: rest =>
    match itemOfJson? v, itemsOfList? rest with
    | some item, some items => some (item :: items)
    | _, _ => none

def itemOfJson? : Value → Option (Item Record)
  | .array members => (membersOfList? members).map .group
  | .object fields =>
    match Occurrence.ofFields? fields, Slot.ofFields? fields, mapOfFields? fields with
    | some occurrence, some slot, some outputs => some (.step (mk occurrence slot outputs))
    | _, _, _ => none
  | _ => none

def membersOfList? : List Value → Option (List Record)
  | [] => some []
  | v :: rest =>
    match ofJson? v, membersOfList? rest with
    | some r, some members => some (r :: members)
    | _, _ => none

end

end Record

namespace Trace

/-- the trace with these parts; the duration may be missing -/
def ofParts? (id name args branches isExecuting : Value) (duration : Option Value)
    (startedAt : Value) : Option Trace := do
  let id ← id.text?
  let name ← name.text?
  let args ← args.fields?
  let branches ← Record.listOfJson? branches
  let isExecuting ← isExecuting.flag?
  let duration ← Value.optional Value.word? duration
  let startedAt ← Timestamp.ofText? (← startedAt.text?)
  some { id, name, args, branches, isExecuting, duration, startedAt }

/-- an object, or a list of all parts in order -/
def ofJson? : Value → Option Trace
  | .object fields => do
    ofParts? (← Fields.get? "id" fields) (← Fields.get? "name" fields)
      (← Fields.get? "args" fields) (← Fields.get? "branches" fields)
      (← Fields.get? "is_executing" fields) (Fields.get? "duration" fields)
      (← Fields.get? "started_at" fields)
  | .array [id, name, args, branches, isExecuting, duration, startedAt] =>
    ofParts? id name args branches isExecuting (some duration) startedAt
  | _ => none

end Trace

/-! ## equality

Output maps are equal when they hold equal lists under the same keys, in any order. Values are
compared as the program compares them. -/

def Mutation.same (a b : Mutation) : Bool :=
  a.method = b.method && a.path = b.path && Value.sameItems a.args b.args

def sameList (same : α → α → Bool) : List α → List α → Bool
  | [], [] => true
  | a :: as, b :: bs => same a b && sameList same as bs
  | _, _ => false

def sameOption (same : α → α → Bool) : Option α → Option α → Bool
  | none, none => true
  | some a, some b => same a b
  | _, _ => false

def Slot.same (a b : Slot) : Bool :=
  sameOption Value.sameFields a.args b.args && sameOption Value.same a.output b.output
    && a.duration = b.duration && sameList Mutation.same a.mutations b.mutations
    && a.outputPath = b.outputPath && a.isExecuting = b.isExecuting
    && a.hasExecuted = b.hasExecuted

namespace Record

mutual

def same : Record → Record → Bool
  | mk o s none, mk o' s' none => o = o' && s.same s'
  | mk o s (some outputs), mk o' s' (some outputs') =>
    o = o' && s.same s' && outputs.length = outputs'.length && sameOutputs outputs outputs'
  | _, _ => false

/-- every output of the first map is in the second with the same list -/
def sameOutputs : List (String × List (Item Record)) → List (String × List (Item Record)) → Bool
  | [], _ => true
  | (output, items) :: rest, other =>
    (match Keyed.get? output other with
      | some items' => sameItems items items'
      | none => false) && sameOutputs rest other

def sameItems : List (Item Record) → List (Item Record) → Bool
  | [], [] => true
  | .step a :: as, .step b :: bs => same a b && sameItems as bs
  | .group a :: as, .group b :: bs => sameMembers a b && sameItems as bs
  | _, _ => false

def sameMembers : List Record → List Record → Bool
  | [], [] => true
  | a :: as, b :: bs => same a b && sameMembers as bs
  | _, _ => false

end

end Record

def Trace.same (a b : Trace) : Bool :=
  a.id = b.id && a.name = b.name && Value.sameFields a.args b.args
    && Record.sameItems a.branches b.branches && a.isExecuting = b.isExecuting
    && a.duration = b.duration && a.startedAt = b.startedAt

end SignalFlow
