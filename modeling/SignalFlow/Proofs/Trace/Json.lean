import SignalFlow.Trace.Json
import SignalFlow.Proofs.Json.Fields
import SignalFlow.Proofs.Trace.Timestamp
/-!
# Reading a trace back

* `Record.Plain`            what JSON can tell of a record;
* `Record.sorted`           a record with its output maps in the order of the names;
* `Record.ofJson?_encode`   a record with plain parts is read back, in order;
* `Trace.ofJson?_toJson`    and so is a trace of them.

An object holds its entries by name, so the readers are opened once by what they find under each name
(`Slot.ofFields?_of_entries`, `Occurrence.ofFields?_of_entries`), and `Fields.get?_ofList` says what is
found in what was written.
-/

namespace SignalFlow

/-! ## parts -/

namespace Value

section
variable {α : Type u} {read : Value → Option α} {write : α → Value}

theorem mapM_map {l : List α} (each : ∀ a ∈ l, read (write a) = some a) :
    (l.map write).mapM read = some l := by
  induction l with
  | nil => rfl
  | cons a l ih =>
    obtain ⟨own, others⟩ := List.forall_mem_cons.mp each
    rw [List.map_cons, List.mapM_cons, own, ih others]
    rfl

theorem optional_of_ne {v : Value} (told : v ≠ .null) :
    optional read (some v) = (read v).map some := by
  cases v with
  | null => exact absurd rfl told
  | bool _ | number _ | string _ | array _ | object _ => rfl

/-- a part that may be missing is written as null if it is, and nothing else may be -/
theorem optional_ofOption {part : Option α}
    (each : ∀ a, part = some a → write a ≠ .null ∧ read (write a) = some a) :
    optional read (some (.ofOption (part.map write))) = some part := by
  cases part with
  | none => rfl
  | some a =>
    obtain ⟨told, same⟩ := each a rfl
    show optional read (some (write a)) = _
    rw [optional_of_ne told, same]
    rfl

end

end Value

theorem Segment.ofJson?_toJson (segment : Segment) : ofJson? segment.toJson = some segment := by
  cases segment with
  | index n =>
    show (Value.nat n).word?.map Segment.index = _
    rw [Value.word?_nat]
    rfl
  | key name => rfl

theorem Mutation.ofJson?_toJson (m : Mutation) : ofJson? m.toJson = some m := by
  let entries : List (String × Value) := [("name", .string m.method.name),
    ("path", .array (m.path.map .string)), ("args", .array m.args)]
  have unique : Keyed.Unique entries := show ["name", "path", "args"].Nodup by decide
  have there : ∀ entry ∈ entries, Fields.get? entry.1 (Fields.ofList entries) = some entry.2 :=
    fun _ => Fields.get?_ofList unique
  simp only [entries, List.forall_mem_cons] at there
  obtain ⟨name, path, args, -⟩ := there
  have readName : Mutator.ofJson? (.string m.method.name) = some m.method :=
    Mutator.ofName?_name m.method
  have readPath : (m.path.map Value.string).mapM Value.text? = some m.path :=
    Value.mapM_map fun _ _ => rfl
  show ofJson? (.object (Fields.ofList entries)) = some m
  rw [ofJson?, name, path, args]
  show (Mutator.ofJson? _).bind (fun _ => ((m.path.map Value.string).mapM Value.text?).bind _) = _
  rw [readName, readPath]
  rfl

/-- a slot is read from what stands under its names, if its payload is not null: that would be read as
no payload -/
theorem Slot.ofFields?_of_entries {slot : Slot} {fields : List (String × Value)}
    (told : slot.output ≠ some .null)
    (there : ∀ entry ∈ slot.entries .ofEntries, Fields.get? entry.1 fields = some entry.2) :
    ofFields? fields = some slot := by
  simp only [Slot.entries, List.forall_mem_cons] at there
  obtain ⟨args, output, duration, mutations, path, executing, executed, -⟩ := there
  have readArgs : Value.optional Value.fields? (some (.ofOption (slot.args.map .object))) =
      some slot.args := Value.optional_ofOption fun _ _ => ⟨nofun, rfl⟩
  have readOutput : Value.optional some (some (.ofOption slot.output)) = some slot.output := by
    have read : Value.optional some (some (.ofOption (slot.output.map id))) = some slot.output :=
      Value.optional_ofOption fun v same => ⟨fun null => told (same.trans (congrArg some null)), rfl⟩
    rwa [Option.map_id] at read
  have readDuration : Value.optional Value.word? (some (.ofOption (slot.duration.map .nat))) =
      some slot.duration := Value.optional_ofOption fun n _ => ⟨nofun, Value.word?_nat n⟩
  have readMutations : (slot.mutations.map Mutation.toJson).mapM Mutation.ofJson? =
      some slot.mutations := Value.mapM_map fun m _ => m.ofJson?_toJson
  have readPath : Value.optional Value.text? (some (.ofOption (slot.outputPath.map .string))) =
      some slot.outputPath := Value.optional_ofOption fun _ _ => ⟨nofun, rfl⟩
  rw [ofFields?, args, output, duration, mutations, path, executing, executed, readArgs, readOutput,
    readDuration, readPath]
  show ((slot.mutations.map Mutation.toJson).mapM Mutation.ofJson?).bind _ = _
  rw [readMutations]
  rfl

theorem Occurrence.ofFields?_of_entries {o : Occurrence} {fields : List (String × Value)}
    (there : ∀ entry ∈ o.entries, Fields.get? entry.1 fields = some entry.2) :
    ofFields? fields = some o := by
  simp only [Occurrence.entries, List.forall_mem_cons] at there
  obtain ⟨name, path, isAsync, actionIndex, -⟩ := there
  have readPath : (o.position.map Segment.toJson).mapM Segment.ofJson? = some o.position :=
    Value.mapM_map fun segment _ => segment.ofJson?_toJson
  rw [ofFields?, name, path, isAsync, actionIndex]
  show ((o.position.map Segment.toJson).mapM Segment.ofJson?).bind _ = _
  rw [readPath]
  show (Value.nat o.actionIndex).word?.bind
    (fun n => some ⟨o.name, o.position, o.isAsync, n⟩) = some o
  rw [Value.word?_nat]
  rfl

namespace Record

/-! ## records -/

mutual

/-- a record with its output maps in the order of the names -/
def sorted : Record → Record
  | mk occurrence slot (some outputs) =>
    mk occurrence slot (some (Fields.ofList (sortedOutputs outputs)))
  | mk occurrence slot none => mk occurrence slot none

def sortedOutputs : List (String × List (Item Record)) → List (String × List (Item Record))
  | [] => []
  | (output, items) :: rest => (output, sortedItems items) :: sortedOutputs rest

def sortedItems : List (Item Record) → List (Item Record)
  | [] => []
  | .step r :: rest => .step (sorted r) :: sortedItems rest
  | .group members :: rest => .group (sortedMembers members) :: sortedItems rest

def sortedMembers : List Record → List Record
  | [] => []
  | r :: rest => sorted r :: sortedMembers rest

end

/-- what JSON can tell: the payload is not null, and no output has two lists -/
structure Plain (r : Record) : Prop where
  told : r.slot.output ≠ some .null
  unique : ∀ outputs, r.outputs = some outputs → Keyed.Unique outputs

theorem encodeOutputs_eq (object : List (String × Value) → Value)
    (outputs : List (String × List (Item Record))) :
    encodeOutputs object outputs =
      outputs.map (Prod.map id fun items => .array (encodeItems object items)) := by
  induction outputs with
  | nil => rfl
  | cons entry rest ih => rw [encodeOutputs, ih, List.map_cons]; rfl

theorem sortedOutputs_eq (outputs : List (String × List (Item Record))) :
    sortedOutputs outputs = outputs.map (Prod.map id sortedItems) := by
  induction outputs with
  | nil => rfl
  | cons entry rest ih => rw [sortedOutputs, ih, List.map_cons]; rfl

theorem unique_entries (o : Occurrence) (slot : Slot) {more : List (String × Value)}
    (few : (more.map (·.1)).Sublist ["outputs"]) :
    Keyed.Unique (o.entries ++ slot.entries .ofEntries ++ more) := by
  have names : ["name", "path", "is_async", "action_index", "args", "output", "duration",
    "mutations", "output_path", "is_executing", "has_executed", "outputs"].Nodup := by decide
  rw [Keyed.Unique, List.map_append]
  exact names.sublist (few.append_left ["name", "path", "is_async", "action_index", "args", "output",
    "duration", "mutations", "output_path", "is_executing", "has_executed"])

section
variable {fields : List (String × Value)}

theorem mapOfFields?_of_mem (unique : Keyed.Unique fields) {v : Value}
    (h : ("outputs", v) ∈ fields) : mapOfFields? fields = mapOfJson? v := by
  induction fields with
  | nil => cases h
  | cons first rest ih =>
    obtain ⟨absent, behind⟩ := List.nodup_cons.mp unique
    rw [mapOfFields?]
    cases h with
    | head => exact if_pos rfl
    | tail _ h =>
      have other : first.1 ≠ "outputs" := fun same =>
        absent (List.mem_map.mpr ⟨_, h, same.symm⟩)
      rw [if_neg other, ih behind h]

theorem mapOfFields?_of_absent (h : ∀ entry ∈ fields, entry.1 ≠ "outputs") :
    mapOfFields? fields = some none := by
  induction fields with
  | nil => rfl
  | cons first rest ih =>
    obtain ⟨other, others⟩ := List.forall_mem_cons.mp h
    rw [mapOfFields?, if_neg other, ih others]

end

theorem ofJson?_ofEntries {o : Occurrence} {slot : Slot} {more : List (String × Value)}
    {outputs : Option (List (String × List (Item Record)))}
    (few : (more.map (·.1)).Sublist ["outputs"]) (told : slot.output ≠ some .null)
    (map : mapOfFields? (Fields.ofList (o.entries ++ slot.entries .ofEntries ++ more)) =
      some outputs) :
    ofJson? (.ofEntries (o.entries ++ slot.entries .ofEntries ++ more)) =
      some (mk o slot outputs) := by
  have there : ∀ entry ∈ o.entries ++ slot.entries .ofEntries ++ more, Fields.get? entry.1
      (Fields.ofList (o.entries ++ slot.entries .ofEntries ++ more)) = some entry.2 :=
    fun _ => Fields.get?_ofList (unique_entries o slot few)
  obtain ⟨known, -⟩ := List.forall_mem_append.mp there
  obtain ⟨fixed, known⟩ := List.forall_mem_append.mp known
  rw [Value.ofEntries, ofJson?, Occurrence.ofFields?_of_entries fixed,
    Slot.ofFields?_of_entries told known, map]

theorem itemOfJson?_object (fields : List (String × Value)) :
    itemOfJson? (.object fields) = (ofJson? (.object fields)).map .step := by
  rw [itemOfJson?, ofJson?]
  split
  · rfl
  · rfl

theorem encode_eq_object (r : Record) : ∃ fields, encode .ofEntries r = .object fields := by
  obtain ⟨o, slot, _ | outputs⟩ := r
  · exact ⟨_, rfl⟩
  · exact ⟨_, rfl⟩

theorem outputsOfFields?_map {outputs : List (String × List (Item Record))}
    (each : ∀ entry ∈ outputs,
      itemsOfList? (encodeItems .ofEntries entry.2) = some (sortedItems entry.2)) :
    outputsOfFields? (outputs.map (Prod.map id fun items => .array (encodeItems .ofEntries items))) =
      some (outputs.map (Prod.map id sortedItems)) := by
  induction outputs with
  | nil => rfl
  | cons entry rest ih =>
    obtain ⟨own, others⟩ := List.forall_mem_cons.mp each
    rw [List.map_cons, Prod.map, outputsOfFields?, listOfJson?, own, ih others]
    rfl

theorem mapOfJson?_encodeOutputs {outputs : List (String × List (Item Record))}
    (unique : Keyed.Unique outputs)
    (each : ∀ entry ∈ outputs,
      itemsOfList? (encodeItems .ofEntries entry.2) = some (sortedItems entry.2)) :
    mapOfJson? (.ofEntries (encodeOutputs .ofEntries outputs)) =
      some (some (Fields.ofList (sortedOutputs outputs))) := by
  have same := Fields.ofList_perm unique
  rw [Value.ofEntries, mapOfJson?, encodeOutputs_eq, sortedOutputs_eq, ← Fields.map_ofList,
    ← Fields.map_ofList, outputsOfFields?_map fun entry he => each entry (same.mem_iff.mp he)]
  rfl

mutual

/-- a record reads back with its output maps in order, whatever is nested in it -/
theorem ofJson?_encode : ∀ r : Record, (∀ part ∈ all r, Plain part) →
    ofJson? (encode .ofEntries r) = some (sorted r)
  | mk o slot none, plain => by
    have few : (([] : List (String × Value)).map (·.1)).Sublist ["outputs"] := List.nil_sublist _
    have absent : ∀ entry ∈ o.entries ++ slot.entries .ofEntries ++ [], entry.1 ≠ "outputs" := by
      simp [Occurrence.entries, Slot.entries]
    have same := Fields.ofList_perm (unique_entries o slot few)
    rw [encode, ← List.append_nil (o.entries ++ slot.entries .ofEntries)]
    exact ofJson?_ofEntries few (plain _ (List.mem_singleton_self _)).told
      (mapOfFields?_of_absent fun entry he => absent entry (same.mem_iff.mp he))
  | mk o slot (some outputs), plain => by
    obtain ⟨⟨told, unique⟩, inside⟩ := List.forall_mem_cons.mp plain
    have few : ([("outputs", Value.ofEntries (encodeOutputs .ofEntries outputs))].map
      (·.1)).Sublist ["outputs"] := List.Sublist.refl _
    have there := List.mem_append_right (o.entries ++ slot.entries .ofEntries)
      (List.mem_singleton_self ("outputs", Value.ofEntries (encodeOutputs .ofEntries outputs)))
    have same := Fields.ofList_perm (unique_entries o slot few)
    refine ofJson?_ofEntries few told ?_
    rw [mapOfFields?_of_mem (Fields.unique_of_sorted (Fields.sorted_ofList _))
      (same.mem_iff.mpr there)]
    exact mapOfJson?_encodeOutputs (unique outputs rfl) (itemsOfList?_encodeOutputs outputs inside)

theorem itemsOfList?_encodeOutputs : ∀ outputs : List (String × List (Item Record)),
    (∀ part ∈ allOfOutputs outputs, Plain part) → ∀ entry ∈ outputs,
      itemsOfList? (encodeItems .ofEntries entry.2) = some (sortedItems entry.2)
  | [], _ => fun _ h => nomatch h
  | (output, items) :: rest, plain => by
    obtain ⟨own, others⟩ := List.forall_mem_append.mp plain
    exact List.forall_mem_cons.mpr
      ⟨itemsOfList?_encodeItems items own, itemsOfList?_encodeOutputs rest others⟩

theorem itemsOfList?_encodeItems : ∀ items : List (Item Record),
    (∀ part ∈ allOfItems items, Plain part) →
      itemsOfList? (encodeItems .ofEntries items) = some (sortedItems items)
  | [], _ => rfl
  | .step r :: rest, plain => by
    obtain ⟨own, others⟩ := List.forall_mem_append.mp plain
    have read := ofJson?_encode r own
    -- a record is written as an object, so it is read as a branch and not as a group
    obtain ⟨fields, shape⟩ := encode_eq_object r
    rw [encodeItems, itemsOfList?, shape, itemOfJson?_object, ← shape, read,
      itemsOfList?_encodeItems rest others]
    rfl
  | .group members :: rest, plain => by
    obtain ⟨own, others⟩ := List.forall_mem_append.mp plain
    rw [encodeItems, itemsOfList?, itemOfJson?, membersOfList?_encodeMembers members own,
      itemsOfList?_encodeItems rest others]
    rfl

theorem membersOfList?_encodeMembers : ∀ members : List Record,
    (∀ part ∈ allOfMembers members, Plain part) →
      membersOfList? (encodeMembers .ofEntries members) = some (sortedMembers members)
  | [], _ => rfl
  | r :: rest, plain => by
    obtain ⟨own, others⟩ := List.forall_mem_append.mp plain
    rw [encodeMembers, membersOfList?, ofJson?_encode r own,
      membersOfList?_encodeMembers rest others]
    rfl

end

end Record

/-! ## traces -/

namespace Trace

def sorted (trace : Trace) : Trace :=
  { trace with branches := Record.sortedItems trace.branches }

theorem ofJson?_toJson {trace : Trace} (moment : trace.startedAt.Valid)
    (plain : ∀ r ∈ trace.records, r.Plain) : ofJson? trace.toJson = some trace.sorted := by
  let entries : List (String × Value) := [("id", .string trace.id), ("name", .string trace.name),
    ("args", .object trace.args),
    ("branches", .array (Record.encodeItems .ofEntries trace.branches)),
    ("is_executing", .bool trace.isExecuting),
    ("duration", .ofOption (trace.duration.map .nat)),
    ("started_at", .string trace.startedAt.text)]
  have unique : Keyed.Unique entries :=
    show ["id", "name", "args", "branches", "is_executing", "duration", "started_at"].Nodup by
      decide
  have there : ∀ entry ∈ entries, Fields.get? entry.1 (Fields.ofList entries) = some entry.2 :=
    fun _ => Fields.get?_ofList unique
  simp only [entries, List.forall_mem_cons] at there
  obtain ⟨id, name, args, branches, executing, duration, startedAt, -⟩ := there
  have readBranches : Record.listOfJson? (.array (Record.encodeItems .ofEntries trace.branches)) =
      some (Record.sortedItems trace.branches) := Record.itemsOfList?_encodeItems _ plain
  have readDuration : Value.optional Value.word? (some (.ofOption (trace.duration.map .nat))) =
      some trace.duration := Value.optional_ofOption fun n _ => ⟨nofun, Value.word?_nat n⟩
  show ofJson? (.object (Fields.ofList entries)) = some trace.sorted
  rw [ofJson?, id, name, args, branches, executing, duration, startedAt]
  simp only [Option.bind_eq_bind, Option.bind_some]
  rw [ofParts?, readBranches, readDuration]
  simp only [Value.text?, Value.fields?, Value.flag?, Option.bind_eq_bind, Option.bind_some,
    Timestamp.ofText?_text moment, sorted]

end Trace

end SignalFlow
