import SignalFlow.Proofs.Definition.Numbering
import SignalFlow.Proofs.Json.Value
import SignalFlow.Proofs.Run.LifeCycle
import SignalFlow.Proofs.Trace.Json
import SignalFlow.Proofs.Trace.Taken
/-!
# Traces survive JSON

* `Record.same_sorted`        putting output maps in order leaves a record equal to what it was;
* `Record.Read`, `Trace.Read` what is read: no null as a payload, output maps in order, and values as
                              they were given; so it is in order already (`Trace.Read.sorted_eq`);
* `Run.Reachable.plain_snapshot`  a run shows no null as a payload, and no output with two lists.

`Trace.round_trip`: what was written reads back as an equal trace, and what was read as the same.
-/

namespace SignalFlow

/-! ## equality -/

/-- the values that a slot shows -/
def Slot.values (slot : Slot) : List Value :=
  (slot.args.map Value.object).toList ++ slot.output.toList ++ slot.mutations.flatMap Mutation.args

/-- the values that a trace shows -/
def Trace.values (trace : Trace) : List Value :=
  .object trace.args :: trace.records.flatMap fun r => r.slot.values

section
variable {α : Type u} {same : α → α → Bool}

theorem sameOption_self {part : Option α} (each : ∀ a ∈ part, same a a = true) :
    sameOption same part part = true := by
  cases part with
  | none => rfl
  | some a => exact each a rfl

theorem sameList_self {l : List α} (each : ∀ a ∈ l, same a a = true) :
    sameList same l l = true := by
  induction l with
  | nil => rfl
  | cons a l ih =>
    obtain ⟨own, others⟩ := List.forall_mem_cons.mp each
    rw [sameList, own, ih others]
    rfl

end

theorem Mutation.same_self {m : Mutation} (proper : ∀ v ∈ m.args, v.proper = true) :
    m.same m = true := by
  rw [same, Value.sameItems_self _ (Value.properItems_iff.mpr proper), decide_eq_true rfl,
    decide_eq_true rfl]
  rfl

theorem Slot.same_self {slot : Slot} (proper : ∀ v ∈ slot.values, v.proper = true) :
    slot.same slot = true := by
  obtain ⟨shown, logged⟩ := List.forall_mem_append.mp proper
  obtain ⟨seen, told⟩ := List.forall_mem_append.mp shown
  have args : sameOption Value.sameFields slot.args slot.args = true :=
    sameOption_self fun args found =>
      have proper := seen (.object args) (by rw [found]; exact List.mem_singleton_self _)
      Value.sameFields_self args (Bool.and_eq_true_iff.mp proper).2
  have output : sameOption Value.same slot.output slot.output = true :=
    sameOption_self fun v found => Value.same_self v (told v (Option.mem_toList.mpr found))
  have mutations : sameList Mutation.same slot.mutations slot.mutations = true :=
    sameList_self fun m hm =>
      Mutation.same_self fun v hv => logged v (List.mem_flatMap.mpr ⟨m, hm, hv⟩)
  simp only [same, args, output, mutations, decide_true, Bool.and_self]

namespace Record

theorem sameOutputs_of_each {outputs other : List (String × List (Item Record))}
    (each : ∀ entry ∈ outputs, ∃ items, Keyed.get? entry.1 other = some items ∧
      sameItems entry.2 items = true) : sameOutputs outputs other = true := by
  induction outputs with
  | nil => rw [sameOutputs]
  | cons entry rest ih =>
    obtain ⟨⟨items, found, own⟩, others⟩ := List.forall_mem_cons.mp each
    rw [sameOutputs, found, ih others, Bool.and_true]
    exact own

theorem sameOutputs_sorted {outputs : List (String × List (Item Record))}
    (unique : Keyed.Unique outputs)
    (each : ∀ entry ∈ outputs, sameItems (sortedItems entry.2) entry.2 = true) :
    (Fields.ofList (sortedOutputs outputs)).length = outputs.length ∧
      sameOutputs (Fields.ofList (sortedOutputs outputs)) outputs = true := by
  have order := Fields.ofList_perm unique
  rw [sortedOutputs_eq, ← Fields.map_ofList]
  refine ⟨by rw [List.length_map, order.length_eq], sameOutputs_of_each fun entry he => ?_⟩
  obtain ⟨first, member, rfl⟩ := List.mem_map.mp he
  have member := order.mem_iff.mp member
  exact ⟨first.2, Keyed.get?_of_mem unique member, each first member⟩

mutual

theorem same_sorted : ∀ r : Record,
    (∀ part ∈ all r, Plain part ∧ ∀ v ∈ part.slot.values, v.proper = true) →
      same (sorted r) r = true
  | mk o slot none, plain => by
    have own := Slot.same_self (plain _ (List.mem_singleton_self _)).2
    rw [sorted, same, decide_eq_true (Eq.refl o), Bool.true_and]
    exact own
  | mk o slot (some outputs), plain => by
    obtain ⟨⟨⟨-, unique⟩, proper⟩, inside⟩ := List.forall_mem_cons.mp plain
    obtain ⟨length, lists⟩ := sameOutputs_sorted (unique outputs rfl)
      (same_sortedOutputs outputs inside)
    rw [sorted, same, decide_eq_true (Eq.refl o), decide_eq_true length, lists, Bool.and_true,
      Bool.and_true, Bool.true_and]
    exact Slot.same_self proper

theorem same_sortedOutputs : ∀ outputs : List (String × List (Item Record)),
    (∀ part ∈ allOfOutputs outputs, Plain part ∧ ∀ v ∈ part.slot.values, v.proper = true) →
      ∀ entry ∈ outputs, sameItems (sortedItems entry.2) entry.2 = true
  | [], _ => fun _ h => nomatch h
  | (output, items) :: rest, plain => by
    obtain ⟨own, others⟩ := List.forall_mem_append.mp plain
    exact List.forall_mem_cons.mpr ⟨same_sortedItems items own, same_sortedOutputs rest others⟩

theorem same_sortedItems : ∀ items : List (Item Record),
    (∀ part ∈ allOfItems items, Plain part ∧ ∀ v ∈ part.slot.values, v.proper = true) →
      sameItems (sortedItems items) items = true
  | [], _ => by rw [sortedItems, sameItems]
  | .step r :: rest, plain => by
    obtain ⟨own, others⟩ := List.forall_mem_append.mp plain
    rw [sortedItems, sameItems, same_sorted r own, same_sortedItems rest others]
    rfl
  | .group members :: rest, plain => by
    obtain ⟨own, others⟩ := List.forall_mem_append.mp plain
    rw [sortedItems, sameItems, same_sortedMembers members own, same_sortedItems rest others]
    rfl

theorem same_sortedMembers : ∀ members : List Record,
    (∀ part ∈ allOfMembers members, Plain part ∧ ∀ v ∈ part.slot.values, v.proper = true) →
      sameMembers (sortedMembers members) members = true
  | [], _ => by rw [sortedMembers, sameMembers]
  | r :: rest, plain => by
    obtain ⟨own, others⟩ := List.forall_mem_append.mp plain
    rw [sortedMembers, sameMembers, same_sorted r own, same_sortedMembers rest others]
    rfl

end

end Record

theorem Trace.same_sorted {trace : Trace} (plain : ∀ r ∈ trace.records, r.Plain)
    (proper : ∀ v ∈ trace.values, v.proper = true) : trace.sorted.same trace = true := by
  obtain ⟨args, shown⟩ := List.forall_mem_cons.mp proper
  have args := Value.sameFields_self _ (Bool.and_eq_true_iff.mp args).2
  have branches := Record.same_sortedItems trace.branches fun r hr =>
    ⟨plain r hr, fun v hv => shown v (List.mem_flatMap.mpr ⟨r, hr, hv⟩)⟩
  simp only [same, sorted, args, branches, decide_true, Bool.and_self]

/-! ## what is read -/

namespace Value

section
variable {α : Type u} {read : Value → Option α}

theorem of_optional {part : Option Value} {a : α} (h : optional read part = some (some a)) :
    ∃ v, part = some v ∧ v ≠ .null ∧ read v = some a := by
  unfold optional at h
  split at h
  · cases h
  · cases h
  · next v told =>
    obtain ⟨b, found, same⟩ := Option.map_eq_some_iff.mp h
    exact ⟨v, rfl, told, Option.some.inj same ▸ found⟩

theorem of_mapM {vs : List Value} {l : List α} (h : vs.mapM read = some l) :
    ∀ a ∈ l, ∃ v ∈ vs, read v = some a := by
  induction vs generalizing l with
  | nil =>
    cases h
    exact fun _ h => nomatch h
  | cons v vs ih =>
    simp only [List.mapM_cons, Option.bind_eq_bind, Option.bind_eq_some_iff] at h
    obtain ⟨a, own, l, others, same⟩ := h
    cases same
    refine List.forall_mem_cons.mpr ⟨⟨v, List.mem_cons_self, own⟩, fun b hb => ?_⟩
    obtain ⟨w, hw, found⟩ := ih others b hb
    exact ⟨w, List.mem_cons_of_mem _ hw, found⟩

end

theorem of_items? {v : Value} {items : List Value} (h : v.items? = some items) :
    v = .array items := by
  cases v with
  | array _ => exact congrArg Value.array (Option.some.inj h)
  | null | bool _ | number _ | string _ | object _ => cases h

theorem of_fields? {v : Value} {fields : List (String × Value)} (h : v.fields? = some fields) :
    v = .object fields := by
  cases v with
  | object _ => exact congrArg Value.object (Option.some.inj h)
  | null | bool _ | number _ | string _ | array _ => cases h

end Value

theorem Mutation.proper_of_ofParts? {name path args : Value} {m : Mutation}
    (proper : args.proper = true) (h : ofParts? name path args = some m) :
    ∀ arg ∈ m.args, arg.proper = true := by
  simp only [ofParts?, Option.bind_eq_bind, Option.bind_eq_some_iff] at h
  obtain ⟨method, -, _, -, keys, -, items, found, same⟩ := h
  cases same
  exact Value.proper_array.mp (Value.of_items? found ▸ proper)

theorem Mutation.proper_args {v : Value} {m : Mutation} (proper : v.proper = true)
    (h : ofJson? v = some m) : ∀ arg ∈ m.args, arg.proper = true := by
  unfold ofJson? at h
  split at h
  · simp only [Option.bind_eq_bind, Option.bind_eq_some_iff] at h
    obtain ⟨name, -, path, -, args, found, h⟩ := h
    exact proper_of_ofParts? ((Value.proper_object.mp proper).2 _ (Fields.mem_of_get? found)) h
  · next name path args =>
    exact proper_of_ofParts? (Value.proper_array.mp proper args (by simp)) h
  · cases h

/-- a payload that was read is not null, and the values come from what they were read from -/
theorem Slot.of_ofFields? {fields : List (String × Value)} {slot : Slot}
    (proper : ∀ entry ∈ fields, entry.2.proper = true) (h : ofFields? fields = some slot) :
    slot.output ≠ some .null ∧ ∀ v ∈ slot.values, v.proper = true := by
  simp only [ofFields?, Option.bind_eq_bind, Option.bind_eq_some_iff] at h
  obtain ⟨args, readArgs, output, readOutput, duration, -, _, there, entries, shape, mutations,
    readMutations, outputPath, -, _, -, executing, -, _, -, executed, -, same⟩ := h
  cases same
  have seen {fields : List (String × Value)} (found : args = some fields) :
      (Value.object fields).proper = true := by
    obtain ⟨v, there, -, read⟩ := Value.of_optional (found ▸ readArgs)
    exact Value.of_fields? read ▸ proper _ (Fields.mem_of_get? there)
  have told {v : Value} (found : output = some v) : v ≠ .null ∧ v.proper = true := by
    obtain ⟨w, there, told, read⟩ := Value.of_optional (found ▸ readOutput)
    cases read
    exact ⟨told, proper _ (Fields.mem_of_get? there)⟩
  have logged : ∀ m ∈ mutations, ∀ arg ∈ m.args, arg.proper = true := by
    intro m hm
    obtain ⟨v, hv, read⟩ := Value.of_mapM readMutations m hm
    have own := proper _ (Fields.mem_of_get? there)
    rw [Value.of_items? shape] at own
    exact Mutation.proper_args (Value.proper_array.mp own v hv) read
  refine ⟨fun null => (told null).1 rfl, fun v hv => ?_⟩
  rcases List.mem_append.mp hv with shown | inLog
  · rcases List.mem_append.mp shown with inArgs | inOutput
    · obtain ⟨fields, found, rfl⟩ := Option.map_eq_some_iff.mp (Option.mem_toList.mp inArgs)
      exact seen found
    · exact (told (Option.mem_toList.mp inOutput)).2
  · obtain ⟨m, hm, inArgs⟩ := List.mem_flatMap.mp inLog
    exact logged m hm v inArgs

namespace Record

/-- what is read: the payload is not null, the names of the outputs stand in order, and the values
are as JSON has them -/
structure Read (r : Record) : Prop where
  told : r.slot.output ≠ some .null
  ordered : ∀ outputs, r.outputs = some outputs → Fields.Sorted outputs
  proper : ∀ v ∈ r.slot.values, v.proper = true

theorem Read.plain {r : Record} (h : r.Read) : r.Plain :=
  ⟨h.told, fun outputs found => Fields.unique_of_sorted (h.ordered outputs found)⟩

theorem names_of_outputsOfFields? {fields : List (String × Value)}
    {outputs : List (String × List (Item Record))} (h : outputsOfFields? fields = some outputs) :
    outputs.map (·.1) = fields.map (·.1) := by
  induction fields generalizing outputs with
  | nil =>
    cases h
    rfl
  | cons entry rest ih =>
    rw [outputsOfFields?] at h
    split at h
    · next _ behind =>
      cases h
      rw [List.map_cons, List.map_cons, ih behind]
    · cases h

theorem allOfItems_cons (item : Item Record) (rest : List (Item Record)) :
    allOfItems (item :: rest) = allOfItems [item] ++ allOfItems rest := by
  cases item with
  | step r => rw [allOfItems, allOfItems, allOfItems, List.append_nil]
  | group members => rw [allOfItems, allOfItems, allOfItems, List.append_nil]

/-- the output map of a record, and the records in it -/
def ReadMap (outputs : Option (List (String × List (Item Record)))) : Prop :=
  ∀ map, outputs = some map → Fields.Sorted map ∧ ∀ part ∈ allOfOutputs map, Read part

theorem read_of_parts {fields : List (String × Value)} {o : Occurrence} {slot : Slot}
    {outputs : Option (List (String × List (Item Record)))}
    (proper : ∀ entry ∈ fields, entry.2.proper = true) (known : Slot.ofFields? fields = some slot)
    (map : ReadMap outputs) : ∀ part ∈ all (mk o slot outputs), Read part := by
  obtain ⟨told, shown⟩ := Slot.of_ofFields? proper known
  have own : Read (mk o slot outputs) := ⟨told, fun m found => (map m found).1, shown⟩
  cases outputs with
  | none => exact List.forall_mem_singleton.mpr own
  | some m => exact List.forall_mem_cons.mpr ⟨own, (map m rfl).2⟩

mutual

theorem read_ofJson? : ∀ (v : Value) {r : Record}, v.proper = true → ofJson? v = some r →
    ∀ part ∈ all r, Read part
  | .object fields, r, proper, h => by
    have proper := (Value.proper_object.mp proper).2
    rw [ofJson?] at h
    split at h
    · next _ known map =>
      cases h
      exact read_of_parts proper known (read_mapOfFields? fields proper map)
    · cases h
  | .null, _, _, h | .bool _, _, _, h | .number _, _, _, h | .string _, _, _, h
  | .array _, _, _, h => by cases h

theorem read_mapOfFields? : ∀ (fields : List (String × Value))
    {outputs : Option (List (String × List (Item Record)))},
    (∀ entry ∈ fields, entry.2.proper = true) → mapOfFields? fields = some outputs → ReadMap outputs
  | [], _, _, h => by
    cases h
    exact fun _ found => nomatch found
  | (key, v) :: rest, _, proper, h => by
    obtain ⟨own, others⟩ := List.forall_mem_cons.mp proper
    rw [mapOfFields?] at h
    split at h
    · exact read_mapOfJson? v own h
    · exact read_mapOfFields? rest others h

theorem read_mapOfJson? : ∀ (v : Value) {outputs : Option (List (String × List (Item Record)))},
    v.proper = true → mapOfJson? v = some outputs → ReadMap outputs
  | .object fields, _, proper, h => by
    obtain ⟨sorted, proper⟩ := Value.proper_object.mp proper
    obtain ⟨map, read, rfl⟩ := Option.map_eq_some_iff.mp h
    rintro _ ⟨⟩
    refine ⟨?_, read_outputsOfFields? fields proper read⟩
    have names := List.pairwise_map.mpr sorted
    rw [← names_of_outputsOfFields? read] at names
    exact List.pairwise_map.mp names
  | .null, _, _, h => by
    cases h
    exact fun _ found => nomatch found
  | .bool _, _, _, h | .number _, _, _, h | .string _, _, _, h | .array _, _, _, h => by cases h

theorem read_outputsOfFields? : ∀ (fields : List (String × Value))
    {outputs : List (String × List (Item Record))},
    (∀ entry ∈ fields, entry.2.proper = true) → outputsOfFields? fields = some outputs →
      ∀ part ∈ allOfOutputs outputs, Read part
  | [], _, _, h => by
    cases h
    exact fun _ found => nomatch found
  | (_, v) :: rest, _, proper, h => by
    obtain ⟨own, others⟩ := List.forall_mem_cons.mp proper
    rw [outputsOfFields?] at h
    split at h
    · next first behind =>
      cases h
      exact List.forall_mem_append.mpr
        ⟨read_listOfJson? v own first, read_outputsOfFields? rest others behind⟩
    · cases h

theorem read_listOfJson? : ∀ (v : Value) {items : List (Item Record)}, v.proper = true →
    listOfJson? v = some items → ∀ part ∈ allOfItems items, Read part
  | .array items, _, proper, h => read_itemsOfList? items (Value.proper_array.mp proper) h
  | .null, _, _, h | .bool _, _, _, h | .number _, _, _, h | .string _, _, _, h
  | .object _, _, _, h => by cases h

theorem read_itemsOfList? : ∀ (vs : List Value) {items : List (Item Record)},
    (∀ v ∈ vs, v.proper = true) → itemsOfList? vs = some items →
      ∀ part ∈ allOfItems items, Read part
  | [], _, _, h => by
    cases h
    exact fun _ found => nomatch found
  | v :: rest, _, proper, h => by
    obtain ⟨own, others⟩ := List.forall_mem_cons.mp proper
    rw [itemsOfList?] at h
    split at h
    · next item items first behind =>
      cases h
      rw [allOfItems_cons]
      exact List.forall_mem_append.mpr
        ⟨read_itemOfJson? v own first, read_itemsOfList? rest others behind⟩
    · cases h

theorem read_itemOfJson? : ∀ (v : Value) {item : Item Record}, v.proper = true →
    itemOfJson? v = some item → ∀ part ∈ allOfItems [item], Read part
  -- the record of the object is no smaller than the item, so the step goes to the entries of both
  | .object fields, _, proper, h => by
    have proper := (Value.proper_object.mp proper).2
    rw [itemOfJson?] at h
    split at h
    · next _ known map =>
      cases h
      rw [allOfItems, allOfItems, List.append_nil]
      exact read_of_parts proper known (read_mapOfFields? fields proper map)
    · cases h
  | .array members, _, proper, h => by
    obtain ⟨records, read, rfl⟩ := Option.map_eq_some_iff.mp h
    rw [allOfItems, allOfItems, List.append_nil]
    exact read_membersOfList? members (Value.proper_array.mp proper) read
  | .null, _, _, h | .bool _, _, _, h | .number _, _, _, h | .string _, _, _, h => by cases h

theorem read_membersOfList? : ∀ (vs : List Value) {members : List Record},
    (∀ v ∈ vs, v.proper = true) → membersOfList? vs = some members →
      ∀ part ∈ allOfMembers members, Read part
  | [], _, _, h => by
    cases h
    exact fun _ found => nomatch found
  | v :: rest, _, proper, h => by
    obtain ⟨own, others⟩ := List.forall_mem_cons.mp proper
    rw [membersOfList?] at h
    split at h
    · next first behind =>
      cases h
      exact List.forall_mem_append.mpr
        ⟨read_ofJson? v own first, read_membersOfList? rest others behind⟩
    · cases h

end

mutual

theorem sorted_of_read : ∀ r : Record, (∀ part ∈ all r, Read part) → sorted r = r
  | mk _ _ none, _ => rfl
  | mk o slot (some outputs), h => by
    obtain ⟨own, inside⟩ := List.forall_mem_cons.mp h
    rw [sorted, sortedOutputs_of_read outputs inside,
      Fields.ofList_eq_self (own.ordered outputs rfl)]

theorem sortedOutputs_of_read : ∀ outputs : List (String × List (Item Record)),
    (∀ part ∈ allOfOutputs outputs, Read part) → sortedOutputs outputs = outputs
  | [], _ => rfl
  | (output, items) :: rest, h => by
    obtain ⟨own, others⟩ := List.forall_mem_append.mp h
    rw [sortedOutputs, sortedItems_of_read items own, sortedOutputs_of_read rest others]

theorem sortedItems_of_read : ∀ items : List (Item Record),
    (∀ part ∈ allOfItems items, Read part) → sortedItems items = items
  | [], _ => rfl
  | .step r :: rest, h => by
    obtain ⟨own, others⟩ := List.forall_mem_append.mp h
    rw [sortedItems, sorted_of_read r own, sortedItems_of_read rest others]
  | .group members :: rest, h => by
    obtain ⟨own, others⟩ := List.forall_mem_append.mp h
    rw [sortedItems, sortedMembers_of_read members own, sortedItems_of_read rest others]

theorem sortedMembers_of_read : ∀ members : List Record,
    (∀ part ∈ allOfMembers members, Read part) → sortedMembers members = members
  | [], _ => rfl
  | r :: rest, h => by
    obtain ⟨own, others⟩ := List.forall_mem_append.mp h
    rw [sortedMembers, sorted_of_read r own, sortedMembers_of_read rest others]

end

end Record

namespace Trace

/-- a trace that was read -/
structure Read (trace : Trace) : Prop where
  moment : trace.startedAt.Valid
  records : ∀ r ∈ trace.records, r.Read
  args : (Value.object trace.args).proper = true

theorem read_of_ofParts? {id name args branches isExecuting startedAt : Value}
    {duration : Option Value} {trace : Trace} (proper : args.proper = true)
    (properBranches : branches.proper = true)
    (h : ofParts? id name args branches isExecuting duration startedAt = some trace) :
    trace.Read := by
  simp only [ofParts?, Option.bind_eq_bind, Option.bind_eq_some_iff] at h
  obtain ⟨_, -, _, -, args, readArgs, items, readItems, _, -, _, -, s, -, moment, readMoment, same⟩ := h
  cases same
  exact ⟨Timestamp.valid_of_ofText? readMoment, Record.read_listOfJson? _ properBranches readItems,
    Value.of_fields? readArgs ▸ proper⟩

theorem read_ofJson? {v : Value} {trace : Trace} (proper : v.proper = true)
    (h : ofJson? v = some trace) : trace.Read := by
  unfold ofJson? at h
  split at h
  · simp only [Option.bind_eq_bind, Option.bind_eq_some_iff] at h
    obtain ⟨id, -, name, -, args, inArgs, branches, inBranches, _, -, _, -, h⟩ := h
    have proper := (Value.proper_object.mp proper).2
    exact read_of_ofParts? (proper _ (Fields.mem_of_get? inArgs))
      (proper _ (Fields.mem_of_get? inBranches)) h
  · next id name args branches isExecuting duration startedAt =>
    have proper := Value.proper_array.mp proper
    exact read_of_ofParts? (proper args (by simp)) (proper branches (by simp)) h
  · cases h

theorem Read.sorted_eq {trace : Trace} (h : trace.Read) : trace.sorted = trace := by
  rw [sorted, Record.sortedItems_of_read _ h.records]

theorem Read.proper {trace : Trace} (h : trace.Read) : ∀ v ∈ trace.values, v.proper = true := by
  refine List.forall_mem_cons.mpr ⟨h.args, fun v hv => ?_⟩
  obtain ⟨r, hr, shown⟩ := List.mem_flatMap.mp hv
  exact (h.records r hr).proper v shown

end Trace

/-! ## snapshots -/

theorem Record.names_ofOutputs (slots : List Slot) (outputs : List (String × List (Item Branch))) :
    (ofOutputs slots outputs).map (·.1) = outputs.map (·.1) := by
  induction outputs with
  | nil => rfl
  | cons entry rest ih => rw [ofOutputs, List.map_cons, List.map_cons, ih]

theorem Slot.In.told {a : Action} {slot : Slot} {phase : Phase} (h : slot.In a phase) :
    slot.output ≠ some .null := by
  have silent (none : slot.output = none) : slot.output ≠ some .null := none ▸ nofun
  cases phase with
  | untouched => exact silent (congrArg Slot.output h)
  | executing => exact silent (Underway.silent h)
  | executed => exact Complete.told h
  | closed => exact silent (Closed.silent h)

/-- a run shows no null as a payload, and no output with two lists -/
theorem Run.Reachable.plain_snapshot {name : String} {policy : Policy} {definition : List Chain}
    {signal : Signal} {run : Run} (created : Signal.create name policy definition = .ok signal)
    (unique : ∀ outputs ∈ Chain.maps definition, Keyed.Unique outputs)
    (reachable : Reachable signal run) : ∀ r ∈ run.snapshot.records, r.Plain := by
  rw [records_snapshot created (reachable.sound created).belongs]
  refine List.forall_mem_map.mpr fun b hb => ?_
  obtain ⟨accepted, rfl⟩ := Signal.create_eq created
  obtain ⟨phase, h⟩ := reachable.phase created (Tree.specs_compile accepted ▸ hb)
  refine ⟨Record.slot_ofBranch run.shared b ▸ h.told, fun outputs found => ?_⟩
  have distinct := Tree.distinct_compileItems false [] 0 0 [] definition unique b hb
  obtain ⟨spec, _ | map⟩ := b
  · cases found
  · cases found
    rw [Keyed.Unique, Record.names_ofOutputs]
    exact distinct map rfl

/-! ## main statement -/

/-- **Traces survive JSON.** Reading what was written succeeds, for every trace that shows no null as a
payload, and gives the trace with its output maps in the order of the names, which is equal to it.
Every snapshot of a run is such a trace, and so is every trace that was read; reading it back once more
gives the same trace. Values are as JSON has them, without a NaN; the names in an output map are as
different as those in the output maps of a definition. -/
theorem Trace.round_trip :
    (∀ trace : Trace, trace.startedAt.Valid → (∀ r ∈ trace.records, r.Plain) →
      ofJson? trace.toJson = some trace.sorted ∧
        ((∀ v ∈ trace.values, v.proper = true) → trace.sorted.same trace = true)) ∧
    (∀ name policy definition signal run, Signal.create name policy definition = .ok signal →
      (∀ outputs ∈ Chain.maps definition, Keyed.Unique outputs) → Run.Reachable signal run →
        ∀ r ∈ run.snapshot.records, r.Plain) ∧
    ∀ (v : Value) (trace : Trace), v.proper = true → ofJson? v = some trace →
      trace.startedAt.Valid ∧ (∀ r ∈ trace.records, r.Plain) ∧
        (∀ v ∈ trace.values, v.proper = true) ∧
        ofJson? trace.toJson = some trace ∧ trace.same trace = true := by
  refine ⟨fun trace moment plain => ⟨ofJson?_toJson moment plain, same_sorted plain⟩,
    fun _ _ _ _ _ created unique reachable => reachable.plain_snapshot created unique,
    fun v trace proper h => ?_⟩
  have read := read_ofJson? proper h
  have plain : ∀ r ∈ trace.records, r.Plain := fun r hr => (read.records r hr).plain
  have again := ofJson?_toJson read.moment plain
  have same := same_sorted plain read.proper
  rw [read.sorted_eq] at again same
  exact ⟨read.moment, plain, read.proper, again, same⟩

/-- a leap second, an empty group and names out of order; a run with such names; and a value with parts
left out, an unknown part and local time -/
theorem Trace.round_trip_nested :
    let render : Record := .mk ⟨"render", [.index 1, .key "outputs", .key "0", .index 0], true, 1⟩ {} none
    let load : Record := .mk ⟨"load", [.index 1], false, 0⟩
      { args := some [], output := some (.bool true), outputPath := some "0", hasExecuted := true,
        mutations := [⟨.set, ["a"], [.null]⟩] }
      (some [("missing", []), ("0", [.step render, .group [render]])])
    let trace : Trace := { id := "1", name := "page", args := [], isExecuting := false
                           branches := [.group [], .step load], duration := some 5
                           startedAt := ⟨2016, 12, 31, 23, 59, 60, 500000000⟩ }
    let given : Value := .object [("args", .object []), ("branches", .array [.array [], .object
        [("action_index", .nat 0), ("has_executed", .bool false), ("is_async", .bool false),
          ("is_executing", .bool false), ("mutations", .array [.array [.object [("set", .null)],
            .array [.string "a"], .array [.null]]]), ("name", .string "load"),
          ("path", .array [.nat 0, .string "1"]), ("priority", .nat 3)]]),
      ("id", .string "1"), ("is_executing", .bool true), ("name", .string "page"),
      ("started_at", .string "2024-02-29 23:30:60.25 -01:00")]
    let a : Action := ⟨0, "load", ["found", "all"], none, .sync fun _ => .finish (.ok .next)⟩
    let definition := [Chain.action a, .paths [("found", []), ("all", [.action a])]]
    trace.startedAt.Valid ∧ (∀ r ∈ trace.records, r.Plain) ∧ (∀ v ∈ trace.values, v.proper = true) ∧
      ofJson? trace.toJson = some trace.sorted ∧ trace.sorted.same trace = true ∧
      (∃ signal run, Signal.create "page" .reject definition = .ok signal ∧
        (∀ outputs ∈ Chain.maps definition, Keyed.Unique outputs) ∧ Run.Reachable signal run ∧
        ∀ r ∈ run.snapshot.records, r.Plain) ∧
      given.proper = true ∧ ∃ read, ofJson? given = some read ∧
        read.startedAt.text = "2024-03-01T00:30:60.250Z" ∧ ofJson? read.toJson = some read := by
  intro render load trace given a definition
  have moment : trace.startedAt.Valid := by
    refine ⟨⟨?_, ?_, ?_, ?_, ?_, ?_⟩, ?_⟩ <;> decide
  have bare : render.Plain := ⟨nofun, nofun⟩
  have full : load.Plain := by
    refine ⟨nofun, fun outputs found => ?_⟩
    cases found
    exact show ["missing", "0"].Nodup by decide
  have plain : ∀ r ∈ trace.records, r.Plain := by
    show ∀ r ∈ [load, render, render], r.Plain
    simp only [List.forall_mem_cons, full, bare, List.not_mem_nil, false_implies, implies_true,
      and_self]
  have proper : ∀ v ∈ trace.values, v.proper = true := by decide +kernel
  obtain ⟨written, shown, readBack⟩ := Trace.round_trip
  obtain ⟨back, equal⟩ := written trace moment plain
  let signal : Signal := ⟨"page", Tree.compile definition, .reject⟩
  have created : Signal.create "page" .reject definition = .ok signal := rfl
  have unique : ∀ outputs ∈ Chain.maps definition, Keyed.Unique outputs := by
    simp [definition, Chain.maps, Chain.mapsOf, Chain.mapsUnder, Keyed.Unique]
  have reachable := signal.reachable_afterGate "door"
  have given_proper : given.proper = true := by decide +kernel
  have text : (ofJson? given).map (fun t => t.startedAt.text) = some "2024-03-01T00:30:60.250Z" := by
    decide +kernel
  obtain ⟨read, found, text⟩ := Option.map_eq_some_iff.mp text
  obtain ⟨-, -, -, again, -⟩ := readBack given read given_proper found
  exact ⟨moment, plain, proper, back, equal proper, ⟨signal, _, created, unique, reachable,
    shown _ _ _ _ _ created unique reachable⟩, given_proper, read, found, text, again⟩

end SignalFlow
