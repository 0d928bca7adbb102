import SignalFlow.Proofs.Trace.RoundTrip
/-!
# The order of the records in a trace that is read back

* `Keyed.busy`        the outputs of a map whose lists have a step in them, in the order in which they stand;
* `Record.Partwise`   a relation between lists of records that is shown part by part;
* `Trace.sorted`      what is read back: its records are those of the trace, each in order, in some order
                      (`Trace.records_sorted_perm`).

An object holds its entries by name, so the lists under the outputs of a step come back in the order of their
names. `Run.Reachable.order_read_back`: the records come back in the order of the definition exactly when
the busy outputs of each output map stand in the order of their names, and then a name finds what it found;
otherwise it does if only one record has it. `Run.order_lost` is a run where the order is lost.
-/

namespace SignalFlow

/-! ## lists under names -/

theorem not_both_orders {α : Type u} {l : List α} {a b : α} (nodup : l.Nodup) (h : [a, b].Sublist l) :
    ¬ [b, a].Sublist l := by
  induction l with
  | nil => cases h
  | cons c l ih =>
    obtain ⟨absent, behind⟩ := List.nodup_cons.mp nodup
    intro h'
    cases h with
    | cons _ h =>
      cases h' with
      | cons _ h' => exact ih behind h h'
      | cons_cons _ _ => exact absent (h.subset (by simp))
    | cons_cons _ h =>
      cases h' with
      | cons _ h' => exact absent (h'.subset (by simp))
      | cons_cons _ _ => exact absent (List.singleton_sublist.mp h)

theorem sublist_flatMap {α : Type u} {β : Type v} {l l' : List α} (f : α → List β) (h : l.Sublist l') :
    (l.flatMap f).Sublist (l'.flatMap f) := by
  induction h with
  | slnil => exact .slnil
  | cons a _ ih => exact ih.trans (List.sublist_append_right ..)
  | cons_cons a _ ih => exact (List.Sublist.refl _).append ih

theorem pair_sublist_flatMap {α : Type u} {β : Type v} {l : List α} {f : α → List β} {a b : α} {x y : β}
    (h : [a, b].Sublist l) (hx : x ∈ f a) (hy : y ∈ f b) : [x, y].Sublist (l.flatMap f) := by
  have both := (List.singleton_sublist.mpr hx).append (List.singleton_sublist.mpr hy)
  have among := sublist_flatMap f h
  rw [List.flatMap_cons, List.flatMap_singleton] at among
  exact both.trans among

/-- the keys under which there is a step, in the order in which they stand -/
def Keyed.busy {α : Type u} {β : Type v} (steps : α → List β) (entries : List (String × α)) : List String :=
  (entries.filter fun entry => !(steps entry.2).isEmpty).map (·.1)

section
variable {α : Type u} {β : Type v} {steps : α → List β} {entries : List (String × α)}

theorem Keyed.busy_cons (steps : α → List β) (entry : String × α) (rest : List (String × α)) :
    busy steps (entry :: rest) =
      (if (steps entry.2).isEmpty then [] else [entry.1]) ++ busy steps rest := by
  unfold busy
  rw [List.filter_cons]
  cases (steps entry.2).isEmpty <;> rfl

theorem Keyed.busy_map {α' : Type w} {β' : Type w'} {steps' : α' → List β'} {f : α → α'}
    (same : ∀ entry ∈ entries, (steps' (f entry.2)).isEmpty = (steps entry.2).isEmpty) :
    busy steps' (entries.map (Prod.map id f)) = busy steps entries := by
  induction entries with
  | nil => rfl
  | cons entry rest ih =>
    obtain ⟨own, others⟩ := List.forall_mem_cons.mp same
    rw [List.map_cons, busy_cons, busy_cons, ih others, Prod.map_snd, own]
    rfl

theorem flatMap_filter_busy (entries : List (String × α)) :
    ((entries.filter fun entry => !(steps entry.2).isEmpty).flatMap fun entry => steps entry.2) =
      entries.flatMap fun entry => steps entry.2 := by
  induction entries with
  | nil => rfl
  | cons entry rest ih =>
    rw [List.filter_cons, List.flatMap_cons]
    cases none : (steps entry.2).isEmpty with
    | true =>
      rw [List.isEmpty_iff.mp none]
      exact ih
    | false => exact congrArg (steps entry.2 ++ ·) ih

/-- a map whose busy keys stand in order has its steps in the order of the keys -/
theorem Fields.flatMap_ofList (unique : Keyed.Unique entries)
    (ordered : (Keyed.busy steps entries).Pairwise (· < ·)) :
    ((ofList entries).flatMap fun entry => steps entry.2) =
      entries.flatMap fun entry => steps entry.2 := by
  have sorted : Sorted (entries.filter fun entry => !(steps entry.2).isEmpty) :=
    List.pairwise_map.mp ordered
  have sorted' : Sorted ((ofList entries).filter fun entry => !(steps entry.2).isEmpty) :=
    (sorted_ofList entries).filter _
  have same := List.Perm.eq_of_pairwise
    (fun a b _ _ lt gt => absurd gt (String.lt_asymm lt)) sorted' sorted
    ((ofList_perm unique).filter _)
  rw [← flatMap_filter_busy, same, flatMap_filter_busy]

theorem Fields.sublist_ofList (unique : Keyed.Unique entries) {first second : String × α}
    (h : first ∈ entries) (h' : second ∈ entries) (below : second.1 < first.1) :
    [second, first].Sublist (ofList entries) := by
  have order := ofList_perm unique
  obtain ⟨front, behind, split⟩ := List.append_of_mem (order.mem_iff.mpr h)
  have there : second ∈ front ++ first :: behind := split ▸ order.mem_iff.mpr h'
  have sorted : Sorted (front ++ first :: behind) := split ▸ sorted_ofList entries
  rw [split]
  rcases List.mem_append.mp there with before | after
  · exact (List.singleton_sublist.mpr before).append (List.singleton_sublist.mpr List.mem_cons_self)
  · rcases List.mem_cons.mp after with rfl | after
    · exact absurd below (String.lt_irrefl _)
    · have above := (List.pairwise_cons.mp (List.pairwise_append.mp sorted).2.1).1 second after
      exact absurd below (String.lt_asymm above)

end

/-! ## records in order -/

namespace Record

theorem allOfOutputs_eq (outputs : List (String × List (Item Record))) :
    allOfOutputs outputs = outputs.flatMap fun entry => allOfItems entry.2 := by
  induction outputs with
  | nil => rfl
  | cons entry rest ih => rw [allOfOutputs, ih, List.flatMap_cons]

theorem occurrence_sorted (r : Record) : r.sorted.occurrence = r.occurrence := by
  obtain ⟨_, _, _ | _⟩ := r <;> rfl

theorem named_sorted (step : String) : (fun r : Record => decide (r.name = step)) ∘ sorted =
    fun r : Record => decide (r.name = step) := by
  funext r
  show decide (r.sorted.occurrence.name = step) = _
  rw [occurrence_sorted]
  rfl

theorem outputs_sorted {r : Record} {outputs : List (String × List (Item Record))}
    (found : r.outputs = some outputs) :
    r.sorted.outputs = some (Fields.ofList (sortedOutputs outputs)) := by
  obtain ⟨o, slot, _ | _⟩ := r
  · cases found
  · cases found
    rfl

theorem under_sublist_all {r : Record} {outputs : List (String × List (Item Record))}
    (found : r.outputs = some outputs) :
    (outputs.flatMap fun entry => allOfItems entry.2).Sublist (all r) := by
  obtain ⟨o, slot, _ | _⟩ := r
  · cases found
  · cases found
    rw [← allOfOutputs_eq]
    exact List.sublist_cons_self ..

mutual

theorem all_sublist_all : ∀ (r : Record), ∀ part ∈ all r, (all part).Sublist (all r)
  | mk _ _ none, part, h => by rw [List.mem_singleton.mp h]
  | mk o slot (some outputs), part, h => by
    rcases List.mem_cons.mp h with rfl | h
    · exact .refl _
    · exact (all_sublist_allOfOutputs outputs part h).cons _

theorem all_sublist_allOfOutputs : ∀ (outputs : List (String × List (Item Record))),
    ∀ part ∈ allOfOutputs outputs, (all part).Sublist (allOfOutputs outputs)
  | [], _, h => nomatch h
  | (_, items) :: rest, part, h => by
    rcases List.mem_append.mp h with h | h
    · exact (all_sublist_allOfItems items part h).trans (List.sublist_append_left ..)
    · exact (all_sublist_allOfOutputs rest part h).trans (List.sublist_append_right ..)

theorem all_sublist_allOfItems : ∀ (items : List (Item Record)),
    ∀ part ∈ allOfItems items, (all part).Sublist (allOfItems items)
  | [], _, h => nomatch h
  | .step r :: rest, part, h => by
    rcases List.mem_append.mp h with h | h
    · exact (all_sublist_all r part h).trans (List.sublist_append_left ..)
    · exact (all_sublist_allOfItems rest part h).trans (List.sublist_append_right ..)
  | .group members :: rest, part, h => by
    rcases List.mem_append.mp h with h | h
    · exact (all_sublist_allOfMembers members part h).trans (List.sublist_append_left ..)
    · exact (all_sublist_allOfItems rest part h).trans (List.sublist_append_right ..)

theorem all_sublist_allOfMembers : ∀ (members : List Record),
    ∀ part ∈ allOfMembers members, (all part).Sublist (allOfMembers members)
  | [], _, h => nomatch h
  | r :: rest, part, h => by
    rcases List.mem_append.mp h with h | h
    · exact (all_sublist_all r part h).trans (List.sublist_append_left ..)
    · exact (all_sublist_allOfMembers rest part h).trans (List.sublist_append_right ..)

end

/-- a relation between lists of records that is shown part by part -/
structure Partwise (R : List Record → List Record → Prop) : Prop where
  refl (l : List Record) : R l l
  trans {a b c : List Record} : R a b → R b c → R a c
  append {a b c d : List Record} : R a b → R c d → R (a ++ c) (b ++ d)

/-- the records below a record, with its output map in order and without -/
def Reorders (R : List Record → List Record → Prop) (r : Record) : Prop :=
  ∀ outputs, r.outputs = some outputs →
    R (allOfOutputs (Fields.ofList (sortedOutputs outputs))) (allOfOutputs (sortedOutputs outputs))

section
variable {R : List Record → List Record → Prop} (partwise : Partwise R)
include partwise

mutual

theorem all_sorted : ∀ r : Record, (∀ part ∈ all r, Reorders R part) →
    R (all (sorted r)) ((all r).map sorted)
  | mk _ _ none, _ => partwise.refl _
  | mk o slot (some outputs), h => by
    obtain ⟨own, inside⟩ := List.forall_mem_cons.mp h
    have below := partwise.trans (own outputs rfl) (allOfOutputs_sorted outputs inside)
    exact partwise.append (partwise.refl [sorted (mk o slot (some outputs))]) below

theorem allOfOutputs_sorted : ∀ outputs : List (String × List (Item Record)),
    (∀ part ∈ allOfOutputs outputs, Reorders R part) →
      R (allOfOutputs (sortedOutputs outputs)) ((allOfOutputs outputs).map sorted)
  | [], _ => partwise.refl _
  | (output, items) :: rest, h => by
    obtain ⟨own, others⟩ := List.forall_mem_append.mp h
    rw [sortedOutputs, allOfOutputs, allOfOutputs, List.map_append]
    exact partwise.append (allOfItems_sorted items own) (allOfOutputs_sorted rest others)

theorem allOfItems_sorted : ∀ items : List (Item Record),
    (∀ part ∈ allOfItems items, Reorders R part) →
      R (allOfItems (sortedItems items)) ((allOfItems items).map sorted)
  | [], _ => partwise.refl _
  | .step r :: rest, h => by
    obtain ⟨own, others⟩ := List.forall_mem_append.mp h
    rw [sortedItems, allOfItems, allOfItems, List.map_append]
    exact partwise.append (all_sorted r own) (allOfItems_sorted rest others)
  | .group members :: rest, h => by
    obtain ⟨own, others⟩ := List.forall_mem_append.mp h
    rw [sortedItems, allOfItems, allOfItems, List.map_append]
    exact partwise.append (allOfMembers_sorted members own) (allOfItems_sorted rest others)

theorem allOfMembers_sorted : ∀ members : List Record,
    (∀ part ∈ allOfMembers members, Reorders R part) →
      R (allOfMembers (sortedMembers members)) ((allOfMembers members).map sorted)
  | [], _ => partwise.refl _
  | r :: rest, h => by
    obtain ⟨own, others⟩ := List.forall_mem_append.mp h
    rw [sortedMembers, allOfMembers, allOfMembers, List.map_append]
    exact partwise.append (all_sorted r own) (allOfMembers_sorted rest others)

end

end

theorem partwise_perm : Partwise List.Perm := ⟨.refl, .trans, .append⟩

theorem partwise_eq : Partwise Eq := ⟨fun _ => rfl, .trans, fun same same' => by rw [same, same']⟩

theorem unique_sortedOutputs {outputs : List (String × List (Item Record))}
    (unique : Keyed.Unique outputs) : Keyed.Unique (sortedOutputs outputs) := by
  rw [Keyed.Unique, sortedOutputs_eq, List.map_map]
  exact unique

theorem Plain.reorders {r : Record} (plain : r.Plain) : Reorders List.Perm r := by
  intro outputs found
  rw [allOfOutputs_eq, allOfOutputs_eq]
  exact (Fields.ofList_perm (unique_sortedOutputs (plain.unique outputs found))).flatMap_right _

/-- the busy outputs of a record stand in the order of their names -/
def InOrder (r : Record) : Prop :=
  ∀ outputs, r.outputs = some outputs → (Keyed.busy allOfItems outputs).Pairwise (· < ·)

section
variable {items : List (Item Record)} (plain : ∀ part ∈ allOfItems items, Plain part)
include plain

theorem perm_allOfItems_sorted :
    (allOfItems (sortedItems items)).Perm ((allOfItems items).map sorted) :=
  allOfItems_sorted partwise_perm items fun part hp => (plain part hp).reorders

/-- the records under an output are those of the whole that come back -/
theorem perm_under {r : Record} (hr : r ∈ allOfItems items)
    {outputs : List (String × List (Item Record))} (found : r.outputs = some outputs)
    {entry : String × List (Item Record)} (he : entry ∈ outputs) :
    (allOfItems (sortedItems entry.2)).Perm ((allOfItems entry.2).map sorted) := by
  refine perm_allOfItems_sorted fun part hp => plain part ?_
  exact ((under_sublist_all found).trans (all_sublist_allOfItems items r hr)).subset
    (List.mem_flatMap.mpr ⟨entry, he, hp⟩)

theorem InOrder.reorders {r : Record} (hr : r ∈ allOfItems items) (ordered : r.InOrder) :
    Reorders Eq r := by
  intro outputs found
  have unique := unique_sortedOutputs ((plain r hr).unique outputs found)
  have same : Keyed.busy allOfItems (sortedOutputs outputs) = Keyed.busy allOfItems outputs := by
    rw [sortedOutputs_eq]
    refine Keyed.busy_map fun entry he => ?_
    rw [(perm_under plain hr found he).isEmpty_eq, List.isEmpty_map]
  rw [allOfOutputs_eq, allOfOutputs_eq]
  exact Fields.flatMap_ofList unique (same ▸ ordered outputs found)

section
variable {r x y : Record} (hr : r ∈ allOfItems items) {outputs : List (String × List (Item Record))}
  (found : r.outputs = some outputs) {first second : String × List (Item Record)}
  (hx : x ∈ allOfItems first.2) (hy : y ∈ allOfItems second.2)
include hr found hx hy

omit plain in
theorem pair_sublist_written (both : [first, second].Sublist outputs) :
    [x, y].Sublist (allOfItems items) :=
  (pair_sublist_flatMap both hx hy).trans
    ((under_sublist_all found).trans (all_sublist_allOfItems items r hr))

theorem pair_sublist_back (h : first ∈ outputs) (h' : second ∈ outputs) (gt : second.1 < first.1) :
    [y.sorted, x.sorted].Sublist (allOfItems (sortedItems items)) := by
  have hr' : r.sorted ∈ allOfItems (sortedItems items) :=
    (perm_allOfItems_sorted plain).mem_iff.mpr (List.mem_map_of_mem hr)
  have under := (under_sublist_all (outputs_sorted found)).trans (all_sublist_allOfItems _ _ hr')
  rw [sortedOutputs_eq, ← Fields.map_ofList, List.flatMap_map] at under
  have hx' := (perm_under plain hr found h).mem_iff.mpr (List.mem_map_of_mem hx)
  have hy' := (perm_under plain hr found h').mem_iff.mpr (List.mem_map_of_mem hy)
  have unique := (plain r hr).unique outputs found
  exact (pair_sublist_flatMap (Fields.sublist_ofList unique h h' gt) hy' hx').trans under

end

/-- where the records keep their order, the busy outputs stand in the order of their names: of two that do
not, a step under the one would come back before a step under the other -/
theorem inOrder_of_same (nodup : ((allOfItems items).map (·.occurrence.position)).Nodup)
    (same : allOfItems (sortedItems items) = (allOfItems items).map sorted) {r : Record}
    (hr : r ∈ allOfItems items) : r.InOrder := by
  intro outputs found
  rw [Keyed.busy, List.pairwise_map, List.pairwise_iff_forall_sublist]
  intro first second both
  have both' := both.trans List.filter_sublist
  have busy {entry : String × List (Item Record)} (h : entry ∈ [first, second]) :
      entry ∈ outputs ∧ ∃ part, part ∈ allOfItems entry.2 := by
    obtain ⟨he, some⟩ := List.mem_filter.mp (both.subset h)
    refine ⟨he, List.exists_mem_of_ne_nil _ fun none => ?_⟩
    rw [none] at some
    cases some
  obtain ⟨h, x, hx⟩ := busy List.mem_cons_self
  obtain ⟨h', y, hy⟩ := busy (List.mem_cons_of_mem _ List.mem_cons_self)
  rcases Std.lt_trichotomy first.1 second.1 with lt | same | gt
  · exact lt
  · have different := (both'.map Prod.fst).nodup ((plain r hr).unique outputs found)
    simp only [List.map_cons, same, List.map_nil] at different
    exact absurd List.mem_cons_self (List.nodup_cons.mp different).1
  · have written := pair_sublist_written hr found hx hy both'
    have back := pair_sublist_back plain hr found hx hy h h' gt
    rw [same] at back
    have positions := back.map fun r : Record => r.occurrence.position
    rw [List.map_map] at positions
    simp only [List.map_cons, List.map_nil, Function.comp_def, occurrence_sorted] at positions
    exact absurd positions
      (not_both_orders nodup (written.map fun r : Record => r.occurrence.position))

end

end Record

namespace Record

theorem ofOutputs_eq (slots : List Slot) (outputs : List (String × List (Item Branch))) :
    ofOutputs slots outputs = outputs.map (Prod.map id (ofItems slots)) := by
  induction outputs with
  | nil => rfl
  | cons entry rest ih =>
    rw [ofOutputs, ih, List.map_cons]
    rfl

theorem inOrder_ofBranch (slots : List Slot) (b : Branch) :
    (ofBranch slots b).InOrder ↔
      ∀ outputs, b.outputs = some outputs → (Keyed.busy Branch.allOf outputs).Pairwise (· < ·) := by
  have shown (outputs : List (String × List (Item Branch))) :
      Keyed.busy allOfItems (ofOutputs slots outputs) = Keyed.busy Branch.allOf outputs := by
    rw [ofOutputs_eq]
    refine Keyed.busy_map fun entry _ => ?_
    rw [allOfItems_ofItems, List.isEmpty_map]
  obtain ⟨spec, _ | outputs⟩ := b
  · exact ⟨fun _ _ found => (nomatch found), fun _ _ found => (nomatch found)⟩
  · refine ⟨fun ordered map found => ?_, fun ordered map found => ?_⟩
    · cases found
      exact shown outputs ▸ ordered _ rfl
    · cases found
      exact shown outputs ▸ ordered outputs rfl

end Record

namespace Trace

variable {trace : Trace} (plain : ∀ r ∈ trace.records, r.Plain)
include plain

theorem records_sorted_perm : trace.sorted.records.Perm (trace.records.map Record.sorted) :=
  Record.perm_allOfItems_sorted plain

/-- the records keep their order if and only if the busy outputs stand in the order of their names -/
theorem records_sorted_iff (nodup : (trace.records.map (·.occurrence.position)).Nodup) :
    trace.sorted.records = trace.records.map Record.sorted ↔ ∀ r ∈ trace.records, r.InOrder := by
  refine ⟨fun same r hr => Record.inOrder_of_same plain nodup same hr, fun ordered => ?_⟩
  exact Record.allOfItems_sorted Record.partwise_eq trace.branches fun r hr =>
    (ordered r hr).reorders plain hr

omit plain in
theorem find?_of_records_sorted (same : trace.sorted.records = trace.records.map Record.sorted)
    (step : String) : trace.sorted.find? step = (trace.find? step).map Record.sorted := by
  unfold find?
  rw [same, List.find?_map, Record.named_sorted]

/-- a name that one record has is found again, whatever the order -/
theorem find?_sorted_of_single {step : String}
    (single : (trace.records.filter (·.name = step)).length ≤ 1) :
    trace.sorted.find? step = (trace.find? step).map Record.sorted := by
  have same := (records_sorted_perm plain).filter (·.name = step)
  rw [List.filter_map, Record.named_sorted] at same
  unfold find?
  rw [← List.head?_filter, ← List.head?_filter]
  generalize trace.records.filter (·.name = step) = found at single same ⊢
  cases found with
  | nil =>
    rw [same.eq_nil]
    rfl
  | cons r rest =>
    obtain rfl : rest = [] := List.length_eq_zero_iff.mp (Nat.le_zero.mp (Nat.le_of_succ_le_succ single))
    rw [same.eq_singleton]
    rfl

end Trace

/-! ## output maps of definitions -/

namespace Tree

open Chain Branch

theorem isEmpty_compileItems {items : List Chain} (h : WellFormed false items) (position : Position)
    (index next : Nat) (table : List Action) :
    (allOf (compileItems false position index next table items).result).isEmpty =
      (placed false items).isEmpty := by
  rw [← specs_compileItems h, ← placements_compileItems h position index next table, List.isEmpty_map]

theorem busy_compileOutputs {outputs : List (String × List Chain)}
    (lists : ∀ entry ∈ outputs, WellFormed false entry.2) (here : Position) (next : Nat)
    (table : List Action) :
    Keyed.busy allOf (compileOutputs here next table outputs).result =
      Keyed.busy (placed false) outputs := by
  induction outputs generalizing next table with
  | nil => rfl
  | cons entry rest ih =>
    obtain ⟨own, others⟩ := List.forall_mem_cons.mp lists
    rw [compileOutputs_cons, Keyed.busy_cons, Keyed.busy_cons, ih others]
    dsimp only
    rw [isEmpty_compileItems own]

/-- the busy outputs of the output maps of some branches -/
def busyOutputs (specs : List Branch) : List (List String) :=
  specs.filterMap fun b => b.outputs.map (Keyed.busy allOf)

theorem busyOutputs_append (front rest : List Branch) :
    busyOutputs (front ++ rest) = busyOutputs front ++ busyOutputs rest := List.filterMap_append

theorem busyOutputs_compileOutputs {outputs : List (String × List Chain)}
    (lists : ∀ entry ∈ outputs, ∀ position index next table,
      busyOutputs (compileItems false position index next table entry.2).specs =
        (maps entry.2).map (Keyed.busy (placed false)))
    (here : Position) (next : Nat) (table : List Action) :
    busyOutputs (compileOutputs here next table outputs).specs =
      (mapsUnder outputs).map (Keyed.busy (placed false)) := by
  induction outputs generalizing next table with
  | nil => rfl
  | cons entry rest ih =>
    rw [compileOutputs_cons, mapsUnder, List.map_append, busyOutputs_append,
      lists entry List.mem_cons_self, ih fun e he => lists e (List.mem_cons_of_mem _ he)]

theorem busyOutputs_compileItems {concurrent : Bool} {items : List Chain}
    (h : WellFormed concurrent items) (position : Position) (index next : Nat) (table : List Action) :
    busyOutputs (compileItems concurrent position index next table items).specs =
      (maps items).map (Keyed.busy (placed false)) := by
  induction h generalizing position index next table with
  | nil => rfl
  | step clear _ ih =>
    rw [compileItems_action _ _ _ _ _ _ clear]
    exact ih ..
  | @mapped concurrent a outputs rest _ inside _ _ lists ih =>
    have own := busy_compileOutputs inside (position.item index) (next + 1) (place table a).1
    have below := busyOutputs_compileOutputs lists (position.item index) (next + 1) (place table a).1
    rw [compileItems_mapped]
    show _ :: busyOutputs (_ ++ _) = _ :: ((mapsUnder outputs) ++ maps rest).map _
    rw [busyOutputs_append, List.map_append, below, ih, own]
  | group _ _ _ ihInside ih =>
    rw [compileItems_group, Bool.not_false, busyOutputs_append, ihInside, ih, ← List.map_append]
    rfl

end Tree

/-! ## main statement -/

namespace Run

open Chain

variable {name : String} {policy : Policy} {definition : List Chain} {signal : Signal} {run : Run}

theorem inOrder_snapshot (created : Signal.create name policy definition = .ok signal)
    (belongs : run.signal = signal) :
    (∀ r ∈ run.snapshot.records, r.InOrder) ↔
      ∀ outputs ∈ maps definition, (Keyed.busy (placed false) outputs).Pairwise (· < ·) := by
  rw [records_snapshot created belongs]
  obtain ⟨accepted, rfl⟩ := Signal.create_eq created
  have specs : Tree.busyOutputs (Tree.compile definition).specs =
      (maps definition).map (Keyed.busy (placed false)) :=
    Tree.busyOutputs_compileItems (wellFormed_of_analyze accepted) [] 0 0 []
  constructor
  · intro ordered outputs ho
    have listed : Keyed.busy (placed false) outputs ∈ Tree.busyOutputs (Tree.compile definition).specs := by
      rw [specs]
      exact List.mem_map_of_mem ho
    obtain ⟨b, hb, shown⟩ := List.mem_filterMap.mp listed
    obtain ⟨below, found, same⟩ := Option.map_eq_some_iff.mp shown
    exact same ▸ (Record.inOrder_ofBranch _ b).mp (ordered _ (List.mem_map_of_mem hb)) below found
  · intro ordered
    refine List.forall_mem_map.mpr fun b hb => (Record.inOrder_ofBranch _ b).mpr fun below found => ?_
    have listed : Keyed.busy Branch.allOf below ∈ Tree.busyOutputs (Tree.compile definition).specs :=
      List.mem_filterMap.mpr ⟨b, hb, by rw [found, Option.map_some]⟩
    rw [specs] at listed
    obtain ⟨outputs, ho, same⟩ := List.mem_map.mp listed
    exact same ▸ ordered outputs ho

/-- **What JSON keeps of the order of the records.** A snapshot of a run that is written and read back has
the records of the snapshot, each as it was but for the order in its output maps. They come back in the
order of the definition if and only if, in each output map of the definition, the outputs whose lists have a
step stand in the order of their names; then each name finds the record that it found. Otherwise it still
does if it is the name of one record only. -/
theorem Reachable.order_read_back (created : Signal.create name policy definition = .ok signal)
    (unique : ∀ outputs ∈ maps definition, Keyed.Unique outputs) (reachable : Reachable signal run)
    (moment : run.startedAt.Valid) :
    ∃ back, Trace.ofJson? run.snapshot.toJson = some back ∧
      back.records.Perm (run.snapshot.records.map Record.sorted) ∧
      ((∀ v ∈ run.snapshot.values, v.proper = true) →
        ∀ r ∈ run.snapshot.records, r.sorted.same r = true) ∧
      (back.records = run.snapshot.records.map Record.sorted ↔
        ∀ outputs ∈ maps definition, (Keyed.busy (placed false) outputs).Pairwise (· < ·)) ∧
      ∀ step, (∀ outputs ∈ maps definition, (Keyed.busy (placed false) outputs).Pairwise (· < ·)) ∨
          (run.snapshot.records.filter (·.name = step)).length ≤ 1 →
        back.find? step = (run.snapshot.find? step).map Record.sorted := by
  have belongs := (reachable.sound created).belongs
  have plain := reachable.plain_snapshot created unique
  have positions : (run.snapshot.records.map (·.occurrence.position)).Nodup := by
    obtain ⟨accepted, same⟩ := Signal.create_eq created
    have nodup := Tree.nodup_positions accepted unique
    rw [records_snapshot created belongs, same, List.map_map]
    simp only [Function.comp_def, Record.occurrence_ofBranch]
    exact nodup
  have kept := (Trace.records_sorted_iff plain positions).trans (inOrder_snapshot created belongs)
  refine ⟨run.snapshot.sorted, Trace.ofJson?_toJson moment plain, Trace.records_sorted_perm plain,
    fun proper r hr => ?_, kept, fun step known => ?_⟩
  · refine Record.same_sorted r fun part hp => ?_
    have among := (Record.all_sublist_allOfItems _ r hr).subset hp
    exact ⟨plain part among, fun v hv =>
      proper v (List.mem_cons_of_mem _ (List.mem_flatMap.mpr ⟨part, among, hv⟩))⟩
  · rcases known with ordered | single
    · exact Trace.find?_of_records_sorted (kept.mpr ordered) step
    · exact Trace.find?_sorted_of_single plain single

/-- an output without a step stands out of order, which does not show -/
theorem order_read_back_empty :
    let choose : Action := ⟨0, "choose", ["right", "left", "middle"], none, .sync fun _ =>
      .finish (.ok (.via "left" .null))⟩
    let ask : Action := ⟨1, "ask", [], none, .sync fun _ => .finish (.ok .next)⟩
    let definition := [Chain.action choose,
      .paths [("right", []), ("left", [.action ask]), ("middle", [.action ask])]]
    ∃ signal run back, Signal.create "page" .reject definition = .ok signal ∧
      (∀ outputs ∈ maps definition, Keyed.Unique outputs) ∧ Reachable signal run ∧
      run.startedAt.Valid ∧ Trace.ofJson? run.snapshot.toJson = some back ∧
      back.records = run.snapshot.records.map Record.sorted ∧
      ∀ step, back.find? step = (run.snapshot.find? step).map Record.sorted := by
  intro choose ask definition
  let signal : Signal := ⟨"page", Tree.compile definition, .reject⟩
  have created : Signal.create "page" .reject definition = .ok signal := rfl
  have unique : ∀ outputs ∈ maps definition, Keyed.Unique outputs := by
    simp [definition, maps, mapsOf, mapsUnder, Keyed.Unique]
  have ordered : ∀ outputs ∈ maps definition,
      (Keyed.busy (placed false) outputs).Pairwise (· < ·) := by
    refine List.forall_mem_singleton.mpr ?_
    show ["left", "middle"].Pairwise (· < ·)
    decide
  have moment : (⟨2024, 1, 2, 3, 4, 5, 0⟩ : Timestamp).Valid := by
    refine ⟨⟨?_, ?_, ?_, ?_, ?_, ?_⟩, ?_⟩ <;> decide
  have started : signal.start "r" ⟨2024, 1, 2, 3, 4, 5, 0⟩ (.data .null) = .ok _ := rfl
  have reachable := (Reachable.start started).poll (fun _ => false) 0 default
  obtain ⟨back, read, -, -, kept, found⟩ := reachable.order_read_back created unique moment
  exact ⟨signal, _, back, created, unique, reachable, moment, read, kept.mpr ordered,
    fun step => found step (.inl ordered)⟩

/-- the step that was run stands under the output that comes first in the definition and last by name: read
back, it comes last, and its name finds the step that was not run -/
theorem order_lost :
    let choose : Action := ⟨0, "choose", ["right", "left"], none, .sync fun _ =>
      .finish (.ok (.via "right" .null))⟩
    let ask : Action := ⟨1, "ask", [], none, .sync fun _ => .finish (.ok .next)⟩
    let definition := [Chain.action choose, .paths [("right", [.action ask]), ("left", [.action ask])]]
    ∃ signal run back, Signal.create "page" .reject definition = .ok signal ∧
      (∀ outputs ∈ maps definition, Keyed.Unique outputs) ∧ Reachable signal run ∧
      run.startedAt.Valid ∧ run.settled.isSome = true ∧
      Trace.ofJson? run.snapshot.toJson = some back ∧
      run.snapshot.records.map (·.occurrence.position.text) =
        ["[0]", "[0, outputs, right, 0]", "[0, outputs, left, 0]"] ∧
      back.records.map (·.occurrence.position.text) =
        ["[0]", "[0, outputs, left, 0]", "[0, outputs, right, 0]"] ∧
      (run.snapshot.find? "ask").map (·.slot.hasExecuted) = some true ∧
      (back.find? "ask").map (·.slot.hasExecuted) = some false := by
  intro choose ask definition
  let signal : Signal := ⟨"page", Tree.compile definition, .reject⟩
  have created : Signal.create "page" .reject definition = .ok signal := rfl
  have unique : ∀ outputs ∈ maps definition, Keyed.Unique outputs := by
    simp [definition, maps, mapsOf, mapsUnder, Keyed.Unique]
  have moment : (⟨2024, 1, 2, 3, 4, 5, 0⟩ : Timestamp).Valid := by
    refine ⟨⟨?_, ?_, ?_, ?_, ?_, ?_⟩, ?_⟩ <;> decide
  have started : signal.start "r" ⟨2024, 1, 2, 3, 4, 5, 0⟩ (.data .null) = .ok _ := rfl
  have reachable := (Reachable.start started).poll (fun _ => false) 0 default
  have plain := reachable.plain_snapshot created unique
  exact ⟨signal, _, _, created, unique, reachable, moment, by decide +kernel,
    Trace.ofJson?_toJson moment plain, by decide +kernel, by decide +kernel, by decide +kernel,
    by decide +kernel⟩

end Run

end SignalFlow
