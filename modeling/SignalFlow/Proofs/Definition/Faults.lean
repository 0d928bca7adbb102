import SignalFlow.Proofs.Definition.WellFormed
/-!
# The first fault of a definition

A check stops at the first rule that a definition breaks. Here the broken rules are said without a
check, each with the route on which it is found:

* `Chain.Leads`       a route, which counts items and the entries of output maps, leads to an item; in
                      errors it is written as a position, with the output in place of its entry;
* `Chain.Spot.Breaks` a rule that an item breaks where it stands, the output map entry by entry;
* `Chain.Violation`   a broken rule, at the end of a route;
* `Chain.First`       the finding on the first route.

Routes are compared as lists of numbers, which is depth first: what is found at an item comes before what
is found inside it, and a key of an output map before the list under it.

`Chain.analyze_first`: a check accepts the well-formed definitions and tells of all others the first
violation, at the position that leads to it.
-/

namespace SignalFlow

namespace Chain

/-! ## rules and how they are broken -/

/-- an item where it stands: in a group or not, and behind which item -/
structure Spot where
  concurrent : Bool
  previous : Option Chain
  item : Chain

/-- the item in front of an index -/
def before (items : List Chain) : Nat → Option Chain
  | 0 => none
  | index + 1 => items[index]?

/-- the route leads to the item; the flag says whether the list is the members of a group -/
inductive Leads : Bool → List Chain → List Nat → Position → Spot → Prop
  | here {concurrent : Bool} {items : List Chain} {index : Nat} {item : Chain} :
      items[index]? = some item →
      Leads concurrent items [index] [.index index] ⟨concurrent, before items index, item⟩
  | member {concurrent : Bool} {items members : List Chain} {index : Nat} {route : List Nat}
      {position : Position} {spot : Spot} :
      items[index]? = some (.parallel members) → Leads true members route position spot →
      Leads concurrent items (index :: route) (.index index :: position) spot
  | under {concurrent : Bool} {items inner : List Chain} {index entry : Nat}
      {outputs : List (String × List Chain)} {output : String} {route : List Nat}
      {position : Position} {spot : Spot} :
      items[index]? = some (.paths outputs) → outputs[entry]? = some (output, inner) →
      Leads false inner route position spot →
      Leads concurrent items (index :: entry :: route)
        (.index index :: .key "outputs" :: .key output :: position) spot

/-- the item breaks a rule; one about a key of an output map is found at its entry -/
inductive Spot.Breaks : Spot → List Nat → FaultCause → Prop
  | invalid (concurrent : Bool) (previous : Option Chain) (value : Value) :
      Breaks ⟨concurrent, previous, .invalid value⟩ [] (.invalidLeaf value.kind)
  | unresolved (concurrent : Bool) (previous : Option Chain) (name : String) :
      Breaks ⟨concurrent, previous, .unresolved name⟩ [] (.unresolvedAction name)
  | nested (previous : Option Chain) (members : List Chain) :
      Breaks ⟨true, previous, .parallel members⟩ [] .nestedGroup
  | orphan (concurrent : Bool) {previous : Option Chain} (outputs : List (String × List Chain)) :
      (∀ a, previous ≠ some (.action a)) →
      Breaks ⟨concurrent, previous, .paths outputs⟩ []
        (.orphanOutputs ((previous.map describe).getD "nothing"))
  | undeclared (concurrent : Bool) {a : Action} {outputs : List (String × List Chain)} {entry : Nat}
      {output : String} {inner : List Chain} :
      outputs[entry]? = some (output, inner) → a.declares output = false →
      Breaks ⟨concurrent, some (.action a), .paths outputs⟩ [entry]
        (.undeclaredOutput a.name output)

/-- what can be found in a definition, by route -/
abbrev Findings := List Nat → Position → FaultCause → Prop

/-- a rule is broken by the item at this position -/
def Violation (concurrent : Bool) (items : List Chain) : Findings := fun route position cause =>
  ∃ way spot last, Leads concurrent items way position spot ∧ spot.Breaks last cause ∧
    route = way ++ last

/-- what is found on the first route; everything else is found later -/
def First (found : Findings) (position : Position) (cause : FaultCause) : Prop :=
  ∃ route, found route position cause ∧ ∀ route' position' cause', found route' position' cause' →
    (position' = position ∧ cause' = cause) ∨ route < route'

/-! ## what a check tells -/

/-- the check tells what is found first, and accepts if nothing is -/
def Tells (signal : String) (here : Position) (found : Findings) : Except Fault Unit → Prop
  | .ok () => ∀ route position cause, ¬ found route position cause
  | .error fault => ∃ position cause, First found position cause ∧
      fault = ⟨signal, here ++ position, cause⟩

section
variable {signal : String} {here : Position} {found front behind : Findings}
  {result next : Except Fault Unit} {position : Position} {cause : FaultCause}

theorem First.unique {position' : Position} {cause' : FaultCause} (h : First found position cause)
    (h' : First found position' cause') : position' = position ∧ cause' = cause := by
  obtain ⟨route, own, first⟩ := h
  obtain ⟨route', own', first'⟩ := h'
  rcases first _ _ _ own' with same | later
  · exact same
  · rcases first' _ _ _ own with ⟨rfl, rfl⟩ | earlier
    · exact ⟨rfl, rfl⟩
    · exact absurd earlier (List.lt_asymm later)

theorem Tells.congr (h : Tells signal here front result)
    (same : ∀ route position cause, found route position cause ↔ front route position cause) :
    Tells signal here found result := by
  have e : found = front := by
    funext route position cause
    exact propext (same route position cause)
  rwa [e]

theorem Tells.own {route : List Nat} (own : found route [] cause)
    (others : ∀ route' position cause', found route' position cause' →
      (position = [] ∧ cause' = cause) ∨ route < route') :
    Tells signal here found (.error ⟨signal, here, cause⟩) :=
  ⟨[], cause, ⟨route, own, others⟩, by rw [List.append_nil]⟩

/-- one check after the other, if the routes of the first come before those of the second -/
theorem Tells.andThen
    (parts : ∀ route position cause, found route position cause ↔
      front route position cause ∨ behind route position cause)
    (earlier : ∀ route position cause route' position' cause', front route position cause →
      behind route' position' cause' → route < route') :
    Tells signal here front result → Tells signal here behind next →
      Tells signal here found
        (match result with
          | .error fault => .error fault
          | .ok () => next) := by
  intro first second
  cases result with
  | error fault =>
    obtain ⟨position, cause, ⟨route, own, least⟩, told⟩ := first
    refine ⟨position, cause, ⟨route, (parts ..).mpr (.inl own), fun route' position' cause' h => ?_⟩, told⟩
    rcases (parts ..).mp h with h | h
    · exact least _ _ _ h
    · exact .inr (earlier _ _ _ _ _ _ own h)
  | ok _ =>
    refine second.congr fun route position cause => ?_
    rw [parts]
    exact or_iff_right (first route position cause)

/-- a check of a part, told from outside it -/
theorem Tells.into {inner : Findings} {path : Position} (steps : List Nat)
    (h : Tells signal (here ++ path) inner result)
    (parts : ∀ route position cause, found route position cause ↔
      ∃ route' position', inner route' position' cause ∧ route = steps ++ route' ∧
        position = path ++ position') :
    Tells signal here found result := by
  cases result with
  | ok _ =>
    intro route position cause broken
    obtain ⟨route', position', broken, -, -⟩ := (parts ..).mp broken
    exact h _ _ _ broken
  | error fault =>
    obtain ⟨position, cause, ⟨route, own, least⟩, told⟩ := h
    refine ⟨path ++ position, cause, ⟨steps ++ route, (parts ..).mpr ⟨_, _, own, rfl, rfl⟩, ?_⟩, ?_⟩
    · intro route' position' cause' broken
      obtain ⟨route', position', inside, rfl, rfl⟩ := (parts ..).mp broken
      rcases least _ _ _ inside with ⟨rfl, rfl⟩ | later
      · exact .inl ⟨rfl, rfl⟩
      · exact .inr (List.append_left_lt later)
    · rw [told, List.append_assoc]

end

/-! ## where violations are found -/

/-- what is found at an item and inside it -/
inductive Inside (concurrent : Bool) (previous : Option Chain) : Chain → Findings
  | own {item : Chain} {last : List Nat} {cause : FaultCause} :
      Spot.Breaks ⟨concurrent, previous, item⟩ last cause →
      Inside concurrent previous item last [] cause
  | member {members : List Chain} {route : List Nat} {position : Position} {cause : FaultCause} :
      Violation true members route position cause →
      Inside concurrent previous (.parallel members) route position cause
  | under {outputs : List (String × List Chain)} {entry : Nat} {output : String}
      {inner : List Chain} {route : List Nat} {position : Position} {cause : FaultCause} :
      outputs[entry]? = some (output, inner) → Violation false inner route position cause →
      Inside concurrent previous (.paths outputs) (entry :: route)
        (.key "outputs" :: .key output :: position) cause

section
variable {concurrent : Bool} {items front rest : List Chain} {item : Chain} {route : List Nat}
  {position : Position} {cause : FaultCause} {previous : Option Chain}

theorem violation_iff : Violation concurrent items route position cause ↔
    ∃ index tail item inner, items[index]? = some item ∧
      Inside concurrent (before items index) item tail inner cause ∧
      route = index :: tail ∧ position = .index index :: inner := by
  constructor
  · rintro ⟨way, spot, last, leads, broken, rfl⟩
    cases leads with
    | here found => exact ⟨_, _, _, _, found, .own broken, rfl, rfl⟩
    | member found leads =>
      exact ⟨_, _, _, _, found, .member ⟨_, _, _, leads, broken, rfl⟩, rfl, rfl⟩
    | under found entry leads =>
      exact ⟨_, _, _, _, found, .under entry ⟨_, _, _, leads, broken, rfl⟩, rfl, rfl⟩
  · rintro ⟨index, tail, item, inner, found, inside, rfl, rfl⟩
    cases inside with
    | own broken => exact ⟨_, _, _, .here found, broken, rfl⟩
    | member violation =>
      obtain ⟨way, spot, last, leads, broken, rfl⟩ := violation
      exact ⟨_, _, _, .member found leads, broken, rfl⟩
    | under entry violation =>
      obtain ⟨way, spot, last, leads, broken, rfl⟩ := violation
      exact ⟨_, _, _, .under found entry leads, broken, rfl⟩

theorem Violation.nil_lt (h : Violation concurrent items route position cause) : [] < route := by
  obtain ⟨index, tail, item, inner, -, -, rfl, -⟩ := violation_iff.mp h
  exact List.nil_lt_cons index tail

theorem before_length : before (front ++ rest) front.length = front.getLast? := by
  rcases List.eq_nil_or_concat front with rfl | ⟨front, last, rfl⟩
  · rfl
  · simp [before]

/-- the violations from an index on -/
def Violation.From (n : Nat) (concurrent : Bool) (items : List Chain) : Findings :=
  fun route position cause => Violation concurrent items route position cause ∧
    ∃ index tail, route = index :: tail ∧ n ≤ index

theorem from_zero : Violation.From 0 concurrent items route position cause ↔
    Violation concurrent items route position cause := by
  refine ⟨And.left, fun h => ⟨h, ?_⟩⟩
  obtain ⟨index, tail, item, inner, -, -, rfl, -⟩ := violation_iff.mp h
  exact ⟨index, tail, rfl, Nat.zero_le _⟩

theorem from_cons : Violation.From front.length concurrent (front ++ item :: rest) route position cause ↔
    (∃ tail inner, Inside concurrent front.getLast? item tail inner cause ∧
      route = [front.length] ++ tail ∧ position = [.index front.length] ++ inner) ∨
    Violation.From (front.length + 1) concurrent (front ++ item :: rest) route position cause := by
  have here : (front ++ item :: rest)[front.length]? = some item := by simp
  constructor
  · rintro ⟨violation, index, tail, rfl, le⟩
    rcases Nat.eq_or_lt_of_le le with rfl | lt
    · obtain ⟨_, _, found, inner, at?, inside, ⟨⟩, rfl⟩ := violation_iff.mp violation
      cases here.symm.trans at?
      rw [before_length] at inside
      exact .inl ⟨tail, inner, inside, rfl, rfl⟩
    · exact .inr ⟨violation, index, tail, rfl, lt⟩
  · rintro (⟨tail, inner, inside, rfl, rfl⟩ | ⟨violation, index, tail, rfl, lt⟩)
    · refine ⟨violation_iff.mpr ⟨_, _, _, _, here, ?_, rfl, rfl⟩, _, _, rfl, Nat.le_refl _⟩
      rwa [before_length]
    · exact ⟨violation, index, tail, rfl, Nat.le_of_lt lt⟩

end

/-! ## output maps -/

/-- what is found in the entries of an output map from an entry on -/
inductive Entries (a : Action) (outputs : List (String × List Chain)) (n : Nat) : Findings
  | undeclared {entry : Nat} {output : String} {inner : List Chain} :
      n ≤ entry → outputs[entry]? = some (output, inner) → a.declares output = false →
      Entries a outputs n [entry] [] (.undeclaredOutput a.name output)
  | under {entry : Nat} {output : String} {inner : List Chain} {route : List Nat}
      {position : Position} {cause : FaultCause} :
      n ≤ entry → outputs[entry]? = some (output, inner) →
      Violation false inner route position cause →
      Entries a outputs n (entry :: route) (.key "outputs" :: .key output :: position) cause

section
variable {a : Action} {outputs front rest : List (String × List Chain)} {output : String}
  {inner : List Chain} {route : List Nat} {position : Position} {cause : FaultCause}

theorem Entries.le {n : Nat} (h : Entries a outputs n route position cause) :
    ∃ entry tail, route = entry :: tail ∧ n ≤ entry := by
  cases h with
  | undeclared le _ _ | under le _ _ => exact ⟨_, _, rfl, le⟩

theorem entries_cons :
    Entries a (front ++ (output, inner) :: rest) front.length route position cause ↔
      (a.declares output = false ∧ route = [front.length] ∧ position = [] ∧
        cause = .undeclaredOutput a.name output) ∨
      (∃ tail below, Violation false inner tail below cause ∧ route = [front.length] ++ tail ∧
        position = [.key "outputs", .key output] ++ below) ∨
      Entries a (front ++ (output, inner) :: rest) (front.length + 1) route position cause := by
  have here : (front ++ (output, inner) :: rest)[front.length]? = some (output, inner) := by simp
  constructor
  · intro h
    cases h with
    | undeclared le found refused =>
      rcases Nat.eq_or_lt_of_le le with rfl | lt
      · cases here.symm.trans found
        exact .inl ⟨refused, rfl, rfl, rfl⟩
      · exact .inr (.inr (.undeclared lt found refused))
    | under le found violation =>
      rcases Nat.eq_or_lt_of_le le with rfl | lt
      · cases here.symm.trans found
        exact .inr (.inl ⟨_, _, violation, rfl, rfl⟩)
      · exact .inr (.inr (.under lt found violation))
  · rintro (⟨refused, rfl, rfl, rfl⟩ | ⟨tail, below, violation, rfl, rfl⟩ | h)
    · exact .undeclared (Nat.le_refl _) here refused
    · exact .under (Nat.le_refl _) here violation
    · cases h with
      | undeclared le found refused => exact .undeclared (Nat.le_of_succ_le le) found refused
      | under le found violation => exact .under (Nat.le_of_succ_le le) found violation

theorem inside_paths {concurrent : Bool} :
    Inside concurrent (some (.action a)) (.paths outputs) route position cause ↔
      Entries a outputs 0 route position cause := by
  constructor
  · intro h
    cases h with
    | own broken =>
      cases broken with
      | orphan _ _ other => exact absurd rfl (other a)
      | undeclared _ found refused => exact .undeclared (Nat.zero_le _) found refused
    | under found violation => exact .under (Nat.zero_le _) found violation
  · intro h
    cases h with
    | undeclared _ found refused => exact .own (.undeclared concurrent found refused)
    | under _ found violation => exact .under found violation

end

/-! ## checks -/

mutual

theorem tells_checkItem (signal : String) (here : Position) (concurrent : Bool)
    (previous : Option Chain) : ∀ item : Chain,
      Tells signal here (Inside concurrent previous item)
        (checkItem signal here concurrent previous item)
  | .action a => by
    intro route position cause inside
    cases inside with
    | own broken => cases broken
  | .parallel members => by
    rw [checkItem]
    split
    · next grouped =>
      subst grouped
      refine Tells.own (.own (.nested previous members)) fun route position cause inside => ?_
      cases inside with
      | own broken =>
        cases broken
        exact .inl ⟨rfl, rfl⟩
      | member violation => exact .inr violation.nil_lt
    · next sequential =>
      refine (tells_checkItems signal here true members []).congr fun route position cause => ?_
      refine Iff.trans ⟨fun inside => ?_, .member⟩ from_zero.symm
      cases inside with
      | own broken =>
        cases broken
        exact absurd rfl sequential
      | member violation => exact violation
  | .paths outputs => by
    rw [checkItem.eq_def]
    dsimp only
    split
    · next a =>
      exact (tells_checkOutputs signal here a outputs []).congr fun _ _ _ => inside_paths
    · next other =>
      refine Tells.own (.own (.orphan concurrent outputs other)) fun route position cause inside => ?_
      cases inside with
      | own broken =>
        cases broken with
        | orphan => exact .inl ⟨rfl, rfl⟩
        | undeclared => exact absurd rfl (other _)
      | under _ _ => exact .inr (List.nil_lt_cons ..)
  | .unresolved name => by
    refine Tells.own (.own (.unresolved concurrent previous name)) fun _ _ _ inside => ?_
    cases inside with
    | own broken =>
      cases broken
      exact .inl ⟨rfl, rfl⟩
  | .invalid value => by
    refine Tells.own (.own (.invalid concurrent previous value)) fun _ _ _ inside => ?_
    cases inside with
    | own broken =>
      cases broken
      exact .inl ⟨rfl, rfl⟩

theorem tells_checkItems (signal : String) (position : Position) (concurrent : Bool) :
    ∀ items front : List Chain,
      Tells signal position (Violation.From front.length concurrent (front ++ items))
        (checkItems signal position concurrent front.length front.getLast? items)
  | [], front => by
    rintro route position cause ⟨violation, index, tail, rfl, le⟩
    obtain ⟨_, _, item, _, found, -, ⟨⟩, -⟩ := violation_iff.mp violation
    rw [List.append_nil, List.getElem?_eq_none le] at found
    cases found
  | item :: rest, front => by
    have own := tells_checkItem signal (position.item front.length) concurrent front.getLast? item
    have behind := tells_checkItems signal position concurrent rest (front ++ [item])
    simp only [List.append_assoc, List.cons_append, List.nil_append, List.length_append,
      List.length_singleton, List.getLast?_concat] at behind
    rw [checkItems]
    refine Tells.andThen (fun _ _ _ => from_cons) ?_
      (own.into [front.length] fun _ _ _ => Iff.rfl) behind
    rintro route _ _ route' _ _ ⟨tail, inner, -, rfl, -⟩ ⟨-, index, tail', rfl, lt⟩
    exact List.cons_lt_cons_iff.mpr (.inl lt)

theorem tells_checkOutputs (signal : String) (here : Position) (a : Action) :
    ∀ outputs front : List (String × List Chain),
      Tells signal here (Entries a (front ++ outputs) front.length)
        (checkOutputs signal here a outputs)
  | [], front => by
    intro route position cause h
    cases h with
    | undeclared le found _ | under le found _ =>
      rw [List.append_nil, List.getElem?_eq_none le] at found
      cases found
  | (output, inner) :: rest, front => by
    rw [checkOutputs]
    split
    · next declared =>
      have own := (tells_checkItems signal (here.output output) false inner []).congr
        fun _ _ _ => from_zero.symm
      have behind := tells_checkOutputs signal here a rest (front ++ [(output, inner)])
      simp only [List.append_assoc, List.cons_append, List.nil_append, List.length_append,
        List.length_singleton] at behind
      refine Tells.andThen (fun _ _ _ => ?_) ?_
        (own.into [front.length] fun _ _ _ => Iff.rfl) behind
      · rw [entries_cons, declared]
        simp
      · rintro route _ _ route' _ _ ⟨tail, inner, -, rfl, -⟩ later
        obtain ⟨entry, tail', rfl, lt⟩ := later.le
        exact List.cons_lt_cons_iff.mpr (.inl lt)
    · next undeclared =>
      have refused : a.declares output = false := Bool.eq_false_iff.mpr undeclared
      refine Tells.own (entries_cons.mpr (.inl ⟨refused, rfl, rfl, rfl⟩)) fun route _ _ h => ?_
      rcases entries_cons.mp h with ⟨-, rfl, rfl, rfl⟩ | ⟨tail, below, violation, rfl, rfl⟩ | later
      · exact .inl ⟨rfl, rfl⟩
      · exact .inr (List.cons_lt_cons_iff.mpr (.inr ⟨rfl, violation.nil_lt⟩))
      · obtain ⟨entry, tail, rfl, lt⟩ := later.le
        exact .inr (List.cons_lt_cons_iff.mpr (.inl lt))

end

/-! ## definitions -/

section
variable {signal : String} {definition : List Chain}

theorem checkOutputs_eq_ok {here : Position} {a : Action} {outputs : List (String × List Chain)}
    (declared : ∀ entry ∈ outputs, a.declares entry.1 = true)
    (inner : ∀ entry ∈ outputs, ∀ position, checkItems signal position false 0 none entry.2 = .ok ()) :
    checkOutputs signal here a outputs = .ok () := by
  induction outputs with
  | nil => rfl
  | cons entry outputs ih =>
    obtain ⟨own, others⟩ := List.forall_mem_cons.mp declared
    obtain ⟨ownInner, othersInner⟩ := List.forall_mem_cons.mp inner
    rw [checkOutputs, if_pos own, ownInner]
    exact ih others othersInner

/-- a check accepts the items of a well-formed list, whatever stands before them -/
theorem checkItems_of_wellFormed {concurrent : Bool} {items : List Chain}
    (h : WellFormed concurrent items) (position : Position) (index : Nat)
    (previous : Option Chain) :
    checkItems signal position concurrent index previous items = .ok () := by
  induction h generalizing position index previous with
  | nil => rfl
  | step _ _ ih =>
    rw [checkItems, checkItem]
    exact ih position _ _
  | mapped declared _ _ _ inner behind =>
    rw [checkItems, checkItem, checkItems, checkItem,
      checkOutputs_eq_ok declared fun entry he position => inner entry he position 0 none]
    exact behind position _ _
  | group _ _ _ inner behind =>
    rw [checkItems, checkItem, if_neg Bool.false_ne_true, inner]
    exact behind position _ _

theorem analyze_tells : Tells signal [] (Violation false definition) (analyze signal definition) :=
  (tells_checkItems signal [] false definition []).congr fun _ _ _ => from_zero.symm

/-- **A check accepts exactly the well-formed definitions, and tells of any other the first violation
and the position that leads to it.** -/
theorem analyze_first (signal : String) (definition : List Chain) :
    (analyze signal definition = .ok () ↔ WellFormed false definition) ∧
    ∀ fault, analyze signal definition = .error fault ↔
      ∃ position cause, First (Violation false definition) position cause ∧
        fault = ⟨signal, position, cause⟩ := by
  have tells : Tells signal [] (Violation false definition) (analyze signal definition) :=
    analyze_tells
  refine ⟨⟨wellFormed_of_analyze, fun h => checkItems_of_wellFormed h [] 0 none⟩, fun fault => ?_⟩
  cases checked : analyze signal definition with
  | ok _ =>
    rw [checked] at tells
    constructor
    · intro e
      cases e
    · rintro ⟨position, cause, ⟨route, violation, -⟩, -⟩
      exact absurd violation (tells _ _ _)
  | error found =>
    rw [checked] at tells
    obtain ⟨position, cause, first, told⟩ := tells
    constructor
    · rintro ⟨⟩
      exact ⟨position, cause, first, told⟩
    · rintro ⟨position', cause', first', rfl⟩
      obtain ⟨rfl, rfl⟩ := first.unique first'
      rw [told, List.nil_append]

example (a : Action) :
    analyze "checkout" [.action { a with outputs := ["success", "error"] },
        .paths [("success", [.action a, .invalid .null]), ("timeout", [])]] =
      .error ⟨"checkout", [.index 1, .key "outputs", .key "success", .index 1],
        .invalidLeaf "null"⟩ := rfl

end

end Chain

end SignalFlow
