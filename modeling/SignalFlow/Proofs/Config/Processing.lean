import SignalFlow.Proofs.Config.Keys
import Mathlib.Data.List.TakeWhile
/-!
# What processing does to a document

A value is processed when each of its `!env_var` nodes has given way to what it stands for, and all else
has stayed as it was. This is said here without a word about errors or about the order of the work:

* `Reference.Reads`    the name and the fallback in the text of a node;
* `Reference.Gives`    the text that they stand for, that of the variable before the fallback;
* `Value.Means`        the value of that text: what it reads as, or the text itself;
* `Value.Processed`    the value with its nodes replaced, mappings rebuilt from their entries.

`Value.Answered` says which nodes can be replaced and `Value.Refused` what is wrong with the others.

Main statement: `substitute_read`. A value is processed exactly when all its nodes are answered; else the
error is that of the first node that is refused. What was read stays as it is if it has no nodes.
-/

namespace SignalFlow

/-! ## lists that correspond -/

section
variable {α β : Type} {R S : α → β → Prop} {as : List α} {bs : List β}

theorem forall₂_congr_left (same : ∀ a ∈ as, ∀ b, R a b ↔ S a b) :
    List.Forall₂ R as bs ↔ List.Forall₂ S as bs := by
  induction as generalizing bs with
  | nil => rw [List.forall₂_nil_left_iff, List.forall₂_nil_left_iff]
  | cons a as ih =>
    obtain ⟨own, others⟩ := List.forall_mem_cons.mp same
    simp only [List.forall₂_cons_left_iff, own, ih others]

theorem forall_right_of_forall₂ {Q : β → Prop} (h : List.Forall₂ R as bs)
    (each : ∀ a ∈ as, ∀ b, R a b → Q b) : ∀ b ∈ bs, Q b := by
  induction h with
  | nil => exact fun _ hb => nomatch hb
  | cons own _ ih =>
    obtain ⟨first, others⟩ := List.forall_mem_cons.mp each
    exact List.forall_mem_cons.mpr ⟨first _ own, ih others⟩

end

namespace Reference

/-! ## what the text of a node says -/

/-- between the blanks around it, a text is a name, or a name, a blank and a fallback -/
inductive Reads (text : String) : Reference → Prop
  | alone {name : List Char} :
      Text.trim text.toList = name → (∀ c ∈ name, Text.isBlank c = false) →
      Reads text ⟨String.ofList name, none⟩
  | followed {name rest : List Char} {blank : Char} :
      Text.trim text.toList = name ++ blank :: rest → (∀ c ∈ name, Text.isBlank c = false) →
      Text.isBlank blank = true →
      Reads text ⟨String.ofList name, some (String.ofList (Text.trim rest))⟩

/-- the text that a reference stands for: that of the variable, or else the fallback -/
inductive Gives (env : Environment) (reference : Reference) : String → Prop
  | variable {found : String} : env.get? reference.name = some found → Gives env reference found
  | fallback {found : String} :
      env.get? reference.name = none → reference.fallback = some found → Gives env reference found

section
variable {env : Environment} {text found : String} {reference : Reference}

theorem reads_ofText (text : String) : Reads text (ofText text) := by
  have parts := List.takeWhile_append_dropWhile (p := fun c => !Text.isBlank c) (l := Text.trim text.toList)
  have visible : ∀ c ∈ (Text.trim text.toList).takeWhile fun c => !Text.isBlank c, Text.isBlank c = false :=
    fun c hc => by simpa using List.mem_takeWhile_imp hc
  have stop := List.head?_dropWhile_not (fun c => !Text.isBlank c) (Text.trim text.toList)
  unfold ofText
  simp only
  split
  · next nothing =>
    rw [nothing, List.append_nil] at parts
    exact .alone parts.symm visible
  · next blank rest behind =>
    rw [behind] at parts stop
    exact .followed parts.symm visible (by simpa using stop)

theorem eq_ofText (reads : Reads text reference) : reference = ofText text := by
  cases reads with
  | @alone name whole visible =>
    have all : ∀ c ∈ name, (!Text.isBlank c) = true := fun c hc => by rw [visible c hc]; rfl
    simp only [ofText, whole, List.dropWhile_eq_nil_iff.mpr all, List.takeWhile_eq_self_iff.mpr all]
  | @followed name rest blank whole visible isBlank =>
    have all : ∀ c ∈ name, (!Text.isBlank c) = true := fun c hc => by rw [visible c hc]; rfl
    simp only [ofText, whole, List.dropWhile_append_of_pos all, List.takeWhile_append_of_pos all]
    simp [isBlank]

theorem reads_iff : Reads text reference ↔ reference = ofText text :=
  ⟨eq_ofText, fun same => same ▸ reads_ofText text⟩

theorem gives_iff : Gives env reference found ↔ reference.text? env = some found := by
  unfold text?
  constructor
  · rintro (own | ⟨unset, other⟩)
    · rw [own, Option.some_or]
    · rw [unset, Option.none_or, other]
  · intro given
    cases own : env.get? reference.name with
    | some value =>
      rw [own, Option.some_or] at given
      exact .variable (own.trans given)
    | none =>
      rw [own, Option.none_or] at given
      exact .fallback own given

theorem exists_gives_iff : (∃ found, Gives env reference found) ↔
    (env.get? reference.name).isSome = true ∨ reference.fallback.isSome = true := by
  simp only [gives_iff, ← Option.isSome_iff_exists, text?, Option.isSome_or, Bool.or_eq_true]

end

end Reference

namespace Yaml

namespace Value

/-! ## one node -/

/-- the value of a text that is put in: what it reads as, or the text itself if it cannot be read -/
inductive Means (text : String) : Value → Prop
  | parsed {v : Value} : read? text = some v → Means text v
  | kept : read? text = none → Means text (.string text)

/-- the content is a text whose first word names a variable that is set, or is followed by a fallback -/
def Answered (env : Environment) (content : Value) : Prop :=
  ∃ text reference, content = .string text ∧ Reference.Reads text reference ∧
    ((env.get? reference.name).isSome = true ∨ reference.fallback.isSome = true)

/-- why a node with this content cannot be replaced -/
inductive Refused (env : Environment) : Value → ConfigError → Prop
  | noText {content : Value} :
      (∀ text, content ≠ .string text) → Refused env content (.invalid .variableName)
  | unset {text name : String} :
      Reference.Reads text ⟨name, none⟩ → env.get? name = none →
      Refused env (.string text) (.unsetVariable name)

/-- each `!env_var` node has given way to what it stands for, and all else has stayed; a mapping is
rebuilt, since its keys may have become equal -/
inductive Processed (env : Environment) : Value → Value → Prop
  | node {text found : String} {reference : Reference} {w : Value} :
      Reference.Reads text reference → reference.Gives env found → Means found w →
      Processed env (.tagged Environment.referenceTag (.string text)) w
  | scalar {v : Value} : v.isScalar = true → Processed env v v
  | sequence {items changed : List Value} :
      List.Forall₂ (Processed env) items changed → Processed env (.sequence items) (.sequence changed)
  | mapping {entries : List (Value × Value)} {keys values : List Value} :
      List.Forall₂ (Processed env) (entries.map (·.1)) keys →
      List.Forall₂ (Processed env) (entries.map (·.2)) values →
      Processed env (.mapping entries) (.mapping (rebuilt (keys.zip values)))
  | tagged {tag : String} {content changed : Value} :
      tag ≠ Environment.referenceTag → Processed env content changed →
      Processed env (.tagged tag content) (.tagged tag changed)

section
variable {env : Environment} {content w : Value} {e : ConfigError} {text : String}

theorem means_iff : Means text w ↔ w = ofText text := by
  unfold ofText
  constructor
  · rintro (read | unread)
    · rw [read, Option.getD_some]
    · rw [unread, Option.getD_none]
  · rintro rfl
    cases read : read? text with
    | some v => exact .parsed read
    | none => exact .kept read

theorem Means.distinct (means : Means text w) : w.Distinct := by
  cases means with
  | parsed read => exact distinct_of_read? read
  | kept => exact .scalar rfl

theorem substitution_eq_ok_iff : substitution env content = .ok w ↔
    ∃ text reference found, content = .string text ∧ Reference.Reads text reference ∧
      reference.Gives env found ∧ Means found w := by
  simp only [Reference.reads_iff, Reference.gives_iff, means_iff]
  constructor
  · intro done
    cases content with
    | string text =>
      cases given : (Reference.ofText text).text? env with
      | some found =>
        simp only [substitution, given] at done
        cases done
        exact ⟨text, _, found, rfl, rfl, given, rfl⟩
      | none => simp [substitution, given] at done
    | _ => cases done
  · rintro ⟨text, _, found, rfl, rfl, given, rfl⟩
    simp only [substitution, given]

theorem substitution_eq_error_iff : substitution env content = .error e ↔ Refused env content e := by
  constructor
  · intro failed
    cases content with
    | string text =>
      cases given : (Reference.ofText text).text? env with
      | some found => simp [substitution, given] at failed
      | none =>
        simp only [substitution, given] at failed
        cases failed
        obtain ⟨unset, missing⟩ := Option.or_eq_none_iff.mp given
        have reads := Reference.reads_ofText text
        generalize Reference.ofText text = reference at unset missing reads ⊢
        obtain ⟨name, fallback⟩ := reference
        cases missing
        exact .unset reads unset
    | _ =>
      cases failed
      exact .noText (by simp)
  · rintro (noText | ⟨reads, unset⟩)
    · cases content with
      | string text => cases noText text rfl
      | _ => rfl
    · have own := Reference.eq_ofText reads
      simp only [substitution, ← own, Reference.text?, unset, Option.or_none]

theorem refusal?_eq_none_iff : refusal? env content = none ↔ Answered env content := by
  have replaced : refusal? env content = none ↔ ∃ w, substitution env content = .ok w := by
    unfold refusal?
    cases substitution env content <;> simp
  rw [replaced]
  constructor
  · rintro ⟨w, done⟩
    obtain ⟨text, reference, found, own, reads, gives, -⟩ := substitution_eq_ok_iff.mp done
    exact ⟨text, reference, own, reads, Reference.exists_gives_iff.mp ⟨found, gives⟩⟩
  · rintro ⟨text, reference, own, reads, given⟩
    obtain ⟨found, gives⟩ := Reference.exists_gives_iff.mpr given
    exact ⟨_, substitution_eq_ok_iff.mpr ⟨text, reference, found, own, reads, gives, means_iff.mpr rfl⟩⟩

theorem refusal?_eq_some_iff : refusal? env content = some e ↔ Refused env content e := by
  rw [← substitution_eq_error_iff]
  unfold refusal?
  cases substitution env content <;> simp

end

/-! ## a whole value -/

section
variable {env : Environment}

theorem substituteItems_eq_ok_iff {items changed : List Value} :
    substituteItems env items = .ok changed ↔
      List.Forall₂ (fun v w => v.substitute env = .ok w) items changed := by
  induction items generalizing changed with
  | nil =>
    rw [substituteItems, List.forall₂_nil_left_iff, Except.ok.injEq]
    exact eq_comm
  | cons item rest ih =>
    rw [substituteItems, List.forall₂_cons_left_iff]
    cases item.substitute env with
    | error e => simp
    | ok w =>
      simp only [Except.ok.injEq, ← ih]
      cases substituteItems env rest with
      | error e => simp
      | ok others => simp [eq_comm]

theorem substituteEntries_eq_ok_iff {done entries changed : List (Value × Value)} :
    substituteEntries env done entries = .ok changed ↔
      ∃ keys values, List.Forall₂ (fun v w => v.substitute env = .ok w) (entries.map (·.1)) keys ∧
        List.Forall₂ (fun v w => v.substitute env = .ok w) (entries.map (·.2)) values ∧
        changed = (keys.zip values).foldl (fun done entry => put entry.1 entry.2 done) done := by
  induction entries generalizing done with
  | nil => simp [substituteEntries, eq_comm]
  | cons entry rest ih =>
    obtain ⟨key, value⟩ := entry
    simp only [substituteEntries, List.map_cons, List.forall₂_cons_left_iff]
    cases key.substitute env with
    | error e => simp
    | ok k =>
      cases value.substitute env with
      | error e => simp
      | ok v =>
        simp only [ih, Except.ok.injEq]
        constructor
        · rintro ⟨keys, values, ownKeys, ownValues, result⟩
          exact ⟨k :: keys, v :: values, ⟨k, keys, rfl, ownKeys, rfl⟩, ⟨v, values, rfl, ownValues, rfl⟩,
            result⟩
        · rintro ⟨_, _, ⟨_, keys, rfl, ownKeys, rfl⟩, ⟨_, values, rfl, ownValues, rfl⟩, result⟩
          exact ⟨keys, values, ownKeys, ownValues, result⟩

end

theorem sizeOf_lt_of_mem {entries : List (Value × Value)} {entry : Value × Value} (he : entry ∈ entries) :
    sizeOf entry.1 < sizeOf entries ∧ sizeOf entry.2 < sizeOf entries := by
  have within := List.sizeOf_lt_of_mem he
  obtain ⟨key, value⟩ := entry
  simp only [Prod.mk.sizeOf_spec] at within ⊢
  omega

/-- induction over a value: scalars, the items of a sequence, the keys and the values of a mapping, and
what is under a tag -/
@[elab_as_elim]
theorem induct {motive : Value → Prop} (scalar : ∀ v, v.isScalar = true → motive v)
    (sequence : ∀ items, (∀ v ∈ items, motive v) → motive (.sequence items))
    (mapping : ∀ entries, (∀ v ∈ entries.map (·.1), motive v) → (∀ v ∈ entries.map (·.2), motive v) →
      motive (.mapping entries))
    (tagged : ∀ tag content, motive content → motive (.tagged tag content)) (v : Value) : motive v := by
  cases v with
  | sequence items => exact sequence items fun v hv => induct scalar sequence mapping tagged v
  | mapping entries =>
    refine mapping entries (List.forall_mem_map.mpr fun entry he => ?_)
      (List.forall_mem_map.mpr fun entry he => ?_)
    · have smaller := (sizeOf_lt_of_mem he).1
      exact induct scalar sequence mapping tagged entry.1
    · have smaller := (sizeOf_lt_of_mem he).2
      exact induct scalar sequence mapping tagged entry.2
  | tagged tag content => exact tagged tag content (induct scalar sequence mapping tagged content)
  | _ => exact scalar _ rfl
termination_by sizeOf v

section
variable {env : Environment} {v w : Value}

theorem Processed.distinct (processed : Processed env v w) : w.Distinct := by
  induction v using induct generalizing w with
  | scalar v scalar =>
    cases processed with
    | scalar => exact .scalar scalar
    | _ => cases scalar
  | sequence items ih =>
    cases processed with
    | scalar scalar => cases scalar
    | sequence each => exact .sequence (forall_right_of_forall₂ each fun v hv w => ih v hv)
  | mapping entries ihKeys ihValues =>
    cases processed with
    | scalar scalar => cases scalar
    | mapping keys values =>
      have ownKeys := forall_right_of_forall₂ keys fun v hv w => ihKeys v hv
      have ownValues := forall_right_of_forall₂ values fun v hv w => ihValues v hv
      exact distinct_rebuilt (fun entry he => ownKeys _ (List.of_mem_zip he).1)
        fun entry he => ownValues _ (List.of_mem_zip he).2
  | tagged tag content ih =>
    cases processed with
    | node _ _ means => exact means.distinct
    | scalar scalar => cases scalar
    | tagged _ inside => exact .tagged (ih inside)

theorem processed_scalar_iff (scalar : v.isScalar = true) : Processed env v w ↔ w = v := by
  constructor
  · intro processed
    cases processed with
    | scalar => rfl
    | _ => cases scalar
  · rintro rfl
    exact .scalar scalar

theorem processed_sequence_iff {items : List Value} : Processed env (.sequence items) w ↔
    ∃ changed, List.Forall₂ (Processed env) items changed ∧ w = .sequence changed := by
  constructor
  · intro processed
    cases processed with
    | scalar scalar => cases scalar
    | sequence each => exact ⟨_, each, rfl⟩
  · rintro ⟨changed, each, rfl⟩
    exact .sequence each

theorem processed_mapping_iff {entries : List (Value × Value)} : Processed env (.mapping entries) w ↔
    ∃ changed, (∃ keys values, List.Forall₂ (Processed env) (entries.map (·.1)) keys ∧
      List.Forall₂ (Processed env) (entries.map (·.2)) values ∧ changed = rebuilt (keys.zip values)) ∧
      w = .mapping changed := by
  constructor
  · intro processed
    cases processed with
    | scalar scalar => cases scalar
    | mapping keys values => exact ⟨_, ⟨_, _, keys, values, rfl⟩, rfl⟩
  · rintro ⟨_, ⟨keys, values, ownKeys, ownValues, rfl⟩, rfl⟩
    exact .mapping ownKeys ownValues

theorem processed_reference_iff {content : Value} :
    Processed env (.tagged Environment.referenceTag content) w ↔ substitution env content = .ok w := by
  rw [substitution_eq_ok_iff]
  constructor
  · intro processed
    cases processed with
    | node reads gives means => exact ⟨_, _, _, rfl, reads, gives, means⟩
    | scalar scalar => cases scalar
    | tagged other => cases other rfl
  · rintro ⟨text, reference, found, rfl, reads, gives, means⟩
    exact .node reads gives means

theorem processed_tagged_iff {tag : String} {content : Value} (other : tag ≠ Environment.referenceTag) :
    Processed env (.tagged tag content) w ↔
      ∃ changed, Processed env content changed ∧ w = .tagged tag changed := by
  constructor
  · intro processed
    cases processed with
    | node => cases other rfl
    | scalar scalar => cases scalar
    | tagged _ inside => exact ⟨_, inside, rfl⟩
  · rintro ⟨changed, inside, rfl⟩
    exact .tagged other inside

theorem substitute_of_isScalar (scalar : v.isScalar = true) : v.substitute env = .ok v := by
  cases v with
  | sequence | mapping | tagged => cases scalar
  | _ => rfl

/-- the entries of a mapping, put one after the other, are the rebuilt mapping of what has become of their
keys and values -/
theorem substituteEntries_nil_eq_ok_iff {entries changed : List (Value × Value)}
    (ofKeys : ∀ v ∈ entries.map (·.1), ∀ w, v.substitute env = .ok w ↔ Processed env v w)
    (ofValues : ∀ v ∈ entries.map (·.2), ∀ w, v.substitute env = .ok w ↔ Processed env v w) :
    substituteEntries env [] entries = .ok changed ↔
      ∃ keys values, List.Forall₂ (Processed env) (entries.map (·.1)) keys ∧
        List.Forall₂ (Processed env) (entries.map (·.2)) values ∧ changed = rebuilt (keys.zip values) := by
  simp only [substituteEntries_eq_ok_iff, forall₂_congr_left ofKeys, forall₂_congr_left ofValues]
  refine exists₂_congr fun keys values => and_congr_right fun each => and_congr_right fun _ => ?_
  have distinct : ∀ entry ∈ keys.zip values, entry.1.Distinct := fun entry he =>
    forall_right_of_forall₂ each (fun _ _ _ key => key.distinct) _ (List.of_mem_zip he).1
  rw [← putAll_eq_rebuilt distinct]
  rfl

/-- **Processing succeeds with what is processed**, and with nothing else. -/
theorem substitute_eq_ok_iff : v.substitute env = .ok w ↔ Processed env v w := by
  induction v using induct generalizing w with
  | scalar v scalar =>
    rw [substitute_of_isScalar scalar, processed_scalar_iff scalar, Except.ok.injEq]
    exact eq_comm
  | sequence items ih =>
    rw [processed_sequence_iff]
    simp only [← forall₂_congr_left fun v hv w => ih v hv, ← substituteItems_eq_ok_iff]
    unfold substitute
    cases substituteItems env items <;> simp [eq_comm]
  | mapping entries ihKeys ihValues =>
    rw [processed_mapping_iff]
    simp only [← substituteEntries_nil_eq_ok_iff (fun v hv w => ihKeys v hv) fun v hv w => ihValues v hv]
    unfold substitute
    cases substituteEntries env [] entries <;> simp [eq_comm]
  | tagged tag content ih =>
    by_cases own : tag = Environment.referenceTag
    · subst own
      rw [processed_reference_iff]
      simp [substitute]
    · unfold substitute
      rw [if_neg own, processed_tagged_iff own]
      simp only [← ih]
      cases content.substitute env <;> simp [eq_comm]

theorem nodesOfItems_eq (items : List Value) : nodesOfItems items = items.flatMap nodes := by
  induction items with
  | nil => rfl
  | cons item rest ih => rw [nodesOfItems, List.flatMap_cons, ih]

theorem nodesOfEntries_eq (entries : List (Value × Value)) :
    nodesOfEntries entries = entries.flatMap fun entry => entry.1.nodes ++ entry.2.nodes := by
  induction entries with
  | nil => rfl
  | cons entry rest ih => rw [nodesOfEntries, List.flatMap_cons, ih]

theorem processed_self (distinct : v.Distinct) (untouched : v.nodes = []) : Processed env v v := by
  induction distinct with
  | scalar scalar => exact .scalar scalar
  | sequence _ ih =>
    rw [nodes, nodesOfItems_eq, List.flatMap_eq_nil_iff] at untouched
    exact .sequence (List.forall₂_same.mpr fun v hv => ih v hv (untouched v hv))
  | @mapping entries apart keys _ ihKeys ihValues =>
    rw [nodes, nodesOfEntries_eq, List.flatMap_eq_nil_iff] at untouched
    have ownKeys : List.Forall₂ (Processed env) (entries.map (·.1)) (entries.map (·.1)) :=
      List.forall₂_same.mpr (List.forall_mem_map.mpr fun entry he =>
        ihKeys entry he (List.append_eq_nil_iff.mp (untouched entry he)).1)
    have ownValues : List.Forall₂ (Processed env) (entries.map (·.2)) (entries.map (·.2)) :=
      List.forall₂_same.mpr (List.forall_mem_map.mpr fun entry he =>
        ihValues entry he (List.append_eq_nil_iff.mp (untouched entry he)).2)
    have processed := Processed.mapping ownKeys ownValues
    rw [List.zip_map', List.map_id'' fun _ => rfl, ← putAll_eq_rebuilt keys, putAll_of_apart apart] at processed
    exact processed
  | @tagged tag content _ ih =>
    by_cases own : tag = Environment.referenceTag
    · subst own
      rw [nodes_reference] at untouched
      cases untouched
    · rw [nodes_tagged _ own] at untouched
      exact .tagged own (ih untouched)

/-! ## success and failure -/

theorem exists_substitute_iff :
    (∃ w, v.substitute env = .ok w) ↔ ∀ content ∈ v.nodes, Answered env content := by
  rw [substitute_eq]
  simp only [← refusal?_eq_none_iff, ← List.findSome?_eq_none_iff]
  cases v.nodes.findSome? (refusal? env) <;> simp [unlessRefused]

theorem substitute_eq_error_iff {e : ConfigError} : v.substitute env = .error e ↔
    ∃ before content after, v.nodes = before ++ content :: after ∧
      (∀ other ∈ before, Answered env other) ∧ Refused env content e := by
  have failed : v.substitute env = .error e ↔ v.nodes.findSome? (refusal? env) = some e := by
    rw [substitute_eq]
    cases v.nodes.findSome? (refusal? env) <;> simp [unlessRefused]
  rw [failed, List.findSome?_eq_some_iff]
  simp only [refusal?_eq_none_iff, refusal?_eq_some_iff]
  refine exists₃_congr fun before content after => and_congr_right fun _ => and_comm

end

end Value

open SignalFlow.Yaml.Value

/-- **What processing does**: a value is processed exactly when each of its `!env_var` nodes holds a text
that names a variable that is set, or has a fallback; the result has these nodes replaced and all else as
it was. Else the error is that of the first node that is refused, a key before its value. A value that was
read, in whose mappings no key comes twice, is given back as it is if it has no such nodes. -/
theorem substitute_read (v : Value) (env : Environment) :
    ((∃ w, v.substitute env = .ok w) ↔ ∀ content ∈ v.nodes, Answered env content) ∧
    (∀ w, v.substitute env = .ok w ↔ Processed env v w) ∧
    (∀ e, v.substitute env = .error e ↔ ∃ before content after, v.nodes = before ++ content :: after ∧
      (∀ other ∈ before, Answered env other) ∧ Refused env content e) ∧
    (∀ text, read? text = some v → v.nodes = [] → v.substitute env = .ok v) :=
  ⟨exists_substitute_iff, fun _ => substitute_eq_ok_iff, fun _ => substitute_eq_error_iff,
    fun _ read untouched => substitute_eq_ok_iff.mpr (processed_self (distinct_of_read? read) untouched)⟩

/-- the numbers of a mapping with their names -/
def Value.numbers? : Value → Option (List (String × Int))
  | .mapping entries => entries.mapM fun
    | (.string name, .int n) => some (name, n)
    | _ => none
  | _ => none

/-- a mapping with two variables among its keys -/
def variableKeys : String := "!env_var A: 1\nrest: 0\n!env_var B: 2"

/-- the environment in which both stand for one text -/
def bothSet : Environment := .ofList [("A", "k"), ("B", "k")]

/-- the environment in which the second is not set -/
def firstSet : Environment := .ofList [("A", "k")]

/-- two variables with one text make one key, in the place of the first and with the number of the second;
without the second variable there is an error -/
theorem substitute_read_keys :
    ∃ v w, read? variableKeys = some v ∧ Processed bothSet v w ∧
      w.numbers? = some [("k", 2), ("rest", 0)] ∧
      ∃ before content after, v.nodes = before ++ content :: after ∧
        (∀ other ∈ before, Answered firstSet other) ∧ Refused firstSet content (.unsetVariable "B") := by
  have replaced : (read? variableKeys).bind (fun v => (v.substitute bothSet).toOption.bind numbers?) =
      some [("k", 2), ("rest", 0)] := by decide +kernel
  have refused : (read? variableKeys).bind (fun v => v.nodes.findSome? (refusal? firstSet)) =
      some (.unsetVariable "B") := by decide +kernel
  obtain ⟨v, read, replaced⟩ := Option.bind_eq_some_iff.mp replaced
  obtain ⟨w, given, numbers⟩ := Option.bind_eq_some_iff.mp replaced
  have done : v.substitute bothSet = .ok w := by
    cases result : v.substitute bothSet with
    | ok x => rw [result] at given; cases given; rfl
    | error e => rw [result] at given; cases given
  have failed : v.substitute firstSet = .error (.unsetVariable "B") := by
    rw [read, Option.bind_some] at refused
    rw [substitute_eq, refused]
    rfl
  obtain ⟨-, processed, -, -⟩ := substitute_read v bothSet
  obtain ⟨-, -, first, -⟩ := substitute_read v firstSet
  exact ⟨v, w, read, (processed w).mp done, numbers, (first _).mp failed⟩

end Yaml

end SignalFlow
