import SignalFlow.Config.Load
import SignalFlow.Engine.Basic
import SignalFlow.Proofs.Trace.Recent
/-!
# Configurations that an engine can run with

* `Config.Accepted`   both numbers have 64 bits, and neither is zero;
* `Config.document`   a document that says a configuration.

Loading accepts these configurations and no others (`Config.accepted_iff`). An engine opens with one of
them just if its log can have a channel of that capacity (`Config.Accepted.isSome_open?_iff`), which is not
so for the upper half of the capacities (`Config.opens_iff`).
-/

namespace SignalFlow

namespace Config

variable {config : Config}

/-! ## what loading accepts -/

/-- both numbers have 64 bits, and neither is zero -/
structure Accepted (config : Config) : Prop where
  traces : 0 < config.storedTraces
  tracesWord : config.storedTraces < Word.bound
  capacity : 0 < config.traceChannelCapacity
  capacityWord : config.traceChannelCapacity < Word.bound

theorem validate_eq_ok_iff {other : Config} : config.validate = .ok other ↔
    0 < config.storedTraces ∧ 0 < config.traceChannelCapacity ∧ config = other := by
  unfold validate
  split
  · next zero => simp [zero]
  · next traces =>
    split
    · next zero => simp [zero]
    · next capacity => simp [Nat.pos_of_ne_zero traces, Nat.pos_of_ne_zero capacity]

theorem lt_of_word? {value : Yaml.Value} {n : Nat} (h : value.word? = some n) : n < Word.bound := by
  unfold Yaml.Value.word? at h
  split at h
  · split at h
    · next inside =>
      cases h
      omega
    · cases h
  · cases h

theorem lt_of_setting {written : Option Yaml.Value} {usual n : Nat} (fits : usual < Word.bound)
    (h : (written.map Yaml.Value.word?).getD (some usual) = some n) : n < Word.bound := by
  cases written with
  | none =>
    cases h
    exact fits
  | some value => exact lt_of_word? h

theorem word_of_ofSection? {part : Yaml.Value} (read : ofSection? part = some config) :
    config.storedTraces < Word.bound ∧ config.traceChannelCapacity < Word.bound := by
  unfold ofSection? at read
  split at read
  · cases read
    decide
  · obtain ⟨named, -, read⟩ := Option.bind_eq_some_iff.mp read
    simp only [Written.config?, Option.bind_eq_bind, Option.bind_eq_some_iff] at read
    obtain ⟨policy, -, traces, stored, capacity, channel, level, -, same⟩ := read
    cases same
    exact ⟨lt_of_setting (by decide) stored, lt_of_setting (by decide) channel⟩
  · cases read

theorem word_of_ofYaml {document : Yaml.Value} (read : ofYaml document = .ok config) :
    config.storedTraces < Word.bound ∧ config.traceChannelCapacity < Word.bound := by
  unfold ofYaml at read
  split at read
  · cases read
  · split at read
    · next said =>
      cases read
      exact word_of_ofSection? said
    · cases read

theorem accepted_of_document {document : Yaml.Value}
    (read : (ofYaml document).bind validate = .ok config) : config.Accepted := by
  cases settings : ofYaml document with
  | error e =>
    rw [settings] at read
    cases read
  | ok other =>
    rw [settings] at read
    obtain ⟨traces, capacity, rfl⟩ := validate_eq_ok_iff.mp read
    obtain ⟨tracesWord, capacityWord⟩ := word_of_ofYaml settings
    exact ⟨traces, tracesWord, capacity, capacityWord⟩

/-- a section with all settings -/
def part (policy traces capacity level : Yaml.Value) : Yaml.Value :=
  .mapping [(.string "on_step_error", policy), (.string "stored_traces", traces),
    (.string "trace_channel_capacity", capacity), (.string "log_level", level)]

/-- a document that says this configuration -/
def document (config : Config) : Yaml.Value :=
  .mapping [(.string "engine", part (.string config.onStepError.name) (.int config.storedTraces)
    (.int config.traceChannelCapacity) (.string config.logLevel))]

theorem ofSection?_part (policy traces capacity level : Yaml.Value) :
    ofSection? (part policy traces capacity level) =
      Written.config? ⟨some (Policy.ofYaml? policy), some traces.word?, some capacity.word?,
        some level.text?⟩ := by
  have once : settledOnce [("on_step_error", policy), ("stored_traces", traces),
      ("trace_channel_capacity", capacity), ("log_level", level)] = true := by
    simp [settledOnce, settings]
  have key (name : String) : (Yaml.Value.string name).text? = some name := by
    simp only [Yaml.Value.text?, Yaml.Value.untagged]
  simp only [ofSection?, part, Yaml.Value.untagged, named?, key, Option.bind_eq_bind, Option.bind_some]
  rw [Option.filter_some, if_pos once]
  simp

theorem word?_int {n : Nat} (fits : n < Word.bound) : (Yaml.Value.int n).word? = some n := by
  have inside : (0 : Int) ≤ n ∧ (n : Int) < (Word.bound : Nat) := ⟨Int.natCast_nonneg n, by omega⟩
  unfold Yaml.Value.word?
  simp only [Yaml.Value.untagged, inside, and_self, if_true, Int.toNat_natCast]

theorem ofYaml_document (accepted : config.Accepted) : ofYaml config.document = .ok config := by
  have policy : Policy.ofYaml? (.string config.onStepError.name) = some config.onStepError :=
    Policy.ofName?_name config.onStepError
  have said : section? config.document = some (part (.string config.onStepError.name)
      (.int config.storedTraces) (.int config.traceChannelCapacity) (.string config.logLevel)) := by
    simp [section?, document, Yaml.Value.get?]
  rw [ofYaml, said]
  dsimp only
  rw [ofSection?_part, policy, word?_int accepted.tracesWord, word?_int accepted.capacityWord]
  rfl

/-- **Loading accepts these configurations and no others.** -/
theorem accepted_iff : config.Accepted ↔ ∃ document, (ofYaml document).bind validate = .ok config := by
  refine ⟨fun accepted => ⟨config.document, ?_⟩, fun ⟨_, read⟩ => accepted_of_document read⟩
  rw [ofYaml_document accepted]
  exact validate_eq_ok_iff.mpr ⟨accepted.traces, accepted.capacity, rfl⟩

theorem accepted_of_read {read : Except ConfigError Yaml.Value}
    (loaded : (do (← ofYaml (← read)).validate) = .ok config) : config.Accepted := by
  cases read with
  | error => cases loaded
  | ok document => exact accepted_of_document loaded

theorem accepted_of_load {env : Environment} {text : String} (loaded : load env text = .ok config) :
    config.Accepted := accepted_of_read loaded

theorem accepted_of_loadFile {env : Environment} {file : Option ByteArray}
    (loaded : loadFile env file = .ok config) : config.Accepted := accepted_of_read loaded

/-! ## what an engine opens with -/

theorem isSome_open?_iff (config : Config) (store : Store) :
    (Engine.open? config store).isSome = true ↔ config.traceChannelCapacity < Word.signedBound := by
  rw [Engine.open?, Option.isSome_map, TraceLog.ofConfig?, TraceLog.isSome_open?_iff,
    Channel.maxCapacity]
  exact Nat.le_sub_one_iff_lt (by decide)

/-- an engine that opens keeps the configuration and the store; its log keeps as many traces as the
configuration says, and its channel has the least size that is large enough -/
theorem Accepted.opened {store : Store} {engine : Engine} (accepted : config.Accepted)
    (opened : Engine.open? config store = some engine) :
    engine.config = config ∧ engine.store = store ∧ engine.log.capacity = config.storedTraces ∧
      IsLeast {size | size.isPowerOfTwo ∧ config.traceChannelCapacity ≤ size}
        engine.log.channel.size := by
  obtain ⟨log, found, rfl⟩ := Option.map_eq_some_iff.mp opened
  obtain rfl := TraceLog.eq_of_open? found
  have least := Channel.powerAbove_isLeast config.traceChannelCapacity
  rw [Nat.max_eq_left accepted.capacity] at least
  exact ⟨rfl, rfl, Nat.max_eq_left accepted.traces, least⟩

/-- **An accepted configuration can be run with in the lower half of the capacities.** Whatever text or
file a configuration was loaded from, and with every environment, both its numbers have 64 bits and neither
is zero; and every capacity of that range can be loaded. An engine with it opens just if the capacity is
below `2 ^ 63`. It then has that configuration and the store, its log keeps as many traces as was said, and
the size of its channel is the least power of two that is not below the capacity, at most `2 ^ 63`. -/
theorem opens_iff {env : Environment} (loaded : (∃ text, load env text = .ok config) ∨
      ∃ file, loadFile env file = .ok config) (store : Store) :
    config.Accepted ∧
    (∀ capacity, 0 < capacity → capacity < Word.bound → ∃ document,
      (ofYaml document).bind validate = .ok { config with traceChannelCapacity := capacity }) ∧
    ((Engine.open? config store).isSome = true ↔ config.traceChannelCapacity < Word.signedBound) ∧
    ∀ engine, Engine.open? config store = some engine →
      engine.config = config ∧ engine.store = store ∧ engine.log.capacity = config.storedTraces ∧
        IsLeast {size | size.isPowerOfTwo ∧ config.traceChannelCapacity ≤ size}
          engine.log.channel.size ∧
        engine.log.channel.size ≤ Word.signedBound := by
  have accepted : config.Accepted := by
    rcases loaded with ⟨text, loaded⟩ | ⟨file, loaded⟩
    · exact accepted_of_load loaded
    · exact accepted_of_loadFile loaded
  refine ⟨accepted, fun capacity positive word => ?_, isSome_open?_iff config store,
    fun engine opened => ?_⟩
  · exact accepted_iff.mp ⟨accepted.traces, accepted.tracesWord, positive, word⟩
  · obtain ⟨settings, own, traces, least⟩ := accepted.opened opened
    refine ⟨settings, own, traces, least, least.2 ⟨⟨63, rfl⟩, ?_⟩⟩
    have usable := (isSome_open?_iff config store).mp (by rw [opened]; rfl)
    exact usable.le

theorem eq_ok_of_toOption {ε α : Type} {result : Except ε α} {value : α}
    (h : result.toOption = some value) : result = .ok value := by
  cases result with
  | error => cases h
  | ok => exact congrArg Except.ok (Option.some.inj h)

/-- the largest capacity with which an engine opens -/
theorem opens_iff_largest :
    let text := "engine:\n  stored_traces: 1\n  trace_channel_capacity: 9223372036854775807\n"
    ∃ config, load (.ofList []) text = .ok config ∧
      config.traceChannelCapacity = 9223372036854775807 ∧
      ∃ engine, Engine.open? config default = some engine ∧ engine.log.capacity = 1 ∧
        9223372036854775807 ≤ engine.log.channel.size ∧ engine.log.channel.size ≤ Word.signedBound := by
  intro text
  let config : Config := { storedTraces := 1, traceChannelCapacity := 9223372036854775807 }
  have loaded : load (.ofList []) text = .ok config := eq_ok_of_toOption (by decide +kernel)
  obtain ⟨-, -, opens, answers⟩ := opens_iff (.inl ⟨text, loaded⟩) default
  obtain ⟨engine, opened⟩ := Option.isSome_iff_exists.mp (opens.mpr (by decide))
  obtain ⟨-, -, kept, least, most⟩ := answers engine opened
  exact ⟨config, loaded, rfl, engine, opened, kept, least.1.2, most⟩

/-- the capacity after that one is loaded too, but no engine opens with it -/
theorem opens_not_above :
    let text := "engine:\n  trace_channel_capacity: 9223372036854775808\n"
    ¬ (∀ env text config store, load env text = .ok config →
        (Engine.open? config store).isSome = true) ∧
      ∃ config, load (.ofList []) text = .ok config ∧
        config.traceChannelCapacity = 9223372036854775808 ∧ config.traceChannelCapacity < Word.bound ∧
        ∀ store, Engine.open? config store = none := by
  intro text
  let config : Config := { traceChannelCapacity := 9223372036854775808 }
  have loaded : load (.ofList []) text = .ok config := eq_ok_of_toOption (by decide +kernel)
  have refused (store : Store) : Engine.open? config store = none := rfl
  refine ⟨fun always => ?_, config, loaded, rfl, by decide, refused⟩
  have opens := always _ text config default loaded
  rw [refused] at opens
  cases opens

end Config

end SignalFlow
