import SignalFlow.Proofs.Json.Fields
import SignalFlow.Proofs.Trace.Channel
import SignalFlow.Trace.Log
/-!
# What the log keeps of its history

* `TraceLog.Operation`      a trace is recorded, or the traces of a signal are cleared;
* `TraceLog.sinceCleared`   the traces of a signal that a history has recorded since it was last
                            cleared, oldest first;
* `TraceLog.recent`         the last of them, as many as the capacity says;
* `TraceLog.Mirrors`        a log keeps what is recent and nothing else.

`TraceLog.Mirrors.perform`: every operation keeps a log in step with the history. `TraceLog.keeps_recent`:
so whatever is asked of a log that was opened empty is answered by the recent traces.
-/

namespace SignalFlow

namespace TraceLog

inductive Operation
  | record (trace : Trace)
  | clear (signal : String)

namespace Operation

def clears (signal : String) : Operation → Bool
  | record _ => false
  | clear other => other = signal

def recorded? (signal : String) : Operation → Option Trace
  | record trace => if trace.name = signal then some trace else none
  | clear _ => none

end Operation

def perform (log : TraceLog) : Operation → TraceLog
  | .record trace => log.record trace
  | .clear signal => (log.clear signal).1

def performAll (log : TraceLog) (history : List Operation) : TraceLog := history.foldl perform log

/-- the traces of a signal recorded since it was last cleared, oldest first -/
def sinceCleared (signal : String) (history : List Operation) : List Trace :=
  (history.rtakeWhile fun op => !op.clears signal).filterMap (·.recorded? signal)

/-- the last of them; a capacity of zero counts as one -/
def recent (capacity : Nat) (signal : String) (history : List Operation) : List Trace :=
  (sinceCleared signal history).rtake (max capacity 1)

/-! ## histories -/

section
variable {signal : String} {history : List Operation}

theorem sinceCleared_concat (op : Operation) : sinceCleared signal (history ++ [op]) =
    if op.clears signal then [] else sinceCleared signal history ++ (op.recorded? signal).toList := by
  rw [sinceCleared, List.rtakeWhile_concat]
  cases op.clears signal with
  | true => rfl
  | false =>
    rw [Bool.not_false, if_pos rfl, List.filterMap_append]
    cases h : op.recorded? signal with
    | none => simp [sinceCleared, h]
    | some trace => simp [sinceCleared, h]

variable (capacity : Nat)

theorem recent_record (trace : Trace) :
    recent capacity trace.name (history ++ [.record trace]) =
      (recent capacity trace.name history ++ [trace]).rtake (max capacity 1) := by
  rw [recent, sinceCleared_concat, recent, rtake_append_rtake]
  simp [Operation.clears, Operation.recorded?]

theorem recent_record_of_ne {trace : Trace} (other : signal ≠ trace.name) :
    recent capacity signal (history ++ [.record trace]) = recent capacity signal history := by
  rw [recent, sinceCleared_concat, recent]
  simp [Operation.clears, Operation.recorded?, other.symm]

theorem recent_clear : recent capacity signal (history ++ [.clear signal]) = [] := by
  rw [recent, sinceCleared_concat]
  simp [Operation.clears]

theorem recent_clear_of_ne {cleared : String} (other : signal ≠ cleared) :
    recent capacity signal (history ++ [.clear cleared]) = recent capacity signal history := by
  rw [recent, sinceCleared_concat, recent]
  simp [Operation.clears, Operation.recorded?, other.symm]

end

/-! ## a log in step with its history -/

/-- the log keeps what is recent, and has no entry for a signal of which nothing is -/
structure Mirrors (capacity : Nat) (history : List Operation) (log : TraceLog) : Prop where
  room : log.capacity = max capacity 1
  sorted : Fields.Sorted log.traces
  kept : ∀ signal, log.tracesOf signal = recent capacity signal history
  occupied : ∀ entry ∈ log.traces, entry.2 ≠ []

section
variable {capacity : Nat} {history : List Operation} {log : TraceLog} {signal other : String}

theorem tracesOf_record (log : TraceLog) (trace : Trace) :
    (log.record trace).tracesOf trace.name =
      (log.tracesOf trace.name ++ [trace]).rtake log.capacity := by
  show (Fields.get? trace.name (Fields.insert trace.name _ log.traces)).getD [] = _
  rw [Fields.get?_insert_self]
  rfl

theorem tracesOf_record_of_ne (log : TraceLog) {trace : Trace} (different : signal ≠ trace.name) :
    (log.record trace).tracesOf signal = log.tracesOf signal := by
  show (Fields.get? signal (Fields.insert trace.name _ log.traces)).getD [] = _
  rw [Fields.get?_insert_of_ne different]
  rfl

theorem tracesOf_clear (sorted : Fields.Sorted log.traces) (signal : String) :
    (log.clear signal).1.tracesOf signal = [] := by
  show (Fields.get? signal (Fields.erase signal log.traces)).getD [] = _
  rw [Fields.get?_erase_self sorted]
  rfl

theorem tracesOf_clear_of_ne (sorted : Fields.Sorted log.traces) (different : other ≠ signal) :
    (log.clear signal).1.tracesOf other = log.tracesOf other := by
  show (Fields.get? other (Fields.erase signal log.traces)).getD [] = _
  rw [Fields.get?_erase_of_ne sorted different]
  rfl

namespace Mirrors

theorem opened {channelCapacity : Nat} (opened : open? capacity channelCapacity = some log) :
    Mirrors capacity [] log := by
  obtain ⟨channel, -, rfl⟩ := Option.map_eq_some_iff.mp opened
  refine ⟨rfl, List.Pairwise.nil, fun signal => ?_, fun _ h => nomatch h⟩
  simp [tracesOf, recent, sinceCleared]

variable (h : Mirrors capacity history log)
include h

theorem record (trace : Trace) :
    Mirrors capacity (history ++ [.record trace]) (log.record trace) := by
  refine ⟨h.room, Fields.sorted_insert h.sorted _ _, fun signal => ?_, fun entry mem => ?_⟩
  · by_cases same : signal = trace.name
    · subst same
      rw [tracesOf_record, h.kept, h.room, recent_record]
    · rw [tracesOf_record_of_ne log same, h.kept, recent_record_of_ne capacity same]
  · rcases Fields.mem_insert mem with rfl | mem
    -- at least one trace is kept, so the new one is
    · obtain ⟨n, hn⟩ : ∃ n, log.capacity = n + 1 := ⟨max capacity 1 - 1, by rw [h.room]; omega⟩
      show (log.tracesOf trace.name ++ [trace]).rtake log.capacity ≠ []
      rw [hn, List.rtake_concat_succ]
      exact List.concat_ne_nil _ _
    · exact h.occupied entry mem

theorem clear (signal : String) :
    Mirrors capacity (history ++ [.clear signal]) (log.clear signal).1 := by
  refine ⟨h.room, Fields.sorted_erase h.sorted signal, fun other => ?_, fun entry mem => ?_⟩
  · by_cases same : other = signal
    · subst same
      rw [tracesOf_clear h.sorted, recent_clear]
    · rw [tracesOf_clear_of_ne h.sorted same, h.kept, recent_clear_of_ne capacity same]
  · exact h.occupied entry ((Fields.erase_sublist signal log.traces).subset mem)

theorem perform (op : Operation) : Mirrors capacity (history ++ [op]) (log.perform op) := by
  cases op with
  | record trace => exact h.record trace
  | clear signal => exact h.clear signal

theorem performAll (more : List Operation) :
    Mirrors capacity (history ++ more) (log.performAll more) := by
  induction more generalizing history log with
  | nil => rwa [List.append_nil]
  | cons op more ih =>
    rw [List.append_cons]
    exact ih (h.perform op)

/-- only signals of which something is recent have an entry -/
theorem mem_names : signal ∈ log.names ↔ recent capacity signal history ≠ [] := by
  rw [← h.kept, tracesOf]
  constructor
  · intro mem
    obtain ⟨entry, there, rfl⟩ := List.mem_map.mp mem
    rw [Fields.get?_of_mem h.sorted there]
    exact h.occupied entry there
  · intro some
    cases found : Fields.get? signal log.traces with
    | none => exact absurd (by rw [found]; rfl) some
    | some traces => exact List.mem_map_of_mem (f := Prod.fst) (Fields.mem_of_get? found)

theorem pairwise_names : log.names.Pairwise (· < ·) := List.pairwise_map.mpr h.sorted

end Mirrors

end

theorem isSome_open?_iff (capacity channelCapacity : Nat) :
    (open? capacity channelCapacity).isSome = true ↔ channelCapacity ≤ Channel.maxCapacity := by
  rw [open?, Option.isSome_map, Channel.open?]
  have one : 1 ≤ Channel.maxCapacity := by decide
  split
  · next refused => exact ⟨fun h => (nomatch h), fun fits => by omega⟩
  · next usable => exact ⟨fun _ => by omega, fun _ => rfl⟩

/-- a log that was opened is empty, and its channel has the size that the capacity is rounded up to -/
theorem eq_of_open? {capacity channelCapacity : Nat} {log : TraceLog}
    (opened : open? capacity channelCapacity = some log) :
    log = { capacity := max capacity 1, channel := { size := Channel.powerAbove channelCapacity } } := by
  obtain ⟨channel, usable, rfl⟩ := Option.map_eq_some_iff.mp opened
  rw [Channel.open?_eq usable, Channel.powerAbove_max_one]

/-- **The log keeps exactly the most recent traces.** A log opens with every capacity, and with every
channel capacity that a channel can have. Whatever was recorded and cleared since, it answers by the
last traces of the signal since it was cleared; the names are those of the signals with such a trace,
in order; and clearing a signal says how many there were and leaves the other signals alone. -/
theorem keeps_recent (capacity channelCapacity : Nat) :
    ((open? capacity channelCapacity).isSome = true ↔ channelCapacity ≤ Channel.maxCapacity) ∧
    ∀ log, open? capacity channelCapacity = some log → ∀ history : List Operation,
      let now := log.performAll history
      let kept := fun signal => recent capacity signal history
      (∀ signal, now.tracesOf signal = kept signal ∧ now.latest? signal = (kept signal).getLast? ∧
        ∀ id, now.get? signal id = (kept signal).find? (·.id = id)) ∧
      (now.names.Pairwise (· < ·) ∧ ∀ signal, signal ∈ now.names ↔ kept signal ≠ []) ∧
      ∀ signal, (now.clear signal).2 = (kept signal).length ∧
        ∀ other, other ≠ signal → (now.clear signal).1.tracesOf other = now.tracesOf other ∧
          (other ∈ (now.clear signal).1.names ↔ other ∈ now.names) := by
  refine ⟨isSome_open?_iff capacity channelCapacity, fun log opened history => ?_⟩
  have mirrors : Mirrors capacity history (log.performAll history) :=
    (Mirrors.opened opened).performAll history
  refine ⟨fun signal => ?_, ⟨mirrors.pairwise_names, fun signal => mirrors.mem_names⟩, fun signal => ?_⟩
  · rw [latest?, mirrors.kept]
    exact ⟨rfl, rfl, fun id => by rw [get?, mirrors.kept]⟩
  · refine ⟨congrArg List.length (mirrors.kept signal), fun other different => ⟨?_, ?_⟩⟩
    · exact tracesOf_clear_of_ne mirrors.sorted different
    · rw [(mirrors.clear signal).mem_names, recent_clear_of_ne capacity different, mirrors.mem_names]

/-- a log for two traces of each signal, on which one signal is cleared and recorded again -/
theorem keeps_recent_cleared :
    let trace := fun name id => ({ (default : Trace) with name, id } : Trace)
    let history := [.record (trace "page" "1"), .record (trace "cart" "2"), .record (trace "page" "3"),
      .clear "cart", .record (trace "page" "4"), .record (trace "cart" "5")]
    ∃ log, open? 2 0 = some log ∧
      ((log.performAll history).tracesOf "page").map (·.id) = ["3", "4"] ∧
      ((log.performAll history).tracesOf "cart").map (·.id) = ["5"] ∧
      (log.performAll history).names.Pairwise (· < ·) := by
  intro trace history
  obtain ⟨log, opened⟩ : ∃ log, open? 2 0 = some log := ⟨_, rfl⟩
  obtain ⟨answers, ⟨ordered, -⟩, -⟩ := (keeps_recent 2 0).2 log opened history
  refine ⟨log, opened, ?_⟩
  rw [(answers "page").1, (answers "cart").1]
  exact ⟨rfl, rfl, ordered⟩

end TraceLog

end SignalFlow
