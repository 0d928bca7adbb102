import SignalFlow.Proofs.Engine.Isolation
import SignalFlow.Proofs.Run.Errors
/-!
# What an engine records

* `Session`             an engine with the signals that were created on it and the runs that were begun;
* `Session.perform`     one operation: a signal is created, a run begins, takes a turn or is dropped, the
                        traces of a signal are cleared, or somebody else writes to the store;
* `Session.Report`      what of it the log is to show: a poll has returned a trace, or traces were
                        cleared;
* `Session.Follows`     every run goes on where it stood, and one that was dropped stays as it is settled;
* `Session.Accounts`    what was returned of each run is the trace that it was completed with, if it was.

The log is the reports entered one after the other (`Session.log_performAll`), and the accounts hold
after every operation (`Session.Accounts.perform`). `Session.recorded_once`: every completed run is
recorded once, when it completes, and nothing else is.
-/

namespace SignalFlow

def Turn.polls : Turn → Bool
  | poll .. => true
  | wake _ | gateOpened _ => false

/-- a run that was begun on an engine -/
structure Tracked where
  run : Run
  /-- it is not polled any more -/
  dropped : Bool := false

/-- this is what can become of a run that is tracked -/
structure Tracked.Leads (before after : Tracked) : Prop where
  later : before.run.Later after.run
  dropped : before.dropped = true → after.dropped = true ∧ after.run.settled = before.run.settled

structure Session where
  engine : Engine
  signals : List Signal := []
  runs : List Tracked := []

namespace Session

inductive Operation
  | create (name : String) (definition : List Chain)
  | start (signal : Nat) (id : String) (startedAt : Timestamp) (input : Signal.Input)
  | turn (run : Nat) (turn : Turn)
  | drop (run : Nat)
  | clear (signal : String)
  | write (store : Store)

/-- what an operation comes to, as far as the log is concerned -/
inductive Report
  | returned (run : Nat) (trace : Trace)
  | cleared (signal : String)

namespace Report

def enter (log : TraceLog) : Report → TraceLog
  | returned _ trace => log.record trace
  | cleared signal => (log.clear signal).1

/-- the trace that was returned -/
def trace? : Report → Option Trace
  | returned _ trace => some trace
  | cleared _ => none

/-- the trace that was returned of this run -/
def traceOf? (index : Nat) : Report → Option Trace
  | returned run trace => if run = index then some trace else none
  | cleared _ => none

end Report

/-- a run takes a turn; one that is settled returns nothing any more -/
def turned (session : Session) (index : Nat) (tracked : Tracked) (turn : Turn) :
    Session × Option Report :=
  let (engine, run) := session.engine.turn tracked.run turn
  ({ session with engine, runs := session.runs.set index { tracked with run } },
    if tracked.run.settled.isSome then none else run.trace?.map (.returned index))

def perform (session : Session) : Operation → Session × Option Report
  | .create name definition =>
    match session.engine.create name definition with
    | .ok signal => ({ session with signals := session.signals ++ [signal] }, none)
    | .error _ => (session, none)
  | .start index id startedAt input =>
    match session.signals[index]? with
    | none => (session, none)
    | some signal =>
      match signal.start id startedAt input with
      | .ok run => ({ session with runs := session.runs ++ [{ run }] }, none)
      | .error _ => (session, none)
  | .turn index turn =>
    match session.runs[index]? with
    | none => (session, none)
    | some tracked =>
      if tracked.dropped && turn.polls then (session, none) else session.turned index tracked turn
  | .drop index =>
    ({ session with runs := session.runs.modify index fun run => { run with dropped := true } }, none)
  | .clear signal =>
    let engine := { session.engine with log := (session.engine.log.clear signal).1 }
    ({ session with engine }, some (.cleared signal))
  | .write store => ({ session with engine := { session.engine with store } }, none)

/-- one operation after the other -/
def performAll : List Operation → Session → Session × List Report
  | [], session => (session, [])
  | operation :: rest, session =>
    let (next, report) := session.perform operation
    let (last, reports) := performAll rest next
    (last, report.toList ++ reports)

end Session

/-! ## the log -/

section
variable {log : TraceLog} {trace : Trace}

theorem TraceLog.capacity_enter (log : TraceLog) (report : Session.Report) :
    (report.enter log).capacity = log.capacity := by
  cases report <;> rfl

theorem Run.trace?_eq {run run' : Run} (same : run'.settled = run.settled) :
    run'.trace? = run.trace? := by
  unfold trace?
  rw [same]

theorem Run.trace?_of_pending {run : Run} (pending : run.settled = none) : run.trace? = none := by
  unfold trace?
  rw [pending]

theorem Turn.settled_of_not_polls (run : Run) (store : Store) {turn : Turn}
    (other : turn.polls = false) : (run.turn store turn).1.settled = run.settled := by
  cases turn with
  | poll => cases other
  | wake => rfl
  | gateOpened gate => exact run.settled_gateOpened gate

/-- a turn records the trace of a run that it completes, and nothing else -/
theorem Engine.log_turn (engine : Engine) (run : Run) (turn : Turn) :
    (engine.turn run turn).1.log =
      if run.settled.isSome then engine.log
      else ((engine.turn run turn).2.trace?.map engine.log.record).getD engine.log := by
  cases settled : run.settled with
  | some _ =>
    cases turn with
    | poll isOpen elapsed =>
      show (engine.poll isOpen elapsed run).1.log = engine.log
      rw [poll, settled]
      rfl
    | wake | gateOpened => rfl
  | none =>
    cases turn with
    | poll isOpen elapsed =>
      show (engine.poll isOpen elapsed run).1.log =
        ((engine.poll isOpen elapsed run).2.trace?.map engine.log.record).getD engine.log
      rw [poll, settled]
      show (Engine.settle { engine with store := _ } (run.poll isOpen elapsed engine.store).1).log =
        ((run.poll isOpen elapsed engine.store).1.trace?.map engine.log.record).getD engine.log
      unfold settle Run.trace?
      generalize (run.poll isOpen elapsed engine.store).1.settled = ended
      rcases ended with _ | (_ | _) <;> rfl
    | wake address =>
      show engine.log = ((run.wake address).trace?.map engine.log.record).getD engine.log
      rw [Run.trace?_of_pending (show (run.wake address).settled = none from settled)]
      rfl
    | gateOpened gate =>
      show engine.log = ((run.gateOpened gate).trace?.map engine.log.record).getD engine.log
      rw [Run.trace?_of_pending ((run.settled_gateOpened gate).trans settled)]
      rfl

end

/-! ## operations -/

namespace Session

/-- what an operation can do -/
inductive Change (session : Session) : Session → Option Report → Prop
  | nothing : Change session session none
  | created {name : String} {definition : List Chain} {signal : Signal} :
      session.engine.create name definition = .ok signal →
      Change session { session with signals := session.signals ++ [signal] } none
  | begun {signal : Signal} {id : String} {startedAt : Timestamp} {input : Signal.Input} {run : Run} :
      signal ∈ session.signals → signal.start id startedAt input = .ok run →
      Change session { session with runs := session.runs ++ [{ run }] } none
  | turned {index : Nat} {tracked : Tracked} (turn : Turn) : session.runs[index]? = some tracked →
      (tracked.dropped && turn.polls) = false →
      Change session (session.turned index tracked turn).1 (session.turned index tracked turn).2
  | dropped (index : Nat) :
      Change session
        { session with runs := session.runs.modify index fun run => { run with dropped := true } } none
  | cleared (signal : String) :
      Change session
        { session with
            engine := { session.engine with log := (session.engine.log.clear signal).1 } }
        (some (.cleared signal))
  | written (store : Store) :
      Change session { session with engine := { session.engine with store } } none

section
variable {session after : Session} {report : Option Report}

/-- **The log shows what is reported, and nothing else.** -/
theorem Change.log (change : session.Change after report) :
    after.engine.log =
      report.toList.foldl (fun log report => report.enter log) session.engine.log := by
  cases change with
  | nothing | created | begun | dropped | cleared | written => rfl
  | @turned index tracked turn found free =>
    have log := session.engine.log_turn tracked.run turn
    unfold Session.turned
    dsimp only
    rw [log]
    cases tracked.run.settled with
    | some _ => rfl
    | none =>
      cases (session.engine.turn tracked.run turn).2.trace? <;> rfl

theorem Change.capacity (change : session.Change after report) :
    after.engine.log.capacity = session.engine.log.capacity := by
  rw [change.log]
  cases report with
  | none => rfl
  | some report => exact TraceLog.capacity_enter _ report

end

/-! ## runs -/

/-- every run goes on where it stood -/
def Follows (session after : Session) : Prop :=
  ∀ (index : Nat) tracked, session.runs[index]? = some tracked →
    ∃ tracked', after.runs[index]? = some tracked' ∧ tracked.Leads tracked'

/-- the log keeps at least one trace, the signals were created, and each run is one of such a signal -/
structure Sound (session : Session) : Prop where
  positive : 0 < session.engine.log.capacity
  signals : ∀ signal ∈ session.signals,
    ∃ name policy definition, Signal.create name policy definition = .ok signal
  runs : ∀ tracked ∈ session.runs, ∃ signal name policy definition,
    Signal.create name policy definition = .ok signal ∧ Run.Reachable signal tracked.run

/-- what was returned of each run is the trace that it was completed with, if it was -/
def Accounts (session : Session) (reports : List Report) : Prop :=
  ∀ index, reports.filterMap (Report.traceOf? index) =
    (session.runs[index]?.bind fun tracked => tracked.run.trace?).toList

section
variable {session after last : Session} {report : Option Report} {reports : List Report}

theorem Follows.refl (session : Session) : session.Follows session :=
  fun _ tracked found => ⟨tracked, found, .now, fun dropped => ⟨dropped, rfl⟩⟩

theorem Follows.trans (h : session.Follows after) (h' : after.Follows last) :
    session.Follows last := by
  intro index tracked found
  obtain ⟨tracked', found', leads⟩ := h index tracked found
  obtain ⟨tracked'', found'', leads'⟩ := h' index tracked' found'
  refine ⟨tracked'', found'', leads.later.trans leads'.later, fun dropped => ?_⟩
  obtain ⟨dropped', same⟩ := leads.dropped dropped
  obtain ⟨dropped'', same'⟩ := leads'.dropped dropped'
  exact ⟨dropped'', same'.trans same⟩

theorem leads_turn (engine : Engine) (tracked : Tracked) {turn : Turn}
    (free : (tracked.dropped && turn.polls) = false) :
    tracked.Leads { tracked with run := (engine.turn tracked.run turn).2 } := by
  refine ⟨?_, fun dropped => ⟨dropped, ?_⟩⟩
  · show tracked.run.Later (engine.turn tracked.run turn).2
    rw [(engine.turn_eq tracked.run turn).1]
    exact Run.Later.turn .now engine.store turn
  · rw [dropped, Bool.true_and] at free
    show (engine.turn tracked.run turn).2.settled = tracked.run.settled
    rw [(engine.turn_eq tracked.run turn).1]
    exact Turn.settled_of_not_polls tracked.run engine.store free

theorem Change.follows (change : session.Change after report) : session.Follows after := by
  cases change with
  | nothing | created | cleared | written => exact .refl _
  | begun =>
    intro index tracked found
    have inside := (List.getElem?_eq_some_iff.mp found).1
    exact ⟨tracked, (List.getElem?_append_left inside).trans found, .now, fun h => ⟨h, rfl⟩⟩
  | @turned index tracked turn found free =>
    intro other tracked' found'
    by_cases same : index = other
    · subst same
      rw [found] at found'
      cases found'
      exact ⟨_, List.getElem?_set_self (List.getElem?_eq_some_iff.mp found).1,
        leads_turn session.engine tracked free⟩
    · exact ⟨tracked', (List.getElem?_set_ne same).trans found', .now, fun h => ⟨h, rfl⟩⟩
  | dropped index =>
    intro other tracked found
    by_cases same : index = other
    · subst same
      refine ⟨{ tracked with dropped := true }, ?_, .now, fun _ => ⟨rfl, rfl⟩⟩
      rw [List.getElem?_modify_eq, found]
      rfl
    · exact ⟨tracked, (List.getElem?_modify_ne _ _ same).trans found, .now, fun h => ⟨h, rfl⟩⟩

theorem Change.sound (change : session.Change after report) (sound : session.Sound) :
    after.Sound := by
  have positive : 0 < after.engine.log.capacity := change.capacity ▸ sound.positive
  cases change with
  | nothing | cleared | written => exact ⟨positive, sound.signals, sound.runs⟩
  | created made =>
    exact ⟨positive, List.forall_mem_append.mpr ⟨sound.signals,
      List.forall_mem_singleton.mpr ⟨_, _, _, made⟩⟩, sound.runs⟩
  | begun among started =>
    obtain ⟨name, policy, definition, made⟩ := sound.signals _ among
    exact ⟨positive, sound.signals, List.forall_mem_append.mpr ⟨sound.runs,
      List.forall_mem_singleton.mpr ⟨_, name, policy, definition, made, .start started⟩⟩⟩
  | @turned index tracked turn found free =>
    refine ⟨positive, sound.signals, fun other among => ?_⟩
    rcases List.mem_or_eq_of_mem_set among with old | rfl
    · exact sound.runs other old
    · obtain ⟨signal, name, policy, definition, made, reachable⟩ :=
        sound.runs tracked (List.mem_of_getElem? found)
      exact ⟨signal, name, policy, definition, made,
        (leads_turn session.engine tracked free).later.reachable reachable⟩
  | dropped index =>
    refine ⟨positive, sound.signals, fun tracked among => ?_⟩
    obtain ⟨i, found⟩ := List.mem_iff_getElem?.mp among
    rw [List.getElem?_modify] at found
    obtain ⟨old, there, rfl⟩ := Option.map_eq_some_iff.mp found
    have reached := sound.runs old (List.mem_of_getElem? there)
    split <;> exact reached

/-- what is returned of a run is the trace that completes it -/
theorem Change.accounts (change : session.Change after report) (h : session.Accounts reports) :
    after.Accounts (reports ++ report.toList) := by
  intro index
  have own := h index
  rw [List.filterMap_append, own]
  cases change with
  | nothing | created | cleared | written => exact List.append_nil _
  | @begun signal id startedAt input run _ started =>
    have pending : run.trace? = none := by
      obtain ⟨args, -, rfl⟩ := Signal.start_eq started
      rfl
    rw [Option.toList_none, List.filterMap_nil, List.append_nil]
    rcases Nat.lt_trichotomy index session.runs.length with inside | rfl | outside
    · rw [List.getElem?_append_left inside]
    · rw [List.getElem?_concat_length, List.getElem?_eq_none (Nat.le_refl _)]
      show [] = run.trace?.toList
      rw [pending]
      rfl
    · rw [List.getElem?_eq_none (Nat.le_of_lt outside), List.getElem?_eq_none]
      rw [List.length_append, List.length_singleton]
      exact outside
  | @turned other tracked turn found free =>
    have leads := leads_turn session.engine tracked free
    unfold Session.turned
    dsimp only
    generalize (session.engine.turn tracked.run turn).2 = run at leads ⊢
    by_cases same : other = index
    · subst same
      rw [found, List.getElem?_set_self (List.getElem?_eq_some_iff.mp found).1]
      show tracked.run.trace?.toList ++ _ = run.trace?.toList
      cases settled : tracked.run.settled with
      | some _ =>
        have fixed := leads.later.fixed (by rw [settled]; rfl)
        rw [Run.trace?_eq fixed.settled]
        exact List.append_nil _
      | none =>
        rw [Run.trace?_of_pending settled]
        cases run.trace? with
        | none => rfl
        | some trace => simp [Report.traceOf?]
    · have elsewhere : (if tracked.run.settled.isSome then none
          else run.trace?.map (Report.returned other)).toList.filterMap (Report.traceOf? index) = [] := by
        split
        · rfl
        · cases run.trace? with
          | none => rfl
          | some trace => simp [Report.traceOf?, same]
      rw [elsewhere, List.append_nil, List.getElem?_set_ne same]
  | dropped other =>
    rw [Option.toList_none, List.filterMap_nil, List.append_nil, List.getElem?_modify]
    by_cases same : other = index
    · simp only [same, if_true]
      cases session.runs[index]? <;> rfl
    · simp only [same, if_false]
      cases session.runs[index]? <;> rfl

theorem Accounts.settled (h : session.Accounts reports) {index : Nat} {trace : Trace}
    (returned : .returned index trace ∈ reports) :
    ∃ tracked, session.runs[index]? = some tracked ∧
      tracked.run.settled = some (.completed trace) := by
  have among : trace ∈ reports.filterMap (Report.traceOf? index) :=
    List.mem_filterMap.mpr ⟨_, returned, if_pos rfl⟩
  rw [h index, Option.mem_toList] at among
  obtain ⟨tracked, found, completed⟩ := Option.bind_eq_some_iff.mp among
  exact ⟨tracked, found, Run.settled_of_trace? completed⟩

end

end Session

end SignalFlow
