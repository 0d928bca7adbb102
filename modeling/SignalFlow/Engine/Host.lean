import SignalFlow.Engine.Basic
/-!
# Hosts

A host keeps an engine with its signals and runs under keys, and the gates at which steps wait. It
carries out one command after another.

A run is begun at once, and can then be watched, or is deferred: a deferred run does nothing, not
even look at its arguments, before it is first polled, and nobody can watch it. A run can be dropped
once, settled or not, and makes no further progress then; what was watched of it stays to be seen.
-/

namespace SignalFlow

/-- a run that a host keeps -/
structure Ticket where
  signal : Signal
  input : Signal.Input
  /-- the run, once it has begun -/
  run : Option Run := none
  /-- the error of a deferred run at its start -/
  refused : Option RunError := none
  watched : Bool
  dropped : Bool := false
  deriving Inhabited

structure Host where
  engine : Engine
  signals : List (String × Signal) := []
  tickets : List (String × Ticket) := []
  /-- the key of every run that has begun, by its id -/
  keys : List (String × String) := []
  /-- the gates that are open -/
  gates : List String := []
  receivers : List Receiver := []
  deriving Inhabited

inductive Command
  | create (key name : String) (definition : List Chain)
  | start (key signal : String) (input : Signal.Input) (deferred : Bool)
  | poll (key : String)
  | openGate (gate : String)
  | snapshot (key : String)
  | find (key step : String)
  | drop (key : String)
  | set (path : Path) (value : Value)
  | traces (signal : String)
  | latest (signal : String)
  | lookup (signal key : String)
  | names
  | clear (signal : String)
  | subscribe
  | receive (receiver : Nat)
  | config
  deriving Inhabited

/-- what a poll comes to -/
inductive PollAnswer
  | pending
  | done (trace : Trace)
  | rejected (error : RunError)
  /-- it was settled before -/
  | already (error : Option RunError)
  | dropped
  | noSuchRun
  deriving Inhabited

inductive Answer
  | created (signal : Signal)
  | refusedDefinition (fault : Fault)
  | started
  | refusedStart (error : RunError)
  | noSuchSignal
  | polled (answer : PollAnswer)
  | nothing
  | seen (trace : Trace)
  | found (record : Option Record)
  | noView
  | dropped (there : Bool)
  | noSuchRun
  | stored (answer : Except StoreError Value)
  | traces (traces : List Trace)
  | trace (trace : Option Trace)
  | names (names : List String)
  | number (n : Nat)
  | received (what : Received Trace)
  | noSuchReceiver
  | config (config : Config)
  deriving Inhabited

namespace Ticket

/-- how the run was settled, if it was -/
def settled (ticket : Ticket) : Option Settled :=
  match ticket.refused with
  | some error => some (.rejected error)
  | none => ticket.run.bind (·.settled)

/-- the run as a watcher sees it -/
def view? (ticket : Ticket) : Option Run := if ticket.watched then ticket.run else none

end Ticket

namespace Host

/-- the moment at which the clock of a host stands -/
def now : Timestamp := ⟨1970, 1, 1, 0, 0, 0, 0⟩

/-- more polls than any run asks for -/
def patience : Nat := 1000000000000

def open? (config : Config) (store : Store) : Option Host :=
  (Engine.open? config store).map fun engine => { engine }

def isOpen (host : Host) (gate : String) : Bool := host.gates.contains gate

/-- an id that no run has had -/
def freshId (host : Host) : String := toString host.keys.length

/-- the key of the run with this id -/
def keyOf? (host : Host) (id : String) : Option String := Keyed.get? id host.keys

def putTicket (host : Host) (key : String) (ticket : Ticket) : Host :=
  { host with tickets := Keyed.put key ticket host.tickets }

def begin? (host : Host) (key : String) (signal : Signal) (input : Signal.Input) :
    Except RunError (Host × Run) :=
  match signal.start host.freshId now input with
  | .error error => .error error
  | .ok run => .ok ({ host with keys := host.keys ++ [(run.id, key)] }, run)

/-! ## polling -/

def pollAnswer (run : Run) : PollAnswer :=
  match run.settled with
  | some (.completed trace) => .done trace
  | some (.rejected error) => .rejected error
  | none => .pending

/-- poll a run until it is settled or asks for no more -/
def pollRun (host : Host) (key : String) (ticket : Ticket) (run : Run) : Host × PollAnswer :=
  let (engine, run) := Engine.drive host.isOpen 0 patience host.engine run
  ({ host with engine }.putTicket key { ticket with run := some run }, pollAnswer run)

def poll (host : Host) (key : String) : Host × PollAnswer :=
  match Keyed.get? key host.tickets with
  | none => (host, .noSuchRun)
  | some ticket =>
    match ticket.settled with
    | some (.completed _) => (host, .already none)
    | some (.rejected error) => (host, .already (some error))
    | none =>
      if ticket.dropped then (host, .dropped)
      else
        match ticket.run with
        | some run => host.pollRun key ticket run
        | none =>
          match host.begin? key ticket.signal ticket.input with
          | .error error => (host.putTicket key { ticket with refused := some error }, .rejected error)
          | .ok (host, run) => host.pollRun key ticket run

/-- open a gate for good -/
def openGate (host : Host) (gate : String) : Host :=
  if host.isOpen gate then host
  else
    { host with
      gates := host.gates ++ [gate]
      tickets := host.tickets.map fun (key, ticket) =>
        (key, { ticket with run := ticket.run.map (·.gateOpened gate) }) }

/-! ## commands -/

def start (host : Host) (key signal : String) (input : Signal.Input) (deferred : Bool) :
    Host × Answer :=
  match Keyed.get? signal host.signals with
  | none => (host, .noSuchSignal)
  | some signal =>
    if deferred then (host.putTicket key { signal, input, watched := false }, .started)
    else
      match host.begin? key signal input with
      | .error error => (host, .refusedStart error)
      | .ok (host, run) =>
        (host.putTicket key { signal, input, run := some run, watched := true }, .started)

def drop (host : Host) (key : String) : Host × Answer :=
  match Keyed.get? key host.tickets with
  | none => (host, .noSuchRun)
  | some ticket =>
    (host.putTicket key { ticket with dropped := true }, .dropped !ticket.dropped)

def view? (host : Host) (key : String) : Option Run :=
  (Keyed.get? key host.tickets).bind (·.view?)

/-- the kept trace of the run under a key -/
def lookup? (host : Host) (signal key : String) : Option Trace := do
  let ticket ← Keyed.get? key host.tickets
  let run ← ticket.run
  host.engine.log.get? signal run.id

def receive (host : Host) (index : Nat) : Host × Answer :=
  match host.receivers[index]? with
  | none => (host, .noSuchReceiver)
  | some receiver =>
    let (receiver, what) := host.engine.log.channel.receive receiver
    ({ host with receivers := host.receivers.set index receiver }, .received what)

def run (host : Host) : Command → Host × Answer
  | .create key name definition =>
    match host.engine.create name definition with
    | .ok signal => ({ host with signals := Keyed.put key signal host.signals }, .created signal)
    | .error fault => (host, .refusedDefinition fault)
  | .start key signal input deferred => host.start key signal input deferred
  | .poll key => let (host, answer) := host.poll key; (host, .polled answer)
  | .openGate gate => (host.openGate gate, .nothing)
  | .snapshot key =>
    (host, match host.view? key with
      | some run => .seen run.snapshot
      | none => .noView)
  | .find key step =>
    (host, match host.view? key with
      | some run => .found (run.snapshot.find? step)
      | none => .noView)
  | .drop key => host.drop key
  | .set path value =>
    let (store, answer) := host.engine.store.set path value
    ({ host with engine := { host.engine with store } }, .stored answer)
  | .traces signal => (host, .traces (host.engine.log.tracesOf signal))
  | .latest signal => (host, .trace (host.engine.log.latest? signal))
  | .lookup signal key => (host, .trace (host.lookup? signal key))
  | .names => (host, .names host.engine.log.names)
  | .clear signal =>
    let (log, count) := host.engine.log.clear signal
    ({ host with engine := { host.engine with log } }, .number count)
  | .subscribe =>
    ({ host with receivers := host.receivers ++ [host.engine.log.channel.subscribe] },
      .number host.receivers.length)
  | .receive index => host.receive index
  | .config => (host, .config host.engine.config)

end Host

end SignalFlow
