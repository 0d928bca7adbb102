import SignalFlow.Action.Outcome
import SignalFlow.Store.Mutation
/-!
# Programs: the bodies of steps

A body is a tree of requests, each with what to do for every answer.

* `SyncProgram`   runs through at once on a view of the store;
* `AsyncProgram`  reads the store, and may wait at a gate or pause; `resume` runs it until it ends
                  or is suspended. A pause asks to be polled again, a wait is over when the gate is
                  open.
-/

namespace SignalFlow

/-- the body of a step that runs through at once -/
inductive SyncProgram
  | finish (result : StepResult)
  | get (path : Path) (next : Option Value → SyncProgram)
  | call (path : Path) (call : Call) (next : Except StoreError Value → SyncProgram)
  | writable (next : Bool → SyncProgram)
  | mutations (next : List Mutation → SyncProgram)

instance : Inhabited SyncProgram := ⟨.finish (.ok .next)⟩

def SyncProgram.run : SyncProgram → View → View × StepResult
  | finish result, view => (view, result)
  | get path next, view => (next (view.get? path)).run view
  | call path change next, view =>
    let (after, answer) := view.call path change
    (next answer).run after
  | writable next, view => (next view.writable).run view
  | mutations next, view => (next view.log).run view

/-- the body of a step that may be suspended -/
inductive AsyncProgram
  | finish (result : StepResult)
  | get (path : Path) (next : Option Value → AsyncProgram)
  /-- go on when the gate is open -/
  | wait (gate : String) (next : AsyncProgram)
  /-- let others go first -/
  | pause (next : AsyncProgram)

instance : Inhabited AsyncProgram := ⟨.finish (.ok .next)⟩

/-- how far a body came -/
inductive Progress
  | finished (result : StepResult)
  /-- suspended at a gate, or by a pause if there is none -/
  | suspended (gate : Option String) (rest : AsyncProgram)

/-- run a body until it ends or is suspended -/
def AsyncProgram.resume (isOpen : String → Bool) (store : Store) : AsyncProgram → Progress
  | finish result => .finished result
  | get path next => (next (store.get? path)).resume isOpen store
  | wait gate next => if isOpen gate then next.resume isOpen store else .suspended (some gate) (wait gate next)
  | pause next => .suspended none next

end SignalFlow
