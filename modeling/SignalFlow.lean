import SignalFlow.Action.Script
import SignalFlow.Config.Json
import SignalFlow.Config.Load
import SignalFlow.Definition.Analyze
import SignalFlow.Definition.Tree
import SignalFlow.Engine.Host
import SignalFlow.Json.Reader
import SignalFlow.Json.Writer
import SignalFlow.Main
import SignalFlow.Proofs.Definition.Branches
import SignalFlow.Runner.Basic
import SignalFlow.Trace.Json
import SignalFlow.Proofs.Definition.ReadBack
import SignalFlow.Proofs.Definition.Everywhere
import SignalFlow.Proofs.Run.Poll
import SignalFlow.Proofs.Run.Direct
import SignalFlow.Proofs.Run.Arrives
import SignalFlow.Proofs.Run.Refinement
import SignalFlow.Proofs.Run.Slots
import SignalFlow.Proofs.Run.Step
import SignalFlow.Proofs.Run.Trail
import SignalFlow.Proofs.Run.Progress
import SignalFlow.Proofs.Run.Reachable
import SignalFlow.Proofs.Run.Order
import SignalFlow.Proofs.Trace.Taken
import SignalFlow.Proofs.Store.Refusal
import SignalFlow.Proofs.Definition.Faults
import SignalFlow.Proofs.Run.Acts
import SignalFlow.Proofs.Run.Later
import SignalFlow.Proofs.Run.Calm
import SignalFlow.Proofs.Run.Log
import SignalFlow.Proofs.Run.Rejection
import SignalFlow.Proofs.Json.Fields
import SignalFlow.Proofs.Run.Changes
import SignalFlow.Proofs.Run.LifeCycle
import SignalFlow.Proofs.Run.Completions
import SignalFlow.Proofs.Run.Beside
import SignalFlow.Proofs.Run.Turns
import SignalFlow.Proofs.Engine.Isolation
import SignalFlow.Proofs.Run.Scene
import SignalFlow.Proofs.Run.Completes
import SignalFlow.Proofs.Run.Schedule
import SignalFlow.Proofs.Run.Throughout
import SignalFlow.Proofs.Run.Moments
import SignalFlow.Proofs.Run.Errors
import SignalFlow.Proofs.Engine.Recorded
import SignalFlow.Proofs.Definition.Recast
import SignalFlow.Proofs.Run.Recast
import SignalFlow.Proofs.Run.Policies
import SignalFlow.Proofs.Run.Resting
import SignalFlow.Proofs.Run.Stalled
import SignalFlow.Proofs.Run.Pending
import SignalFlow.Proofs.Definition.Numbering
import SignalFlow.Proofs.Run.Effects
import SignalFlow.Proofs.Run.Writes
import SignalFlow.Proofs.Run.Apart
import SignalFlow.Proofs.Run.Permanent
import SignalFlow.Proofs.Json.Value
import SignalFlow.Proofs.Trace.Timestamp
import SignalFlow.Proofs.Trace.Json
import SignalFlow.Proofs.Trace.RoundTrip
import SignalFlow.Proofs.Trace.Recent
import SignalFlow.Proofs.Definition.Written
import SignalFlow.Proofs.Store.Descent
import SignalFlow.Proofs.Store.Diverging
import SignalFlow.Proofs.Config.Processing
import SignalFlow.Proofs.Config.Substitution
import SignalFlow.Proofs.Store.Lens
import SignalFlow.Proofs.Store.Answer
import SignalFlow.Proofs.Store.Splice
import SignalFlow.Proofs.Store.Overlay
import SignalFlow.Proofs.Store.Merge
import SignalFlow.Proofs.Store.Removal
import SignalFlow.Proofs.Run.Together
import SignalFlow.Proofs.Trace.Snapshot
import SignalFlow.Proofs.Definition.Table
import SignalFlow.Proofs.Definition.Regroup
import SignalFlow.Proofs.Run.Regroup
import SignalFlow.Proofs.Trace.Order
import SignalFlow.Proofs.Trace.Subscribers
import SignalFlow.Proofs.Run.Outputs
import SignalFlow.Proofs.Action.Order
import SignalFlow.Proofs.Config.Limits
