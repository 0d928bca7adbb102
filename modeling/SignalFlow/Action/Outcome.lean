import SignalFlow.Json.Value
/-!
# Outcomes

What a step hands back: the name of the output to go on through, if it names one, and a payload
that is merged into the shared arguments when it is an object.
-/

namespace SignalFlow

structure Outcome where
  /-- the output to go on through -/
  path : Option String := none
  payload : Value := .null
  deriving Inhabited

/-- what a step ends with: an outcome, or the message of its failure -/
abbrev StepResult := Except String Outcome

namespace Outcome

/-! ## building -/

/-- go on without naming an output -/
def next : Outcome := {}

def ofPayload (payload : Value) : Outcome := { payload }

def via (name : String) (payload : Value) : Outcome := { path := some name, payload }

def success (payload : Value) : Outcome := via "success" payload

def error (payload : Value) : Outcome := via "error" payload

/-- put one entry into the payload; a payload that is not an object is kept under `value` -/
def adding (outcome : Outcome) (key : String) (value : Value) : Outcome :=
  let fields := match outcome.payload with
    | .object fields => fields
    | .null => []
    | other => [("value", other)]
  { outcome with payload := .object (Fields.insert key value fields) }

def addingAll (outcome : Outcome) (entries : List (String × Value)) : Outcome :=
  entries.foldl (fun outcome entry => outcome.adding entry.1 entry.2) outcome

/-! ## as JSON -/

def toJson (outcome : Outcome) : Value :=
  .object [("path", .ofOption (outcome.path.map .string)), ("payload", outcome.payload)]

/-- a path is a string, or null for none -/
def pathOfJson? : Value → Option (Option String)
  | .null => some none
  | .string name => some (some name)
  | _ => none

/-- an object that has a payload, or a list of path and payload -/
def ofJson? : Value → Option Outcome
  | .object fields => do
    let path ← pathOfJson? (.ofOption (Fields.get? "path" fields))
    let payload ← Fields.get? "payload" fields
    some { path, payload }
  | .array [path, payload] => do
    let path ← pathOfJson? path
    some { path, payload }
  | _ => none

theorem ofJson?_toJson (outcome : Outcome) : ofJson? outcome.toJson = some outcome := by
  obtain ⟨path, payload⟩ := outcome
  have after : ¬ "payload" < "path" := by decide
  have first : ¬ "path" < "path" := by decide
  cases path <;>
    simp [toJson, ofJson?, Fields.get?, Value.ofOption, pathOfJson?, after, String.lt_irrefl]

end Outcome

end SignalFlow
