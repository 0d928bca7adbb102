import SignalFlow.Action.Basic
/-!
# Scripts: step bodies written as data

A script is a list of instructions, carried out in order. While it runs it keeps notes, pairs of a
key and a value, which are put into the payload of the outcome it ends with. An instruction with a
condition is passed over unless the shared arguments meet it.

A script becomes a program: `Script.sync` for a step that runs through at once, `Script.async` for
one that may wait. The one cannot wait and the other cannot change the store; an instruction out of
place fails the step.
-/

namespace SignalFlow

namespace Script

/-- where a value comes from -/
inductive Expr
  | literal (value : Value)
  /-- a shared argument, null if absent -/
  | argument (name : String)
  /-- a value in the store, null if absent -/
  | state (path : Path)
  deriving Inhabited

/-- the ways to write an outcome -/
inductive Ending
  | next | withPayload | path | pathWith | success | error
  deriving DecidableEq, Inhabited

/-- an outcome whose parts are still to be evaluated -/
structure OutcomeExpr where
  ending : Ending
  name : Expr
  payload : Expr
  /-- entries added to the payload, in order -/
  entries : List (String × Expr)
  deriving Inhabited

/-- functions on values that a script may apply -/
inductive Transform
  /-- one more than an integer, 1 for anything else -/
  | increment
  /-- the value in a list of one -/
  | wrap
  /-- the value under the key `was` -/
  | pair
  | const (value : Value)
  | isNull
  | identity
  deriving Inhabited

/-- a change whose arguments are still to be evaluated -/
inductive Change
  | set (value : Expr)
  | merge (value : Expr)
  | deepMerge (value : Expr)
  | concat (items : List Expr)
  | unset
  | push (value : Expr)
  | splice (start count : Nat) (items : List Expr)
  | unshift (value : Expr)
  | apply (transform : Transform)
  deriving Inhabited

inductive Order
  /-- note the value at a path -/
  | get (path : Path) (key : String)
  /-- note whether there is a value at a path -/
  | exists (path : Path) (key : String)
  | note (value : Expr) (key : String)
  | fail (message : String) (context : List String)
  | return (outcome : OutcomeExpr)
  /-- change the store; a refusal fails the step unless `tolerant`, then it is the answer -/
  | change (path : Path) (change : Change) (tolerant : Bool) (key : Option String)
  | writable (key : String)
  | mutations (key : String)
  | wait (gate : String)
  | pause (times : Nat)
  | unknown
  deriving Inhabited

structure Instr where
  /-- carried out only if the argument with this name has this value -/
  condition : Option (String × Value)
  order : Order
  deriving Inhabited

/-! ## values -/

/-- add one in 64-bit arithmetic -/
def increment (v : Value) : Value :=
  let n := v.int64?.getD 0
  .int (if n + 1 < Word.signedBound then n + 1 else n + 1 - Word.bound)

def Transform.run : Transform → Value → Value
  | increment, v => Script.increment v
  | wrap, v => .array [v]
  | pair, v => .object [("was", v)]
  | const value, _ => value
  | isNull, v => .bool v.isNull
  | identity, v => v

/-- a value that may be absent, as noted -/
def noted : Option Value → Value
  | some v => .object [("some", v)]
  | none => .object [("none", .bool true)]

def refusal (e : StoreError) : Value :=
  .object [("error", .string e.kind), ("message", .string e.message)]

def logged (log : List Mutation) : Value :=
  .array (log.map fun m => m.toJson)

def argument (args : Args) (name : String) : Value := .ofOption (Fields.get? name args)

def Instr.applies (args : Args) (instr : Instr) : Bool :=
  match instr.condition with
  | some (name, value) => (argument args name).same value
  | none => true

/-- the message of a failure: the last context first, the cause at the end -/
def failure (message : String) (context : List String) : String :=
  ": ".intercalate (context.reverse ++ [message])

/-! ## evaluation

`get` is the request of the program for a value in the store. -/

section
variable {P : Type} (get : Path → (Option Value → P) → P) (args : Args)

def Expr.eval (e : Expr) (next : Value → P) : P :=
  match e with
  | literal value => next value
  | argument name => next (Script.argument args name)
  | state path => get path fun v => next (.ofOption v)

def evalAll : List Expr → (List Value → P) → P
  | [], next => next []
  | e :: rest, next => e.eval get args fun v => evalAll rest fun vs => next (v :: vs)

def evalEntries : List (String × Expr) → (List (String × Value) → P) → P
  | [], next => next []
  | (key, e) :: rest, next =>
    e.eval get args fun v => evalEntries rest fun vs => next ((key, v) :: vs)

def Ending.outcome (ending : Ending) (name payload : Value) : Outcome :=
  let name := match name with
    | .string s => s
    | _ => ""
  match ending with
  | next => .next
  | withPayload => .ofPayload payload
  | path => .via name .null
  | pathWith => .via name payload
  | success => .success payload
  | error => .error payload

def OutcomeExpr.eval (o : OutcomeExpr) (next : Outcome → P) : P :=
  o.name.eval get args fun name =>
  o.payload.eval get args fun payload =>
  evalEntries get args o.entries fun entries =>
  next ((o.ending.outcome name payload).addingAll entries)

def Change.eval (change : Change) (next : Call → P) : P :=
  match change with
  | set value => value.eval get args fun v => next (.set v)
  | merge value => value.eval get args fun v => next (.merge v)
  | deepMerge value => value.eval get args fun v => next (.deepMerge v)
  | concat items => evalAll get args items fun vs => next (.concat vs)
  | unset => next .unset
  | push value => value.eval get args fun v => next (.push v)
  | splice start count items => evalAll get args items fun vs => next (.splice start count vs)
  | unshift value => value.eval get args fun v => next (.unshift v)
  | apply transform => next (.apply transform.run)

end

def misplaced : String := "bad instruction"

/-- the notes are kept in order -/
abbrev Notes := List (String × Value)

/-- the rest of a script that runs through at once -/
def syncFrom (args : Args) (notes : Notes) : List Instr → SyncProgram
  | [] => .finish (.ok (Outcome.next.addingAll notes))
  | instr :: rest =>
    if !instr.applies args then syncFrom args notes rest
    else match instr.order with
      | .get path key => .get path fun v => syncFrom args (notes ++ [(key, noted v)]) rest
      | .exists path key => .get path fun v => syncFrom args (notes ++ [(key, .bool v.isSome)]) rest
      | .note value key =>
        value.eval .get args fun v => syncFrom args (notes ++ [(key, v)]) rest
      | .fail message context => .finish (.error (failure message context))
      | .return outcome => outcome.eval .get args fun o => .finish (.ok (o.addingAll notes))
      | .change path change tolerant key =>
        change.eval .get args fun call => .call path call fun answer =>
          let go (v : Value) := match key with
            | some key => syncFrom args (notes ++ [(key, v)]) rest
            | none => syncFrom args notes rest
          match answer with
          | .ok v => go v
          | .error e => if tolerant then go (refusal e) else .finish (.error e.message)
      | .writable key => .writable fun w => syncFrom args (notes ++ [(key, .bool w)]) rest
      | .mutations key => .mutations fun log => syncFrom args (notes ++ [(key, logged log)]) rest
      | .wait _ | .pause _ | .unknown => .finish (.error misplaced)

def pauses (next : AsyncProgram) (times : Nat) : AsyncProgram := times.repeat .pause next

/-- the rest of a script that may wait -/
def asyncFrom (args : Args) (notes : Notes) : List Instr → AsyncProgram
  | [] => .finish (.ok (Outcome.next.addingAll notes))
  | instr :: rest =>
    if !instr.applies args then asyncFrom args notes rest
    else match instr.order with
      | .get path key => .get path fun v => asyncFrom args (notes ++ [(key, noted v)]) rest
      | .exists path key => .get path fun v => asyncFrom args (notes ++ [(key, .bool v.isSome)]) rest
      | .note value key =>
        value.eval .get args fun v => asyncFrom args (notes ++ [(key, v)]) rest
      | .fail message context => .finish (.error (failure message context))
      | .return outcome => outcome.eval .get args fun o => .finish (.ok (o.addingAll notes))
      | .wait gate => .wait gate (asyncFrom args notes rest)
      | .pause times => pauses (asyncFrom args notes rest) times
      | .change .. | .writable _ | .mutations _ | .unknown => .finish (.error misplaced)

def sync (script : List Instr) : Body := .sync fun args => syncFrom args [] script

def async (script : List Instr) : Body := .async fun args => asyncFrom args [] script

end Script

end SignalFlow
