import SignalFlow.Store.Path
/-!
# Log levels

A level is written as a name, in capitals or not, or as its number from 1 to 5; the higher the
number, the more is shown.
-/

namespace SignalFlow

inductive LogLevel
  | error | warn | info | debug | trace
  deriving DecidableEq, Inhabited, Repr

namespace LogLevel

def all : List LogLevel := [error, warn, info, debug, trace]

def name : LogLevel → String
  | error => "error"
  | warn => "warn"
  | info => "info"
  | debug => "debug"
  | trace => "trace"

def number : LogLevel → Nat
  | error => 1
  | warn => 2
  | info => 3
  | debug => 4
  | trace => 5

/-- a text with its ASCII capitals made small -/
def lowered (text : String) : String := String.ofList (text.toList.map Char.toLower)

def ofText? (text : String) : Option LogLevel :=
  (all.find? fun level => Path.index? text = some level.number).or
    (all.find? fun level => lowered text = level.name)

/-- is a line of this level shown when `threshold` is asked for? -/
def shownAt (threshold level : LogLevel) : Bool := level.number ≤ threshold.number

theorem ofText?_name (level : LogLevel) : ofText? level.name = some level := by
  cases level <;> decide +kernel

end LogLevel

end SignalFlow
