import SignalFlow.Json.Double
import SignalFlow.Json.Fields
import SignalFlow.Word
/-!
# JSON values

* `Number`  an integer or a floating point number; the two are never equal;
* `Value`   the six kinds of value, an object being a list of entries in the order of `Fields`.

`Value.same` is equality of values as the program sees it: floating point numbers are compared as
numbers, so the two zeros are the same.
-/

namespace SignalFlow

/-- a JSON number; integers lie between `-2 ^ 63` and `2 ^ 64 - 1` -/
inductive Number
  | int (value : Int)
  | float (value : Double)
  deriving DecidableEq, Inhabited, Repr

inductive Value
  | null
  | bool (value : Bool)
  | number (value : Number)
  | string (value : String)
  | array (items : List Value)
  | object (fields : List (String × Value))
  deriving Inhabited, Repr

/-- the arguments that the steps of a run share -/
abbrev Args := List (String × Value)

def Number.same : Number → Number → Bool
  | .int a, .int b => a = b
  | .float a, .float b => a.same b
  | _, _ => false

namespace Value

/-! ## building -/

def int (n : Int) : Value := .number (.int n)

def nat (n : Nat) : Value := .number (.int n)

def float (x : Double) : Value := .number (.float x)

def ofEntries (entries : List (String × Value)) : Value := .object (Fields.ofList entries)

def ofOption (value : Option Value) : Value := value.getD .null

/-! ## looking inside -/

def isNull : Value → Bool
  | .null => true
  | _ => false

def isObject : Value → Bool
  | .object _ => true
  | _ => false

def isArray : Value → Bool
  | .array _ => true
  | _ => false

def field? (key : String) : Value → Option Value
  | .object fields => Fields.get? key fields
  | _ => none

def kind : Value → String
  | .null => "null"
  | .bool _ => "a boolean"
  | .number _ => "a number"
  | .string _ => "a string"
  | .array _ => "an array"
  | .object _ => "an object"

/-- an integer that fits a signed 64-bit word -/
def int64? : Value → Option Int
  | .number (.int n) => if n < Word.signedBound then some n else none
  | _ => none

/-- an integer that fits an unsigned 64-bit word -/
def word? : Value → Option Nat
  | .number (.int n) => if 0 ≤ n then some n.toNat else none
  | _ => none

theorem word?_nat (n : Nat) : (nat n).word? = some n := by
  show (if (0 : Int) ≤ n then some (Int.toNat n) else none) = some n
  rw [if_pos (Int.natCast_nonneg n), Int.toNat_natCast]

/-! ## equality -/

mutual

/-- equality as the program sees it -/
def same : Value → Value → Bool
  | .null, .null => true
  | .bool a, .bool b => a = b
  | .number a, .number b => a.same b
  | .string a, .string b => a = b
  | .array a, .array b => sameItems a b
  | .object a, .object b => sameFields a b
  | _, _ => false

def sameItems : List Value → List Value → Bool
  | [], [] => true
  | a :: as, b :: bs => same a b && sameItems as bs
  | _, _ => false

def sameFields : List (String × Value) → List (String × Value) → Bool
  | [], [] => true
  | (k, a) :: as, (l, b) :: bs => k = l && same a b && sameFields as bs
  | _, _ => false

end

end Value

end SignalFlow
