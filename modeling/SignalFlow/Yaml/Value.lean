import SignalFlow.Json.Double
/-!
# YAML values

The values that a YAML document stands for. A mapping keeps its entries in the order in which they
were written; a tagged value carries a tag of the document's own, its exclamation mark included.

`Value.same` is equality of keys: two NaN are equal, an integer is never equal to a floating point
number, and mappings are compared without regard to order.
-/

namespace SignalFlow.Yaml

inductive Value
  | null
  | bool (value : Bool)
  | int (value : Int)
  | float (value : Double)
  | string (value : String)
  | sequence (items : List Value)
  | mapping (entries : List (Value × Value))
  | tagged (tag : String) (value : Value)
  deriving Inhabited, Repr

namespace Value

def sameFloat (a b : Double) : Bool := (a.isNaN && b.isNaN) || a.same b

mutual

def same : Value → Value → Bool
  | null, null => true
  | bool a, bool b => a = b
  | int a, int b => a = b
  | float a, float b => sameFloat a b
  | string a, string b => a = b
  | sequence a, sequence b => sameItems a b
  | mapping a, mapping b => a.length = b.length && within a b
  | tagged s a, tagged t b => s = t && same a b
  | _, _ => false

def sameItems : List Value → List Value → Bool
  | [], [] => true
  | a :: as, b :: bs => same a b && sameItems as bs
  | _, _ => false

def within : List (Value × Value) → List (Value × Value) → Bool
  | [], _ => true
  | (key, value) :: rest, other =>
    other.any (fun entry => same key entry.1 && same value entry.2) && within rest other

end

/-- is there an entry under a key equal to this one? -/
def hasKey (key : Value) (entries : List (Value × Value)) : Bool :=
  entries.any fun entry => key.same entry.1

/-- put an entry: under an equal key in its place, else at the end -/
def put (key value : Value) : List (Value × Value) → List (Value × Value)
  | [] => [(key, value)]
  | (k, v) :: rest => if key.same k then (k, value) :: rest else (k, v) :: put key value rest

def get? (name : String) : List (Value × Value) → Option Value
  | [] => none
  | (string s, v) :: rest => if s = name then some v else get? name rest
  | _ :: rest => get? name rest

def isNull : Value → Bool
  | null => true
  | _ => false

end Value

end SignalFlow.Yaml
