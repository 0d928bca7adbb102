import SignalFlow.Text.Decimal
import SignalFlow.Word
import SignalFlow.Yaml.Value
/-!
# What plain scalars stand for

A plain scalar is, in this order: a null, a truth value, an integer, a floating point number, or a
string. Integers may be written in decimal, or with `0x`, `0o` and `0b` in other bases; digits that
begin with a superfluous zero are no number. An integer that fits 128 bits but not 64 is refused.
-/

namespace SignalFlow.Yaml

def isNullText (s : String) : Bool := s = "null" || s = "Null" || s = "NULL" || s = "~"

def boolText? (s : String) : Option Bool :=
  if s = "true" || s = "True" || s = "TRUE" then some true
  else if s = "false" || s = "False" || s = "FALSE" then some false
  else none

/-- the value of a digit in bases up to sixteen -/
def digitValue? (c : Char) : Option Nat :=
  if c.isDigit then some (c.toNat - '0'.toNat)
  else if 'a' ≤ c ∧ c ≤ 'f' then some (c.toNat - 'a'.toNat + 10)
  else if 'A' ≤ c ∧ c ≤ 'F' then some (c.toNat - 'A'.toNat + 10)
  else none

def digits? (base : Nat) (cs : List Char) : Option Nat :=
  if cs.isEmpty then none
  else cs.foldlM (fun n c => ((digitValue? c).filter (· < base)).map (base * n + ·)) 0

def dropSign (sign : Char) (cs : List Char) : List Char :=
  match cs with
  | c :: rest => if c = sign then rest else cs
  | [] => []

/-- several digits of which the first is a zero -/
def zeroLed (cs : List Char) : Bool :=
  let cs := match cs with
    | c :: rest => if c = '-' || c = '+' then rest else cs
    | [] => []
  match cs with
  | '0' :: d :: rest => (d :: rest).all Char.isDigit
  | _ => false

/-- the magnitude of an integer behind its sign, in any of the four bases -/
def magnitude? (decimal : Bool) (cs : List Char) : Option Nat :=
  let inBase := match cs with
    | '0' :: 'x' :: ds => digits? 16 ds
    | '0' :: 'o' :: ds => digits? 8 ds
    | '0' :: 'b' :: ds => digits? 2 ds
    | _ => none
  match inBase with
  | some n => some n
  | none => if decimal then digits? 10 cs else none

/-- the integer that a text stands for, however large -/
def integer? (cs : List Char) : Option Int :=
  let decimal := !zeroLed cs
  match cs with
  | '-' :: ds => (magnitude? decimal ds).map fun n => -(n : Int)
  | cs => (magnitude? decimal (dropSign '+' cs)).map fun n => (n : Int)

def exponent? (cs : List Char) : Option Int :=
  match cs with
  | '-' :: ds => (digits? 10 ds).map fun n => -(n : Int)
  | '+' :: ds => (digits? 10 ds).map fun n => (n : Int)
  | ds => (digits? 10 ds).map fun n => (n : Int)

/-- digits with a point and an exponent, each of which may be missing -/
def decimal? (cs : List Char) : Option Double :=
  let isMark (c : Char) : Bool := c = 'e' || c = 'E'
  let mantissa := cs.takeWhile fun c => !isMark c
  let whole := mantissa.takeWhile (· != '.')
  let part := (mantissa.dropWhile (· != '.')).drop 1
  let digits := whole ++ part
  if digits.isEmpty || !digits.all Char.isDigit then none
  else do
    let e ← match cs.dropWhile fun c => !isMark c with
      | [] => some 0
      | _ :: ds => exponent? ds
    let m ← digits? 10 digits
    -- beyond these bounds the number is zero or infinite whatever its digits are
    let scale := e - part.length
    let bound : Int := 400 + digits.length
    let x := if m = 0 then Double.ofDecimal 0 0
      else if scale < -bound then Double.ofDecimal 0 0
      else Double.ofDecimal m (min scale 400)
    if x.isFinite then some x else none

def infinity : Double := ⟨0x7FF0000000000000⟩

/-- the number that is none, with a positive sign -/
def notANumber : Double := ⟨0x7FF8000000000000⟩

def float? (s : String) : Option Double :=
  let cs := s.toList
  let unsigned := dropSign '+' cs
  let text := String.ofList unsigned
  if cs != unsigned && (unsigned.head? = some '+' || unsigned.head? = some '-') then none
  else if text = ".inf" || text = ".Inf" || text = ".INF" then some infinity
  else if s = "-.inf" || s = "-.Inf" || s = "-.INF" then some infinity.negate
  else if s = ".nan" || s = ".NaN" || s = ".NAN" then some notANumber
  else
    match unsigned with
    | '-' :: ds => (decimal? ds).map Double.negate
    | ds => decimal? ds

def floatText (x : Double) : String :=
  if x.isNaN then ".nan"
  else if x.isInfinite then (if x.isNegative then "-.inf" else ".inf")
  else x.text

/-- an integer as a value: one of 64 bits, or refused if it fits 128 bits -/
def Value.ofInteger? (n : Int) : Option (Option Value) :=
  if -(Word.signedBound : Int) ≤ n ∧ n < Word.bound then some (some (.int n))
  else if -(Nat.pow 2 127 : Int) ≤ n ∧ n < Nat.pow 2 128 then some none
  else none

/-- what a plain scalar stands for; `none` if it is refused -/
def Value.ofPlain? (s : String) : Option Value :=
  if s.isEmpty || isNullText s then some .null
  else
    match boolText? s with
    | some b => some (.bool b)
    | none =>
      match (integer? s.toList).bind Value.ofInteger? with
      | some value => value
      | none =>
        if zeroLed s.toList then some (.string s)
        else
          match float? s with
          | some x => some (.float x)
          | none => some (.string s)

end SignalFlow.Yaml
