import SignalFlow.Json.Double
/-!
# Shortest decimals

The decimal text of a double has the fewest digits that read back to the same double, and among
those the decimal nearest to it.

A finite magnitude `m * 2 ^ q` is the only double in an interval around it; the ends belong to the
interval exactly when `m` is even. For one digit, two digits and so on, the two neighbours of the
number on the grid of decimals with so many digits are tried: if any point of a grid lies in the
interval, one of the two neighbours does.
-/

namespace SignalFlow

namespace Decimal

/-- a decimal `digits * 10 ^ exponent` -/
structure Shortest where
  digits : Nat
  exponent : Int
  deriving DecidableEq, Repr

/-- an interval of rationals with one denominator, and the number it surrounds -/
structure Interval where
  low : Nat
  middle : Nat
  high : Nat
  denominator : Nat
  closed : Bool

/-- the numbers that round to `m * 2 ^ q`; `narrow` says that the gap below is half the gap above -/
def Interval.around (m : Nat) (q : Int) (narrow : Bool) : Interval :=
  let low := if narrow then 4 * m - 1 else 4 * m - 2
  let scale := q - 2
  let up := Nat.pow 2 scale.toNat
  ⟨low * up, 4 * m * up, (4 * m + 2) * up, Nat.pow 2 (-scale).toNat, m % 2 = 0⟩

/-- the same interval in units of `10 ^ e` -/
def Interval.inUnits (i : Interval) (e : Int) : Interval :=
  let up := Nat.pow 10 (-e).toNat
  { i with low := i.low * up, middle := i.middle * up, high := i.high * up,
           denominator := i.denominator * Nat.pow 10 e.toNat }

/-- does the integer `d` lie in the interval? -/
def Interval.holds (i : Interval) (d : Nat) : Bool :=
  let x := d * i.denominator
  if i.closed then i.low ≤ x && x ≤ i.high else i.low < x && x < i.high

/-- the integer of the interval that is next to the number, the even one of two equally near -/
def Interval.nearest? (i : Interval) : Option Nat :=
  let down := i.middle / i.denominator
  let rest := i.middle % i.denominator
  let first := if 2 * rest < i.denominator then down
    else if 2 * rest > i.denominator then down + 1
    else if down % 2 = 0 then down else down + 1
  let second := if first = down then down + 1 else down
  if i.holds first then some first else if i.holds second then some second else none

/-- the least `t` from `t₀` on, at most `n` steps away, with `middle < 10 ^ t` -/
def Interval.magnitude (i : Interval) : Nat → Int → Int
  | 0, t => t
  | n + 1, t =>
    if i.middle * Nat.pow 10 (-t).toNat < i.denominator * Nat.pow 10 t.toNat then t else i.magnitude n (t + 1)

/-- try the grids with `n`, `n + 1`, … digits, `left` of them -/
def Interval.search (i : Interval) (t : Int) : Nat → Nat → Shortest
  | 0, _ => ⟨0, 0⟩
  | left + 1, n =>
    let e := t - n
    match (i.inUnits e).nearest? with
    | some d => ⟨d, e⟩
    | none => i.search t left (n + 1)

/-- move the zeros at the end of the digits into the exponent -/
def Shortest.trim : Nat → Shortest → Shortest
  | 0, s => s
  | n + 1, s => if s.digits % 10 = 0 && s.digits != 0 then trim n ⟨s.digits / 10, s.exponent + 1⟩ else s

/-- the shortest decimal of a finite double other than zero, its sign left aside -/
def shortest (x : Double) : Shortest :=
  let (m, q) := x.parts
  let i := Interval.around m q (x.fractionBits = 0 && x.exponentBits > 1)
  -- 10 ^ t with t from the binary magnitude: 2 ^ (q + bits - 1) ≤ number < 2 ^ (q + bits)
  let bits : Int := q + m.log2
  let start : Int := (bits * 30103) / 100000 - 1
  (i.search (i.magnitude 8 start) 17 1).trim 20

/-! ## layout -/

/-- where a decimal text stops being positional -/
structure Layout where
  /-- the largest number of digits before the point -/
  wholeDigits : Int
  /-- the most zeros between the point and the first digit -/
  leadingZeros : Int

/-- digits without exponent up to sixteen before the point and down to four zeros behind it -/
def layout : Layout := ⟨16, 4⟩

def digitsOf (n : Nat) : List Char := Nat.toDigits 10 n

/-- the text of a decimal other than zero -/
def Shortest.text (s : Shortest) (l : Layout) : String :=
  let digits := digitsOf s.digits
  let count : Int := digits.length
  let point := count + s.exponent
  if 0 ≤ s.exponent && point ≤ l.wholeDigits then
    String.ofList (digits ++ List.replicate s.exponent.toNat '0' ++ ['.', '0'])
  else if 0 < point && point ≤ l.wholeDigits then
    String.ofList (digits.take point.toNat ++ '.' :: digits.drop point.toNat)
  else if -l.leadingZeros - 1 < point && point ≤ 0 then
    String.ofList ('0' :: '.' :: List.replicate (-point).toNat '0' ++ digits)
  else
    let mantissa := match digits with
      | [] => []
      | [d] => [d]
      | d :: more => d :: '.' :: more
    String.ofList mantissa ++ "e" ++ toString (point - 1)

end Decimal

/-- the text of a finite double -/
def Double.text (x : Double) : String :=
  let sign := if x.isNegative then "-" else ""
  if x.isZero then sign ++ "0.0" else sign ++ (Decimal.shortest x).text Decimal.layout

end SignalFlow
