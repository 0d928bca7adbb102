import SignalFlow.Text.Blank
/-!
# Timestamps

A moment in universal time, to the nanosecond, in the calendar continued in both directions.

* `Timestamp.text`    `2024-01-02T03:04:05.500Z`, with three, six or nine digits of a fraction, or
                      none if it is zero;
* `Timestamp.ofText?` reads date, time and offset. The fields may have fewer digits and blanks
                      before them, the date ends at a `T` or a blank, the offset is `Z`, `UTC` or
                      signed hours and minutes. A second 60 is a leap second.
-/

namespace SignalFlow

structure Timestamp where
  year : Int
  month : Nat
  day : Nat
  hour : Nat
  minute : Nat
  /-- 60 in a leap second -/
  second : Nat
  nanosecond : Nat
  deriving DecidableEq, Inhabited, Repr

namespace Timestamp

/-! ## the calendar -/

def isLeap (year : Int) : Bool := year % 4 = 0 && (year % 100 != 0 || year % 400 = 0)

def daysIn (year : Int) (month : Nat) : Nat :=
  if month = 2 then (if isLeap year then 29 else 28)
  else if month = 4 ∨ month = 6 ∨ month = 9 ∨ month = 11 then 30
  else 31

/-- the years that are told apart -/
def yearInRange (year : Int) : Bool := -262143 ≤ year && year ≤ 262142

def isDate (year : Int) (month day : Nat) : Bool :=
  yearInRange year && 1 ≤ month && month ≤ 12 && 1 ≤ day && day ≤ daysIn year month

def dayAfter (t : Timestamp) : Timestamp :=
  if t.day < daysIn t.year t.month then { t with day := t.day + 1 }
  else if t.month < 12 then { t with month := t.month + 1, day := 1 }
  else { t with year := t.year + 1, month := 1, day := 1 }

def dayBefore (t : Timestamp) : Timestamp :=
  if 1 < t.day then { t with day := t.day - 1 }
  else if 1 < t.month then { t with month := t.month - 1, day := daysIn t.year (t.month - 1) }
  else { t with year := t.year - 1, month := 12, day := 31 }

/-- the same moment, given in local time so many minutes ahead -/
def ofLocal (t : Timestamp) (minutesAhead : Int) : Timestamp :=
  let minutes : Int := t.hour * 60 + t.minute - minutesAhead
  let within := (minutes % 1440).toNat
  let moved := { t with hour := within / 60, minute := within % 60 }
  if minutes < 0 then moved.dayBefore else if 1440 ≤ minutes then moved.dayAfter else moved

/-- the moment so many nanoseconds after the beginning of 1970 -/
def ofUnix (nanoseconds : Nat) : Timestamp :=
  let seconds := nanoseconds / 1000000000
  let midnight := (seconds / 86400).repeat dayAfter ⟨1970, 1, 1, 0, 0, 0, 0⟩
  { midnight with
    hour := seconds / 3600 % 24
    minute := seconds / 60 % 60
    second := seconds % 60
    nanosecond := nanoseconds % 1000000000 }

/-! ## writing -/

/-- a number with zeros in front up to `width` digits -/
def padded (width n : Nat) : List Char :=
  let digits := Nat.toDigits 10 n
  List.replicate (width - digits.length) '0' ++ digits

def yearText (year : Int) : List Char :=
  if 0 ≤ year && year ≤ 9999 then padded 4 year.toNat
  else (if year < 0 then '-' else '+') :: padded 4 year.natAbs

def fractionText (nanosecond : Nat) : List Char :=
  if nanosecond = 0 then []
  else if nanosecond % 1000000 = 0 then '.' :: padded 3 (nanosecond / 1000000)
  else if nanosecond % 1000 = 0 then '.' :: padded 6 (nanosecond / 1000)
  else '.' :: padded 9 nanosecond

def text (t : Timestamp) : String :=
  String.ofList (yearText t.year ++ '-' :: padded 2 t.month ++ '-' :: padded 2 t.day
    ++ 'T' :: padded 2 t.hour ++ ':' :: padded 2 t.minute ++ ':' :: padded 2 t.second
    ++ fractionText t.nanosecond ++ ['Z'])

/-! ## reading -/

def valueOf (digits : List Char) : Nat :=
  digits.foldl (fun n c => 10 * n + (c.toNat - '0'.toNat)) 0

def number? (width : Nat) (cs : List Char) : Option (Nat × List Char) :=
  let digits := (cs.take width).takeWhile Char.isDigit
  if digits.isEmpty then none else some (valueOf digits, cs.drop digits.length)

def field? (width : Nat) (cs : List Char) : Option (Nat × List Char) :=
  number? width (Text.trimStart cs)

/-- a sign in front allows any number of digits -/
def year? (cs : List Char) : Option (Int × List Char) :=
  match Text.trimStart cs with
  | '-' :: cs => (number? cs.length cs).map fun (n, cs) => (-n, cs)
  | '+' :: cs => (number? cs.length cs).map fun (n, cs) => (n, cs)
  | cs => (number? 4 cs).map fun (n, cs) => (n, cs)

/-- a separator with blanks before it -/
def separator? (c : Char) (cs : List Char) : Option (List Char) :=
  match Text.trimStart cs with
  | d :: cs => if c = d then some cs else none
  | [] => none

/-- a fraction of a second; digits beyond nine do not count -/
def fraction? (cs : List Char) : Option (Nat × List Char) :=
  match cs with
  | '.' :: cs =>
    (number? 9 cs).map fun (n, rest) =>
      (n * Nat.pow 10 (9 - (cs.length - rest.length)), rest.dropWhile Char.isDigit)
  | cs => some (0, cs)

/-- two digits and the number they stand for -/
def two? : List Char → Option (Nat × List Char)
  | a :: b :: rest =>
    if a.isDigit && b.isDigit then some (valueOf [a, b], rest) else none
  | _ => none

/-- the minutes that local time is ahead -/
def offset? (cs : List Char) : Option (Int × List Char) :=
  let signed (negative : Bool) (cs : List Char) : Option (Int × List Char) := do
    let (hours, cs) ← two? cs
    let (minutes, cs) ← two? (cs.dropWhile fun c => c = ':' || Text.isBlank c)
    if minutes < 60 && hours < 24 then
      let ahead : Int := hours * 60 + minutes
      some (if negative then -ahead else ahead, cs)
    else none
  match cs with
  | c :: rest =>
    if c = 'Z' || c = 'z' then some (0, rest)
    else if (cs.take 3).map Char.toLower = ['u', 't', 'c'] then some (0, cs.drop 3)
    else if c = '+' then signed false rest
    else if c = '-' || c = '−' then signed true rest
    else none
  | [] => none

/-- what a date ends at -/
def dateEnd? : List Char → Option (List Char)
  | c :: cs => if c = 'T' || c = 't' || c = ' ' then some cs else none
  | [] => none

def ofText? (s : String) : Option Timestamp := do
  let (year, cs) ← year? s.toList
  let cs ← separator? '-' cs
  let (month, cs) ← field? 2 cs
  let cs ← separator? '-' cs
  let (day, cs) ← field? 2 cs
  let cs ← dateEnd? cs
  let (hour, cs) ← field? 2 cs
  let cs ← separator? ':' cs
  let (minute, cs) ← field? 2 cs
  let cs ← separator? ':' cs
  let (second, cs) ← field? 2 cs
  let (nanosecond, cs) ← fraction? cs
  let (ahead, cs) ← offset? (Text.trimStart cs)
  if isDate year month day && hour < 24 && minute < 60 && second ≤ 60
      && (Text.trimStart cs).isEmpty then
    let t := ofLocal { year, month, day, hour, minute, second, nanosecond } ahead
    if yearInRange t.year then some t else none
  else none

end Timestamp

end SignalFlow
