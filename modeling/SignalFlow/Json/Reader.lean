import SignalFlow.Json.Value
/-!
# Reading JSON

`Json.read?` takes a whole text. A number without fraction and exponent that fits 64 bits is an
integer, `-0` is not. Of any other number the leading digits that fit an unsigned 64-bit word are
kept, and the word is scaled by a power of ten in double arithmetic, at most `10 ^ 308` at a time.

Every reader takes the rest of the text and gives back what it left. `fuel` bounds the calls that
are open at one time; each call reads a character, so the length of the text is enough.
-/

namespace SignalFlow.Json

/-- a value and the text behind it -/
abbrev Read (α : Type) := Option (α × List Char)

def isBlank (c : Char) : Bool := c = ' ' || c = '\n' || c = '\t' || c = '\r'

def skipBlanks (cs : List Char) : List Char := cs.dropWhile isBlank

/-! ## numbers -/

def digit? (c : Char) : Option Nat := if c.isDigit then some (c.toNat - '0'.toNat) else none

def maxWord : Nat := Word.bound - 1

/-- leading digits as far as they fit a word, how many were kept, the digits left and the rest -/
def kept (word count : Nat) : List Char → Nat × Nat × List Char
  | [] => (word, count, [])
  | c :: cs =>
    match digit? c with
    | some d => if word * 10 + d ≤ maxWord then kept (word * 10 + d) (count + 1) cs else (word, count, c :: cs)
    | none => (word, count, c :: cs)

/-- scale a word by `10 ^ e`; a result that is too large is refused -/
def scale : Nat → Float → Int → Option Float
  | 0, _, _ => none
  | n + 1, x, e =>
    if e.natAbs ≤ 308 then
      let power := Float.ofScientific 1 false e.natAbs
      if 0 ≤ e then
        let y := x * power
        if y.isInf then none else some y
      else some (x / power)
    else if x == 0.0 then some x
    else if 0 ≤ e then none
    else scale n (x / 1e308) (e + 308)

def float? (negative : Bool) (word : Nat) (e : Int) : Option Number :=
  (scale 64 (Float.ofNat word) e).map fun x =>
    let d := Double.ofFloat x
    .float (if negative then d.negate else d)

/-- the digits of an exponent, stopping at what a signed 32-bit word can hold -/
def exponent (value : Nat) : List Char → Option Nat × List Char
  | [] => (some value, [])
  | c :: cs =>
    match digit? c with
    | some d =>
      if value * 10 + d < 0x80000000 then exponent (value * 10 + d) cs
      else (none, cs.dropWhile Char.isDigit)
    | none => (some value, c :: cs)

def scaled (negative : Bool) (word : Nat) (start : Int) (cs : List Char) : Read Number :=
  let (down, cs) := match cs with
    | '+' :: cs => (false, cs)
    | '-' :: cs => (true, cs)
    | cs => (false, cs)
  match cs with
  | [] => none
  | c :: _ =>
    if c.isDigit then
      match exponent 0 cs with
      | (some e, cs) => (float? negative word (if down then start - e else start + e)).map (·, cs)
      | (none, cs) =>
        if word = 0 || down then (float? negative 0 0).map (·, cs) else none
    else none

def fraction (negative : Bool) (word : Nat) (start : Int) (cs : List Char) : Read Number :=
  let (word, count, rest) := kept word 0 cs
  let left := rest.takeWhile Char.isDigit
  let rest := rest.dropWhile Char.isDigit
  if count = 0 && left.isEmpty then none
  else
    let e := start - count
    match rest with
    | 'e' :: cs | 'E' :: cs => scaled negative word e cs
    | _ => (float? negative word e).map (·, rest)

def number (negative : Bool) (cs : List Char) : Read Number :=
  match cs with
  | [] => none
  | '0' :: c :: _ => if c.isDigit then none else whole negative cs
  | c :: _ => if c.isDigit then whole negative cs else none
where
  whole (negative : Bool) (cs : List Char) : Read Number :=
    let (word, _, rest) := kept 0 0 cs
    let left := rest.takeWhile Char.isDigit
    let rest := rest.dropWhile Char.isDigit
    let start : Int := left.length
    match rest with
    | '.' :: cs => fraction negative word start cs
    | 'e' :: cs | 'E' :: cs => scaled negative word start cs
    | _ =>
      if !left.isEmpty then (float? negative word start).map (·, rest)
      else if !negative then some (.int word, rest)
      else if word = 0 || Word.signedBound < word then (float? true word 0).map (·, rest)
      else some (.int (-(word : Int)), rest)

/-! ## strings -/

def hexValue? (c : Char) : Option Nat :=
  if c.isDigit then some (c.toNat - '0'.toNat)
  else if 'a' ≤ c ∧ c ≤ 'f' then some (c.toNat - 'a'.toNat + 10)
  else if 'A' ≤ c ∧ c ≤ 'F' then some (c.toNat - 'A'.toNat + 10)
  else none

def unit? : List Char → Option (Nat × List Char)
  | a :: b :: c :: d :: rest => do
    let a ← hexValue? a
    let b ← hexValue? b
    let c ← hexValue? c
    let d ← hexValue? d
    some (((a * 16 + b) * 16 + c) * 16 + d, rest)
  | _ => none

/-- a character by its number, or by two halves of a pair -/
def escape? (cs : List Char) : Read Char :=
  match unit? cs with
  | none => none
  | some (high, rest) =>
    if 0xD800 ≤ high ∧ high < 0xDC00 then
      match rest with
      | '\\' :: 'u' :: rest =>
        match unit? rest with
        | some (low, rest) =>
          if 0xDC00 ≤ low ∧ low < 0xE000 then
            some (Char.ofNat (0x10000 + (high - 0xD800) * 0x400 + (low - 0xDC00)), rest)
          else none
        | none => none
      | _ => none
    else if 0xDC00 ≤ high ∧ high < 0xE000 then none
    else some (Char.ofNat high, rest)

/-- the letter after a backslash -/
def letter? : Char → Option Char
  | '"' => some '"'
  | '\\' => some '\\'
  | '/' => some '/'
  | 'b' => some '\x08'
  | 'f' => some '\x0c'
  | 'n' => some '\n'
  | 'r' => some '\r'
  | 't' => some '\t'
  | _ => none

/-- a string behind its opening quote; `read` holds what came before, last first -/
def string : Nat → List Char → List Char → Read String
  | 0, _, _ => none
  | _ + 1, _, [] => none
  | n + 1, read, c :: cs =>
    if c = '"' then some (String.ofList read.reverse, cs)
    else if c = '\\' then
      match cs with
      | 'u' :: cs =>
        match escape? cs with
        | some (c, cs) => string n (c :: read) cs
        | none => none
      | c :: cs =>
        match letter? c with
        | some c => string n (c :: read) cs
        | none => none
      | [] => none
    else if c.toNat < 32 then none
    else string n (c :: read) cs

/-! ## values -/

def word? (word : List Char) (cs : List Char) : Option (List Char) :=
  if word.isPrefixOf cs then some (cs.drop word.length) else none

mutual

def value : Nat → List Char → Read Value
  | 0, _ => none
  | n + 1, cs =>
    match skipBlanks cs with
    | [] => none
    | '"' :: cs => (string n [] cs).map fun (s, cs) => (.string s, cs)
    | '[' :: cs =>
      match skipBlanks cs with
      | ']' :: cs => some (.array [], cs)
      | cs => (items n [] cs).map fun (vs, cs) => (.array vs, cs)
    | '\x7b' :: cs =>
      match skipBlanks cs with
      | '\x7d' :: cs => some (.object [], cs)
      | cs => (entries n [] cs).map fun (es, cs) => (.object es, cs)
    | '-' :: cs => (number true cs).map fun (x, cs) => (.number x, cs)
    | 'n' :: cs => (word? ['u', 'l', 'l'] cs).map (.null, ·)
    | 't' :: cs => (word? ['r', 'u', 'e'] cs).map (.bool true, ·)
    | 'f' :: cs => (word? ['a', 'l', 's', 'e'] cs).map (.bool false, ·)
    | cs => (number false cs).map fun (x, cs) => (.number x, cs)

/-- the items of an array up to its end; `read` holds those before, last first -/
def items : Nat → List Value → List Char → Read (List Value)
  | 0, _, _ => none
  | n + 1, read, cs =>
    match value n cs with
    | none => none
    | some (v, cs) =>
      match skipBlanks cs with
      | ',' :: cs => items n (v :: read) cs
      | ']' :: cs => some ((v :: read).reverse, cs)
      | _ => none

/-- the entries of an object up to its end; `read` holds those before -/
def entries : Nat → List (String × Value) → List Char → Read (List (String × Value))
  | 0, _, _ => none
  | n + 1, read, cs =>
    match skipBlanks cs with
    | '"' :: cs =>
      match string n [] cs with
      | none => none
      | some (key, cs) =>
        match skipBlanks cs with
        | ':' :: cs =>
          match value n cs with
          | none => none
          | some (v, cs) =>
            match skipBlanks cs with
            | ',' :: cs => entries n (Fields.insert key v read) cs
            | '\x7d' :: cs => some (Fields.insert key v read, cs)
            | _ => none
        | _ => none
    | _ => none

end

def read? (text : String) : Option Value :=
  let cs := text.toList
  match value cs.length.succ cs with
  | some (v, rest) => if (skipBlanks rest).isEmpty then some v else none
  | none => none

end SignalFlow.Json
