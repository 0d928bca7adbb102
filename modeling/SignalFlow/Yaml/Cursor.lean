/-!
# Cursors in a YAML text

A cursor holds what is left of a text and where it stands. Line ends are carriage return, line
feed, both together, next line, and the line and paragraph separators; reading one gives a line
feed, only the two separators stay as they are.
-/

namespace SignalFlow.Yaml

structure Cursor where
  rest : List Char
  /-- the octets behind the cursor, in UTF-8 -/
  index : Nat := 0
  line : Nat := 0
  column : Nat := 0
  deriving Inhabited

def isAllowed (c : Char) : Bool :=
  let n := c.toNat
  n = 0x9 || n = 0xA || n = 0xD || (0x20 ≤ n && n ≤ 0x7E) || n = 0x85
    || (0xA0 ≤ n && n ≤ 0xD7FF) || (0xE000 ≤ n && n ≤ 0xFFFD) || 0x10000 ≤ n

def byteOrderMark : Char := '\uFEFF'

def isSpace (c : Char) : Bool := c = ' ' || c = '\t'

def isBreak (c : Char) : Bool :=
  c = '\r' || c = '\n' || c = '\u0085' || c = '\u2028' || c = '\u2029'

/-- letters of names: ASCII letters and digits, `_` and `-` -/
def isWord (c : Char) : Bool := c.isAlphanum || c = '_' || c = '-'

namespace Cursor

def ahead (c : Cursor) (n : Nat) : Option Char := c.rest[n]?

def head (c : Cursor) : Option Char := c.rest.head?

def atEnd (c : Cursor) : Bool := c.rest.isEmpty

def isAt (c : Cursor) (x : Char) : Bool := c.head = some x

def test (c : Cursor) (n : Nat) (p : Char → Bool) : Bool := (c.ahead n).any p

/-- is there a blank, a line end or the end of the text `n` places ahead? -/
def blankAhead (c : Cursor) (n : Nat) : Bool :=
  match c.ahead n with
  | none => true
  | some x => isSpace x || isBreak x

def skip (c : Cursor) : Cursor :=
  match c.rest with
  | x :: rest => { c with rest, index := c.index + x.utf8Size, column := c.column + 1 }
  | [] => c

def skipMany : Nat → Cursor → Cursor
  | 0, c => c
  | n + 1, c => skipMany n c.skip

/-- pass over a line end, if there is one -/
def skipLine (c : Cursor) : Cursor :=
  match c.rest with
  | '\r' :: '\n' :: rest => { rest, index := c.index + 2, line := c.line + 1, column := 0 }
  | x :: rest =>
    if isBreak x then { rest, index := c.index + x.utf8Size, line := c.line + 1, column := 0 } else c
  | [] => c

/-- what a line end at the cursor counts as -/
def lineEnd (c : Cursor) : List Char :=
  match c.head with
  | some x => if isBreak x then [if x = '\u2028' || x = '\u2029' then x else '\n'] else []
  | none => []

/-- pass over the characters with `p` that stand in one line -/
def skipWhile (p : Char → Bool) (c : Cursor) : Cursor :=
  let passed := c.rest.takeWhile p
  { c with
    rest := c.rest.dropWhile p
    index := passed.foldl (fun n x => n + x.utf8Size) c.index
    column := c.column + passed.length }

/-- the characters with `p` ahead in one line -/
def run (p : Char → Bool) (c : Cursor) : List Char := c.rest.takeWhile p

def skipComment (c : Cursor) : Cursor :=
  if c.isAt '#' then c.skipWhile (fun x => !isBreak x) else c

/-- does a line begin here with a document marker made of three times `x`? -/
def atMarker (c : Cursor) (x : Char) : Bool :=
  c.column = 0 && c.rest.take 3 = [x, x, x] && c.blankAhead 3

/-- does a line begin here with the marker of a start or an end of a document? -/
def atDocument (c : Cursor) : Bool := c.atMarker '-' || c.atMarker '.'

end Cursor

end SignalFlow.Yaml
