import SignalFlow.Yaml.Cursor
/-!
# Scalars in a YAML text

Reading the four written forms of a scalar: plain, in single quotes, in double quotes, and as a
block. A single line end inside is folded to a blank, further ones stay. Every reader gives back the
text and the cursor behind it, or nothing if the text breaks the rules.

`fuel` bounds the characters and line ends still to be read.
-/

namespace SignalFlow.Yaml

/-- text read so far with blanks and line ends behind it that may still be folded -/
structure Pending where
  text : List Char := []
  /-- blanks behind the text, as long as no line has ended -/
  blanks : List Char := []
  /-- the first line end behind the text -/
  first : List Char := []
  /-- the line ends behind that -/
  more : List Char := []
  /-- has a line ended behind the text? -/
  ended : Bool := false
  deriving Inhabited

namespace Pending

/-- settle what stands behind the text: blanks stay, a single line feed becomes a blank -/
def join (p : Pending) : Pending :=
  let between :=
    if p.ended then
      if p.first = ['\n'] then (if p.more.isEmpty then [' '] else p.more) else p.first ++ p.more
    else p.blanks
  { text := p.text ++ between }

def add (p : Pending) (c : Char) : Pending := { p with text := p.text ++ [c] }

def addLine (p : Pending) (c : Cursor) : Pending :=
  if p.ended then { p with more := p.more ++ c.lineEnd }
  else { p with blanks := [], first := c.lineEnd, ended := true }

/-- a blank at the cursor; at the beginning of a line it does not count -/
def addBlank (p : Pending) (x : Char) : Pending :=
  if p.ended then p else { p with blanks := p.blanks ++ [x] }

end Pending

/-- pass over blanks and line ends; `forbidden` tells a blank that may not stand where it does -/
def passBlanks (forbidden : Pending → Cursor → Bool) :
    Nat → Pending → Cursor → Option (Pending × Cursor)
  | 0, _, _ => none
  | fuel + 1, p, c =>
    match c.head with
    | some x =>
      if isSpace x then
        if forbidden p c then none else passBlanks forbidden fuel (p.addBlank x) c.skip
      else if isBreak x then passBlanks forbidden fuel (p.addLine c) c.skipLine
      else some (p, c)
    | none => some (p, c)

/-! ## quoted -/

def simpleEscape? : Char → Option Char
  | '0' => some '\x00'
  | 'a' => some '\x07'
  | 'b' => some '\x08'
  | 't' | '\t' => some '\t'
  | 'n' => some '\n'
  | 'v' => some '\x0b'
  | 'f' => some '\x0c'
  | 'r' => some '\r'
  | 'e' => some '\x1b'
  | ' ' => some ' '
  | '"' => some '"'
  | '/' => some '/'
  | '\\' => some '\\'
  | 'N' => some '\u0085'
  | '_' => some '\u00a0'
  | 'L' => some '\u2028'
  | 'P' => some '\u2029'
  | _ => none

def escapeDigits? : Char → Option Nat
  | 'x' => some 2
  | 'u' => some 4
  | 'U' => some 8
  | _ => none

def hexDigit? (c : Char) : Option Nat :=
  if c.isDigit then some (c.toNat - '0'.toNat)
  else if 'a' ≤ c ∧ c ≤ 'f' then some (c.toNat - 'a'.toNat + 10)
  else if 'A' ≤ c ∧ c ≤ 'F' then some (c.toNat - 'A'.toNat + 10)
  else none

def hexNumber? (count : Nat) (cs : List Char) : Option Nat :=
  if cs.length < count then none
  else (cs.take count).foldlM (fun n c => (hexDigit? c).map (16 * n + ·)) 0

/-- the character with a number, unless it is half of a pair or too large -/
def charOf? (n : Nat) : Option Char :=
  if n.isValidChar then some (Char.ofNat n) else none

def escape? (c : Cursor) : Option (Char × Cursor) :=
  match c.head with
  | none => none
  | some letter =>
    match simpleEscape? letter with
    | some x => some (x, c.skip)
    | none =>
      match escapeDigits? letter with
      | none => none
      | some count =>
        ((hexNumber? count c.skip.rest).bind charOf?).map (·, Cursor.skipMany (count + 1) c)

/-- the characters of a quoted scalar up to a blank, a line end or the quote -/
def quotedRun (single : Bool) : Nat → Pending → Cursor → Option (Pending × Cursor)
  | 0, _, _ => none
  | fuel + 1, p, c =>
    match c.head with
    | none => some (p, c)
    | some x =>
      if isSpace x || isBreak x then some (p, c)
      else if single && x = '\'' && c.ahead 1 = some '\'' then
        quotedRun single fuel (p.add x) c.skip.skip
      else if x = (if single then '\'' else '"') then some (p, c)
      else if !single && x = '\\' then
        if c.test 1 isBreak then some ({ p with ended := true }, c.skip.skipLine)
        else
          match escape? c.skip with
          | some (y, c) => quotedRun single fuel (p.add y) c
          | none => none
      else quotedRun single fuel (p.add x) c.skip

/-- a quoted scalar behind its opening quote -/
def quotedFrom (single : Bool) : Nat → Pending → Cursor → Option (String × Cursor)
  | 0, _, _ => none
  | fuel + 1, p, c =>
    if c.atDocument || c.atEnd then none
    else
      match quotedRun single (c.rest.length + 1) p c with
      | none => none
      | some (p, c) =>
        if c.isAt (if single then '\'' else '"') then some (String.ofList p.text, c.skip)
        else
          match passBlanks (fun _ _ => false) (c.rest.length + 1) p c with
          | some (p, c) => quotedFrom single fuel p.join c
          | none => none

def quoted? (single : Bool) (c : Cursor) : Option (String × Cursor) :=
  quotedFrom single (c.rest.length + 2) {} c.skip

/-! ## plain -/

def isFlowMark (x : Char) : Bool :=
  x = ',' || x = '[' || x = ']' || x = '\x7b' || x = '\x7d'

/-- the characters of a plain scalar up to a blank or whatever ends it -/
def plainRun (flow : Bool) : Nat → Pending → Cursor → Option (Pending × Cursor)
  | 0, _, _ => none
  | fuel + 1, p, c =>
    match c.head with
    | none => some (p, c)
    | some x =>
      if isSpace x || isBreak x then some (p, c)
      else if flow && x = ':' && c.test 1 (fun y => isFlowMark y || y = '?') then none
      else if (x = ':' && c.blankAhead 1) || (flow && isFlowMark x) then some (p, c)
      else plainRun flow fuel (p.join.add x) c.skip

/-- a plain scalar; a line that is indented less than `indent` ends it outside of brackets. The
cursor stands behind the blanks, and the flag says whether they include a line end -/
def plainFrom (flow : Bool) (indent : Int) : Nat → Pending → Cursor → Option (Pending × Cursor)
  | 0, _, _ => none
  | fuel + 1, p, c =>
    if c.atDocument || c.isAt '#' then some (p, c)
    else
      match plainRun flow (c.rest.length + 1) p c with
      | none => none
      | some (p, c) =>
        if c.test 0 (fun x => isSpace x || isBreak x) then
          let tabbed (p : Pending) (c : Cursor) := p.ended && (c.column : Int) < indent && c.isAt '\t'
          match passBlanks tabbed (c.rest.length + 1) p c with
          | none => none
          | some (p, c) =>
            if !flow && (c.column : Int) < indent then some (p, c)
            else plainFrom flow indent fuel p c
        else some (p, c)

/-- the text of a plain scalar, whether a line ended behind it, and the cursor -/
def plain? (flow : Bool) (indent : Int) (c : Cursor) : Option (String × Bool × Cursor) :=
  (plainFrom flow indent (c.rest.length + 2) {} c).map fun (p, c) =>
    (String.ofList p.text, p.ended, c)

/-! ## blocks -/

/-- what is kept of the line ends behind a block -/
inductive Chomping
  | strip | clip | keep
  deriving DecidableEq, Inhabited

/-- pass over the empty lines before a line of a block. `indent` is zero while it is still to be
found; `widest` is the deepest indentation so far -/
def blockBreaks (indent : Nat) :
    Nat → (widest : Nat) → List Char → Cursor → Option (Nat × List Char × Cursor)
  | 0, _, _, _ => none
  | fuel + 1, widest, breaks, c =>
    let allowed := if indent = 0 then c.rest.length else indent - c.column
    let c := Cursor.skipMany ((c.rest.take allowed).takeWhile (· = ' ')).length c
    let widest := max widest c.column
    if (indent = 0 || c.column < indent) && c.isAt '\t' then none
    else if c.test 0 isBreak then
      blockBreaks indent fuel widest (breaks ++ c.lineEnd) c.skipLine
    else some (widest, breaks, c)

/-- the lines of a block. `first` is the line end behind the text so far, `more` are the empty lines
behind it, and `indented` says that the last line began with a blank -/
def blockLines (literal : Bool) (indent : Nat) :
    Nat → (text first more : List Char) → (indented : Bool) → Cursor →
      Option (List Char × List Char × List Char × Cursor)
  | 0, _, _, _, _, _ => none
  | fuel + 1, text, first, more, indented, c =>
    if c.column = indent && !c.atEnd then
      let blank := c.test 0 isSpace
      let between :=
        if !literal && first = ['\n'] && !indented && !blank then
          (if more.isEmpty then [' '] else []) ++ more
        else first ++ more
      let line := c.run fun x => !isBreak x
      let c := c.skipWhile fun x => !isBreak x
      match blockBreaks indent (c.rest.length + 2) 0 [] c.skipLine with
      | none => none
      | some (_, more, after) =>
        blockLines literal indent fuel (text ++ between ++ line) c.lineEnd more blank after
    else some (text, first, more, c)

/-- the marks behind the indicator of a block: what to keep, and the indentation if it is given -/
def blockHeader? (c : Cursor) : Option (Chomping × Nat × Cursor) :=
  let chomping? (c : Cursor) : Option (Chomping × Cursor) :=
    if c.isAt '+' then some (.keep, c.skip) else if c.isAt '-' then some (.strip, c.skip) else none
  let digit? (c : Cursor) : Option (Nat × Cursor) :=
    (c.head.filter Char.isDigit).map fun x => (x.toNat - '0'.toNat, c.skip)
  match chomping? c with
  | some (chomping, c) =>
    match digit? c with
    | some (n, c) => if n = 0 then none else some (chomping, n, c)
    | none => some (chomping, 0, c)
  | none =>
    match digit? c with
    | some (n, c) =>
      if n = 0 then none
      else
        match chomping? c with
        | some (chomping, c) => some (chomping, n, c)
        | none => some (.clip, n, c)
    | none => some (.clip, 0, c)

/-- a block behind its indicator; `outer` is the indentation around it -/
def block? (literal : Bool) (outer : Int) (c : Cursor) : Option (String × Cursor) := do
  let (chomping, given, c) ← blockHeader? c.skip
  let c := (c.skipWhile isSpace).skipComment
  if !c.blankAhead 0 then none
  else
    let c := c.skipLine
    let fuel := c.rest.length + 2
    let indent := if given = 0 then 0 else (max outer 0).toNat + given
    let (widest, more, c) ← blockBreaks indent fuel 0 [] c
    let indent := if indent = 0 then max widest (max (outer + 1) 1).toNat else indent
    let (text, first, more, c) ← blockLines literal indent fuel [] [] more false c
    let kept := match chomping with
      | .strip => []
      | .clip => first
      | .keep => first ++ more
    some (String.ofList (text ++ kept), c)

end SignalFlow.Yaml
