import SignalFlow.Yaml.Tag
/-!
# Tokens of a YAML text

`Token.scan?` cuts a whole text into tokens. Indentation becomes tokens too: a block begins where
the text is indented further than around it, and ends where it is indented less.

A key without a question mark is known only when its colon comes. Wherever one may begin, the place
is remembered as a candidate, one for each bracket level; it must stand in one line with its colon
and at most 1024 octets of UTF-8 before it. The token `key` is then put in at that place.
-/

namespace SignalFlow.Yaml

inductive Token
  | versionDirective (major minor : Nat)
  | tagDirective (handle : String) (text : Tag)
  | documentStart
  | documentEnd
  | streamEnd
  | blockSequenceStart
  | blockMappingStart
  | blockEnd
  | flowSequenceStart
  | flowSequenceEnd
  | flowMappingStart
  | flowMappingEnd
  | blockEntry
  | flowEntry
  | key
  | value
  | alias (name : String)
  | anchor (name : String)
  | tag (tag : RawTag)
  | scalar (plain : Bool) (text : String)
  deriving Inhabited, DecidableEq

/-- a place where a key may have begun -/
structure Candidate where
  required : Bool
  /-- the number of tokens before it -/
  place : Nat
  /-- the octets before it -/
  index : Nat
  line : Nat
  column : Nat
  deriving Inhabited

structure Scanner where
  cursor : Cursor
  tokens : Array Token := #[]
  /-- the column of the innermost block, -1 outside of all -/
  indent : Int := -1
  /-- those of the blocks around it -/
  outer : List Int := []
  /-- the brackets that are open -/
  level : Nat := 0
  /-- may a key begin here? -/
  keyAllowed : Bool := true
  /-- the candidate of each bracket level, the innermost first -/
  candidates : List (Option Candidate) := [none]
  deriving Inhabited

namespace Scanner

def inFlow (s : Scanner) : Bool := s.level != 0

def emit (s : Scanner) (t : Token) : Scanner := { s with tokens := s.tokens.push t }

def insertAt (s : Scanner) (place : Nat) (t : Token) : Scanner :=
  { s with tokens := (s.tokens.extract 0 place).push t ++ s.tokens.extract place s.tokens.size }

def skip (s : Scanner) (n : Nat) : Scanner := { s with cursor := Cursor.skipMany n s.cursor }

/-! ## blanks -/

/-- pass over blanks, comments and line ends. A byte order mark may stand at the beginning of every
line. A tab counts as a blank except where a key may begin outside of brackets -/
def skipGap : Nat → Scanner → Scanner
  | 0, s => s
  | fuel + 1, s =>
    let c := if s.cursor.column = 0 && s.cursor.isAt byteOrderMark then s.cursor.skip else s.cursor
    let c := c.skipWhile fun x => x = ' ' || ((s.inFlow || !s.keyAllowed) && x = '\t')
    let c := c.skipComment
    if c.test 0 isBreak then
      skipGap fuel { s with cursor := c.skipLine, keyAllowed := s.keyAllowed || !s.inFlow }
    else { s with cursor := c }

/-! ## candidates for keys -/

/-- drop the candidates that are too far behind; a required one must not be -/
def dropStale (s : Scanner) : Option Scanner :=
  let stale (k : Candidate) : Bool := k.line < s.cursor.line || k.index + 1024 < s.cursor.index
  let failed := s.candidates.any fun k => k.any fun k => stale k && k.required
  if failed then none
  else some { s with candidates := s.candidates.map fun k => k.filter fun k => !stale k }

/-- drop the candidate of this level; a required one must not be -/
def dropCandidate (s : Scanner) : Option Scanner :=
  match s.candidates with
  | some k :: rest => if k.required then none else some { s with candidates := none :: rest }
  | _ => some s

def addCandidate (s : Scanner) : Option Scanner :=
  if s.keyAllowed then do
    let c := s.cursor
    let required := !s.inFlow && s.indent = (c.column : Int)
    let s ← s.dropCandidate
    some { s with candidates := some ⟨required, s.tokens.size, c.index, c.line, c.column⟩
                                  :: s.candidates.drop 1 }
  else some s

/-! ## indentation -/

/-- begin a block at a column that is further in, its first token standing at `place` -/
def indentTo (s : Scanner) (column : Nat) (place : Nat) (t : Token) : Scanner :=
  if !s.inFlow && s.indent < (column : Int) then
    { s with indent := column, outer := s.indent :: s.outer }.insertAt place t
  else s

/-- end the blocks that are further in than a column -/
def unindentTo (column : Int) (s : Scanner) : Scanner :=
  if s.inFlow then s
  else
    let rec go (s : Scanner) (indent : Int) : List Int → Scanner
      | [] => { s with indent, outer := [] }
      | next :: rest =>
        if column < indent then go (s.emit .blockEnd) next rest
        else { s with indent, outer := next :: rest }
    go s s.indent s.outer

/-! ## directives and anchors -/

def wordAt (c : Cursor) : String × Cursor := (String.ofList (c.run isWord), c.skipWhile isWord)

def number? (c : Cursor) : Option (Nat × Cursor) :=
  let digits := c.run Char.isDigit
  if digits.isEmpty || 9 < digits.length then none
  else some (digits.foldl (fun n x => 10 * n + (x.toNat - '0'.toNat)) 0, c.skipWhile Char.isDigit)

/-- a directive: `%YAML` with a version or `%TAG` with a handle and what it stands for -/
def directive? (c : Cursor) : Option (Token × Cursor) := do
  let (name, c) := wordAt c.skip
  if !c.blankAhead 0 then none
  else
    let (token, c) ←
      if name = "YAML" then do
        let (major, c) ← number? (c.skipWhile isSpace)
        if !c.isAt '.' then none
        else
          let (minor, c) ← number? c.skip
          some (Token.versionDirective major minor, c)
      else if name = "TAG" then do
        let (handle, c) ← handle? (c.skipWhile isSpace)
        if 1 < handle.length && !isClosedHandle handle then none
        else if !c.test 0 isSpace then none
        else
          let (text, c) ← tagText? true (c.skipWhile isSpace)
          if c.blankAhead 0 then some (Token.tagDirective handle text, c) else none
      else none
    let c := (c.skipWhile isSpace).skipComment
    if c.blankAhead 0 then some (token, c.skipLine) else none

def anchorName? (c : Cursor) : Option (String × Cursor) :=
  let (name, c) := wordAt c.skip
  let ends (x : Char) : Bool :=
    x = '?' || x = ':' || x = ',' || x = ']' || x = '\x7d' || x = '%' || x = '@' || x = '\x60'
  if !name.isEmpty && (c.blankAhead 0 || c.test 0 ends) then some (name, c) else none

/-! ## tokens -/

/-- leave all blocks for a directive or a document marker -/
def leaveBlocks (s : Scanner) : Option Scanner := do
  let s ← (s.unindentTo (-1)).dropCandidate
  some { s with keyAllowed := false }

def openFlow (s : Scanner) (t : Token) : Option Scanner := do
  let s ← s.addCandidate
  some { s.emit t with
    level := s.level + 1, candidates := none :: s.candidates, keyAllowed := true, cursor := s.cursor.skip }

def closeFlow (s : Scanner) (t : Token) : Option Scanner := do
  let s ← s.dropCandidate
  let s := if s.inFlow then { s with level := s.level - 1, candidates := s.candidates.drop 1 } else s
  some { s.emit t with keyAllowed := false, cursor := s.cursor.skip }

def blockEntry (s : Scanner) : Option Scanner := do
  if !s.inFlow && !s.keyAllowed then none
  else
    let s ← (s.indentTo s.cursor.column s.tokens.size .blockSequenceStart).dropCandidate
    some { s.emit .blockEntry with keyAllowed := true, cursor := s.cursor.skip }

def explicitKey (s : Scanner) : Option Scanner := do
  if !s.inFlow && !s.keyAllowed then none
  else
    let s ← (s.indentTo s.cursor.column s.tokens.size .blockMappingStart).dropCandidate
    some { s.emit .key with keyAllowed := !s.inFlow, cursor := s.cursor.skip }

/-- a colon: the candidate before it, if there is one, was a key -/
def colon (s : Scanner) : Option Scanner :=
  match s.candidates with
  | some k :: rest =>
    let s := { s.insertAt k.place .key with candidates := none :: rest, keyAllowed := false }
    let s := s.indentTo k.column k.place .blockMappingStart
    some { s.emit .value with cursor := s.cursor.skip }
  | _ =>
    if !s.inFlow && !s.keyAllowed then none
    else
      let s := s.indentTo s.cursor.column s.tokens.size .blockMappingStart
      some { s.emit .value with keyAllowed := !s.inFlow, cursor := s.cursor.skip }

/-- a token that may begin a key, read by `read` -/
def node (s : Scanner) (read : Cursor → Option (Token × Cursor)) : Option Scanner := do
  let s ← s.addCandidate
  let (t, cursor) ← read s.cursor
  some { s.emit t with keyAllowed := false, cursor }

def blockScalar (s : Scanner) (literal : Bool) : Option Scanner := do
  let s ← s.dropCandidate
  let (text, cursor) ← block? literal s.indent s.cursor
  some { s.emit (.scalar false text) with keyAllowed := true, cursor }

def plainScalar (s : Scanner) : Option Scanner := do
  let s ← s.addCandidate
  let (text, ended, cursor) ← plain? s.inFlow (s.indent + 1) s.cursor
  some { s.emit (.scalar true text) with keyAllowed := ended, cursor }

/-- the characters that begin no plain scalar, unless something solid follows some of them -/
def isIndicator (x : Char) : Bool :=
  isFlowMark x || x = '-' || x = '?' || x = ':' || x = '#' || x = '&' || x = '*' || x = '!'
    || x = '|' || x = '>' || x = '\'' || x = '"' || x = '%' || x = '@' || x = '\x60'

def plainBegins (s : Scanner) (x : Char) : Bool :=
  let c := s.cursor
  (!isSpace x && !isIndicator x)
    || (x = '-' && !c.test 1 isSpace)
    || (!s.inFlow && (x = '?' || x = ':') && !c.blankAhead 1)

/-- the next token; `none` for a text that breaks the rules -/
def next (s : Scanner) (x : Char) : Option Scanner :=
  let c := s.cursor
  if c.column = 0 && x = '%' then do
    let s ← s.leaveBlocks
    let (t, cursor) ← directive? s.cursor
    some { s.emit t with cursor }
  else if c.atMarker '-' then s.leaveBlocks.map fun s => (s.emit .documentStart).skip 3
  else if c.atMarker '.' then s.leaveBlocks.map fun s => (s.emit .documentEnd).skip 3
  else if x = '[' then s.openFlow .flowSequenceStart
  else if x = '\x7b' then s.openFlow .flowMappingStart
  else if x = ']' then s.closeFlow .flowSequenceEnd
  else if x = '\x7d' then s.closeFlow .flowMappingEnd
  else if x = ',' then
    s.dropCandidate.map fun s => { s.emit .flowEntry with keyAllowed := true, cursor := s.cursor.skip }
  else if x = '-' && c.blankAhead 1 then s.blockEntry
  else if x = '?' && (s.inFlow || c.blankAhead 1) then s.explicitKey
  else if x = ':' && (s.inFlow || c.blankAhead 1) then s.colon
  else if x = '*' then s.node fun c => (anchorName? c).map fun (name, c) => (.alias name, c)
  else if x = '&' then s.node fun c => (anchorName? c).map fun (name, c) => (.anchor name, c)
  else if x = '!' then s.node fun c => (tag? s.inFlow c).map fun (t, c) => (.tag t, c)
  else if x = '|' && !s.inFlow then s.blockScalar true
  else if x = '>' && !s.inFlow then s.blockScalar false
  else if x = '\'' then s.node fun c => (quoted? true c).map fun (text, c) => (.scalar false text, c)
  else if x = '"' then s.node fun c => (quoted? false c).map fun (text, c) => (.scalar false text, c)
  else if s.plainBegins x then s.plainScalar
  else none

def all : Nat → Scanner → Option (Array Token)
  | 0, _ => none
  | fuel + 1, s => do
    let s := s.skipGap (s.cursor.rest.length + 1)
    let s ← s.dropStale
    let s := s.unindentTo s.cursor.column
    match s.cursor.head with
    | none =>
      let s ← s.leaveBlocks
      some (s.emit .streamEnd).tokens
    | some x => all fuel (← s.next x)

end Scanner

def Token.scan? (text : String) : Option (List Token) :=
  let cs := text.toList
  if cs.all isAllowed then (Scanner.all (cs.length + 2) { cursor := { rest := cs } }).map Array.toList
  else none

end SignalFlow.Yaml
