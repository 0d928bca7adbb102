import SignalFlow.Yaml.Scalar
/-!
# Tags of YAML nodes

A tag is a list of octets. `%` and two hexadecimal digits put any octet into it; the octets written
in this way have to come as in UTF-8, a leading one with as many trailing ones as it asks for, but
they need not make a character. An octet of zero ends the text in which it stands.

* `Tag.name?`    the name of a tag of the document's own: it begins with an exclamation mark and is text;
* `RawTag`       a tag as written;
* `tag?`         reads one;
* `RawTag.resolve?`  the tag that it stands for.
-/

namespace SignalFlow.Yaml

structure Tag where
  octets : List UInt8
  deriving Inhabited, DecidableEq

namespace Tag

def ofText (text : String) : Tag := ⟨text.toUTF8.data.toList⟩

/-- the octets before the first zero -/
def ofOctets (octets : List UInt8) : Tag := ⟨octets.takeWhile (· != 0)⟩

/-- a tag with a name that all documents share -/
def standard (name : String) : Tag := ofText ("tag:yaml.org,2002:" ++ name)

/-- an exclamation mark and nothing else -/
def lone : Tag := ofText "!"

def isEmpty (tag : Tag) : Bool := tag.octets.isEmpty

def append (a b : Tag) : Tag := ⟨a.octets ++ b.octets⟩

def isOwn (tag : Tag) : Bool := tag.octets.head? = some 0x21

/-- the name of a tag of the document's own, without its exclamation mark unless that is all -/
def name? (tag : Tag) : Option String :=
  if tag.isOwn then
    let octets := if tag = lone then tag.octets else tag.octets.drop 1
    String.fromUTF8? ⟨octets.toArray⟩
  else none

end Tag

/-- the tag of a node as written: a handle, empty for a tag in full, and the rest -/
structure RawTag where
  handle : String
  suffix : Tag
  deriving Inhabited, DecidableEq

/-- what the handles of tags stand for -/
abbrev Handles := List (String × Tag)

def usualHandles : Handles := [("!", .lone), ("!!", .standard "")]

def RawTag.resolve? (handles : Handles) (tag : RawTag) : Option Tag :=
  if tag.handle.isEmpty then some tag.suffix
  else (handles.find? (·.1 = tag.handle)).map fun entry => entry.2.append tag.suffix

/-! ## octets -/

/-- the octet written as `%` and two hexadecimal digits -/
def octet? (c : Cursor) : Option (UInt8 × Cursor) :=
  if c.isAt '%' then
    (hexNumber? 2 c.skip.rest).map fun n => (n.toUInt8, Cursor.skipMany 3 c)
  else none

/-- how many trailing octets a leading one asks for -/
def trailing? (first : UInt8) : Option Nat :=
  if first < 0x80 then some 0
  else if 0xC0 ≤ first && first < 0xE0 then some 1
  else if 0xE0 ≤ first && first < 0xF0 then some 2
  else if 0xF0 ≤ first && first < 0xF8 then some 3
  else none

def trailingOctets? : (count : Nat) → Cursor → Option (List UInt8 × Cursor)
  | 0, c => some ([], c)
  | count + 1, c => do
    let (x, c) ← octet? c
    if 0x80 ≤ x && x < 0xC0 then
      let (rest, c) ← trailingOctets? count c
      some (x :: rest, c)
    else none

/-- a leading octet with its trailing ones -/
def escapedOctets? (c : Cursor) : Option (List UInt8 × Cursor) := do
  let (first, c) ← octet? c
  let count ← trailing? first
  let (rest, c) ← trailingOctets? count c
  some (first :: rest, c)

/-! ## reading -/

def isTagMark (x : Char) : Bool :=
  x = ';' || x = '/' || x = '?' || x = ':' || x = '@' || x = '&' || x = '=' || x = '+' || x = '$'
    || x = '.' || x = '!' || x = '~' || x = '*' || x = '\'' || x = '(' || x = ')'

/-- the octets of a tag behind those read; in full form it may hold commas and square brackets -/
def tagOctets? (full : Bool) : Nat → List UInt8 → Cursor → Option (List UInt8 × Cursor)
  | 0, _, _ => none
  | fuel + 1, read, c =>
    match c.head with
    | none => some (read, c)
    | some x =>
      if x = '%' then
        match escapedOctets? c with
        | some (octets, c) => tagOctets? full fuel (read ++ octets) c
        | none => none
      else if isWord x || isTagMark x || (full && (x = ',' || x = '[' || x = ']')) then
        tagOctets? full fuel (read ++ [x.toNat.toUInt8]) c.skip
      else some (read, c)

/-- the text of a tag, of one octet at least -/
def tagText? (full : Bool) (c : Cursor) : Option (Tag × Cursor) := do
  let (octets, c) ← tagOctets? full (c.rest.length + 1) [] c
  if octets.isEmpty then none else some (.ofOctets octets, c)

/-- the handle of a tag: an exclamation mark, letters, and perhaps another mark -/
def handle? (c : Cursor) : Option (String × Cursor) :=
  if c.isAt '!' then
    let word := c.skip.run isWord
    let after := c.skip.skipWhile isWord
    if after.isAt '!' then some (String.ofList ('!' :: word ++ ['!']), after.skip)
    else some (String.ofList ('!' :: word), after)
  else none

/-- does a handle end with a mark of its own? -/
def isClosedHandle (handle : String) : Bool :=
  1 < handle.length && handle.toList.getLast? = some '!'

def fullTag? (c : Cursor) : Option (RawTag × Cursor) := do
  let (text, c) ← tagText? true c.skip.skip
  if c.isAt '>' then some (⟨"", text⟩, c.skip) else none

/-- a tag with a handle; letters without a mark behind them belong to the rest of the tag -/
def shortTag? (c : Cursor) : Option (RawTag × Cursor) := do
  let (handle, behind) ← handle? c
  if isClosedHandle handle then
    let (text, c) ← tagText? false behind
    some (⟨handle, text⟩, c)
  else
    let (octets, c) ← tagOctets? false (c.rest.length + 1) [] c.skip
    let text := Tag.ofOctets octets
    some (if text.isEmpty then ⟨"", .lone⟩ else ⟨"!", text⟩, c)

def tag? (inFlow : Bool) (c : Cursor) : Option (RawTag × Cursor) := do
  let (tag, c) ← if c.ahead 1 = some '<' then fullTag? c else shortTag? c
  if c.blankAhead 0 || (inFlow && c.isAt ',') then some (tag, c) else none

end SignalFlow.Yaml
