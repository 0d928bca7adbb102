import SignalFlow.Json.Value
import SignalFlow.Text.Decimal
/-!
# Writing JSON

* `Value.compact`  on one line, without blanks;
* `Value.pretty`   one entry a line, two blanks a level, empty containers closed at once.

In a string the quote, the backslash and the control characters below the blank are escaped, five
of the latter by a letter and the others by four digits; all else stands as it is.
-/

namespace SignalFlow

namespace Json

def hexDigit (n : Nat) : Char := Nat.digitChar n

/-- one character of a string, as written between the quotes -/
def escaped (c : Char) : List Char :=
  if c = '"' then ['\\', '"']
  else if c = '\\' then ['\\', '\\']
  else if c = '\x08' then ['\\', 'b']
  else if c = '\x0c' then ['\\', 'f']
  else if c = '\n' then ['\\', 'n']
  else if c = '\r' then ['\\', 'r']
  else if c = '\t' then ['\\', 't']
  else if c.toNat < 32 then ['\\', 'u', '0', '0', hexDigit (c.toNat / 16), hexDigit (c.toNat % 16)]
  else [c]

def quoted (s : String) : String :=
  String.ofList ('"' :: s.toList.flatMap escaped ++ ['"'])

end Json

namespace Number

def text : Number → String
  | .int n => toString n
  | .float x => if x.isFinite then x.text else "null"

end Number

namespace Value

/-! ## one line -/

mutual

def compact : Value → String
  | .null => "null"
  | .bool b => if b then "true" else "false"
  | .number n => n.text
  | .string s => Json.quoted s
  | .array items => "[" ++ ",".intercalate (compactItems items) ++ "]"
  | .object fields => "\x7b" ++ ",".intercalate (compactFields fields) ++ "\x7d"

def compactItems : List Value → List String
  | [] => []
  | v :: rest => compact v :: compactItems rest

def compactFields : List (String × Value) → List String
  | [] => []
  | (k, v) :: rest => (Json.quoted k ++ ":" ++ compact v) :: compactFields rest

end

/-! ## many lines -/

/-- a line break and the blanks of a level -/
def newline (level : Nat) : String := "\n" ++ String.ofList (List.replicate (2 * level) ' ')

/-- a container whose parts stand one a line -/
def block (opening closing : String) (level : Nat) (parts : List String) : String :=
  if parts.isEmpty then opening ++ closing
  else opening ++ newline (level + 1) ++ (("," ++ newline (level + 1)).intercalate parts)
    ++ newline level ++ closing

mutual

def prettyAt (level : Nat) : Value → String
  | .array items => block "[" "]" level (prettyItems (level + 1) items)
  | .object fields => block "\x7b" "\x7d" level (prettyFields (level + 1) fields)
  | .null => "null"
  | .bool b => if b then "true" else "false"
  | .number n => n.text
  | .string s => Json.quoted s

def prettyItems (level : Nat) : List Value → List String
  | [] => []
  | v :: rest => prettyAt level v :: prettyItems level rest

def prettyFields (level : Nat) : List (String × Value) → List String
  | [] => []
  | (k, v) :: rest => (Json.quoted k ++ ": " ++ prettyAt level v) :: prettyFields level rest

end

def pretty (v : Value) : String := prettyAt 0 v

end Value

end SignalFlow
