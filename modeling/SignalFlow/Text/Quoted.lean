import SignalFlow.Text.Hidden
/-!
# Quoted text in descriptions

Descriptions of actions and signals show strings between quotes. Quotes and backslashes are
escaped, tabs and line ends have a letter, the character zero a digit, and every hidden character
is written as its number in hexadecimal digits.
-/

namespace SignalFlow.Text

/-- one character of a description -/
def shown (c : Char) : List Char :=
  if c = '"' then ['\\', '"']
  else if c = '\\' then ['\\', '\\']
  else if c = '\t' then ['\\', 't']
  else if c = '\n' then ['\\', 'n']
  else if c = '\r' then ['\\', 'r']
  else if c.toNat = 0 then ['\\', '0']
  else if isHidden c then ['\\', 'u', '\x7b'] ++ Nat.toDigits 16 c.toNat ++ ['\x7d']
  else [c]

/-- a string between quotes -/
def quoted (s : String) : String := String.ofList ('"' :: s.toList.flatMap shown ++ ['"'])

/-- a list of strings in brackets -/
def quotedList (items : List String) : String := "[" ++ ", ".intercalate (items.map quoted) ++ "]"

/-- a string that may be missing -/
def quotedOption : Option String → String
  | some s => "Some(" ++ quoted s ++ ")"
  | none => "None"

end SignalFlow.Text
