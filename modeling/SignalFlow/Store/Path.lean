import SignalFlow.Word
/-!
# Paths into a tree of values

A path is a list of keys; the empty path is the root. In an array a key stands for an index when it
is a decimal number of at most 64 bits: ASCII digits, a single `+` allowed in front, leading zeros
allowed.
-/

namespace SignalFlow

/-- the keys from the root down -/
abbrev Path := List String

namespace Path

/-- the root -/
def root : Path := []

def isRoot (path : Path) : Bool := path.isEmpty

/-- the path one key further down -/
def child (path : Path) (key : String) : Path := path ++ [key]

/-- the first `depth` keys -/
def upTo (path : Path) (depth : Nat) : Path := path.take depth

/-- the path of the container and the last key -/
def splitLast? (path : Path) : Option (Path × String) :=
  path.getLast?.map fun last => (path.dropLast, last)

/-- the keys with points between them, or a word for the root -/
def display (path : Path) : String :=
  if path.isEmpty then "<root>" else ".".intercalate path

/-! ## indices -/

/-- the number that decimal digits stand for; nothing for other characters and for no digits -/
def digits? (cs : List Char) : Option Nat :=
  if !cs.isEmpty && cs.all Char.isDigit then
    some (cs.foldl (fun n c => 10 * n + (c.toNat - '0'.toNat)) 0)
  else none

/-- the index that a key stands for -/
def index? (key : String) : Option Nat :=
  let digits := match key.toList with
    | '+' :: cs => cs
    | cs => cs
  (digits? digits).filter (· < Word.bound)

@[simp] theorem splitLast?_nil : splitLast? [] = none := rfl

@[simp] theorem splitLast?_concat (path : Path) (key : String) :
    splitLast? (path ++ [key]) = some (path, key) := by
  simp [splitLast?]

theorem upTo_length (path : Path) : upTo path path.length = path := List.take_length

end Path

end SignalFlow
