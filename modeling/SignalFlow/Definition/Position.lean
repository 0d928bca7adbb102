/-!
# Positions in a definition

A position is a list of indices into lists; where it goes down into an output map, the word
`outputs` and the name of the output stand in between.
-/

namespace SignalFlow

inductive Segment
  | index (value : Nat)
  | key (name : String)
  deriving DecidableEq, Inhabited, Repr

abbrev Position := List Segment

def Segment.text : Segment → String
  | index n => toString n
  | key name => name

namespace Position

/-- the position in brackets, as in `[0, outputs, success, 1]` -/
def text (position : Position) : String :=
  "[" ++ ", ".intercalate (position.map Segment.text) ++ "]"

def output (position : Position) (name : String) : Position :=
  position ++ [.key "outputs", .key name]

def item (position : Position) (index : Nat) : Position := position ++ [.index index]

end Position

end SignalFlow
