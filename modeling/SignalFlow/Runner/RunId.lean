/-!
# Ids of runs

An id has 26 letters: the time in milliseconds as 48 bits, then 80 bits of chance, five bits to a
letter. The letters leave out those that look like digits, and U.
-/

namespace SignalFlow

namespace RunId

def letters : List Char := "0123456789ABCDEFGHJKMNPQRSTVWXYZ".toList

/-- so many letters for a number, the last one for its lowest five bits -/
def encode : Nat → Nat → List Char
  | 0, _ => []
  | count + 1, n => encode count (n / 32) ++ [letters.getD (n % 32) '0']

/-- the id for a time and a number drawn at random -/
def text (milliseconds chance : Nat) : String :=
  String.ofList (encode 26 (milliseconds % Nat.pow 2 48 * Nat.pow 2 80 + chance % Nat.pow 2 80))

theorem length_encode (count n : Nat) : (encode count n).length = count := by
  induction count generalizing n with
  | zero => rfl
  | succ count ih => simp [encode, ih]

end RunId

end SignalFlow
