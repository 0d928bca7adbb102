/-!
# 64-bit words

The bounds of the integers that a 64-bit word can hold.
-/

namespace SignalFlow.Word

/-- the least number that no unsigned word holds, `2 ^ 64` -/
abbrev bound : Nat := 0x10000000000000000

/-- the least number that no signed word holds, `2 ^ 63` -/
abbrev signedBound : Nat := 0x8000000000000000

end SignalFlow.Word
