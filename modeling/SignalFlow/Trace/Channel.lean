import SignalFlow.Word
/-!
# Channels

A channel sends every message to all that subscribed before. It keeps as many of the last messages
as its buffer holds, the capacity rounded up to a power of two. A receiver that fell further behind
is told once how many messages it lost and goes on with the oldest that is kept.
-/

namespace SignalFlow

structure Channel (α : Type u) where
  /-- how many messages are kept -/
  size : Nat
  /-- how many messages were sent -/
  sent : Nat := 0
  /-- the last messages, oldest first -/
  kept : List α := []
  deriving Inhabited

/-- where a receiver stands: how many messages lie behind it -/
structure Receiver where
  next : Nat
  deriving DecidableEq, Inhabited, Repr

/-- what a receiver is given -/
inductive Received (α : Type u)
  | message (value : α)
  | empty
  | lagged (lost : Nat)
  deriving Inhabited, Repr

namespace Channel

variable {α : Type u}

def powerAbove (n : Nat) : Nat := if n ≤ 1 then 1 else Nat.pow 2 ((n - 1).log2 + 1)

def maxCapacity : Nat := Word.signedBound - 1

/-- a channel with this capacity; none can be opened with capacity zero or above the largest -/
def open? (capacity : Nat) : Option (Channel α) :=
  if capacity = 0 ∨ maxCapacity < capacity then none else some { size := powerAbove capacity }

def send (channel : Channel α) (value : α) : Channel α :=
  let kept := channel.kept ++ [value]
  { channel with sent := channel.sent + 1, kept := kept.drop (kept.length - channel.size) }

/-- a receiver of what is sent from now on -/
def subscribe (channel : Channel α) : Receiver := ⟨channel.sent⟩

/-- the number of the oldest message that is kept -/
def oldest (channel : Channel α) : Nat := channel.sent - channel.kept.length

/-- take the next message, without waiting for one -/
def receive (channel : Channel α) (receiver : Receiver) : Receiver × Received α :=
  if receiver.next < channel.oldest then
    (⟨channel.oldest⟩, .lagged (channel.oldest - receiver.next))
  else
    match channel.kept[receiver.next - channel.oldest]? with
    | some value => (⟨receiver.next + 1⟩, .message value)
    | none => (receiver, .empty)

end Channel

end SignalFlow
