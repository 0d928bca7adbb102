import SignalFlow.Proofs.Trace.Channel
/-!
# Channels as ring buffers

* `RingBuffer`        cells that are written to one after the other, the first again behind the last;
* `RingBuffer.Holds`  the cells hold the last of these messages, and each knows which one comes next.

A message goes into the cell that the low bits of its number name, over the one that was there. A receiver
looks at the cell of its next message: the cell has it, or is still to get it, or has had it already. As
long as the number of cells is a power of two, a channel answers as such a buffer does
(`RingBuffer.Holds.receive`).
-/

namespace SignalFlow

variable {α : Type*}

namespace RingBuffer

structure Cell (α : Type*) where
  /-- the number of the message that comes in next -/
  next : Nat
  /-- the message that is there -/
  value : Option α := none

end RingBuffer

structure RingBuffer (α : Type*) where
  cells : List (RingBuffer.Cell α)
  /-- how many messages were sent -/
  sent : Nat := 0

namespace RingBuffer

def ofSize (size : Nat) : RingBuffer α := { cells := (List.range size).map fun next => { next } }

def size (ring : RingBuffer α) : Nat := ring.cells.length

/-- the cell of the message with this number -/
def place (ring : RingBuffer α) (number : Nat) : Nat := number &&& (ring.size - 1)

def send (ring : RingBuffer α) (value : α) : RingBuffer α :=
  { cells := ring.cells.set (ring.place ring.sent) ⟨ring.sent + ring.size, some value⟩
    sent := ring.sent + 1 }

/-- take the next message out of its cell; one that was written over is lost, with all up to the oldest
that is there -/
def receive (ring : RingBuffer α) (receiver : Receiver) : Receiver × Received α :=
  match ring.cells[ring.place receiver.next]? with
  | none => (receiver, .empty)
  | some cell =>
    if cell.next = receiver.next + ring.size then
      match cell.value with
      | some value => (⟨receiver.next + 1⟩, .message value)
      | none => (receiver, .empty)
    else if cell.next = receiver.next then (receiver, .empty)
    else
      let oldest := ring.sent - ring.size
      (⟨oldest⟩, .lagged (oldest - receiver.next))

/-- the next message for this cell is one of the next round, and the last one that came in is there -/
structure Cell.Holds (size index : Nat) (messages : List α) (cell : Cell α) : Prop where
  here : cell.next % size = index
  ahead : messages.length ≤ cell.next
  round : cell.next < messages.length + size
  value : cell.value = if cell.next < size then none else messages[cell.next - size]?

structure Holds (size : Nat) (ring : RingBuffer α) (messages : List α) : Prop where
  rounds : ring.size = size
  sent : ring.sent = messages.length
  cells : ∀ index < size, ∃ cell, ring.cells[index]? = some cell ∧ cell.Holds size index messages

section
variable {size : Nat} {ring : RingBuffer α} {messages : List α} {receiver : Receiver}
  {channel : Channel α}

theorem size_ofSize (size : Nat) : (ofSize size : RingBuffer α).size = size := by
  rw [RingBuffer.size, ofSize, List.length_map, List.length_range]

theorem Holds.empty (size : Nat) : Holds size (ofSize size) ([] : List α) := by
  refine ⟨size_ofSize size, rfl, fun index inside => ⟨{ next := index }, ?_, ?_⟩⟩
  · rw [ofSize, List.getElem?_map, List.getElem?_range inside]
    rfl
  · exact ⟨Nat.mod_eq_of_lt inside, Nat.zero_le _, by rwa [List.length_nil, Nat.zero_add],
      (if_pos inside).symm⟩

/-- a cell is a number of rounds ahead of a receiver that comes to it next -/
theorem Cell.Holds.rounds {cell : Cell α} (h : Cell.Holds size (receiver.next % size) messages cell)
    (behind : receiver.next ≤ messages.length) :
    ∃ rounds, cell.next = receiver.next + size * rounds := by
  have ahead := h.ahead
  have apart : (cell.next - receiver.next) % size = 0 := Nat.sub_mod_eq_zero_of_mod_eq h.here
  refine ⟨(cell.next - receiver.next) / size, ?_⟩
  rw [Nat.mul_div_cancel' (Nat.dvd_of_mod_eq_zero apart)]
  omega

variable (power : size.isPowerOfTwo)
include power

theorem Holds.place (h : Holds size ring messages) (number : Nat) :
    ring.place number = number % size := by
  obtain ⟨k, rfl⟩ := power
  rw [RingBuffer.place, h.rounds, Nat.and_two_pow_sub_one_eq_mod]

theorem Holds.send (h : Holds size ring messages) (value : α) :
    Holds size (ring.send value) (messages ++ [value]) := by
  have positive : 0 < size := Nat.pos_of_isPowerOfTwo power
  have length : (messages ++ [value]).length = messages.length + 1 := by
    rw [List.length_append, List.length_singleton]
  refine ⟨?_, ?_, fun index inside => ?_⟩
  · exact (List.length_set ..).trans h.rounds
  · rw [length, ← h.sent]
    rfl
  obtain ⟨cell, found, holds⟩ := h.cells index inside
  show ∃ cell, (ring.cells.set (ring.place ring.sent) _)[index]? = some cell ∧ _
  rw [h.place power, h.sent, h.rounds]
  by_cases own : messages.length % size = index
  · refine ⟨⟨messages.length + size, some value⟩, ?_, ?_, ?_, ?_, ?_⟩
    · rw [own, List.getElem?_set_self (List.getElem?_eq_some_iff.mp found).1]
    · rw [Nat.add_mod_right, own]
    · rw [length]
      exact Nat.add_le_add_left positive _
    · rw [length]
      show messages.length + size < messages.length + 1 + size
      omega
    · rw [if_neg (by dsimp only; omega), Nat.add_sub_cancel, List.getElem?_concat_length]
  · have later : messages.length < cell.next := by
      refine Nat.lt_of_le_of_ne holds.ahead fun same => own ?_
      rw [same, holds.here]
    have round := holds.round
    refine ⟨cell, ?_, holds.here, by rwa [length], by omega, ?_⟩
    · rw [List.getElem?_set_ne own, found]
    · rw [holds.value]
      split
      · rfl
      · rw [List.getElem?_append_left (by omega)]

theorem Holds.sendAll (more : List α) (h : Holds size ring messages) :
    Holds size (more.foldl RingBuffer.send ring) (messages ++ more) := by
  induction more generalizing ring messages with
  | nil => rwa [List.append_nil]
  | cons value more ih =>
    rw [List.append_cons]
    exact ih (h.send power value)

/-- **A channel answers as a ring buffer does.** -/
theorem Holds.receive (h : Holds size ring messages) (holds : channel.Holds messages)
    (same : channel.size = size) (behind : receiver.next ≤ messages.length) :
    ring.receive receiver = channel.receive receiver := by
  have positive : 0 < size := Nat.pos_of_isPowerOfTwo power
  obtain ⟨cell, found, own⟩ := h.cells _ (Nat.mod_lt receiver.next positive)
  have ahead := own.ahead
  have round := own.round
  have oldest : channel.oldest = messages.length - size := holds.oldest.trans (by rw [same])
  obtain ⟨rounds, next⟩ := own.rounds behind
  unfold RingBuffer.receive Channel.receive
  rw [h.place power, found, h.rounds, h.sent, oldest]
  -- the message is still to come, is there, or was written over in a later round
  match rounds with
  | 0 =>
    rw [Nat.mul_zero, Nat.add_zero] at next
    have last : receiver.next = messages.length := by omega
    have kept : channel.oldest ≤ receiver.next := by omega
    have none := holds.getElem? kept
    rw [List.getElem?_eq_none last.ge, oldest] at none
    rw [if_neg (by omega : ¬ receiver.next < messages.length - size), none]
    dsimp only
    rw [if_neg (by omega), if_pos next]
  | 1 =>
    rw [Nat.mul_one] at next
    have there : receiver.next < messages.length := by omega
    have kept : channel.oldest ≤ receiver.next := by omega
    have some := holds.getElem? kept
    rw [List.getElem?_eq_getElem there, oldest] at some
    have value := own.value
    rw [next, if_neg (by omega), Nat.add_sub_cancel, List.getElem?_eq_getElem there] at value
    rw [if_neg (by omega : ¬ receiver.next < messages.length - size), some]
    dsimp only
    rw [if_pos next, value]
  | rounds + 2 =>
    rw [Nat.mul_add, Nat.mul_two] at next
    have lost : receiver.next < messages.length - size := by omega
    rw [if_pos lost]
    dsimp only
    rw [if_neg (by omega), if_neg (by omega)]

end

end RingBuffer

end SignalFlow
