import Mathlib.Data.List.DropRight
import Mathlib.Order.Bounds.Basic
import SignalFlow.Trace.Channel
/-!
# What a channel keeps for its receivers

* `Channel.Holds`        a channel has sent these messages, and keeps the last of them;
* `Received.ofWaiting`   what is given to a receiver for which these messages are waiting;
* `Received.left`        the messages that are waiting for it behind that.

The buffer is the least power of two that is not below the capacity (`Channel.powerAbove_isLeast`), and
a channel holds what it has sent (`Channel.Holds.send`). So a receiver is given its next message, and
once there are more than the buffer has room for, the number of those that are gone
(`Channel.Holds.receive`).
-/

namespace SignalFlow

variable {α : Type*}

/-! ## the last of a list -/

theorem rtake_append_rtake (n : Nat) (items : List α) (item : α) :
    (items.rtake n ++ [item]).rtake n = (items ++ [item]).rtake n := by
  cases n with
  | zero => rw [List.rtake_zero, List.rtake_zero]
  | succ n =>
    rw [List.rtake_concat_succ, List.rtake_concat_succ, List.rtake_eq_reverse_take_reverse,
      List.rtake_eq_reverse_take_reverse, List.reverse_reverse, List.take_take,
      Nat.min_eq_left n.le_succ, List.rtake_eq_reverse_take_reverse]

theorem length_rtake (n : Nat) (items : List α) : (items.rtake n).length = min n items.length := by
  rw [List.rtake, List.length_drop]
  omega

/-! ## what a receiver is given -/

namespace Received

/-- what is given to a receiver for which these messages are waiting: the first of them, or how many
have gone when the buffer has no room for all -/
def ofWaiting (size : Nat) (waiting : List α) : Received α :=
  if size < waiting.length then .lagged (waiting.length - size)
  else
    match waiting with
    | value :: _ => .message value
    | [] => .empty

/-- the messages that are left waiting behind that -/
def left (size : Nat) (waiting : List α) : List α :=
  if size < waiting.length then waiting.rtake size else waiting.tail

variable {size : Nat} {waiting : List α}

theorem ofWaiting_of_lt (behind : size < waiting.length) :
    ofWaiting size waiting = .lagged (waiting.length - size) := if_pos behind

theorem left_of_lt (behind : size < waiting.length) : left size waiting = waiting.rtake size :=
  if_pos behind

theorem ofWaiting_nil (size : Nat) : ofWaiting size ([] : List α) = .empty :=
  if_neg (Nat.not_lt_zero size)

theorem left_nil (size : Nat) : left size ([] : List α) = [] := if_neg (Nat.not_lt_zero size)

theorem ofWaiting_cons {value : α} {rest : List α} (room : (value :: rest).length ≤ size) :
    ofWaiting size (value :: rest) = .message value := if_neg (Nat.not_lt.mpr room)

theorem left_cons {value : α} {rest : List α} (room : (value :: rest).length ≤ size) :
    left size (value :: rest) = rest := if_neg (Nat.not_lt.mpr room)

end Received

/-! ## the buffer -/

namespace Channel

/-- **The capacity is rounded up to a power of two.** -/
theorem powerAbove_isLeast (n : Nat) :
    IsLeast {size | size.isPowerOfTwo ∧ max n 1 ≤ size} (powerAbove n) := by
  unfold powerAbove
  split
  · next small => exact ⟨⟨⟨0, rfl⟩, by omega⟩, fun size ⟨_, fits⟩ => by omega⟩
  · next large =>
    have below : 2 ^ (n - 1).log2 ≤ n - 1 := Nat.log2_self_le (by omega)
    have above : n - 1 < 2 ^ ((n - 1).log2 + 1) := Nat.lt_log2_self
    refine ⟨⟨⟨_, rfl⟩, show max n 1 ≤ 2 ^ ((n - 1).log2 + 1) by omega⟩, ?_⟩
    rintro _ ⟨⟨k, rfl⟩, fits⟩
    -- a power of two below this one is at most `n - 1`
    have more : (n - 1).log2 < k := (Nat.pow_lt_pow_iff_right Nat.one_lt_two).mp (by omega)
    exact Nat.pow_le_pow_right Nat.two_pos more

theorem powerAbove_max_one (n : Nat) : powerAbove (max n 1) = powerAbove n := by
  unfold powerAbove
  rcases Nat.le_total n 1 with small | large
  · rw [Nat.max_eq_right small, if_pos le_rfl, if_pos small]
  · rw [Nat.max_eq_left large]

/-- the channel has sent these messages, and keeps the last of them -/
structure Holds (channel : Channel α) (messages : List α) : Prop where
  sent : channel.sent = messages.length
  kept : channel.kept = messages.rtake channel.size

section
variable {channel : Channel α} {messages : List α} {receiver : Receiver}

theorem open?_eq {capacity : Nat} (opened : open? capacity = some channel) :
    channel = { size := powerAbove capacity } := by
  unfold open? at opened
  split at opened
  · cases opened
  · exact (Option.some.inj opened).symm

theorem Holds.empty (size : Nat) : Holds { size } ([] : List α) :=
  ⟨rfl, (List.rtake_nil size).symm⟩

theorem Holds.send (h : Holds channel messages) (value : α) :
    Holds (channel.send value) (messages ++ [value]) := by
  refine ⟨?_, ?_⟩
  · show channel.sent + 1 = (messages ++ [value]).length
    rw [h.sent, List.length_append, List.length_singleton]
  · show (channel.kept ++ [value]).rtake channel.size = (messages ++ [value]).rtake channel.size
    rw [h.kept, rtake_append_rtake]

theorem Holds.oldest (h : Holds channel messages) :
    channel.oldest = messages.length - channel.size := by
  rw [Channel.oldest, h.sent, h.kept, length_rtake]
  omega

theorem Holds.getElem? (h : Holds channel messages) (kept : channel.oldest ≤ receiver.next) :
    channel.kept[receiver.next - channel.oldest]? = messages[receiver.next]? := by
  rw [h.oldest] at kept ⊢
  rw [h.kept, List.rtake, List.getElem?_drop, Nat.add_sub_cancel' kept]

/-- **What a receiver is given depends on what is waiting for it only**, and so does what is left. -/
theorem Holds.receive (h : Holds channel messages) (behind : receiver.next ≤ messages.length) :
    (channel.receive receiver).2 = .ofWaiting channel.size (messages.drop receiver.next) ∧
    messages.drop (channel.receive receiver).1.next =
      Received.left channel.size (messages.drop receiver.next) ∧
    (channel.receive receiver).1.next ≤ messages.length := by
  have length : (messages.drop receiver.next).length = messages.length - receiver.next :=
    List.length_drop
  unfold Channel.receive
  split
  · next lost =>
    rw [h.oldest] at lost ⊢
    have beyond : channel.size < (messages.drop receiver.next).length := by omega
    rw [Received.ofWaiting_of_lt beyond, Received.left_of_lt beyond, List.rtake, List.drop_drop, length]
    have gone : messages.length - channel.size - receiver.next =
        messages.length - receiver.next - channel.size := by omega
    have first : messages.length - channel.size =
        receiver.next + (messages.length - receiver.next - channel.size) := by omega
    exact ⟨congrArg Received.lagged gone, congrArg (messages.drop ·) first, Nat.sub_le ..⟩
  · next kept =>
    rw [h.getElem? (Nat.not_lt.mp kept)]
    rw [h.oldest] at kept
    have room : (messages.drop receiver.next).length ≤ channel.size := by omega
    by_cases there : receiver.next < messages.length
    · rw [List.drop_eq_getElem_cons there] at room ⊢
      rw [List.getElem?_eq_getElem there, Received.ofWaiting_cons room, Received.left_cons room]
      exact ⟨rfl, rfl, there⟩
    · have last : messages.drop receiver.next = [] := List.drop_eq_nil_iff.mpr (Nat.not_lt.mp there)
      rw [List.getElem?_eq_none (Nat.not_lt.mp there), last, Received.ofWaiting_nil,
        Received.left_nil]
      exact ⟨rfl, rfl, behind⟩

end

end Channel

end SignalFlow
