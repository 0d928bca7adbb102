import Mathlib.Algebra.GroupWithZero.Nat
import SignalFlow.Proofs.Trace.Recent
import SignalFlow.Proofs.Trace.RingBuffer
/-!
# What subscribers are given

* `Accounted`            what was sent is given, counted as lost, or waiting, in order;
* `Inbox`                what is waiting for a subscriber, and what it was given;
* `Concern`              what happens to an inbox: a message is sent, or the subscriber asks for one;
* `Audience`             a log and its subscribers, in the order in which they came;
* `Audience.Operation`   a trace is recorded, the traces of a signal are cleared, somebody subscribes, or
                         a subscriber receives;
* `Audience.given`       what the subscriber of this operation is given later on.

A subscriber stands where its inbox says, whatever else is done (`Audience.Hears.serves_all`), and an
inbox accounts for what was sent to it (`Inbox.accounted`). `Audience.nothing_lost`: so each trace that is
recorded after somebody has subscribed is given to it, counted for it as lost, or waiting for it.
-/

namespace SignalFlow

/-! ## accounts -/

section
variable {α : Type*}

namespace Received

/-- the message that was given -/
def message? : Received α → Option α
  | message value => some value
  | empty | lagged _ => none

/-- how many messages it stands for -/
def count : Received α → Nat
  | message _ => 1
  | empty => 0
  | lagged lost => lost

end Received

/-- what was sent, in order: each message was given, or counted among some that were lost, or is waiting
behind all of these -/
inductive Accounted : List (Received α) → List α → List α → Prop
  | waiting (waiting : List α) : Accounted [] waiting waiting
  | message {given : List (Received α)} {sent waiting : List α} (value : α) :
      Accounted given sent waiting → Accounted (.message value :: given) (value :: sent) waiting
  | lost {given : List (Received α)} {sent waiting lost : List α} : lost ≠ [] →
      Accounted given sent waiting → Accounted (.lagged lost.length :: given) (lost ++ sent) waiting
  | empty {given : List (Received α)} {sent waiting : List α} :
      Accounted given sent waiting → Accounted (.empty :: given) sent waiting

namespace Accounted

variable {size : Nat} {given : List (Received α)} {sent waiting : List α}

theorem send (h : Accounted given sent waiting) (value : α) :
    Accounted given (sent ++ [value]) (waiting ++ [value]) := by
  induction h with
  | waiting => exact .waiting _
  | message first _ ih => exact .message first ih
  | lost some _ ih =>
    rw [List.append_assoc]
    exact .lost some ih
  | empty _ ih => exact .empty ih

theorem receive (size : Nat) (h : Accounted given sent waiting) :
    Accounted (given ++ [.ofWaiting size waiting]) sent (Received.left size waiting) := by
  induction h with
  | message first _ ih => exact .message first ih
  | lost some _ ih => exact .lost some ih
  | empty _ ih => exact .empty ih
  | waiting waiting =>
    by_cases behind : size < waiting.length
    · rw [Received.ofWaiting_of_lt behind, Received.left_of_lt behind, List.rtake]
      have gone : (waiting.take (waiting.length - size)).length = waiting.length - size :=
        List.length_take_of_le (Nat.sub_le ..)
      have last : Accounted [.lagged (waiting.take (waiting.length - size)).length]
          (waiting.take (waiting.length - size) ++ waiting.drop (waiting.length - size))
          (waiting.drop (waiting.length - size)) :=
        .lost (List.ne_nil_of_length_pos (by omega)) (.waiting _)
      rwa [gone, List.take_append_drop] at last
    · cases waiting with
      | nil =>
        rw [Received.ofWaiting_nil, Received.left_nil]
        exact .empty (.waiting _)
      | cons value rest =>
        have room := Nat.not_lt.mp behind
        rw [Received.ofWaiting_cons room, Received.left_cons room]
        exact .message value (.waiting _)

theorem sublist (h : Accounted given sent waiting) :
    (given.filterMap Received.message?).Sublist sent := by
  induction h with
  | waiting => exact List.nil_sublist _
  | message value _ ih => exact ih.cons_cons value
  | lost _ _ ih => exact ih.trans (List.sublist_append_right ..)
  | empty _ ih => exact ih

theorem length (h : Accounted given sent waiting) :
    sent.length = (given.map Received.count).sum + waiting.length := by
  induction h with
  | waiting => exact (Nat.zero_add _).symm
  | message value _ ih =>
    rw [List.length_cons, List.map_cons, List.sum_cons, ih, Received.count]
    omega
  | lost _ _ ih =>
    rw [List.length_append, List.map_cons, List.sum_cons, ih, Received.count]
    omega
  | empty _ ih =>
    rw [List.map_cons, List.sum_cons, ih, Received.count]
    omega

/-- where nothing was lost, all was given or is waiting -/
theorem all_given (h : Accounted given sent waiting) (kept : ∀ lost, .lagged lost ∉ given) :
    given.filterMap Received.message? ++ waiting = sent := by
  induction h with
  | waiting => rfl
  | message value _ ih =>
    exact congrArg (value :: ·) (ih fun lost mem => kept lost (List.mem_cons_of_mem _ mem))
  | lost => exact absurd List.mem_cons_self (kept _)
  | empty _ ih => exact ih fun lost mem => kept lost (List.mem_cons_of_mem _ mem)

end Accounted

/-! ## inboxes -/

/-- what happens to an inbox -/
inductive Concern (α : Type*)
  | sent (value : α)
  | asked

def Concern.sent? : Concern α → Option α
  | sent value => some value
  | asked => none

/-- what is waiting for a subscriber, and what it was given -/
structure Inbox (α : Type*) where
  waiting : List α := []
  given : List (Received α) := []

namespace Inbox

def perform (size : Nat) (inbox : Inbox α) : Concern α → Inbox α
  | .sent value => { inbox with waiting := inbox.waiting ++ [value] }
  | .asked =>
    ⟨Received.left size inbox.waiting, inbox.given ++ [.ofWaiting size inbox.waiting]⟩

def performAll (size : Nat) (inbox : Inbox α) (concerns : List (Concern α)) : Inbox α :=
  concerns.foldl (perform size) inbox

variable {size : Nat}

theorem performAll_concat (inbox : Inbox α) (concerns : List (Concern α)) (concern : Concern α) :
    inbox.performAll size (concerns ++ [concern]) =
      (inbox.performAll size concerns).perform size concern := by
  rw [performAll, List.foldl_append]
  rfl

/-- **An inbox accounts for what was sent.** -/
theorem accounted (size : Nat) (concerns : List (Concern α)) :
    Accounted (Inbox.performAll size {} concerns).given (concerns.filterMap Concern.sent?)
      (Inbox.performAll size {} concerns).waiting := by
  induction concerns using List.reverseRecOn with
  | nil => exact .waiting []
  | append_singleton concerns concern ih =>
    rw [performAll_concat, List.filterMap_append]
    cases concern with
    | sent value => exact ih.send value
    | asked =>
      show Accounted _ (concerns.filterMap Concern.sent? ++ []) _
      rw [List.append_nil]
      exact ih.receive size

theorem keeps (concerns : List (Concern α))
    (room : ∀ front, front <+: concerns →
      (Inbox.performAll size {} front).waiting.length ≤ size) (lost : Nat) :
    .lagged lost ∉ (Inbox.performAll size {} concerns).given := by
  induction concerns using List.reverseRecOn with
  | nil => exact List.not_mem_nil
  | append_singleton concerns concern ih =>
    have before := ih fun front first => room front (first.trans (List.prefix_append ..))
    have fits := room concerns (List.prefix_append ..)
    rw [performAll_concat]
    generalize Inbox.performAll size {} concerns = inbox at before fits ⊢
    cases concern with
    | sent value => exact before
    | asked =>
      intro mem
      rcases List.mem_append.mp mem with mem | mem
      · exact before mem
      · rw [List.mem_singleton] at mem
        cases waiting : inbox.waiting with
        | nil =>
          rw [waiting, Received.ofWaiting_nil] at mem
          cases mem
        | cons value rest =>
          rw [waiting] at fits mem
          rw [Received.ofWaiting_cons fits] at mem
          cases mem

end Inbox

end

/-! ## logs with subscribers -/

/-- somebody who has subscribed -/
structure Subscriber where
  receiver : Receiver
  /-- what it was given, in order -/
  given : List (Received Trace) := []

def Subscriber.receive (channel : Channel Trace) (subscriber : Subscriber) : Subscriber :=
  let (receiver, what) := channel.receive subscriber.receiver
  ⟨receiver, subscriber.given ++ [what]⟩

/-- a log and its subscribers, in the order in which they came -/
structure Audience where
  log : TraceLog
  subscribers : List Subscriber := []

namespace Audience

inductive Operation
  | record (trace : Trace)
  | clear (signal : String)
  | subscribe
  /-- the subscriber with this number asks for the next trace -/
  | receive (index : Nat)

namespace Operation

def recorded? : Operation → Option Trace
  | record trace => some trace
  | clear _ | subscribe | receive _ => none

def subscribes : Operation → Bool
  | subscribe => true
  | record _ | clear _ | receive _ => false

/-- what the operation is to the subscriber with this number -/
def concern? (index : Nat) : Operation → Option (Concern Trace)
  | record trace => some (.sent trace)
  | receive asking => if asking = index then some .asked else none
  | clear _ | subscribe => none

end Operation

def perform (audience : Audience) : Operation → Audience
  | .record trace => { audience with log := audience.log.record trace }
  | .clear signal => { audience with log := (audience.log.clear signal).1 }
  | .subscribe =>
    { audience with
      subscribers := audience.subscribers ++ [{ receiver := audience.log.channel.subscribe }] }
  | .receive index =>
    { audience with
      subscribers := audience.subscribers.modify index (·.receive audience.log.channel) }

def performAll (audience : Audience) (history : List Operation) : Audience :=
  history.foldl perform audience

/-- the number of the one who subscribes next -/
def number (history : List Operation) : Nat := history.countP (·.subscribes)

def recorded (history : List Operation) : List Trace := history.filterMap (·.recorded?)

/-- what a history is to the subscriber with this number -/
def concerns (index : Nat) (history : List Operation) : List (Concern Trace) :=
  history.filterMap (·.concern? index)

/-- what the one who subscribes in the middle of a history was given at its end -/
def given (log : TraceLog) (before after : List Operation) : List (Received Trace) :=
  let now := performAll { log } (before ++ .subscribe :: after)
  (now.subscribers[number before]?.map (·.given)).getD []

/-! ## channels and inboxes -/

section
variable {size index : Nat} {history : List Operation} {audience : Audience}
  {subscriber : Subscriber} {inbox : Inbox Trace}

theorem recorded_concat (history : List Operation) (trace : Trace) :
    recorded (history ++ [.record trace]) = recorded history ++ [trace] := by
  rw [recorded, List.filterMap_append]
  rfl

theorem recorded_concat_of_none {operation : Operation} (silent : operation.recorded? = none)
    (history : List Operation) : recorded (history ++ [operation]) = recorded history := by
  rw [recorded, List.filterMap_append, List.filterMap_cons_none silent, List.filterMap_nil,
    List.append_nil]
  rfl

theorem number_concat (history : List Operation) (operation : Operation) :
    number (history ++ [operation]) = number history + if operation.subscribes then 1 else 0 := by
  rw [number, List.countP_append, List.countP_singleton]
  rfl

theorem concerns_concat (index : Nat) (history : List Operation) (operation : Operation) :
    concerns index (history ++ [operation]) =
      concerns index history ++ (operation.concern? index).toList := by
  rw [concerns, List.filterMap_append, List.filterMap_cons]
  cases operation.concern? index <;> rfl

theorem sent_concerns (index : Nat) (history : List Operation) :
    (concerns index history).filterMap Concern.sent? = recorded history := by
  rw [concerns, recorded, List.filterMap_filterMap]
  refine List.filterMap_congr fun operation _ => ?_
  cases operation with
  | record | clear | subscribe => rfl
  | receive asking =>
    rw [Operation.concern?]
    split <;> rfl

/-- the channel holds what the history has recorded, and the subscribers are those who came in it -/
structure Hears (size : Nat) (history : List Operation) (audience : Audience) : Prop where
  room : audience.log.channel.size = size
  holds : audience.log.channel.Holds (recorded history)
  came : audience.subscribers.length = number history
  behind : ∀ subscriber ∈ audience.subscribers, subscriber.receiver.next ≤ (recorded history).length

/-- a subscriber stands where its inbox says -/
structure Serves (history : List Operation) (inbox : Inbox Trace) (subscriber : Subscriber) :
    Prop where
  waiting : (recorded history).drop subscriber.receiver.next = inbox.waiting
  given : subscriber.given = inbox.given

theorem Hears.opened {capacity channelCapacity : Nat} {log : TraceLog}
    (opened : TraceLog.open? capacity channelCapacity = some log) :
    Hears (Channel.powerAbove channelCapacity) [] { log } := by
  obtain rfl := TraceLog.eq_of_open? opened
  exact ⟨rfl, .empty _, rfl, fun _ mem => nomatch mem⟩

theorem Hears.receive (h : Hears size history audience) (mem : subscriber ∈ audience.subscribers) :
    (subscriber.receive audience.log.channel).receiver.next ≤ (recorded history).length :=
  (h.holds.receive (h.behind subscriber mem)).2.2

theorem Hears.perform (h : Hears size history audience) (operation : Operation) :
    Hears size (history ++ [operation]) (audience.perform operation) := by
  cases operation with
  | record trace =>
    refine ⟨h.room, ?_, by rw [number_concat]; exact h.came, fun subscriber mem => ?_⟩
    · rw [recorded_concat]
      exact h.holds.send trace
    · rw [recorded_concat, List.length_append]
      exact (h.behind subscriber mem).trans (Nat.le_add_right ..)
  | clear signal =>
    have same : recorded (history ++ [.clear signal]) = recorded history :=
      recorded_concat_of_none rfl history
    exact ⟨h.room, same ▸ h.holds, by rw [number_concat]; exact h.came, same ▸ h.behind⟩
  | subscribe =>
    have same : recorded (history ++ [.subscribe]) = recorded history :=
      recorded_concat_of_none rfl history
    refine ⟨h.room, same ▸ h.holds, ?_, fun subscriber mem => ?_⟩
    · rw [number_concat, ← h.came]
      exact List.length_append
    · rw [same]
      rcases List.mem_append.mp mem with mem | mem
      · exact h.behind subscriber mem
      · rw [List.mem_singleton.mp mem]
        exact h.holds.sent.le
  | receive asking =>
    have same : recorded (history ++ [.receive asking]) = recorded history :=
      recorded_concat_of_none rfl history
    refine ⟨h.room, same ▸ h.holds, ?_, fun subscriber mem => ?_⟩
    · rw [number_concat]
      exact (List.length_modify ..).trans h.came
    · rw [same]
      obtain ⟨index, found⟩ := List.mem_iff_getElem?.mp mem
      have found : (audience.subscribers.modify asking _)[index]? = some subscriber := found
      rw [List.getElem?_modify] at found
      obtain ⟨before, there, rfl⟩ := Option.map_eq_some_iff.mp found
      have mem := List.mem_of_getElem? there
      split
      · exact h.receive mem
      · exact h.behind before mem

theorem Hears.performAll (h : Hears size history audience) (more : List Operation) :
    Hears size (history ++ more) (audience.performAll more) := by
  induction more generalizing history audience with
  | nil => rwa [List.append_nil]
  | cons operation more ih =>
    rw [List.append_cons]
    exact ih (h.perform operation)

theorem Serves.receive (serves : Serves history inbox subscriber) (h : Hears size history audience)
    (mem : subscriber ∈ audience.subscribers) :
    Serves history (inbox.perform size .asked) (subscriber.receive audience.log.channel) := by
  obtain ⟨what, left, -⟩ := h.holds.receive (h.behind subscriber mem)
  rw [h.room, serves.waiting] at what left
  refine ⟨left, ?_⟩
  show subscriber.given ++ [(audience.log.channel.receive subscriber.receiver).2] =
    inbox.given ++ [.ofWaiting size inbox.waiting]
  rw [what, serves.given]

/-- what is done to others leaves a subscriber alone -/
theorem Serves.concat (serves : Serves history inbox subscriber) {operation : Operation}
    (silent : operation.recorded? = none) : Serves (history ++ [operation]) inbox subscriber := by
  refine ⟨?_, serves.given⟩
  rw [recorded_concat_of_none silent]
  exact serves.waiting

/-- **A subscriber stands where its inbox says**, whatever is done. -/
theorem Hears.serves (h : Hears size history audience)
    (found : audience.subscribers[index]? = some subscriber) (serves : Serves history inbox subscriber)
    (operation : Operation) :
    ∃ after, (audience.perform operation).subscribers[index]? = some after ∧
      Serves (history ++ [operation])
        (inbox.performAll size (operation.concern? index).toList) after := by
  cases operation with
  | record trace =>
    refine ⟨subscriber, found, ?_, serves.given⟩
    have behind := h.behind subscriber (List.mem_of_getElem? found)
    rw [recorded_concat, List.drop_append_of_le_length behind, serves.waiting]
    rfl
  | clear signal => exact ⟨subscriber, found, serves.concat rfl⟩
  | subscribe =>
    have inside : index < audience.subscribers.length := (List.getElem?_eq_some_iff.mp found).1
    exact ⟨subscriber, (List.getElem?_append_left inside).trans found, serves.concat rfl⟩
  | receive asking =>
    show ∃ after, (audience.subscribers.modify asking _)[index]? = some after ∧ _
    rw [List.getElem?_modify, found, Operation.concern?]
    refine ⟨_, rfl, ?_⟩
    dsimp only
    by_cases own : asking = index
    · rw [if_pos own, if_pos own]
      exact (serves.receive h (List.mem_of_getElem? found)).concat rfl
    · rw [if_neg own, if_neg own]
      exact serves.concat rfl

theorem Hears.serves_all (h : Hears size history audience)
    (found : audience.subscribers[index]? = some subscriber) (serves : Serves history inbox subscriber)
    (more : List Operation) :
    ∃ after, (audience.performAll more).subscribers[index]? = some after ∧
      Serves (history ++ more) (inbox.performAll size (concerns index more)) after := by
  induction more using List.reverseRecOn with
  | nil => exact ⟨subscriber, found, by rwa [List.append_nil]⟩
  | append_singleton more operation ih =>
    obtain ⟨middle, found, serves⟩ := ih
    obtain ⟨after, found, serves⟩ := (h.performAll more).serves found serves operation
    rw [Inbox.performAll, Inbox.performAll, ← List.foldl_append, ← concerns_concat,
      List.append_assoc] at serves
    refine ⟨after, ?_, serves⟩
    rw [Audience.performAll, List.foldl_append]
    exact found

end

/-! ## what a subscriber is given -/

/-- the one who subscribes in the middle of a history never falls further behind than this -/
def KeepsUp (size : Nat) (log : TraceLog) (before after : List Operation) : Prop :=
  ∀ front, front <+: after →
    (recorded front).length ≤ ((given log before front).map Received.count).sum + size

namespace Hears

variable {size : Nat} {log : TraceLog} (h : Hears size [] { log }) (before after : List Operation)
include h

theorem subscribed :
    ((Audience.performAll { log } (before ++ .subscribe :: after)).subscribers[number before]?).map
      (·.given) = some (Inbox.performAll size {} (concerns (number before) after)).given := by
  have ready := h.performAll before
  -- nothing is waiting for the one who comes, so it stands where an empty inbox says
  let newcomer : Subscriber := { receiver := (Audience.performAll { log } before).log.channel.subscribe }
  have waiting : (recorded before).drop newcomer.receiver.next = [] :=
    List.drop_eq_nil_iff.mpr ready.holds.sent.ge
  have nothing : Serves (before ++ [.subscribe]) {} newcomer := Serves.concat ⟨waiting, rfl⟩ rfl
  have last : ((Audience.performAll { log } before).perform .subscribe).subscribers[number before]? =
      some newcomer := by
    rw [← (show _ = number before from ready.came)]
    exact List.getElem?_concat_length
  obtain ⟨subscriber, found, serves⟩ := (ready.perform .subscribe).serves_all last nothing after
  rw [Audience.performAll, List.foldl_append, ← serves.given]
  exact congrArg (Option.map _) found

theorem given_eq :
    given log before after = (Inbox.performAll size {} (concerns (number before) after)).given := by
  rw [given, h.subscribed]
  rfl

/-- each trace is given, counted as lost or waiting, and an answer comes from what is waiting -/
theorem accounted :
    ∃ waiting, Accounted (given log before after) (recorded after) waiting ∧
      given log before (after ++ [.receive (number before)]) =
        given log before after ++ [.ofWaiting size waiting] := by
  have account := Inbox.accounted size (concerns (number before) after)
  rw [sent_concerns] at account
  rw [h.given_eq, h.given_eq, concerns_concat, Operation.concern?, if_pos rfl]
  exact ⟨_, account, congrArg Inbox.given (Inbox.performAll_concat _ _ .asked)⟩

theorem keeps (keeps : KeepsUp size log before after) (lost : Nat) :
    .lagged lost ∉ given log before after := by
  rw [h.given_eq]
  -- each beginning of what concerns the subscriber comes from one of the history
  refine Inbox.keeps _ (fun concerned start => ?_) lost
  obtain ⟨front, first, rfl⟩ := List.prefix_filterMap_iff.mp start
  have room := keeps front first
  have account := (Inbox.accounted size (concerns (number before) front)).length
  rw [h.given_eq] at room
  rw [sent_concerns] at account
  show (Inbox.performAll size {} (concerns (number before) front)).waiting.length ≤ size
  omega

/-- no other history than what the subscriber asks for and what is recorded has any influence -/
theorem given_congr {before' after' : List Operation}
    (same : concerns (number before') after' = concerns (number before) after) :
    given log before' after' = given log before after := by
  rw [h.given_eq, h.given_eq, same]

/-- the channel answers as a ring buffer to which the history was sent -/
theorem receive_ring (power : size.isPowerOfTwo) (history : List Operation) (subscriber : Subscriber)
    (mem : subscriber ∈ (Audience.performAll { log } history).subscribers) :
    (Audience.performAll { log } history).log.channel.receive subscriber.receiver =
      ((recorded history).foldl RingBuffer.send (.ofSize size)).receive subscriber.receiver := by
  have now := h.performAll history
  have ring : ((recorded history).foldl RingBuffer.send (.ofSize size)).Holds size
      (recorded history) := (RingBuffer.Holds.empty size).sendAll power _
  exact (ring.receive power now.holds now.room (now.behind subscriber mem)).symm

end Hears

/-- **Subscribers lose nothing silently.** A log opens with every channel capacity that a channel can
have; its channel then answers as a ring buffer whose size is the least power of two that is not below
the capacity. Whatever is done after somebody has subscribed, each trace recorded since is given to it,
counted as lost for it or waiting for it, in order, and its next answer comes from what is waiting. Only
what is recorded and what it asks for itself has an influence on that, and as long as no more is waiting
than the buffer has room for, nothing is lost. -/
theorem nothing_lost (capacity channelCapacity : Nat) :
    ((TraceLog.open? capacity channelCapacity).isSome = true ↔ channelCapacity ≤ Channel.maxCapacity) ∧
    ∀ log, TraceLog.open? capacity channelCapacity = some log →
      ∃ size, IsLeast {size | size.isPowerOfTwo ∧ max channelCapacity 1 ≤ size} size ∧
        (∀ history, ∀ subscriber ∈ (performAll { log } history).subscribers,
          (performAll { log } history).log.channel.receive subscriber.receiver =
            ((recorded history).foldl RingBuffer.send (.ofSize size)).receive subscriber.receiver) ∧
        ∀ before after,
          let what := given log before after
          ((performAll { log } (before ++ .subscribe :: after)).subscribers[number before]?).map
              (·.given) = some what ∧
            (∃ waiting, Accounted what (recorded after) waiting ∧
              given log before (after ++ [.receive (number before)]) =
                what ++ [.ofWaiting size waiting] ∧
              (KeepsUp size log before after → (∀ lost, .lagged lost ∉ what) ∧
                what.filterMap Received.message? ++ waiting = recorded after)) ∧
            (what.filterMap Received.message?).Sublist (recorded after) ∧
            ∀ before' after', concerns (number before') after' = concerns (number before) after →
              given log before' after' = what := by
  refine ⟨TraceLog.isSome_open?_iff capacity channelCapacity, fun log opened => ?_⟩
  have least := Channel.powerAbove_isLeast channelCapacity
  have h := Hears.opened opened
  refine ⟨_, least, h.receive_ring least.1.1, fun before after => ?_⟩
  obtain ⟨waiting, account, next⟩ := h.accounted before after
  refine ⟨?_, ⟨waiting, account, next, fun keeps => ?_⟩, account.sublist, fun _ _ => h.given_congr _ _⟩
  · rw [h.subscribed, h.given_eq]
  · have kept := h.keeps before after keeps
    exact ⟨kept, account.all_given kept⟩

/-- Three traces are rounded up to four. Four that are waiting are not lost. With five the oldest is
counted as lost, and the others are given; a trace that was recorded before, a signal that is cleared and
another subscriber make no difference to that. -/
theorem nothing_lost_at_four :
    let trace := fun id => ({ (default : Trace) with name := "page", id } : Trace)
    let before := [.record (trace "1")]
    let four := ["2", "3", "4", "5"].map fun id => .record (trace id)
    let more := [.record (trace "6"), .clear "page", .subscribe, .receive 1] ++
      List.replicate 3 (.receive 0)
    ∃ log, TraceLog.open? 1 3 = some log ∧
      (KeepsUp 4 log before four ∧ ∀ lost, .lagged lost ∉ given log before four) ∧
      given log before (four ++ more) = [.lagged 1, .message (trace "3"), .message (trace "4")] ∧
      ∃ waiting, Accounted (given log before (four ++ more))
        (["2", "3", "4", "5", "6"].map trace) waiting := by
  intro trace before four more
  obtain ⟨log, opened⟩ : ∃ log, TraceLog.open? 1 3 = some log := ⟨_, rfl⟩
  obtain ⟨size, least, -, answers⟩ := (nothing_lost 1 3).2 log opened
  obtain rfl : size = 4 := least.unique (Channel.powerAbove_isLeast 3)
  have keeps : KeepsUp 4 log before four := fun front first => by
    have fits : (recorded front).length ≤ 4 := (List.length_filterMap_le ..).trans first.length_le
    omega
  obtain ⟨-, ⟨_, -, -, kept⟩, -⟩ := answers before four
  obtain ⟨-, ⟨waiting, account, -⟩, -⟩ := answers before (four ++ more)
  refine ⟨log, opened, ⟨keeps, (kept keeps).1⟩, ?_, waiting, account⟩
  rw [(Hears.opened opened).given_eq]
  rfl

end Audience

end SignalFlow
