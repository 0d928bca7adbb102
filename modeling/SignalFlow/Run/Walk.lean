import SignalFlow.Run.State
/-!
# Walks through a tree

A walk goes through a list of items; at a group it splits into one walk for each member and goes on
when all of them are done.

* `ready`     items still to be run; with no item left the walk is done;
* `awaiting`  a member whose own step has begun; its walk goes on through the output that it takes;
* `joined`    a group that has begun, and the items behind it;
* `stalled`   a failed step that is never left;
* `failed`    an error that ends the walk.

A walk goes on only when it is polled. In a small group every poll visits the unfinished members in
order, and the first error ends the group at once. A larger group keeps a queue of the members that
asked to be polled, and finds its errors in the order of the members: an error counts when all
members before it are done.
-/

namespace SignalFlow

inductive Walk
  | ready (items : List (Item Branch))
  | awaiting (branch : Branch) (program : AsyncProgram)
  /-- a small group has no queue -/
  | joined (members : List Walk) (queue : Option (List Nat)) (rest : List (Item Branch))
  | stalled (branch : Branch)
  | failed (error : RunError)
  deriving Inhabited

/-! ## weights

The weight of a walk bounds the steps that one poll of it can take. -/

mutual

def Branch.weight : Branch → Nat
  | .mk _ (some outputs) => 1 + outputsWeight outputs
  | .mk _ none => 1

def outputsWeight : List (String × List (Item Branch)) → Nat
  | [] => 0
  | (_, items) :: rest => itemsWeight items + outputsWeight rest

def itemsWeight : List (Item Branch) → Nat
  | [] => 0
  | .step b :: rest => 2 + b.weight + itemsWeight rest
  | .group members :: rest => 2 + branchesWeight members + itemsWeight rest

def branchesWeight : List Branch → Nat
  | [] => 0
  | b :: rest => b.weight + branchesWeight rest

end

namespace Walk

mutual

def weight : Walk → Nat
  | ready items => itemsWeight items
  | awaiting b _ => b.weight
  | joined members _ rest => 1 + weights members + itemsWeight rest
  | stalled _ | failed _ => 0

def weights : List Walk → Nat
  | [] => 0
  | walk :: rest => weight walk + weights rest

end

def isDone : Walk → Bool
  | ready [] => true
  | _ => false

def error? : Walk → Option RunError
  | failed error => some error
  | _ => none

def isPending (walk : Walk) : Bool := !walk.isDone && walk.error?.isNone

/-! ## groups -/

/-- the most members of a group without a queue -/
def smallGroup : Nat := 30

/-- begin the members in order; none sees a change made by another -/
def start : List Branch → World → World × List Walk
  | [], w => (w, [])
  | b :: rest, w =>
    let program := b.action.started w.shared.args w.store
    let (after, walks) := start rest { w with shared := w.shared.begin b }
    (after, awaiting b program :: walks)

/-- the walk of a group whose members have begun; at first all members are to be polled -/
def joinedOf (members : List Walk) (rest : List (Item Branch)) : Walk :=
  joined members
    (if members.length ≤ smallGroup then none else some (List.range members.length)) rest

/-- what a poll comes to: the world, the walk, and whether it asks to be polled again -/
structure Polled where
  world : World
  walk : Walk
  woken : Bool

/-- what a poll of the members of a group comes to -/
structure Round where
  world : World
  members : List Walk
  queue : List Nat := []
  woken : Bool := false

/-- poll the unfinished members in order up to the first error; `index` is that of the first -/
def pollEach (poll : Nat → Walk → World → Polled) (index : Nat) :
    List Walk → World → Round
  | [], w => { world := w, members := [] }
  | walk :: rest, w =>
    if walk.isDone then
      let round := pollEach poll (index + 1) rest w
      { round with members := walk :: round.members }
    else
      let polled := poll index walk w
      if polled.walk.error?.isSome then
        { world := polled.world, members := polled.walk :: rest, woken := polled.woken }
      else
        let round := pollEach poll (index + 1) rest polled.world
        { round with members := polled.walk :: round.members, woken := polled.woken || round.woken }

/-- the error of the first member that has one -/
def firstError? (members : List Walk) : Option RunError := members.findSome? error?

/-- the error of a member before which all are done -/
def earliestError? : List Walk → Option RunError
  | [] => none
  | walk :: rest => if walk.isDone then earliestError? rest else walk.error?

/-- the members that are neither done nor failed -/
def unfinished (members : List Walk) : Nat := members.countP isPending

/-- poll the members in the queue. The group asks to be polled again and stops for now when two
members have asked for it, or when `left` more polls have found nothing finished -/
def pollQueued (poll : Nat → Walk → World → Polled) : Nat → (left yielded : Nat) → Round → Round
  | 0, _, _, round => round
  | fuel + 1, left, yielded, round =>
    match round.queue with
    | [] => round
    | index :: queue =>
      match round.members[index]? with
      | none => pollQueued poll fuel left yielded { round with queue }
      | some walk =>
        let polled := poll index walk round.world
        let members := round.members.set index polled.walk
        let woken := round.woken || polled.woken
        if polled.walk.isPending then
          let queue := if polled.woken then queue ++ [index] else queue
          let yielded := if polled.woken then yielded + 1 else yielded
          if 2 ≤ yielded ∨ left ≤ 1 then ⟨polled.world, members, queue, true⟩
          else pollQueued poll fuel (left - 1) yielded ⟨polled.world, members, queue, woken⟩
        else
          let round := ⟨polled.world, members, queue, woken⟩
          if (earliestError? members).isSome || members.all isDone then round
          else pollQueued poll fuel (unfinished members) 0 round

/-- poll a group: the round, and the error that ends the group if there is one -/
def pollGroup (poll : Nat → Walk → World → Polled) (members : List Walk)
    (queue : Option (List Nat)) (w : World) : Round × Option RunError :=
  match queue with
  | none =>
    let round := pollEach poll 0 members w
    (round, firstError? round.members)
  | some queue =>
    let fuel := (members.length + 1) * (members.length + 1)
    let round := pollQueued poll fuel (unfinished members) 0 { world := w, members, queue }
    (round, earliestError? round.members)

/-! ## polling -/

/-- poll a walk that stands at `here`; `fuel` is more than its weight -/
def pollWith (s : Setting) : Nat → Address → Walk → World → Polled
  | 0, _, walk, w => ⟨w, walk, false⟩
  | fuel + 1, here, walk, w =>
    match walk with
    | ready [] => ⟨w, ready [], false⟩
    | ready (.step b :: rest) =>
      match b.action.body with
      | .sync step =>
        match s.runSync b step w with
        | (w, .follow items) => pollWith s fuel here (ready (items ++ rest)) w
        | (w, .stall) => ⟨w, stalled b, false⟩
        | (w, .fail error) => ⟨w, failed error, false⟩
      | .async _ =>
        let (w, members) := start [b] w
        pollWith s fuel here (joinedOf members rest) w
    | ready (.group bs :: rest) =>
      let (w, members) := start bs w
      pollWith s fuel here (joinedOf members rest) w
    | awaiting b program =>
      match program.resume s.isOpen w.store with
      | .suspended (some gate) program =>
        ⟨{ w with shared := w.shared.waitAt gate here }, awaiting b program, false⟩
      | .suspended none program => ⟨w, awaiting b program, true⟩
      | .finished result =>
        match s.settle b result w.shared with
        | (shared, .follow items) => pollWith s fuel here (ready items) { w with shared }
        | (shared, .stall) => ⟨{ w with shared }, stalled b, false⟩
        | (shared, .fail error) => ⟨{ w with shared }, failed error, false⟩
    | joined members queue rest =>
      let (round, error) :=
        pollGroup (fun index => pollWith s fuel (here ++ [index])) members queue w
      match error with
      | some error => ⟨round.world, failed error, round.woken⟩
      | none =>
        if round.members.all isDone then
          let polled := pollWith s fuel here (ready rest) round.world
          { polled with woken := round.woken || polled.woken }
        else ⟨round.world, joined round.members (queue.map fun _ => round.queue) rest, round.woken⟩
    | stalled b => ⟨w, stalled b, false⟩
    | failed error => ⟨w, failed error, false⟩

/-- poll the walk of a run -/
def poll (s : Setting) (walk : Walk) (w : World) : Polled :=
  pollWith s (walk.weight + 1) [] walk w

/-! ## waking -/

/-- a walk further in can go on, and says so to whoever polls it. A group with a queue puts the member
at the end of it and passes the word on, unless the member has ended or is in the queue already. The
flag says whether the word has come all the way out -/
def wake : Address → Walk → Walk × Bool
  | index :: address, joined members queue rest =>
    match members[index]? with
    | none => (joined members queue rest, false)
    | some member =>
      let (woken, reached) := wake address member
      let members := members.set index woken
      match queue with
      | none => (joined members none rest, reached)
      | some waiting =>
        if reached && member.isPending && !waiting.contains index then
          (joined members (some (waiting ++ [index])) rest, true)
        else (joined members (some waiting) rest, false)
  | _, walk => (walk, true)

end Walk

end SignalFlow
