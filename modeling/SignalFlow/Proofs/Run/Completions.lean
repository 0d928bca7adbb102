import SignalFlow.Proofs.Json.Fields
import SignalFlow.Proofs.Run.LifeCycle
/-!
# The arguments of a run are its completions, one over the other

* `Completion`       a step that has ended, its payload and the output it took;
* `completions`      those of a journal, in this order;
* `overlaid`         the arguments with the entries of their payloads laid over them;
* `Slot.Reports`     the slot shows the completion, and the body can have led to it;
* `Accounts`         the arguments are those overlaid, and the completions are the executed branches.

A change that ends no step leaves the accounts as they are (`Accounts.same`), and one that does adds its
completion (`Accounts.finish`). Arguments are copied into a slot when its step begins, at no other
moment (`moment_of_seen`). `Run.Later.args_eq_overlaid`: no payload is lost, and no key.
-/

namespace SignalFlow

open Branch Relation

/-! ## journals -/

/-- the entries of an object; any other value has none -/
def Value.entries : Value → Args
  | .object fields => fields
  | _ => []

theorem Shared.mergeArgs_eq (args : Args) (payload : Value) :
    mergeArgs args payload = Fields.merge args payload.entries := by
  cases payload <;> rfl

/-- a step that has ended -/
structure Completion where
  id : Nat
  payload : Value
  output : Option String

/-- the completion that this entry tells of -/
def Event.completion? : Event → Option Completion
  | .ended number payload output => some ⟨number, payload, output⟩
  | .began .. | .givenUp _ => none

/-- the steps that have ended, in this order -/
def completions (journal : List Event) : List Completion := journal.filterMap Event.completion?

/-- the arguments with the payloads of the steps that have ended laid over them, one after the other -/
def overlaid (initial : Args) (journal : List Event) : Args :=
  (completions journal).foldl (fun args c => Fields.merge args c.payload.entries) initial

section
variable (front back : List Event) (initial : Args)

theorem completions_append :
    completions (front ++ back) = completions front ++ completions back := List.filterMap_append

theorem overlaid_append :
    overlaid initial (front ++ back) = overlaid (overlaid initial front) back := by
  unfold overlaid
  rw [completions_append, List.foldl_append]

theorem overlaid_eq_merge (journal : List Event) :
    overlaid initial journal =
      Fields.merge initial ((completions journal).flatMap (·.payload.entries)) := by
  unfold overlaid
  induction completions journal generalizing initial with
  | nil => rfl
  | cons c rest ih => rw [List.foldl_cons, ih, List.flatMap_cons, Fields.merge_append]

/-- under each key stands what the last payload with this key has laid there -/
theorem get?_overlaid (key : String) (journal : List Event) :
    Fields.get? key (overlaid initial journal) =
      (((completions journal).flatMap (·.payload.entries)).reverse.lookup key).or
        (Fields.get? key initial) := by
  rw [overlaid_eq_merge, Fields.get?_merge]

end

/-! ## accounts -/

/-- the slot shows what the step has ended with, and the body of the step led to it -/
structure Slot.Reports (policy : Policy) (b : Branch) (slot : Slot) (c : Completion) : Prop where
  output : slot.output = if c.payload.isNull then none else some c.payload
  outputPath : slot.outputPath = c.output
  led : ∃ args result, slot.args = some args ∧ b.action.Gives args result ∧
    b.Yields policy result c.output c.payload

/-- the one slot shows an end if the other does, and the same one -/
def Slot.EndsAs (x y : Slot) : Prop :=
  y.hasExecuted = x.hasExecuted ∧
    (x.hasExecuted = true → y.args = x.args ∧ y.output = x.output ∧ y.outputPath = x.outputPath)

theorem Slot.EndsAs.refl (slot : Slot) : slot.EndsAs slot := ⟨rfl, fun _ => ⟨rfl, rfl, rfl⟩⟩

/-- the arguments are those that the completions lead to, and the completions are the executed
branches, each once -/
structure Accounts (policy : Policy) (bs : List Branch) (initial : Args) (shared : Shared) :
    Prop where
  args : shared.args = overlaid initial shared.journal
  once : ((completions shared.journal).map Completion.id).Nodup
  ended : ∀ id, id ∈ (completions shared.journal).map Completion.id ↔
    (shared.slot id).hasExecuted = true
  shown : ∀ c ∈ completions shared.journal, ∃ b ∈ bs, b.id = c.id ∧
    (shared.slot b.id).Reports policy b c

section
variable {policy : Policy} {bs : List Branch} {initial : Args} {shared after : Shared}

theorem accounts_initial (args : Args) (size : Nat) :
    Accounts policy bs args (.initial args size) := by
  refine ⟨rfl, List.nodup_nil, fun id => ?_, fun _ hc => nomatch hc⟩
  rw [Shared.slot_initial]
  exact iff_of_false List.not_mem_nil Bool.false_ne_true

theorem Accounts.same (h : Accounts policy bs initial shared) (args : after.args = shared.args)
    (quiet : completions after.journal = completions shared.journal)
    (kept : ∀ id, (shared.slot id).EndsAs (after.slot id)) :
    Accounts policy bs initial after := by
  refine ⟨?_, quiet ▸ h.once, fun id => ?_, fun c hc => ?_⟩
  · rw [args, h.args]
    unfold overlaid
    rw [quiet]
  · rw [quiet, (kept id).1]
    exact h.ended id
  · rw [quiet] at hc
    obtain ⟨b, hb, own, reports⟩ := h.shown c hc
    have executed : (shared.slot b.id).hasExecuted = true := by
      rw [own]
      exact (h.ended c.id).mp (List.mem_map_of_mem hc)
    obtain ⟨args, output, outputPath⟩ := (kept b.id).2 executed
    refine ⟨b, hb, own, output.trans reports.output, outputPath.trans reports.outputPath, ?_⟩
    rw [args]
    exact reports.led

theorem Accounts.finish {b : Branch} {args : Args} {result : StepResult} {output : Option String}
    {payload : Value} (h : Accounts policy bs initial shared) (elapsed : Nat) (hb : b ∈ bs)
    (inside : b.id < shared.slots.length) (running : (shared.slot b.id).Running)
    (seen : (shared.slot b.id).args = some args) (gives : b.action.Gives args result)
    (yields : b.Yields policy result output payload) :
    Accounts policy bs initial (shared.finish b output payload elapsed) := by
  let c : Completion := ⟨b.id, payload, output⟩
  have listed : completions (shared.finish b output payload elapsed).journal =
      completions shared.journal ++ [c] := completions_append _ [.ended b.id payload output]
  have own : (shared.finish b output payload elapsed).slot b.id = { shared.slot b.id with
      output := if payload.isNull then none else some payload
      outputPath := output
      duration := some elapsed
      isExecuting := false
      hasExecuted := true } := Shared.slot_updateSlot inside _
  have frame : Frame [b] shared (shared.finish b output payload elapsed) := Shared.frame_finish ..
  have others (id : Nat) (other : b.id ≠ id) :
      (shared.finish b output payload elapsed).slot id = shared.slot id :=
    frame.same id (List.forall_mem_singleton.mpr other)
  have absent : b.id ∉ (completions shared.journal).map Completion.id := by
    rw [h.ended, running.pending]
    exact Bool.false_ne_true
  refine ⟨?_, ?_, fun id => ?_, fun d hd => ?_⟩
  · show Shared.mergeArgs shared.args payload =
      overlaid initial (shared.journal ++ [.ended b.id payload output])
    rw [overlaid_append, ← h.args, Shared.mergeArgs_eq]
    rfl
  · rw [listed, List.map_append, List.map_singleton, ← List.concat_eq_append]
    exact h.once.concat absent
  · rw [listed, List.map_append, List.mem_append]
    by_cases same : b.id = id
    · subst same
      rw [own]
      exact iff_of_true (.inr (List.mem_singleton_self _)) rfl
    · rw [others id same, ← h.ended]
      exact or_iff_left fun last => same (List.mem_singleton.mp last).symm
  · rw [listed, List.mem_append, List.mem_singleton] at hd
    rcases hd with hd | rfl
    · obtain ⟨e, he, same, reports⟩ := h.shown d hd
      have other : b.id ≠ e.id := fun clash =>
        absent (clash ▸ same ▸ List.mem_map_of_mem hd)
      rw [← others e.id other] at reports
      exact ⟨e, he, same, reports⟩
    · refine ⟨b, hb, rfl, ?_⟩
      rw [own]
      exact ⟨rfl, rfl, args, result, seen, gives, yields⟩

theorem Shared.Change.accounts (change : Shared.Change policy bs shared after)
    (h : Accounts policy bs initial shared) : Accounts policy bs initial after := by
  cases change with
  | @begin b _ inside fresh =>
    have own := Shared.slot_begin inside
    have frame : Frame [b] shared (shared.begin b) := Shared.frame_begin
    have quiet : completions (shared.begin b).journal = completions shared.journal := by
      rw [show (shared.begin b).journal = shared.journal ++ [.began b.id shared.args] from rfl,
        completions_append]
      exact List.append_nil _
    refine h.same rfl quiet fun id => ?_
    by_cases same : b.id = id
    · subst same
      rw [own, fresh]
      exact ⟨rfl, fun executed => nomatch executed⟩
    · rw [frame.same id (List.forall_mem_singleton.mpr same)]
      exact .refl _
  | @log b log _ _ _ =>
    refine h.same rfl rfl fun id => ?_
    rcases shared.slot_updateSlot_or b.id id fun slot => { slot with mutations := log } with same | same
    · exact same ▸ .refl _
    · exact same ▸ .refl _
  | finish elapsed hb inside running seen gives yields =>
    exact h.finish elapsed hb inside running seen gives yields
  | @abandon b elapsed _ _ _ =>
    have quiet : completions (shared.abandon b elapsed).journal = completions shared.journal := by
      rw [show (shared.abandon b elapsed).journal = shared.journal ++ [.givenUp b.id] from rfl,
        completions_append]
      exact List.append_nil _
    refine h.same rfl quiet fun id => ?_
    show (shared.slot id).EndsAs ((shared.updateSlot b.id fun slot =>
      { slot with duration := some elapsed, isExecuting := false }).slot id)
    rcases shared.slot_updateSlot_or b.id id fun slot =>
      { slot with duration := some elapsed, isExecuting := false } with same | same
    · exact same ▸ .refl _
    · exact same ▸ .refl _
  | like like =>
    refine h.same like.args (congrArg completions like.journal) fun id => ?_
    rcases like.slot id with same | same
    · exact same ▸ .refl _
    · exact same ▸ .refl _

theorem Accounts.row (h : Accounts policy bs initial shared)
    (row : ReflTransGen (Shared.Change policy bs) shared after) :
    Accounts policy bs initial after := by
  induction row with
  | refl => exact h
  | tail _ last ih => exact last.accounts ih

end

/-! ## the moment at which a step begins -/

section
variable {policy : Policy} {bs : List Branch} {first shared after : Shared}

theorem Shared.Change.journal_prefix (change : Shared.Change policy bs shared after) :
    shared.journal <+: after.journal := by
  cases change with
  | begin | finish | abandon => exact List.prefix_append ..
  | log => exact List.prefix_refl _
  | like like => exact like.journal ▸ List.prefix_refl _

theorem journal_prefix_row (row : ReflTransGen (Shared.Change policy bs) shared after) :
    shared.journal <+: after.journal := by
  induction row with
  | refl => exact List.prefix_refl _
  | tail _ last ih => exact ih.trans last.journal_prefix

theorem Shared.Change.keeps_key (change : Shared.Change policy bs shared after) {key : String}
    (there : (Fields.get? key shared.args).isSome = true) :
    (Fields.get? key after.args).isSome = true := by
  cases change with
  | begin | log | abandon => exact there
  | finish =>
    show (Fields.get? key (Shared.mergeArgs shared.args _)).isSome = true
    rw [Shared.mergeArgs_eq]
    exact Fields.isSome_get?_merge _ there
  | like like => rwa [like.args]

/-- a step that has seen arguments has begun with those of that moment -/
theorem moment_of_seen (unique : Unique bs)
    (changes : ReflTransGen (Shared.Change policy bs) first after) {b : Branch} (hb : b ∈ bs)
    (fresh : first.slot b.id = {}) {args : Args} (seen : (after.slot b.id).args = some args) :
    ∃ moment, ReflTransGen (Shared.Change policy bs) first moment ∧
      moment.slot b.id = {} ∧ moment.args = args ∧
      ReflTransGen (Shared.Change policy bs) (moment.begin b) after := by
  induction changes with
  | refl =>
    rw [fresh] at seen
    cases seen
  | @tail shared after changes last ih =>
    cases before : (shared.slot b.id).args with
    | some earlier =>
      have same := Slot.args_of_moves (last.moves unique hb) before
      rw [seen] at same
      cases same
      obtain ⟨moment, front, untouched, own, back⟩ := ih before
      exact ⟨moment, front, untouched, own, back.tail last⟩
    | none =>
      rcases last.begins with ⟨c, hc, inside, untouched, rfl⟩ | ⟨-, kept⟩
      · have own : c.id = b.id := by
          by_contra other
          have frame : Frame [c] shared (shared.begin c) := Shared.frame_begin
          rw [frame.same b.id (List.forall_mem_singleton.mpr other), before] at seen
          cases seen
        obtain rfl := unique.eq hc hb own
        have shown : (shared.begin c).slot c.id = { args := some shared.args, isExecuting := true } :=
          Shared.slot_updateSlot inside _
        rw [shown] at seen
        cases seen
        exact ⟨shared, changes, untouched, rfl, .refl⟩
      · rw [kept, before] at seen
        cases seen

end

namespace Run

variable {name : String} {policy : Policy} {definition : List Chain} {signal : Signal}
  {id : String} {startedAt : Timestamp} {input : Signal.Input} {first run after : Run}

theorem start_shared (started : signal.start id startedAt input = .ok first) :
    signal.prepareArgs input = .ok first.shared.args ∧
      first.shared = .initial first.shared.args signal.tree.size := by
  obtain ⟨args, prepared, rfl⟩ := Signal.start_eq started
  exact ⟨prepared, rfl⟩

theorem accounts_start (started : signal.start id startedAt input = .ok first) (policy : Policy)
    (bs : List Branch) : Accounts policy bs first.shared.args first.shared := by
  rw [(start_shared started).2]
  exact accounts_initial ..

/-- **The arguments of a run are those it was started with, with the payloads of the steps that have
ended laid over them in the order in which they ended**, so that under each key stands what the last
object with this key has laid there. The journal lists each executed branch once, with the output and
the payload that the policy makes of what its body came to. It only grows, and no key is lost. What a
step has seen are the arguments at the moment at which it began. -/
theorem Later.args_eq_overlaid (created : Signal.create name policy definition = .ok signal)
    (started : signal.start id startedAt input = .ok first) (later : Later first run) :
    let initial := first.shared.args
    let ended := completions run.shared.journal
    let Row := ReflTransGen (Shared.Change policy signal.tree.specs)
    signal.prepareArgs input = .ok initial ∧
    (run.shared.args = overlaid initial run.shared.journal ∧
      ∀ key, Fields.get? key run.shared.args =
        ((ended.flatMap (·.payload.entries)).reverse.lookup key).or (Fields.get? key initial)) ∧
    ((ended.map Completion.id).Nodup ∧
      (∀ number, number ∈ ended.map Completion.id ↔
        (run.shared.slot number).hasExecuted = true) ∧
      ∀ c ∈ ended, ∃ b ∈ signal.tree.specs, b.id = c.id ∧
        (run.shared.slot b.id).Reports policy b c) ∧
    (∀ after, Later run after → run.shared.journal <+: after.shared.journal ∧
      ∀ key, (Fields.get? key run.shared.args).isSome = true →
        (Fields.get? key after.shared.args).isSome = true) ∧
    ∀ b ∈ signal.tree.specs, ∀ args, (run.shared.slot b.id).args = some args →
      ∃ moment, Row first.shared moment ∧ moment.slot b.id = {} ∧ moment.args = args ∧
        moment.args = overlaid initial moment.journal ∧ Row (moment.begin b) run.shared ∧
        moment.journal ++ [.began b.id args] <+: run.shared.journal := by
  have reachable := later.reachable (.start started)
  obtain ⟨prepared, begun⟩ := start_shared started
  have changes := later.changes created (.start started)
  have unique := (Signal.numbered created).unique
  obtain ⟨accepted, rfl⟩ := Signal.create_eq created
  rw [Tree.specs_compile accepted]
  dsimp only
  have now : Accounts policy (allOf (Tree.compile definition).branches) first.shared.args
      first.shared := by
    rw [begun]
    exact accounts_initial ..
  have own := now.row changes
  refine ⟨prepared, ⟨own.args, fun key => ?_⟩, ⟨own.once, own.ended, own.shown⟩,
    fun after later => ⟨journal_prefix_row (later.changes created reachable), fun key there => ?_⟩,
    fun b hb args seen => ?_⟩
  · rw [own.args, get?_overlaid]
  · refine later.invariant (P := fun shared => (Fields.get? key shared.args).isSome = true) created
      ?_ reachable there
    exact fun _ _ change => change.keeps_key
  · have fresh : first.shared.slot b.id = {} := by
      rw [begun, Shared.slot_initial]
    obtain ⟨moment, front, untouched, same, back⟩ := moment_of_seen unique changes hb fresh seen
    refine ⟨moment, front, untouched, same, (now.row front).args, back, ?_⟩
    have shown : moment.journal ++ [.began b.id args] = (moment.begin b).journal := by
      rw [← same]
      rfl
    rw [shown]
    exact journal_prefix_row back

/-- two members lay something under one key, the second first, and a step behind them fails, whose
message is a payload -/
theorem args_eq_overlaid_again :
    let ask : Action := ⟨0, "ask", [], none, .async fun _ =>
      .wait "door" (.finish (.ok (.ofPayload (.object [("n", .bool true)]))))⟩
    let load : Action := ⟨1, "load", [], none, .async fun _ =>
      .finish (.ok (.ofPayload (.object [("m", .null), ("n", .bool false)])))⟩
    let send : Action := ⟨2, "send", [], none, .sync fun _ => .finish (.error "full")⟩
    let note : Action := ⟨3, "note", [], none, .sync fun _ => .finish (.ok (.ofPayload (.string "a")))⟩
    let definition := [Chain.parallel [.action ask, .action load], .action send, .action note]
    ∃ signal first run, Signal.create "page" .errorOutput definition = .ok signal ∧
      signal.start "r" default (.data (.object [("k", .null)])) = .ok first ∧ Later first run ∧
      run.settled.isSome = true ∧
      (completions run.shared.journal).map Completion.id = [1, 0, 2, 3] ∧
      run.shared.args.map Prod.fst = ["error", "k", "m", "n"] ∧
      run.shared.args = overlaid first.shared.args run.shared.journal ∧
      ((completions run.shared.journal).map Completion.id).Nodup := by
  intro ask load send note definition
  let signal : Signal := ⟨"page", Tree.compile definition, .errorOutput⟩
  have created : Signal.create "page" .errorOutput definition = .ok signal := rfl
  let first : Run :=
    { id := "r", signal, startedAt := default
      shared := .initial [("k", .null)] signal.tree.size, walk := .ready signal.tree.branches }
  have started : signal.start "r" default (.data (.object [("k", .null)])) = .ok first := rfl
  have later : Later first _ := ((Later.now.poll (fun _ => false) 0 default).gateOpened "door").poll
    (fun gate => gate == "door") 0 default
  obtain ⟨-, ⟨args, -⟩, ⟨once, -⟩, -⟩ := later.args_eq_overlaid created started
  exact ⟨signal, _, _, created, started, later, by decide +kernel, by decide +kernel,
    by decide +kernel, args, once⟩

end Run

end SignalFlow
