import SignalFlow.Proofs.Store.Descent
import SignalFlow.Run.State
/-!
# Bodies that keep below some keys of the root

* `Store.Does`         what a call below a key does to the entry under it (`Store.call_below`);
* `Store.Like`         two stores with the same below the keys `K`, whatever else they have;
* `Store.Keeps`        nothing has changed but below the keys `K`;
* `Path.Below`, `SyncProgram.Below`, `AsyncProgram.Below`, `Action.Below`
                       a path, a body or an action that keeps below the keys `K`.

All nine changes, refused or not, answer by what stands under the first key of their path, and change
nothing else at the root. So a body that keeps below `K` does the same on stores that are alike there
(`SyncProgram.Below.run_like`, `AsyncProgram.Below.resume_like`).
-/

namespace SignalFlow

/-! ## calls below a key of the root -/

namespace Store

theorem get?_below (key : String) (rest : Path) (store : Store) :
    store.get? (key :: rest) = (Fields.get? key store.fields).bind (Value.at? rest) := rfl

/-- the call does to every store what `effect` says of the entry under the key -/
def Does (key : String) (rest : Path) (call : Call) (effect : Deed.Effect) : Prop :=
  ∀ store : Store, store.call (key :: rest) call =
    (⟨(effect (Fields.get? key store.fields)).1.on key store.fields⟩,
      (effect (Fields.get? key store.fields)).2)

/-- **A call below a key of the root answers by what stands there**, and changes this entry only. -/
theorem call_below (key : String) (rest : Path) (call : Call) :
    ∃ effect, Does key rest call effect := by
  obtain ⟨effect, does⟩ := (call.deed (key :: rest)).on_object [] key rest
  refine ⟨effect, fun store => ?_⟩
  rw [call_eq, root, does]
  rfl

end Store

/-! ## stores -/

structure Store.Like (K : String → Prop) (s t : Store) : Prop where
  left : Fields.Sorted s.fields
  right : Fields.Sorted t.fields
  same : ∀ key, K key → Fields.get? key s.fields = Fields.get? key t.fields

def Store.Keeps (K : String → Prop) (before after : Store) : Prop :=
  ∀ key, ¬ K key → Fields.get? key after.fields = Fields.get? key before.fields

def Path.Below (K : String → Prop) : Path → Prop
  | [] => False
  | key :: _ => K key

section
variable {K L : String → Prop} {s t u : Store} {path : Path}

theorem Store.Keeps.refl (s : Store) : s.Keeps K s := fun _ _ => rfl

theorem Store.Keeps.trans (h : s.Keeps K t) (h' : t.Keeps K u) : s.Keeps K u :=
  fun key other => (h' key other).trans (h key other)

/-- a change below other keys leaves a store alike -/
theorem Store.Keeps.like (h : s.Keeps L u) (like : s.Like K t) (sorted : Fields.Sorted u.fields)
    (apart : ∀ key, K key → ¬ L key) : u.Like K t :=
  ⟨sorted, like.right, fun key own => (h key (apart key own)).trans (like.same key own)⟩

theorem Store.Like.get? (like : s.Like K t) (below : path.Below K) : s.get? path = t.get? path := by
  cases path with
  | nil => exact below.elim
  | cons key rest =>
    rw [Store.get?_below, Store.get?_below, like.same key below]

theorem Store.Like.call (like : s.Like K t) (below : path.Below K) (call : Call) :
    (s.call path call).2 = (t.call path call).2 ∧
      (s.call path call).1.Like K (t.call path call).1 ∧ s.Keeps K (s.call path call).1 := by
  cases path with
  | nil => exact below.elim
  | cons key rest =>
    obtain ⟨effect, does⟩ := Store.call_below key rest call
    have same := like.same key below
    rw [does s, does t, ← same]
    generalize effect (Fields.get? key s.fields) = done
    obtain ⟨edit, answer⟩ := done
    refine ⟨rfl, ⟨edit.sorted like.left, edit.sorted like.right, fun other own => ?_⟩, ?_⟩
    · by_cases first : other = key
      · subst first
        exact edit.get?_self like.left like.right same
      · show Fields.get? other (edit.on key s.fields) = Fields.get? other (edit.on key t.fields)
        rw [edit.get?_of_ne like.left first, edit.get?_of_ne like.right first]
        exact like.same other own
    · intro other outside
      have first : other ≠ key := fun e => outside (e ▸ below)
      exact edit.get?_of_ne like.left first

end

/-! ## bodies -/

section
variable (K : String → Prop)

/-- whatever it is answered, the body reads and writes below these keys only -/
def SyncProgram.Below : SyncProgram → Prop
  | finish _ => True
  | get path next => path.Below K ∧ ∀ found, (next found).Below
  | call path _ next => path.Below K ∧ ∀ answer, (next answer).Below
  | writable next => ∀ may, (next may).Below
  | mutations next => ∀ log, (next log).Below

/-- whatever it is answered, the body reads below these keys only -/
def AsyncProgram.Below : AsyncProgram → Prop
  | finish _ => True
  | get path next => path.Below K ∧ ∀ found, (next found).Below
  | wait _ next => next.Below
  | pause next => next.Below

/-- begun on these arguments, the body of the action keeps below these keys -/
def Action.Below (action : Action) (args : Args) : Prop :=
  match action.body with
  | .sync step => (step args).Below K
  | .async step => (step args).Below K

end

/-- two views of one kind, with the same log, on stores that are alike -/
structure View.Like (K : String → Prop) (v u : View) : Prop where
  writable : v.writable = u.writable
  log : v.log = u.log
  store : v.store.Like K u.store

section
variable {K : String → Prop}

theorem View.Like.call {v u : View} (like : v.Like K u) {path : Path} (below : path.Below K)
    (call : Call) :
    (v.call path call).2 = (u.call path call).2 ∧
      (v.call path call).1.Like K (u.call path call).1 ∧
      v.store.Keeps K (v.call path call).1.store := by
  have same := like.writable
  unfold View.call
  by_cases may : v.writable = true
  · rw [if_pos may, if_pos (same ▸ may)]
    obtain ⟨answer, after, keeps⟩ := like.store.call below call
    exact ⟨answer, ⟨same, congrArg (· ++ [Mutation.ofCall path call]) like.log, after⟩, keeps⟩
  · rw [if_neg may, if_neg (same ▸ may)]
    exact ⟨rfl, like, .refl _⟩

/-- a body that keeps below some keys does the same on stores that are alike there -/
theorem SyncProgram.Below.run_like {program : SyncProgram} (below : program.Below K) {v u : View}
    (like : v.Like K u) :
    (program.run v).2 = (program.run u).2 ∧ (program.run v).1.Like K (program.run u).1 ∧
      v.store.Keeps K (program.run v).1.store := by
  induction program generalizing v u with
  | finish result => exact ⟨rfl, like, .refl _⟩
  | get path next ih =>
    obtain ⟨own, behind⟩ := below
    rw [run, run, View.get?, View.get?, like.store.get? own]
    exact ih _ (behind _) like
  | call path change next ih =>
    obtain ⟨own, behind⟩ := below
    obtain ⟨answer, after, keeps⟩ := like.call own change
    have goes (view : View) : (call path change next).run view =
        (next (view.call path change).2).run (view.call path change).1 := rfl
    rw [goes, goes, ← answer]
    obtain ⟨result, ends, further⟩ := ih _ (behind _) after
    exact ⟨result, ends, keeps.trans further⟩
  | writable next ih =>
    rw [run, run, like.writable]
    exact ih _ (below _) like
  | mutations next ih =>
    rw [run, run, like.log]
    exact ih _ (below _) like

variable {s t : Store} {isOpen : String → Bool} {program : AsyncProgram}

theorem AsyncProgram.Below.resume_like (below : program.Below K) (like : s.Like K t) :
    program.resume isOpen s = program.resume isOpen t := by
  induction program with
  | finish result => rfl
  | get path next ih =>
    obtain ⟨own, behind⟩ := below
    rw [resume, resume, like.get? own]
    exact ih _ (behind _)
  | wait gate next ih =>
    rw [resume, resume]
    split
    · exact ih below
    · rfl
  | pause next => rfl

theorem AsyncProgram.Below.suspended {gate : Option String} {left : AsyncProgram}
    (below : program.Below K) (h : program.resume isOpen s = .suspended gate left) :
    left.Below K := by
  induction program with
  | finish result => cases h
  | get path next ih => exact ih _ (below.2 _) h
  | wait gate next ih =>
    rw [resume] at h
    split at h
    · exact ih below h
    · cases h
      exact below
  | pause next =>
    cases h
    exact below

theorem Action.Below.started_like {action : Action} {args : Args} (below : action.Below K args)
    (like : s.Like K t) :
    action.started args s = action.started args t ∧ (action.started args s).Below K := by
  unfold Action.Below at below
  unfold Action.started
  cases body : action.body with
  | sync step =>
    rw [body] at below
    have views : View.Like K { store := s, writable := false } { store := t, writable := false } :=
      ⟨rfl, rfl, like⟩
    exact ⟨congrArg AsyncProgram.finish (SyncProgram.Below.run_like below views).1, trivial⟩
  | async step =>
    rw [body] at below
    exact ⟨rfl, below⟩

end

end SignalFlow
