/-!
# What is seen first

* `enlist`   a list with one more element at its end, unless it has one like it already.

A list that is put together in this way is what `List.eraseDupsBy` keeps (`foldl_enlist`); no element of
it is like an earlier one (`pairwise_eraseDupsBy`).
-/

namespace SignalFlow

section
variable {α : Type u} (like : α → α → Bool)

/-- the list with the element at its end, unless the element is like one of the list -/
def enlist (seen : List α) (a : α) : List α :=
  if seen.any (like a) then seen else seen ++ [a]

theorem loop_eq_foldl (as bs : List α) :
    List.eraseDupsBy.loop like as bs = as.foldl (enlist like) bs.reverse := by
  induction as generalizing bs with
  | nil => rfl
  | cons a as ih =>
    rw [List.eraseDupsBy.loop, List.foldl_cons, enlist, List.any_reverse]
    cases bs.any (like a) with
    | true => exact ih bs
    | false => exact (ih (a :: bs)).trans (by rw [List.reverse_cons]; rfl)

theorem foldl_enlist (as : List α) : as.foldl (enlist like) [] = as.eraseDupsBy like :=
  (loop_eq_foldl like as []).symm

variable {like}

theorem mem_of_mem_enlist {seen : List α} {a b : α} (h : b ∈ enlist like seen a) : b ∈ seen ∨ b = a := by
  unfold enlist at h
  split at h
  · exact .inl h
  · exact (List.mem_append.mp h).imp_right List.mem_singleton.mp

theorem mem_of_mem_foldl_enlist {as seen : List α} {b : α} (h : b ∈ as.foldl (enlist like) seen) :
    b ∈ seen ∨ b ∈ as := by
  induction as generalizing seen with
  | nil => exact .inl h
  | cons a as ih =>
    rcases ih h with early | late
    · exact (mem_of_mem_enlist early).imp_right fun same => List.mem_cons.mpr (.inl same)
    · exact .inr (List.mem_cons_of_mem _ late)

theorem mem_of_mem_eraseDupsBy {as : List α} {b : α} (h : b ∈ as.eraseDupsBy like) : b ∈ as := by
  rw [← foldl_enlist] at h
  exact (mem_of_mem_foldl_enlist h).resolve_left List.not_mem_nil

theorem pairwise_enlist {seen : List α} (apart : seen.Pairwise fun a b => like b a = false) (a : α) :
    (enlist like seen a).Pairwise fun a b => like b a = false := by
  unfold enlist
  split
  · exact apart
  · next new =>
    refine List.pairwise_append.mpr ⟨apart, List.pairwise_singleton .., fun b hb c hc => ?_⟩
    rw [List.mem_singleton.mp hc]
    exact Bool.eq_false_iff.mpr fun same => new (List.any_eq_true.mpr ⟨b, hb, same⟩)

theorem pairwise_eraseDupsBy (as : List α) :
    (as.eraseDupsBy like).Pairwise fun a b => like b a = false := by
  rw [← foldl_enlist]
  generalize e : ([] : List α) = seen
  have apart : seen.Pairwise fun a b => like b a = false := e ▸ .nil
  clear e
  induction as generalizing seen with
  | nil => exact apart
  | cons a as ih => exact ih _ (pairwise_enlist apart a)

end

end SignalFlow
