/-
  Subject:   A family of first-in first-out queues kept in one list.

  An element carries the tag of its queue; an element is pushed at the end of the list, and `pop`
  takes the first one with the tag. So the elements of all queues can be counted at once.
-/
import Mathlib.Data.List.Perm.Basic
import Mathlib.Data.List.Basic

namespace PulseLog

open List

variable {κ α : Type*} [DecidableEq κ] {t u : κ} {a : α} {l l' : List (κ × α)}

/-- The queue with the tag. -/
def queueOf (t : κ) (l : List (κ × α)) : List α := (l.filter (fun x => x.1 = t)).map Prod.snd

def pop (t : κ) : List (κ × α) → Option (α × List (κ × α))
  | [] => none
  | x :: l => if x.1 = t then some (x.2, l) else (pop t l).map fun y => (y.1, x :: y.2)

theorem mem_queueOf : a ∈ queueOf t l ↔ (t, a) ∈ l := by
  constructor
  · intro h
    obtain ⟨x, hx, rfl⟩ := mem_map.mp h
    obtain ⟨hx, ht⟩ := mem_filter.mp hx
    have : x.1 = t := by simpa using ht
    rw [← this]
    exact hx
  · intro h
    exact mem_map.mpr ⟨(t, a), mem_filter.mpr ⟨h, by simp⟩, rfl⟩

theorem queueOf_append (l l' : List (κ × α)) :
    queueOf t (l ++ l') = queueOf t l ++ queueOf t l' := by
  unfold queueOf
  rw [filter_append, map_append]

section

variable (h : pop t l = some (a, l'))
include h

/-- The popped element is the first one with its tag. -/
theorem pop_some : ∃ front back, l = front ++ (t, a) :: back ∧
    l' = front ++ back ∧ queueOf t front = [] := by
  induction l generalizing l' with
  | nil => simp [pop] at h
  | cons x l ih =>
    unfold pop at h
    split at h
    · rename_i hx
      cases h
      exact ⟨[], l, by rw [← hx]; rfl, rfl, rfl⟩
    · obtain ⟨⟨b, l''⟩, hy, he⟩ := Option.map_eq_some_iff.mp h
      cases he
      obtain ⟨front, back, rfl, rfl, hfront⟩ := ih hy
      exact ⟨x :: front, back, rfl, rfl, by simpa [queueOf, *] using hfront⟩

theorem pop_perm : l.Perm ((t, a) :: l') := by
  obtain ⟨front, back, rfl, rfl, -⟩ := pop_some h
  exact perm_middle

/-- The popped element was the head of its queue. -/
theorem queueOf_pop : queueOf t l = a :: queueOf t l' := by
  obtain ⟨front, back, rfl, rfl, hfront⟩ := pop_some h
  rw [queueOf_append, queueOf_append, hfront]
  simp [queueOf]

theorem queueOf_pop_of_ne (hne : u ≠ t) :
    queueOf u l' = queueOf u l := by
  obtain ⟨front, back, rfl, rfl, -⟩ := pop_some h
  simp [queueOf, hne.symm]

end

theorem pop_none (h : pop t l = none) : queueOf t l = [] := by
  induction l with
  | nil => rfl
  | cons x l ih =>
    unfold pop at h
    split at h
    · simp at h
    · simpa [queueOf, *] using ih (Option.map_eq_none_iff.mp h)

/-- An element that waits in a queue is popped, or comes one place nearer to the front. -/
theorem pop_idxOf [DecidableEq α] {b : α} (h : pop t l = some (b, l')) (ha : a ∈ queueOf t l) :
    a = b ∨ a ∈ queueOf t l' ∧ (queueOf t l').idxOf a + 1 = (queueOf t l).idxOf a := by
  rw [queueOf_pop h] at ha ⊢
  by_cases hab : a = b
  · exact .inl hab
  · refine .inr ⟨(mem_cons.mp ha).resolve_left hab, ?_⟩
    rw [idxOf_cons_ne _ (Ne.symm hab)]

end PulseLog
