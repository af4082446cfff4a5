/-
  Subject:   Binary search on a list, as the standard library's `lower_bound` runs it.

  * `bisect` -- the halving loop on an index range; `lowerBound` -- the loop over a list, with the
    predicate that says "this element is before the searched place" (`upper_bound` is the same
    loop with "not after the value");
  * `lowerBound_eq` -- on a list the predicate cuts in two, the loop ends at the cut;
  * `lowerBound_le`, `take_lowerBound` -- what callers use.

  The halving loop is defined on every list, also on one the predicate does not cut in two (the
  C++ precondition is broken there); it then ends SOMEWHERE inside the list.
-/
import Mathlib.Data.List.TakeWhile
import Mathlib.Tactic.Common

namespace PulseLog

open List

variable {α : Type}

/-- The halving loop: `before i` says that index `i` lies before the searched place. -/
def bisect (before : Nat → Bool) : Nat → Nat → Nat → Nat
  | 0, first, _ => first
  | fuel + 1, first, len =>
    if len = 0 then first
    else if before (first + len / 2) then bisect before fuel (first + len / 2 + 1)
      (len - len / 2 - 1)
    else bisect before fuel first (len / 2)

/-- The first index at which `before` no longer holds, by halving. -/
def lowerBound (before : α → Bool) (l : List α) : Nat :=
  bisect (fun i => (l[i]?.map before).getD false) l.length 0 l.length

/-- The loop never leaves its range. -/
theorem bisect_le (before : Nat → Bool) : ∀ (fuel first len : Nat),
    bisect before fuel first len ≤ first + len
  | 0, first, len => by simp [bisect]
  | fuel + 1, first, len => by
    unfold bisect
    split
    · omega
    · split
      · have := bisect_le before fuel (first + len / 2 + 1) (len - len / 2 - 1)
        omega
      · have := bisect_le before fuel first (len / 2)
        omega

/-- **The loop ends at the cut** `k`, when the predicate holds exactly below `k`. -/
theorem bisect_eq (before : Nat → Bool) (k : Nat) : ∀ (fuel first len : Nat), len ≤ fuel →
    first ≤ k → k ≤ first + len → (∀ i, first ≤ i → i < first + len → (before i = true ↔ i < k)) →
    bisect before fuel first len = k
  | 0, first, len, hf, h1, h2, _ => by
    simp only [bisect]
    omega
  | fuel + 1, first, len, hf, h1, h2, hb => by
    unfold bisect
    by_cases h0 : len = 0
    · rw [if_pos h0]
      omega
    · rw [if_neg h0]
      have hmid := hb (first + len / 2) (by omega) (by omega)
      by_cases hm : before (first + len / 2) = true
      · rw [if_pos hm]
        have hlt := hmid.mp hm
        exact bisect_eq before k fuel _ _ (by omega) (by omega) (by omega)
          (fun i h3 h4 => hb i (by omega) (by omega))
      · rw [if_neg hm]
        have hge : ¬ first + len / 2 < k := fun h => hm (hmid.mpr h)
        exact bisect_eq before k fuel _ _ (by omega) h1 (by omega)
          (fun i h3 h4 => hb i h3 (by omega))

section

variable (before : α → Bool)

theorem lowerBound_le (l : List α) : lowerBound before l ≤ l.length := by
  have := bisect_le (fun i => (l[i]?.map before).getD false) l.length 0 l.length
  unfold lowerBound
  omega

/-- The predicate cuts the list `l₁ ++ l₂` between its parts: the loop answers the length of the
    first. -/
theorem lowerBound_eq (l₁ l₂ : List α) (h₁ : ∀ x ∈ l₁, before x = true)
    (h₂ : ∀ x ∈ l₂, before x = false) : lowerBound before (l₁ ++ l₂) = l₁.length := by
  refine bisect_eq _ l₁.length _ 0 _ (Nat.le_refl _) (Nat.zero_le _) (by simp) fun i _ hi => ?_
  by_cases hlt : i < l₁.length
  · rw [getElem?_append_left hlt]
    simp [h₁ _ (getElem_mem hlt), hlt]
  · have hlen : i - l₁.length < l₂.length := by
      rw [length_append] at hi
      omega
    rw [getElem?_append_right (by omega), getElem?_eq_getElem hlen]
    simp [h₂ _ (getElem_mem hlen), hlt]

/-- On a list sorted for the predicate, what the loop keeps is the part that satisfies it. -/
theorem take_lowerBound (l : List α)
    (h : l.Pairwise fun x y => before y = true → before x = true) :
    l.take (lowerBound before l) = l.filter before := by
  have hsplit : l.takeWhile before ++ l.dropWhile before = l := takeWhile_append_dropWhile
  have h₁ : ∀ x ∈ l.takeWhile before, before x = true := fun x hx => mem_takeWhile_imp hx
  have h₂ : ∀ x ∈ l.dropWhile before, before x = false := by
    intro x hx
    cases hd : l.dropWhile before with
    | nil => rw [hd] at hx; exact absurd hx not_mem_nil
    | cons y ys =>
      have hy : before y = false := by
        have := head_dropWhile_not before (by rw [hd]; simp)
        simpa [hd] using this
      rw [← hsplit, hd] at h
      have hp := (pairwise_append.mp h).2.1
      rw [hd] at hx
      rcases mem_cons.mp hx with rfl | hx
      · exact hy
      · have hyx := (pairwise_cons.mp hp).1 x hx
        cases hb : before x with
        | false => rfl
        | true => rw [hyx hb] at hy; cases hy
  have hk : lowerBound before l = (l.takeWhile before).length := by
    conv => lhs; rw [← hsplit]
    exact lowerBound_eq before _ _ h₁ h₂
  calc l.take (lowerBound before l)
      = (l.takeWhile before ++ l.dropWhile before).take (l.takeWhile before).length := by
        rw [hk, hsplit]
    _ = l.takeWhile before := take_left
    _ = (l.takeWhile before ++ l.dropWhile before).filter before := by
        rw [filter_append, filter_eq_self.mpr h₁,
          filter_eq_nil_iff.mpr (fun x hx => by simp [h₂ x hx]), append_nil]
    _ = l.filter before := by rw [hsplit]

/-- What the loop leaves behind does not satisfy the predicate. -/
theorem drop_lowerBound (l : List α)
    (h : l.Pairwise fun x y => before y = true → before x = true) :
    ∀ x ∈ l.drop (lowerBound before l), before x = false := by
  have htake := take_lowerBound before l h
  have hall : ∀ x ∈ l.take (lowerBound before l), before x = true := by
    rw [htake]
    exact fun x hx => (mem_filter.mp hx).2
  have hsplit : (l.take (lowerBound before l) ++ l.drop (lowerBound before l)).filter before =
      l.take (lowerBound before l) := by rw [take_append_drop, htake]
  rw [filter_append, filter_eq_self.mpr hall, append_right_eq_self, filter_eq_nil_iff] at hsplit
  exact fun x hx => by simpa using hsplit x hx

end

/-- The loop looks at the elements through the predicate only. -/
theorem lowerBound_map {β : Type} (f : β → α) (before : α → Bool) (l : List β) :
    lowerBound before (l.map f) = lowerBound (fun x => before (f x)) l := by
  unfold lowerBound
  simp only [getElem?_map, Option.map_map, length_map]
  rfl

end PulseLog
