/-
  Subject:   An ordered map kept as the list of its values, in the order of their keys.

  * `putSorted` -- `map[key a] = a`; `Sorted.putSorted` -- the order is kept;
  * `putSorted_last` -- a key above all others goes to the end, so a map that is read back in its
    own order is the same list again.
-/
import Mathlib.Data.List.Basic
import Mathlib.Tactic.Common

namespace PulseLog

open List

variable {α κ : Type*} [LT κ] {key : α → κ} {l : List α} {a b : α}

/-- The keys increase. -/
def Sorted (key : α → κ) (l : List α) : Prop := l.Pairwise fun a b => key a < key b

variable [DecidableLT κ] [DecidableEq κ]

/-- `map[key a] = a`. -/
def putSorted (key : α → κ) : List α → α → List α
  | [], a => [a]
  | b :: l, a =>
    if key a < key b then a :: b :: l
    else if key a = key b then a :: l
    else b :: putSorted key l a

theorem mem_putSorted {x : α} (h : x ∈ putSorted key l a) : x = a ∨ x ∈ l := by
  induction l with
  | nil => exact .inl (mem_singleton.mp h)
  | cons b l ih =>
    rw [putSorted] at h
    split at h
    · exact mem_cons.mp h
    split at h
    · rcases mem_cons.mp h with h | h
      · exact .inl h
      · exact .inr (mem_cons_of_mem b h)
    · rcases mem_cons.mp h with h | h
      · exact .inr (h ▸ mem_cons_self)
      · exact (ih h).imp_right (mem_cons_of_mem b)

theorem Sorted.putSorted [Trans (α := κ) (· < ·) (· < ·) (· < ·)]
    [Std.Trichotomous (α := κ) (· < ·)] (h : Sorted key l) (a : α) :
    Sorted key (putSorted key l a) := by
  induction l with
  | nil => exact pairwise_singleton _ a
  | cons b l ih =>
    obtain ⟨hb, hl⟩ := pairwise_cons.mp h
    rw [PulseLog.putSorted]
    split
    · rename_i hlt
      refine pairwise_cons.mpr ⟨fun x hx => ?_, h⟩
      rcases mem_cons.mp hx with rfl | hx
      · exact hlt
      · exact Trans.trans hlt (hb x hx)
    split
    · rename_i heq
      exact pairwise_cons.mpr ⟨fun x hx => heq ▸ hb x hx, hl⟩
    · rename_i hlt hne
      refine pairwise_cons.mpr ⟨fun x hx => ?_, ih hl⟩
      rcases mem_putSorted hx with rfl | hx
      · rcases Std.lt_trichotomy (key x) (key b) with h1 | h1 | h1
        · exact absurd h1 hlt
        · exact absurd h1 hne
        · exact h1
      · exact hb x hx

theorem mem_putSorted_iff [Trans (α := κ) (· < ·) (· < ·) (· < ·)] [Std.Irrefl (α := κ) (· < ·)]
    (h : Sorted key l) {x : α} : x ∈ putSorted key l a ↔ x = a ∨ x ∈ l ∧ key x ≠ key a := by
  induction l with
  | nil => simp [putSorted]
  | cons b l ih =>
    obtain ⟨hb, hl⟩ := pairwise_cons.mp h
    have hne : ∀ {k k' : κ}, k < k' → k' ≠ k := fun hlt he => Std.Irrefl.irrefl _ (he ▸ hlt)
    rw [putSorted]
    split
    · rename_i hlt
      have hall : ∀ y ∈ b :: l, key y ≠ key a := fun y hy => by
        rcases mem_cons.mp hy with rfl | hy
        · exact hne hlt
        · exact hne (Trans.trans hlt (hb y hy))
      rw [mem_cons]
      exact or_congr_right ⟨fun hx => ⟨hx, hall x hx⟩, fun hx => hx.1⟩
    split
    · rename_i heq
      rw [mem_cons, mem_cons]
      refine or_congr_right ⟨fun hx => ⟨.inr hx, heq ▸ hne (hb x hx)⟩, fun hx => ?_⟩
      exact hx.1.resolve_left fun he => hx.2 (he ▸ heq.symm)
    · rename_i hba
      rw [mem_cons, ih hl, mem_cons]
      constructor
      · intro hx
        rcases hx with rfl | hx | hx
        · exact .inr ⟨.inl rfl, Ne.symm hba⟩
        · exact .inl hx
        · exact .inr ⟨.inr hx.1, hx.2⟩
      · intro hx
        rcases hx with hx | ⟨hx | hx, hne⟩
        · exact .inr (.inl hx)
        · exact .inl hx
        · exact .inr (.inr ⟨hx, hne⟩)

/-- A key above all others goes to the end. -/
theorem putSorted_last [Std.Asymm (α := κ) (· < ·)] (h : ∀ b ∈ l, key b < key a) :
    putSorted key l a = l ++ [a] := by
  induction l with
  | nil => rfl
  | cons b l ih =>
    have hb := h b mem_cons_self
    have hlt : ¬ key a < key b := Std.Asymm.asymm _ _ hb
    have hne : key a ≠ key b := by
      intro he
      rw [he] at hb
      exact Std.Asymm.asymm _ _ hb hb
    rw [putSorted, if_neg hlt, if_neg hne, ih fun x hx => h x (mem_cons_of_mem b hx)]
    rfl

end PulseLog
