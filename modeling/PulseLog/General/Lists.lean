/-
  Subject:   Lists: two lists related element by element, and splitting at a separator.
-/
import Mathlib.Data.List.Chain
import Mathlib.Data.List.Forall2
import Mathlib.Order.Defs.Unbundled

namespace PulseLog

open List

variable {α β γ : Type*} {R S : α → β → Prop} {as : List α} {bs : List β} {a : α}
  {P : α → α → Prop}

theorem forall_mem_concat {P : α → Prop} : (∀ x ∈ as ++ [a], P x) ↔ (∀ x ∈ as, P x) ∧ P a := by
  rw [forall_mem_append, forall_mem_singleton]

theorem pairwise_concat : (as ++ [a]).Pairwise P ↔ as.Pairwise P ∧ ∀ x ∈ as, P x a := by
  simp [pairwise_append]

theorem isChain_concat : (as ++ [a]).IsChain P ↔ as.IsChain P ∧ ∀ x ∈ as.getLast?, P x a := by
  simp [isChain_append]

theorem forall₂_exists_right (h : Forall₂ R as bs) (ha : a ∈ as) : ∃ b ∈ bs, R a b := by
  induction h with
  | nil => cases ha
  | cons hab _ ih =>
    rcases mem_cons.mp ha with rfl | ha
    · exact ⟨_, mem_cons_self, hab⟩
    · obtain ⟨b, hb, hr⟩ := ih ha
      exact ⟨b, mem_cons_of_mem _ hb, hr⟩

theorem forall₂_exists_left (h : Forall₂ R as bs) {b : β} (hb : b ∈ bs) : ∃ a ∈ as, R a b :=
  forall₂_exists_right h.flip hb

/-- A weaker relation, where it only has to follow for elements of the left list. -/
theorem forall₂_imp_left (h : Forall₂ R as bs) (hS : ∀ a b, a ∈ as → R a b → S a b) :
    Forall₂ S as bs :=
  ((forall₂_and_left as bs).mpr ⟨fun _ ha => ha, h⟩).imp (fun a b hab => hS a b hab.1 hab.2)

/-- A loop that stops at the first error. -/
theorem mapM_ok_iff {ε : Type*} {f : α → Except ε β} :
    as.mapM f = .ok bs ↔ Forall₂ (fun a b => f a = .ok b) as bs := by
  induction as generalizing bs with
  | nil => cases bs <;> simp [pure, Except.pure]
  | cons a as ih =>
    rw [mapM_cons]
    cases ha : f a with
    | error e => cases bs <;> simp [bind, Except.bind, ha]
    | ok b =>
      cases hrest : as.mapM f with
      | error e => cases bs <;> simp [bind, Except.bind, ← ih, hrest]
      | ok rest => cases bs <;> simp [bind, Except.bind, pure, Except.pure, ha, ← ih, hrest]

/-- A split on the left splits the right as well. -/
theorem forall₂_split {as' : List α} (h : Forall₂ R (as ++ a :: as') bs) :
    ∃ bs₁ b bs₂, bs = bs₁ ++ b :: bs₂ ∧ Forall₂ R as bs₁ ∧ R a b ∧ Forall₂ R as' bs₂ := by
  induction as generalizing bs with
  | nil =>
    cases h with
    | cons hab hrest => exact ⟨[], _, _, rfl, .nil, hab, hrest⟩
  | cons x xs ih =>
    cases h with
    | cons hxy hrest =>
      obtain ⟨bs₁, b, bs₂, rfl, h₁, hab, h₂⟩ := ih hrest
      exact ⟨_ :: bs₁, b, bs₂, rfl, .cons hxy h₁, hab, h₂⟩

/-- The last element on the left has the last one on the right as its partner. -/
theorem forall₂_concat_left (h : Forall₂ R (as ++ [a]) bs) :
    ∃ bs' b, bs = bs' ++ [b] ∧ Forall₂ R as bs' ∧ R a b := by
  obtain ⟨bs₁, b, bs₂, rfl, h₁, hab, h₂⟩ := forall₂_split h
  cases h₂
  exact ⟨bs₁, b, rfl, h₁, hab⟩

/-- What related elements agree on, the lists agree on. -/
theorem forall₂_getElem? (h : Forall₂ R as bs) {i : Nat} {b : β} (ha : as[i]? = some a)
    (hb : bs[i]? = some b) : R a b := by
  obtain ⟨hi, rfl⟩ := List.getElem?_eq_some_iff.mp ha
  obtain ⟨hj, rfl⟩ := List.getElem?_eq_some_iff.mp hb
  exact h.get hi hj

theorem forall₂_map_eq {f : α → γ} {g : β → γ} (h : Forall₂ R as bs)
    (hR : ∀ a b, R a b → f a = g b) : as.map f = bs.map g := by
  induction h with
  | nil => rfl
  | cons hab _ ih => rw [map_cons, map_cons, hR _ _ hab, ih]

/-- A relation between neighbours on the left carries over to the right. -/
theorem forall₂_isChain {Q : β → β → Prop} (h : Forall₂ R as bs)
    (hPQ : ∀ a b a' b', R a b → R a' b' → P a a' → Q b b') (hc : as.IsChain P) : bs.IsChain Q := by
  induction h with
  | nil => exact .nil
  | cons hab hrest ih =>
    cases hrest with
    | nil => exact .singleton _
    | cons hab' _ =>
      rw [isChain_cons_cons] at hc ⊢
      exact ⟨hPQ _ _ _ _ hab hab' hc.1, ih hc.2⟩

/-- What stands behind the last separator. -/
theorem eq_of_append_cons_eq {x y r s : List α} (hr : a ∉ r) (hs : a ∉ s)
    (h : x ++ a :: r = y ++ a :: s) : r = s := by
  have hpart : ∀ {t r s}, a ∉ r → a :: r = t ++ a :: s → r = s := by
    intro t r s hr h
    cases t with
    | nil => exact (List.cons.inj h).2
    | cons b t =>
      rw [(List.cons.inj h).2] at hr
      simp at hr
  rcases append_eq_append_iff.mp h with ⟨t, -, h2⟩ | ⟨t, -, h2⟩
  · exact hpart hr h2
  · exact (hpart hs h2).symm

theorem modify_concat (f : α → α) (a : α) : ∀ as : List α,
    (as ++ [a]).modify as.length f = as ++ [f a]
  | [] => rfl
  | b :: as => congrArg (b :: ·) (modify_concat f a as)

/-- The places of a list with one more element. -/
theorem getElem?_concat_eq_some {as : List α} {a x : α} {i : Nat} :
    (as ++ [a])[i]? = some x ↔ as[i]? = some x ∨ i = as.length ∧ a = x := by
  rw [getElem?_append]
  split
  · rename_i hi
    exact ⟨.inl, fun h => h.resolve_right fun he => absurd he.1 (Nat.ne_of_lt hi)⟩
  · rename_i hi
    rw [getElem?_eq_none (Nat.le_of_not_lt hi), getElem?_singleton]
    split <;> simp <;> omega

end PulseLog
