/-
  Subject:   A map kept as a list of values that carry their keys.

  `key` reads the key off a value. `findKey` looks a key up, `putKey` writes a value under its own
  key: in place of the old one, or at the end. The lemmas say what a lookup finds after a change of
  all values, a write and a list of writes; with distinct keys, lookup and membership are the same.
-/
import Mathlib.Data.List.Nodup

namespace PulseLog

open List

variable {α κ : Type*} [DecidableEq κ] {key : α → κ} {l : List α} {a b : α} {k : κ}

def findKey (key : α → κ) (l : List α) (k : κ) : Option α := l.find? (fun a => key a = k)

/-- `map[key a] = a`. -/
def putKey (key : α → κ) (l : List α) (a : α) : List α :=
  if key a ∈ l.map key then l.map (fun b => if key b = key a then a else b) else l ++ [a]

/-! ## 1. Looking up -/

theorem findKey_some (h : findKey key l k = some a) : a ∈ l ∧ key a = k :=
  ⟨mem_of_find?_eq_some h, by simpa using find?_some h⟩

theorem findKey_none : findKey key l k = none ↔ k ∉ l.map key := by
  unfold findKey
  rw [find?_eq_none]
  constructor
  · intro h hk
    obtain ⟨a, ha, rfl⟩ := mem_map.mp hk
    exact h a ha (by simp)
  · intro h a ha hk
    exact h (mem_map.mpr ⟨a, ha, by simpa using hk⟩)

theorem findKey_isSome : (findKey key l k).isSome ↔ k ∈ l.map key := by
  rw [← not_iff_not, Bool.not_eq_true, Option.isSome_eq_false_iff, Option.isNone_iff_eq_none,
    findKey_none]

/-- With distinct keys a value is found under its key. -/
theorem findKey_of_mem : ∀ {l : List α}, (l.map key).Nodup → a ∈ l → findKey key l (key a) = some a
  | [], _, h => by simp at h
  | b :: l, hn, h => by
    have hn' := nodup_cons.mp hn
    unfold findKey
    rcases mem_cons.mp h with rfl | h
    · simp
    · have hne : key b ≠ key a := fun he => hn'.1 (by rw [he]; exact mem_map_of_mem h)
      rw [find?_cons_of_neg (by simpa using hne)]
      exact findKey_of_mem hn'.2 h

theorem findKey_iff (hn : (l.map key).Nodup) : findKey key l k = some a ↔ a ∈ l ∧ key a = k := by
  constructor
  · exact findKey_some
  · intro h
    rw [← h.2]
    exact findKey_of_mem hn h.1

/-! ## 2. Changing all values -/

omit [DecidableEq κ] in
theorem map_key_map {f : α → α} (hf : ∀ a, key (f a) = key a) : (l.map f).map key = l.map key := by
  rw [map_map]
  exact map_congr_left (fun a _ => hf a)

/-- A lookup seen through a reading that keeps the key. -/
theorem map_findKey {β : Type*} {f : α → β} {key' : β → κ} (hf : ∀ a, key' (f a) = key a) :
    (findKey key l k).map f = findKey key' (l.map f) k := by
  unfold findKey
  rw [find?_map]
  have hcomp : ((fun b => decide (key' b = k)) ∘ f) = fun a => decide (key a = k) := by
    funext a
    simp only [Function.comp_apply, hf]
  rw [hcomp]

/-! ## 3. Writing -/

/-- **What a lookup finds after a write.** -/
theorem findKey_putKey (l : List α) (a : α) (k : κ) :
    findKey key (putKey key l a) k = if k = key a then some a else findKey key l k := by
  unfold putKey
  split
  · rename_i hmem
    have hf : ∀ b, key (if key b = key a then a else b) = key b := by
      intro b
      split
      · rename_i h
        exact h.symm
      · rfl
    rw [← map_findKey hf]
    cases hfind : findKey key l k with
    | none =>
      have hk := findKey_none.mp hfind
      rw [if_neg (fun he => hk (by rw [he]; exact hmem))]
      rfl
    | some b =>
      have hb := (findKey_some hfind).2
      rw [Option.map_some, hb]
      split <;> rfl
  · rename_i hmem
    unfold findKey
    rw [find?_append]
    split
    · rename_i he
      have hnone : l.find? (fun b => key b = k) = none := findKey_none.mpr (by rw [he]; exact hmem)
      rw [hnone]
      simp [he]
    · rename_i he
      cases h : l.find? (fun b => key b = k) with
      | some b => rfl
      | none => simp [Ne.symm he]

theorem map_key_putKey (l : List α) (a : α) : (putKey key l a).map key =
    if key a ∈ l.map key then l.map key else l.map key ++ [key a] := by
  unfold putKey
  split
  · refine map_key_map (fun b => ?_)
    split
    · rename_i h
      exact h.symm
    · rfl
  · rw [map_append, map_singleton]

theorem length_putKey_le (l : List α) (a : α) : (putKey key l a).length ≤ l.length + 1 := by
  rw [← length_map key, map_key_putKey]
  split <;> simp

theorem nodup_putKey (h : (l.map key).Nodup) (a : α) : ((putKey key l a).map key).Nodup := by
  rw [map_key_putKey]
  split
  · exact h
  · rename_i hmem
    refine nodup_append.mpr ⟨h, nodup_singleton _, fun x hx y hy => ?_⟩
    rw [mem_singleton.mp hy]
    exact fun he => hmem (he ▸ hx)

theorem mem_putKey : b ∈ putKey key l a ↔ b = a ∨ b ∈ l ∧ key b ≠ key a := by
  unfold putKey
  split
  · rename_i hmem
    rw [mem_map]
    constructor
    · intro h
      obtain ⟨c, hc, hcb⟩ := h
      split at hcb
      · exact .inl hcb.symm
      · rename_i hne
        rw [← hcb]
        exact .inr ⟨hc, hne⟩
    · intro h
      rcases h with rfl | ⟨hb, hne⟩
      · obtain ⟨c, hc, hca⟩ := mem_map.mp hmem
        exact ⟨c, hc, by rw [if_pos hca]⟩
      · exact ⟨b, hb, by rw [if_neg hne]⟩
  · rename_i hmem
    rw [mem_append, mem_singleton]
    constructor
    · intro h
      rcases h with h | h
      · exact .inr ⟨h, fun he => hmem (by rw [← he]; exact mem_map_of_mem h)⟩
      · exact .inl h
    · intro h
      exact h.symm.imp (fun h => h.1) id

/-- A write that keeps a reading of the values keeps the list of readings. -/
theorem map_putKey_of_eq {β : Type*} {f : α → β} (hn : (l.map key).Nodup) (hb : b ∈ l)
    (hk : key b = key a) (hf : f a = f b) : (putKey key l a).map f = l.map f := by
  unfold putKey
  rw [if_pos (by rw [← hk]; exact mem_map_of_mem hb), map_map]
  refine map_congr_left (fun c hc => ?_)
  simp only [Function.comp_apply]
  split
  · rename_i hca
    have hcb : c = b := inj_on_of_nodup_map hn hc hb (hca.trans hk.symm)
    rw [hf, hcb]
  · rfl

/-- **What a lookup finds after a list of writes**: the last one under its key. -/
theorem findKey_foldl_putKey (xs l : List α) (k : κ) : findKey key (xs.foldl (putKey key) l) k =
    (findKey key xs.reverse k).or (findKey key l k) := by
  induction xs generalizing l with
  | nil => rfl
  | cons x xs ih =>
    have hsplit : findKey key (xs.reverse ++ [x]) k =
        (findKey key xs.reverse k).or (findKey key [x] k) := find?_append
    rw [foldl_cons, ih, reverse_cons, hsplit, Option.or_assoc, findKey_putKey]
    by_cases hk : k = key x
    · rw [if_pos hk, findKey, findKey, find?_cons_of_pos (by simpa using hk.symm)]
      rfl
    · rw [if_neg hk, findKey, findKey, findKey, find?_cons_of_neg (by simpa using Ne.symm hk)]
      rfl

theorem nodup_foldl_putKey (xs : List α) (h : (l.map key).Nodup) :
    ((xs.foldl (putKey key) l).map key).Nodup := by
  induction xs generalizing l with
  | nil => exact h
  | cons x xs ih => exact ih (nodup_putKey h x)

end PulseLog
