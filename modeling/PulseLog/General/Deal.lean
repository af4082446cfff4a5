/-
  Subject:   Sorted lists without repetitions, and values dealt out to keys.

  * `sortUnique` -- sort, then drop neighbours that are equal: the elements of the list, each once;
  * `count_modEq_le` -- any two remainders are met equally often up to one;
  * `push m k v` -- the value `v` goes to the end of what key `k` holds;
  * `fibres_perm` -- a list is its parts, sorted by a key;
  * `push_perm`, `pushAll_perm` -- nothing is lost or doubled: what the keys hold together is, up
    to order, what was dealt;
  * `held_deal` -- what one key holds after a run of pushes.
-/
import Mathlib.Data.Int.CardIntervalMod
import Mathlib.Data.List.Sort
import Mathlib.Data.List.Nodup

namespace PulseLog

open List

/-! ## 1. Sorting without repetitions -/

section SortUnique

variable {α : Type*}

/-- `std::unique`: of equal neighbours one stays. -/
def unique [DecidableEq α] : List α → List α
  | [] => []
  | [a] => [a]
  | a :: b :: l => if a = b then unique (b :: l) else a :: unique (b :: l)

theorem mem_unique [DecidableEq α] (x : α) : ∀ l : List α, x ∈ unique l ↔ x ∈ l
  | [] => Iff.rfl
  | [_] => Iff.rfl
  | a :: b :: l => by
    have ih := mem_unique x (b :: l)
    unfold unique
    split
    · rename_i hab
      rw [ih, hab]
      simp
    · simp only [mem_cons, ih]

variable [LinearOrder α]

theorem pairwise_unique : ∀ l : List α, l.Pairwise (· ≤ ·) → (unique l).Pairwise (· < ·)
  | [], _ => List.Pairwise.nil
  | [_], _ => pairwise_singleton _ _
  | a :: b :: l, h => by
    have hl := (pairwise_cons.mp h).2
    have ih := pairwise_unique (b :: l) hl
    unfold unique
    split
    · exact ih
    · rename_i hab
      refine pairwise_cons.mpr ⟨fun x hx => ?_, ih⟩
      have hab' : a < b := lt_of_le_of_ne ((pairwise_cons.mp h).1 b mem_cons_self) hab
      rcases mem_cons.mp ((mem_unique x (b :: l)).mp hx) with rfl | hx
      · exact hab'
      · exact lt_of_lt_of_le hab' ((pairwise_cons.mp hl).1 x hx)

/-- Sort and drop repetitions. -/
def sortUnique (l : List α) : List α := unique (l.insertionSort (· ≤ ·))

@[simp] theorem mem_sortUnique {x : α} {l : List α} : x ∈ sortUnique l ↔ x ∈ l := by
  unfold sortUnique
  rw [mem_unique, mem_insertionSort]

theorem sortUnique_sorted (l : List α) : (sortUnique l).Pairwise (· < ·) :=
  pairwise_unique _ (pairwise_insertionSort (· ≤ ·) l)

theorem sortUnique_nodup (l : List α) : (sortUnique l).Nodup :=
  (sortUnique_sorted l).imp (fun h => ne_of_lt h)

/-- The result depends on the set of elements only. -/
theorem sortUnique_congr {l l' : List α} (h : ∀ x, x ∈ l ↔ x ∈ l') : sortUnique l = sortUnique l' :=
  ((perm_ext_iff_of_nodup (sortUnique_nodup l) (sortUnique_nodup l')).mpr fun x => by
    rw [mem_sortUnique, mem_sortUnique, h]).eq_of_pairwise' (sortUnique_sorted l)
      (sortUnique_sorted l')

theorem sortUnique_perm {l : List α} (h : l.Nodup) : (sortUnique l).Perm l :=
  (perm_ext_iff_of_nodup (sortUnique_nodup l) h).mpr (fun _ => mem_sortUnique)

end SortUnique

/-! ## 2. Places -/

theorem length_filter_range (p : Nat → Prop) [DecidablePred p] (N : Nat) :
    ((List.range N).filter fun i => p i).length = Nat.count p N := by
  induction N with
  | zero => rfl
  | succ N ih =>
    rw [range_succ, filter_append, length_append, ih, Nat.count_succ]
    by_cases h : p N <;> simp [h]

/-- Any two remainders are met equally often, up to one. -/
theorem count_modEq_le {n : Nat} (hn : 0 < n) (N v v' : Nat) :
    Nat.count (· ≡ v [MOD n]) N ≤ Nat.count (· ≡ v' [MOD n]) N + 1 := by
  rw [Nat.count_modEq_card N hn, Nat.count_modEq_card N hn]
  split <;> split <;> omega

/-! ## 3. Dealing -/

section Deal

variable {κ α : Type*}

/-- What the keys hold, all together. -/
def dealt (m : List (κ × List α)) : List α := (m.map Prod.snd).flatten

def keys (m : List (κ × List α)) : List κ := m.map Prod.fst

variable [DecidableEq κ] {m : List (κ × List α)} {k : κ}

/-- What one key holds. -/
def held (m : List (κ × List α)) (k : κ) : List α :=
  match m.find? (fun e => e.1 = k) with
  | some e => e.2
  | none => []

/-- `m[k].push_back(v)` for a key that is there. -/
def push (m : List (κ × List α)) (k : κ) (v : α) : List (κ × List α) :=
  m.map (fun e => if e.1 = k then (e.1, e.2 ++ [v]) else e)

def pushAll (m : List (κ × List α)) (k : κ) (vs : List α) : List (κ × List α) :=
  vs.foldl (fun m v => push m k v) m

@[simp] theorem keys_push (m : List (κ × List α)) (k : κ) (v : α) : keys (push m k v) = keys m := by
  unfold keys push
  rw [map_map]
  refine map_congr_left (fun e _ => ?_)
  simp only [Function.comp_apply]
  split <;> rfl

theorem push_of_notMem (v : α) : ∀ {m : List (κ × List α)}, k ∉ keys m → push m k v = m
  | [], _ => rfl
  | e :: m, h => by
    have hne : e.1 ≠ k := fun he => h (by rw [← he]; exact mem_cons_self)
    have ih := push_of_notMem v (fun hm => h (mem_cons_of_mem _ hm))
    unfold push at ih ⊢
    rw [map_cons, if_neg hne, ih]

/-- **A push adds its value**, up to order. -/
theorem push_perm (v : α) : ∀ {m : List (κ × List α)}, (keys m).Nodup → k ∈ keys m →
    (dealt (push m k v)).Perm (dealt m ++ [v])
  | [], _, hk => by simp [keys] at hk
  | e :: m, hn, hk => by
    have hn' := nodup_cons.mp hn
    have hcons : ∀ (x : κ × List α) l, dealt (x :: l) = x.2 ++ dealt l :=
      fun _ _ => rfl
    by_cases he : e.1 = k
    · have hpush : push (e :: m) k v = (e.1, e.2 ++ [v]) :: m := by
        have hrest := push_of_notMem v (k := k) (by rw [← he]; exact hn'.1)
        unfold push at hrest ⊢
        rw [map_cons, if_pos he, hrest]
      rw [hpush, hcons, hcons, append_assoc, append_assoc]
      exact List.Perm.append_left _ perm_append_comm
    · have hpush : push (e :: m) k v = e :: push m k v := by
        unfold push
        rw [map_cons, if_neg he]
      have hk' : k ∈ keys m := by
        rcases mem_cons.mp hk with h | h
        · exact absurd h.symm he
        · exact h
      rw [hpush, hcons, hcons, append_assoc]
      exact List.Perm.append_left _ (push_perm v hn'.2 hk')

theorem keys_pushAll (k : κ) : ∀ (vs : List α) (m : List (κ × List α)),
    keys (pushAll m k vs) = keys m
  | [], _ => rfl
  | v :: vs, m => (keys_pushAll k vs (push m k v)).trans (keys_push m k v)

theorem pushAll_perm : ∀ (vs : List α) {m : List (κ × List α)}, (keys m).Nodup →
    k ∈ keys m → (dealt (pushAll m k vs)).Perm (dealt m ++ vs)
  | [], m, _, _ => by
    rw [append_nil]
    exact List.Perm.refl _
  | v :: vs, m, hn, hk => by
    have ih := pushAll_perm vs (m := push m k v) (by rw [keys_push]; exact hn)
      (by rw [keys_push]; exact hk)
    have hone := (push_perm v hn hk).append_right vs
    rw [append_assoc] at hone
    exact ih.trans hone

/-- Reading every key gives back what is held. -/
theorem map_held : ∀ {m : List (κ × List α)},
    (keys m).Nodup → (keys m).map (held m) = m.map Prod.snd
  | [], _ => rfl
  | e :: m, hn => by
    have hn' := nodup_cons.mp hn
    have hhead : held (e :: m) e.1 = e.2 := by simp [held]
    have htail : ∀ k ∈ keys m, held (e :: m) k = held m k := by
      intro k hk
      have hne : e.1 ≠ k := fun he => hn'.1 (by rw [he]; exact hk)
      simp [held, hne]
    have ih := map_held hn'.2
    show held (e :: m) e.1 :: (keys m).map (held (e :: m)) = e.2 :: m.map Prod.snd
    rw [hhead, map_congr_left htail, ih]

/-- Members who hold what their keys were dealt hold all of it together. -/
theorem flatten_held_perm {ks : List κ} (hn : (keys m).Nodup)
    (hp : ks.Perm (keys m)) : (ks.map (held m)).flatten.Perm (dealt m) := by
  have h := (hp.map (held m)).flatten
  rw [map_held hn] at h
  exact h

theorem held_cons (e : κ × List α) (m : List (κ × List α)) (k : κ) :
    held (e :: m) k = if e.1 = k then e.2 else held m k := by
  unfold held
  by_cases he : e.1 = k <;> simp [he]

theorem mem_dealt {x : α} (h : x ∈ held m k) : x ∈ dealt m := by
  unfold held at h
  split at h
  · rename_i e he
    exact mem_flatten.mpr ⟨e.2, mem_map_of_mem (mem_of_find?_eq_some he), h⟩
  · exact absurd h not_mem_nil

theorem held_push (v : α) (k' : κ) : ∀ {m : List (κ × List α)}, k ∈ keys m →
    held (push m k v) k' = held m k' ++ if k = k' then [v] else []
  | [], hk => by simp [keys] at hk
  | e :: m, hk => by
    show held ((if e.1 = k then (e.1, e.2 ++ [v]) else e) :: push m k v) k' = _
    rw [held_cons, held_cons]
    by_cases he : e.1 = k
    · by_cases hk' : e.1 = k'
      · simp [he, ← hk']
      · have hne : k ≠ k' := fun h => hk' (he.trans h)
        -- further entries of the key are of no account: the first one is the one that is read
        have hrest : held (push m k v) k' = held m k' := by
          by_cases hm : k ∈ keys m
          · rw [held_push v k' hm, if_neg hne, append_nil]
          · rw [push_of_notMem v hm]
        simp [he, hne, hrest]
    · have hm : k ∈ keys m := (mem_cons.mp hk).resolve_left (Ne.symm he)
      rw [if_neg he]
      by_cases hk' : e.1 = k'
      · have hne : k ≠ k' := fun h => he (hk'.trans h.symm)
        simp [hk', hne]
      · rw [if_neg hk', if_neg hk', held_push v k' hm]

/-- **What a key holds after a run of pushes**: what it held, and what was dealt to it. -/
theorem held_deal {β : Type*} (f : β → κ) (g : β → α) (k : κ) : ∀ (xs : List β)
    (m : List (κ × List α)), (∀ x ∈ xs, f x ∈ keys m) →
    held (xs.foldl (fun m x => push m (f x) (g x)) m) k =
      held m k ++ (xs.filter fun x => f x = k).map g
  | [], m, _ => by simp
  | x :: xs, m, h => by
    rw [foldl_cons, held_deal f g k xs _ fun y hy => by
      rw [keys_push]
      exact h y (mem_cons_of_mem x hy), held_push _ _ (h x mem_cons_self)]
    by_cases hx : f x = k <;> simp [hx]

theorem held_pushAll (k' : κ) (vs : List α) (hk : k ∈ keys m) :
    held (pushAll m k vs) k' = held m k' ++ if k = k' then vs else [] := by
  unfold pushAll
  rw [held_deal (fun _ => k) (fun v => v) k' vs m fun _ _ => hk]
  by_cases h : k = k' <;> simp [h]

/-- **Whatever is dealt once is held by one key.** -/
theorem held_unique {x : α} : ∀ {m : List (κ × List α)}, (keys m).Nodup → (dealt m).Nodup →
    x ∈ dealt m → ∃! k, x ∈ held m k
  | [], _, _, hx => absurd hx not_mem_nil
  | e :: m, hn, hd, hx => by
    have hn' := nodup_cons.mp hn
    obtain ⟨-, hd', hdisj⟩ := nodup_append'.mp hd
    rcases mem_append.mp hx with hx | hx
    · refine ⟨e.1, by simpa [held_cons] using hx, fun k hk => ?_⟩
      simp only [held_cons] at hk
      split at hk
      · rename_i he
        exact he.symm
      · exact absurd (mem_dealt hk) (hdisj hx)
    · obtain ⟨k, hk, huniq⟩ := held_unique hn'.2 hd' hx
      have hkey : k ∈ keys m := by
        unfold held at hk
        split at hk
        · rename_i f hf
          have hfk : f.1 = k := by simpa using find?_some hf
          exact mem_map.mpr ⟨f, mem_of_find?_eq_some hf, hfk⟩
        · exact absurd hk not_mem_nil
      have hne : e.1 ≠ k := fun he => hn'.1 (he ▸ hkey)
      refine ⟨k, by simpa [held_cons, hne] using hk, fun k' hk' => ?_⟩
      simp only [held_cons] at hk'
      split at hk'
      · exact absurd hx (hdisj hk')
      · exact huniq k' hk'

/-- **A list is its parts**, one for each value of a key. -/
theorem fibres_perm (f : α → κ) : ∀ (ks : List κ) (l : List α), ks.Nodup → (∀ x ∈ l, f x ∈ ks) →
    (ks.map (fun k => l.filter (fun x => f x = k))).flatten.Perm l
  | [], l, _, h => by
    have hnil : l = [] := eq_nil_iff_forall_not_mem.mpr (fun x hx => by simpa using h x hx)
    rw [hnil]
    exact List.Perm.refl _
  | k :: ks, l, hn, h => by
    have hn' := nodup_cons.mp hn
    have hrest := fibres_perm f ks (l.filter (fun x => ¬ f x = k)) hn'.2 (fun x hx => by
      obtain ⟨h1, h2⟩ := mem_filter.mp hx
      rcases mem_cons.mp (h x h1) with he | hm
      · exact absurd he (by simpa using h2)
      · exact hm)
    have hsame : ∀ k' ∈ ks, (l.filter (fun x => ¬ f x = k)).filter (fun x => f x = k') =
        l.filter (fun x => f x = k') := by
      intro k' hk'
      rw [filter_filter]
      refine filter_congr (fun x _ => ?_)
      by_cases he : f x = k'
      · have hne : ¬ k' = k := fun h0 => hn'.1 (by rw [← h0]; exact hk')
        simp [he, hne]
      · simp [he]
    rw [map_congr_left hsame] at hrest
    refine (List.Perm.append_left _ hrest).trans ?_
    simpa using filter_append_perm (fun x => decide (f x = k)) l

end Deal

end PulseLog
