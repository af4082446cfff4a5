/-
  Subject:   Objects owned by a table, threads that look them up and use them later, and a removal
             that destroys them.

  A thread works off a list of actions; it looks something up only when it has nothing left to do.
  A call stays in the list until it has returned. Addresses are not given out twice.

  * `Live` -- the step does not use a destroyed object; `Unheld` -- the step does not destroy an
    object another thread has still to use;
  * `live_of_unheld` -- if nothing is destroyed that another thread holds, nothing is used after it
    was destroyed;
  * `unheld_of_live` -- and only then, as far as the threads go on to the end.
-/
import PulseLog.General.Run
import Mathlib.Data.List.Nodup
import Mathlib.Logic.Function.Basic

namespace PulseLog

open List

namespace Handles

/-! ## 1. The machine -/

inductive Action (μ : Type*) where
  | use (object : Nat) (method : μ)
  | destroy (object : Nat)
  deriving DecidableEq

/-- The table with the objects it owns, the next address, the objects that are gone, and what each
    thread has still to do. -/
structure Heap (τ κ μ : Type*) where
  entries : List (κ × Nat)
  next : Nat
  destroyed : List Nat
  pending : τ → List (Action μ)

inductive Event (τ κ μ : Type*) where
  /-- a new object under `key`, unless there is one -/
  | insert (key : κ)
  /-- the thread looks at the table and plans its calls -/
  | look (thread : τ) (calls : List (κ × Nat) → List (Nat × μ))
  /-- the thread takes the objects under the keys out of the table, to call `last` on each of them
      and then destroy them -/
  | remove (thread : τ) (keys : List κ) (last : List μ)
  /-- the thread finishes its next action -/
  | act (thread : τ)

variable {τ κ μ : Type*}

/-- What a removal leaves its thread to do. -/
def removal (objects : List Nat) (last : List μ) : List (Action μ) :=
  objects.flatMap (fun p => last.map (Action.use p)) ++ objects.map Action.destroy

def removed [DecidableEq κ] (s : Heap τ κ μ) (keys : List κ) : List Nat :=
  (s.entries.filter (fun x => x.1 ∈ keys)).map Prod.snd

def step [DecidableEq τ] [DecidableEq κ] (s : Heap τ κ μ) : Event τ κ μ → Heap τ κ μ
  | .insert key =>
    if key ∈ s.entries.map Prod.fst then s
    else { s with entries := s.entries ++ [(key, s.next)], next := s.next + 1 }
  | .look t calls =>
    match s.pending t with
    | [] => { s with
        pending := Function.update s.pending t ((calls s.entries).map fun x => .use x.1 x.2) }
    | _ :: _ => s
  | .remove t keys last =>
    match s.pending t with
    | [] => { s with
        entries := s.entries.filter (fun x => x.1 ∉ keys)
        pending := Function.update s.pending t (removal (removed s keys) last) }
    | _ :: _ => s
  | .act t =>
    match s.pending t with
    | [] => s
    | .use _ _ :: rest => { s with pending := Function.update s.pending t rest }
    | .destroy p :: rest =>
      { s with
        destroyed := p :: s.destroyed
        pending := Function.update s.pending t rest }

def start : Heap τ κ μ := ⟨[], 0, [], fun _ => []⟩

/-- The calls are made on objects of the table. -/
def Event.Sound : Event τ κ μ → Prop
  | .look _ calls => ∀ entries, ∀ x ∈ calls entries, x.1 ∈ entries.map Prod.snd
  | _ => True

/-- The step does not use an object after its destruction. -/
def Live (s : Heap τ κ μ) : Event τ κ μ → Prop
  | .act t => ∀ p m, (s.pending t).head? = some (.use p m) → p ∉ s.destroyed
  | _ => True

/-- The step destroys no object that another thread has still to use. -/
def Unheld (s : Heap τ κ μ) : Event τ κ μ → Prop
  | .act t => ∀ p, (s.pending t).head? = some (.destroy p) →
      ∀ u, u ≠ t → ∀ m, Action.use p m ∉ s.pending u
  | _ => True

/-! ## 2. Nothing held is destroyed -/

/-- A thread does not use what it has destroyed itself. -/
def Tidy : List (Action μ) → Prop
  | [] => True
  | .use _ _ :: rest => Tidy rest
  | .destroy p :: rest => (∀ m, Action.use p m ∉ rest) ∧ Tidy rest

/-- The object an action is about. -/
def Action.object : Action μ → Nat
  | .use p _ => p
  | .destroy p => p

/-- The invariant. -/
structure Ok (s : Heap τ κ μ) : Prop where
  distinct : (s.entries.map Prod.snd).Nodup
  bound : ∀ p ∈ s.entries.map Prod.snd, p < s.next
  boundGone : ∀ p ∈ s.destroyed, p < s.next
  boundPending : ∀ t, ∀ a ∈ s.pending t, a.object < s.next
  owned : ∀ p ∈ s.entries.map Prod.snd, p ∉ s.destroyed ∧ ∀ t, Action.destroy p ∉ s.pending t
  live : ∀ t p m, Action.use p m ∈ s.pending t → p ∉ s.destroyed
  tidy : ∀ t, Tidy (s.pending t)

theorem ok_start : Ok (start : Heap τ κ μ) :=
  ⟨by simp [start], by simp [start], by simp [start], by simp [start], by simp [start],
    by simp [start], fun _ => trivial⟩

theorem tidy_uses (calls : List (Nat × μ)) : Tidy (calls.map fun x => Action.use x.1 x.2) := by
  induction calls with
  | nil => trivial
  | cons x calls ih => exact ih

theorem tidy_destroys (objects : List Nat) :
    Tidy (objects.map (Action.destroy : Nat → Action μ)) := by
  induction objects with
  | nil => trivial
  | cons p objects ih => exact ⟨by simp, ih⟩

theorem tidy_append {as bs : List (Action μ)} (ha : ∀ p, Action.destroy p ∉ as) (hb : Tidy bs) :
    Tidy (as ++ bs) := by
  induction as with
  | nil => exact hb
  | cons a as ih =>
    have hrest := ih (fun p hp => ha p (mem_cons_of_mem _ hp))
    cases a with
    | use p m => exact hrest
    | destroy p => exact absurd mem_cons_self (ha p)

theorem mem_removal {objects : List Nat} {last : List μ} {a : Action μ}
    (h : a ∈ removal objects last) : a.object ∈ objects := by
  rcases mem_append.mp h with h | h
  · obtain ⟨p, hp, ha⟩ := mem_flatMap.mp h
    obtain ⟨m, -, rfl⟩ := mem_map.mp ha
    exact hp
  · obtain ⟨p, hp, rfl⟩ := mem_map.mp h
    exact hp

theorem tidy_removal (objects : List Nat) (last : List μ) : Tidy (removal objects last) := by
  refine tidy_append (fun p hp => ?_) (tidy_destroys objects)
  obtain ⟨q, -, hq⟩ := mem_flatMap.mp hp
  obtain ⟨m, -, he⟩ := mem_map.mp hq
  cases he

variable {s : Heap τ κ μ} {t : τ} {e : Event τ κ μ}

section Table

variable [DecidableEq κ]

theorem removed_subset {keys : List κ} {p : Nat} (h : p ∈ removed s keys) :
    p ∈ s.entries.map Prod.snd := by
  obtain ⟨x, hx, rfl⟩ := mem_map.mp h
  exact mem_map_of_mem (mem_filter.mp hx).1

/-- What is taken out of the table is no longer in it. -/
theorem removed_not_mem (hd : (s.entries.map Prod.snd).Nodup) {keys : List κ} {p : Nat}
    (h : p ∈ removed s keys) : p ∉ (s.entries.filter (fun x => x.1 ∉ keys)).map Prod.snd := by
  intro hp
  obtain ⟨x, hx, rfl⟩ := mem_map.mp h
  obtain ⟨y, hy, hyx⟩ := mem_map.mp hp
  obtain ⟨hx1, hx2⟩ := mem_filter.mp hx
  obtain ⟨hy1, hy2⟩ := mem_filter.mp hy
  rw [inj_on_of_nodup_map hd hy1 hx1 hyx] at hy2
  simp only [decide_eq_true_eq] at hx2 hy2
  exact hy2 hx2

end Table

section Threads

variable [DecidableEq τ]

/-- The thread `t` gets a new list of actions on objects that are alive. -/
theorem Ok.plan (h : Ok s) {entries : List (κ × Nat)} (hsub : entries.Sublist s.entries)
    {actions : List (Action μ)} (htidy : Tidy actions)
    (halive : ∀ a ∈ actions, a.object ∈ s.entries.map Prod.snd)
    (howned : ∀ p, Action.destroy p ∈ actions → p ∉ entries.map Prod.snd) :
    Ok { s with entries := entries, pending := Function.update s.pending t actions } := by
  have hmem : ∀ p ∈ entries.map Prod.snd, p ∈ s.entries.map Prod.snd :=
    fun p hp => (hsub.map Prod.snd).subset hp
  refine ⟨h.distinct.sublist (hsub.map Prod.snd), fun p hp => h.bound p (hmem p hp), h.boundGone,
    fun u a ha => ?_, fun p hp => ⟨(h.owned p (hmem p hp)).1, fun u => ?_⟩, fun u p m ha => ?_,
    fun u => ?_⟩
  all_goals dsimp only at *
  · by_cases hu : u = t
    · subst hu
      rw [Function.update_self] at ha
      exact h.bound _ (halive a ha)
    · rw [Function.update_of_ne hu] at ha
      exact h.boundPending u a ha
  · by_cases hu : u = t
    · subst hu
      rw [Function.update_self]
      exact fun hd => howned p hd hp
    · rw [Function.update_of_ne hu]
      exact (h.owned p (hmem p hp)).2 u
  · by_cases hu : u = t
    · subst hu
      rw [Function.update_self] at ha
      exact (h.owned p (halive _ ha)).1
    · rw [Function.update_of_ne hu] at ha
      exact h.live u p m ha
  · by_cases hu : u = t
    · subst hu
      rw [Function.update_self]
      exact htidy
    · rw [Function.update_of_ne hu]
      exact h.tidy u

theorem Tidy.tail {a : Action μ} {rest : List (Action μ)} (h : Tidy (a :: rest)) : Tidy rest := by
  cases a with
  | use p m => exact h
  | destroy p => exact h.2

variable {a₀ : Action μ} {rest : List (Action μ)} {u : τ}

theorem mem_of_mem_pop (ht : s.pending t = a₀ :: rest) {a : Action μ}
    (ha : a ∈ Function.update s.pending t rest u) : a ∈ s.pending u := by
  by_cases hu : u = t
  · subst hu
    rw [Function.update_self] at ha
    rw [ht]
    exact mem_cons_of_mem _ ha
  · rwa [Function.update_of_ne hu] at ha

theorem Ok.tidy_pop (h : Ok s) (ht : s.pending t = a₀ :: rest) :
    Tidy (Function.update s.pending t rest u) := by
  by_cases hu : u = t
  · subst hu
    rw [Function.update_self]
    have htidy := h.tidy u
    rw [ht] at htidy
    exact htidy.tail
  · rw [Function.update_of_ne hu]
    exact h.tidy u

end Threads

variable [DecidableEq τ] [DecidableEq κ]

theorem Ok.step (h : Ok s) (hsound : e.Sound) (hunheld : Unheld s e) : Ok (step s e) := by
  cases e with
  | insert key =>
    simp only [Handles.step]
    split
    · exact h
    have hfresh : s.next ∉ s.entries.map Prod.snd := fun hp => (Nat.lt_irrefl _) (h.bound _ hp)
    refine ⟨?_, fun p hp => ?_, fun p hp => Nat.lt_succ_of_lt (h.boundGone p hp),
      fun t a ha => Nat.lt_succ_of_lt (h.boundPending t a ha), fun p hp => ?_, h.live, h.tidy⟩
    · rw [map_append]
      refine nodup_append.mpr ⟨h.distinct, nodup_singleton _, fun p hp q hq => ?_⟩
      have hq' : q = s.next := mem_singleton.mp hq
      exact fun he => hfresh (hq' ▸ he ▸ hp)
    all_goals
      rw [map_append, mem_append, map_singleton, mem_singleton] at hp
    · rcases hp with hp | rfl
      · exact Nat.lt_succ_of_lt (h.bound p hp)
      · exact Nat.lt_succ_self _
    · rcases hp with hp | rfl
      · exact h.owned p hp
      · exact ⟨fun hd => Nat.lt_irrefl _ (h.boundGone _ hd),
          fun t hd => Nat.lt_irrefl _ (h.boundPending t _ hd)⟩
  | look t calls =>
    simp only [Handles.step]
    split
    · refine h.plan (List.Sublist.refl _) (tidy_uses _) (fun a ha => ?_) (fun p hp => ?_)
      · obtain ⟨x, hx, rfl⟩ := mem_map.mp ha
        exact hsound s.entries x hx
      · obtain ⟨x, -, he⟩ := mem_map.mp hp
        cases he
    · exact h
  | remove t keys last =>
    simp only [Handles.step]
    split
    · exact h.plan filter_sublist (tidy_removal _ _)
        (fun a ha => removed_subset (mem_removal ha))
        (fun p hp => removed_not_mem h.distinct (mem_removal hp))
    · exact h
  | act t =>
    simp only [Handles.step]
    split
    · exact h
    · rename_i p m rest ht
      exact ⟨h.distinct, h.bound, h.boundGone,
        fun u a ha => h.boundPending u a (mem_of_mem_pop ht ha),
        fun q hq => ⟨(h.owned q hq).1, fun u hd => (h.owned q hq).2 u (mem_of_mem_pop ht hd)⟩,
        fun u q m' ha => h.live u q m' (mem_of_mem_pop ht ha), fun u => h.tidy_pop ht⟩
    · rename_i p rest ht
      have hp : Action.destroy p ∈ s.pending t := by
        rw [ht]
        exact mem_cons_self
      refine ⟨h.distinct, h.bound, fun q hq => ?_,
        fun u a ha => h.boundPending u a (mem_of_mem_pop ht ha),
        fun q hq => ⟨fun hd => ?_, fun u hd => (h.owned q hq).2 u (mem_of_mem_pop ht hd)⟩,
        fun u q m' ha hd => ?_, fun u => h.tidy_pop ht⟩
      · rcases mem_cons.mp hq with rfl | hq
        · exact h.boundPending t _ hp
        · exact h.boundGone q hq
      · rcases mem_cons.mp hd with rfl | hd
        · exact (h.owned q hq).2 t hp
        · exact (h.owned q hq).1 hd
      · rcases mem_cons.mp hd with rfl | hd
        · -- another thread does not hold it, and this one is done with it
          by_cases hu : u = t
          · subst hu
            have htidy := h.tidy u
            rw [ht] at htidy
            dsimp only at ha
            rw [Function.update_self] at ha
            exact htidy.1 m' ha
          · exact hunheld q (by rw [ht]; rfl) u hu m' (mem_of_mem_pop ht ha)
        · exact h.live u q m' (mem_of_mem_pop ht ha) hd

omit [DecidableEq τ] [DecidableEq κ] in
theorem Ok.live_step (h : Ok s) : Live s e := by
  cases e with
  | act t =>
    intro p m hhead
    exact h.live t p m (mem_of_mem_head? hhead)
  | insert key => trivial
  | look t calls => trivial
  | remove t keys last => trivial

/-- **Nothing is used after it was destroyed**, if nothing is destroyed that another thread
    holds. -/
theorem live_of_unheld {es : List (Event τ κ μ)} (hs : Ok s) (hsound : ∀ e ∈ es, e.Sound)
    (h : Along step Unheld s es) : Along step Live s es := by
  induction es generalizing s with
  | nil => trivial
  | cons e es ih =>
    have he := hsound e mem_cons_self
    exact ⟨hs.live_step, ih (hs.step he h.1) (fun e' he' => hsound e' (mem_cons_of_mem _ he')) h.2⟩

/-! ## 3. Only then -/

/-- A pending use of a destroyed object stays pending as long as it is not made. -/
theorem pending_of_live {p : Nat} {m : μ} {es : List (Event τ κ μ)} (hp : p ∈ s.destroyed)
    (ha : Action.use p m ∈ s.pending t) (h : Along step Live s es) :
    Action.use p m ∈ (es.foldl step s).pending t := by
  induction es generalizing s with
  | nil => exact ha
  | cons e es ih =>
    have hne : s.pending t ≠ [] := ne_nil_of_mem ha
    refine ih ?_ ?_ h.2
    · cases e with
      | insert key =>
        simp only [step]
        split <;> exact hp
      | look u calls =>
        simp only [step]
        split <;> exact hp
      | remove u keys last =>
        simp only [step]
        split <;> exact hp
      | act u =>
        simp only [step]
        split
        · exact hp
        · exact hp
        · exact mem_cons_of_mem _ hp
    · -- the thread is not idle, so its list only shrinks
      have hkeep : ∀ {u} {actions}, u ≠ t →
          Action.use p m ∈ Function.update s.pending u actions t := by
        intro u actions hu
        rw [Function.update_of_ne (Ne.symm hu)]
        exact ha
      cases e with
      | insert key =>
        simp only [step]
        split <;> exact ha
      | look u calls =>
        simp only [step]
        split
        · rename_i hu
          exact hkeep (fun he => hne (he ▸ hu))
        · exact ha
      | remove u keys last =>
        simp only [step]
        split
        · rename_i hu
          exact hkeep (fun he => hne (he ▸ hu))
        · exact ha
      | act u =>
        by_cases hu : u = t
        · subst hu
          have hlive := h.1
          simp only [step]
          split
          · exact ha
          · rename_i q m' rest hpending
            dsimp only
            rw [Function.update_self]
            rw [hpending] at ha
            refine (mem_cons.mp ha).resolve_left (fun he => ?_)
            cases he
            exact hlive p m (by rw [hpending]; rfl) hp
          · rename_i q rest hpending
            dsimp only
            rw [Function.update_self]
            rw [hpending] at ha
            exact (mem_cons.mp ha).resolve_left (fun he => by cases he)
        · simp only [step]
          split
          · exact ha
          · exact hkeep hu
          · exact hkeep hu

/-- **A held object is used after its destruction**: if no use comes too late in a run at whose end
    the threads have nothing left to do, then no held object was destroyed. -/
theorem unheld_of_live {es : List (Event τ κ μ)}
    (hdone : ∀ t, (es.foldl step s).pending t = []) (h : Along step Live s es) :
    Along step Unheld s es := by
  induction es generalizing s with
  | nil => trivial
  | cons e es ih =>
    refine ⟨?_, ih hdone h.2⟩
    cases e with
    | insert key => trivial
    | look t calls => trivial
    | remove t keys last => trivial
    | act t =>
      intro p hhead u hu m ha
      obtain ⟨rest, hpending⟩ : ∃ rest, s.pending t = .destroy p :: rest := by
        cases hp : s.pending t with
        | nil =>
          rw [hp] at hhead
          simp at hhead
        | cons a rest =>
          rw [hp] at hhead
          exact ⟨rest, by rw [Option.some.inj hhead]⟩
      have hstep : step s (.act t) =
          { s with
            destroyed := p :: s.destroyed
            pending := Function.update s.pending t rest } := by
        simp only [step, hpending]
      have hgone : p ∈ (step s (.act t)).destroyed := by
        rw [hstep]
        exact mem_cons_self
      have hstill : Action.use p m ∈ (step s (.act t)).pending u := by
        rw [hstep]
        dsimp only
        rw [Function.update_of_ne hu]
        exact ha
      have hend := pending_of_live hgone hstill h.2
      rw [foldl_cons] at hdone
      rw [hdone u] at hend
      simp at hend

end Handles

end PulseLog
