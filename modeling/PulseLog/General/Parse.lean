/-
  Subject:   Readers of a symbol string that give back what is left of it.

  A reader is a computation in `StateT (List τ) Option`: it fails, or returns a value and the rest.
  What it means that an encoding can be read is `Reads p s a`: `p` turns the symbols `s` into `a`
  wherever `s` stands, whatever comes behind it.

  * `Parser.ensure`, `Parser.lift`, `Parser.exactly`, `Parser.rest`, `Parser.times`;
  * `Reads.bind`, `Reads.times` -- readers one after the other, and a counted loop of one reader;
  * `Reads.complete` -- the encoding alone is read to its end;
  * `Yields p Q`, `Passes p q` -- what a run that succeeds tells: of the value, and of the symbols;
  * `Width p n` -- the reader takes `n` symbols, whatever they are, and fails where there are less.
-/
import Mathlib.Data.List.Basic
import Mathlib.Tactic.Common

namespace PulseLog

open List

universe u

variable {τ α β γ : Type u}

/-- A value and the symbols left over, or failure. -/
abbrev Parser (τ α : Type u) := StateT (List τ) Option α

namespace Parser

/-! ## 1. Readers -/

/-- Go on only if the condition holds. -/
def ensure (c : Prop) [Decidable c] : Parser τ PUnit := if c then pure ⟨⟩ else failure

/-- Go on with the value, if there is one. -/
def lift : Option α → Parser τ α
  | some a => pure a
  | none => failure

/-- The next `n` symbols. -/
def exactly (n : Nat) : Parser τ (List τ) := fun s =>
  if s.length < n then none else some (s.take n, s.drop n)

/-- Everything that is left. -/
def rest : Parser τ (List τ) := fun s => some (s, [])

/-- The reader `n` times. -/
def times (p : Parser τ α) : Nat → Parser τ (List α)
  | 0 => pure []
  | n + 1 => do
      let a ← p
      let as ← times p n
      pure (a :: as)

/-! ## 2. What a run does -/

section Run

variable {p : Parser τ α} {f : α → Parser τ β} {s r : List τ} {a : α} {b : β}

theorem run_bind_some : (p >>= f).run s = some (b, r) ↔
    ∃ a t, p.run s = some (a, t) ∧ (f a).run t = some (b, r) := by
  constructor
  · intro h
    obtain ⟨⟨a, t⟩, h1, h2⟩ := Option.bind_eq_some_iff.mp h
    exact ⟨a, t, h1, h2⟩
  · rintro ⟨a, t, h1, h2⟩
    exact Option.bind_eq_some_iff.mpr ⟨(a, t), h1, h2⟩

theorem run_ensure_some {c : Prop} [Decidable c] {x : PUnit} :
    (ensure c : Parser τ PUnit).run s = some (x, r) ↔ c ∧ r = s := by
  unfold ensure
  split
  · rename_i h
    simp only [StateT.run_pure, Option.pure_def, Option.some.injEq, Prod.mk.injEq, h, true_and]
    exact eq_comm
  · rename_i h
    simp [h]

theorem run_lift_some {o : Option α} :
    (lift o : Parser τ α).run s = some (a, r) ↔ o = some a ∧ r = s := by
  cases o with
  | none => simp [lift]
  | some x =>
    simp only [lift, StateT.run_pure, Option.pure_def, Option.some.injEq, Prod.mk.injEq]
    exact and_congr_right fun _ => eq_comm

end Run

/-! ## 3. What can be read -/

/-- `p` reads the symbols `s` as `a`, and leaves what stands behind them. -/
def Reads (p : Parser τ α) (s : List τ) (a : α) : Prop := ∀ t, p.run (s ++ t) = some (a, t)

section Reads

variable {p : Parser τ α} {f : α → Parser τ β} {s t : List τ} {a : α} {b : β}

theorem Reads.complete (h : Reads p s a) : p.run s = some (a, []) := by
  rw [← append_nil s]
  exact h []

theorem Reads.done (a : α) : Reads (pure a : Parser τ α) [] a := fun _ => rfl

theorem Reads.bind (hp : Reads p s a) (hf : Reads (f a) t b) : Reads (p >>= f) (s ++ t) b := by
  intro u
  rw [run_bind_some]
  exact ⟨a, t ++ u, by rw [append_assoc]; exact hp _, hf u⟩

/-- The last reader of a chain may look at all that is left. -/
theorem Reads.run_bind (hp : Reads p s a) (t : List τ) : (p >>= f).run (s ++ t) = (f a).run t := by
  rw [StateT.run_bind, hp t]
  rfl

theorem Reads.map (hp : Reads p s a) (g : α → β) : Reads (g <$> p) s (g a) := by
  intro u
  rw [StateT.run_map, hp u]
  rfl

theorem reads_ensure {c : Prop} [Decidable c] (hc : c) : Reads (ensure c : Parser τ PUnit) [] ⟨⟩ :=
  fun _ => run_ensure_some.mpr ⟨hc, rfl⟩

theorem Reads.ensured {c : Prop} [Decidable c] {f : PUnit → Parser τ β} (hc : c)
    (h : Reads (f ⟨⟩) s b) : Reads (ensure c >>= f) s b := (reads_ensure hc).bind h

theorem Reads.lifted {o : Option α} (ho : o = some a) (h : Reads (f a) s b) :
    Reads (lift o >>= f) s b := by
  intro u
  rw [run_bind_some]
  exact ⟨a, s ++ u, run_lift_some.mpr ⟨ho, rfl⟩, h u⟩

theorem reads_exactly (s : List τ) : Reads (exactly s.length) s s := by
  intro t
  show (if (s ++ t).length < s.length then none
    else some ((s ++ t).take s.length, (s ++ t).drop s.length)) = _
  rw [if_neg (by simp), take_left, drop_left]

/-- **A counted loop** reads the encodings of the elements one after the other. -/
theorem Reads.times {enc : α → List τ} {as : List α} (h : ∀ a ∈ as, Reads p (enc a) a) :
    Reads (p.times as.length) (as.flatMap enc) as := by
  induction as with
  | nil => exact Reads.done []
  | cons a as ih =>
    have htail := ih fun x hx => h x (mem_cons_of_mem a hx)
    have hpure : Reads (pure (a :: as) : Parser τ (List α)) [] (a :: as) := Reads.done _
    have hrest := htail.bind (f := fun as => pure (a :: as)) hpure
    rw [append_nil] at hrest
    exact (h a mem_cons_self).bind hrest

end Reads

/-! ## 4. What a successful run tells -/

/-- Whatever `p` returns meets `Q`. -/
def Yields (p : Parser τ α) (Q : α → Prop) : Prop := ∀ s a t, p.run s = some (a, t) → Q a

/-- Whatever symbols `p` takes, `q` takes as well. -/
def Passes (p : Parser τ α) (q : Parser τ PUnit) : Prop :=
  ∀ s a t, p.run s = some (a, t) → q.run s = some (⟨⟩, t)

section Success

variable {p : Parser τ α} {f : α → Parser τ β} {q q' : Parser τ PUnit} {Q : α → Prop} {R : β → Prop}
  {a : α}

theorem Yields.done (h : Q a) : Yields (pure a : Parser τ α) Q := by
  intro s b t hb
  obtain ⟨rfl, -⟩ := Prod.mk.inj (Option.some.inj hb)
  exact h

theorem Yields.bind (h : ∀ a, Yields (f a) R) : Yields (p >>= f) R := by
  intro s b t hb
  obtain ⟨a, u, -, hf⟩ := run_bind_some.mp hb
  exact h a u b t hf

theorem Yields.ensured {c : Prop} [Decidable c] {f : PUnit → Parser τ β} (h : c → Yields (f ⟨⟩) R) :
    Yields (ensure c >>= f) R := by
  intro s b t hb
  obtain ⟨⟨⟩, u, hc, hf⟩ := run_bind_some.mp hb
  exact h (run_ensure_some.mp hc).1 u b t hf

theorem Passes.done (a : α) : Passes (pure a : Parser τ α) (pure ⟨⟩) := by
  intro s b t hb
  obtain ⟨-, rfl⟩ := Prod.mk.inj (Option.some.inj hb)
  rfl

theorem Passes.bind (hp : Passes p q) (hf : ∀ a, Passes (f a) q') :
    Passes (p >>= f) (q >>= fun _ => q') := by
  intro s b t hb
  obtain ⟨a, u, ha, hf'⟩ := run_bind_some.mp hb
  exact run_bind_some.mpr ⟨⟨⟩, u, hp s a u ha, hf a u b t hf'⟩

theorem Passes.map {g : α → β} (hp : Passes p q) : Passes (g <$> p) q := by
  intro s b t hb
  rw [StateT.run_map] at hb
  obtain ⟨⟨a, u⟩, ha, he⟩ := Option.map_eq_some_iff.mp hb
  obtain ⟨-, rfl⟩ := Prod.mk.inj he
  exact hp s a u ha

theorem Passes.ensured {c : Prop} [Decidable c] {f : PUnit → Parser τ β} (h : Passes (f ⟨⟩) q) :
    Passes (ensure c >>= f) q := by
  intro s b t hb
  obtain ⟨⟨⟩, u, hc, hf⟩ := run_bind_some.mp hb
  obtain ⟨-, rfl⟩ := run_ensure_some.mp hc
  exact h _ b t hf

theorem Passes.lifted {o : Option α} (h : ∀ a, Passes (f a) q) : Passes (lift o >>= f) q := by
  intro s b t hb
  obtain ⟨a, u, ha, hf⟩ := run_bind_some.mp hb
  obtain ⟨-, rfl⟩ := run_lift_some.mp ha
  exact h a _ b t hf

theorem Passes.times (hp : Passes p q) (n : Nat) :
    Passes (p.times n) ((fun _ => ⟨⟩) <$> q.times n) := by
  induction n with
  | zero => exact Passes.done []
  | succ n ih =>
    intro s as t has
    obtain ⟨a, u, ha, has⟩ := run_bind_some.mp has
    obtain ⟨as', v, has', hpure⟩ := run_bind_some.mp has
    obtain ⟨-, rfl⟩ := Prod.mk.inj (Option.some.inj hpure)
    have hrest := ih u as' v has'
    rw [StateT.run_map] at hrest ⊢
    obtain ⟨⟨us, w⟩, hus, he⟩ := Option.map_eq_some_iff.mp hrest
    obtain ⟨-, rfl⟩ := Prod.mk.inj he
    refine Option.map_eq_some_iff.mpr ⟨(⟨⟩ :: us, w), ?_, rfl⟩
    exact run_bind_some.mpr ⟨⟨⟩, u, hp s a u ha, run_bind_some.mpr ⟨us, w, hus, rfl⟩⟩

end Success

/-! ## 5. Readers of a fixed width -/

/-- `p` takes the next `n` symbols, and fails if there are less. -/
structure Width (p : Parser τ α) (n : Nat) : Prop where
  reads : ∀ s, n ≤ s.length → ∃ a, p.run s = some (a, s.drop n)
  fails : ∀ s, s.length < n → p.run s = none

section Width

variable {p : Parser τ α} {f : α → Parser τ β} {n k : Nat}

theorem width_pure (a : α) : Width (pure a : Parser τ α) 0 :=
  ⟨fun _ _ => ⟨a, rfl⟩, fun _ h => absurd h (Nat.not_lt_zero _)⟩

theorem width_exactly (n : Nat) : Width (exactly n : Parser τ (List τ)) n :=
  ⟨fun s h => ⟨s.take n, if_neg (Nat.not_lt.mpr h)⟩, fun _ h => if_pos h⟩

theorem Width.map (hp : Width p n) (g : α → β) : Width (g <$> p) n := by
  refine ⟨fun s h => ?_, fun s h => ?_⟩
  · obtain ⟨a, ha⟩ := hp.reads s h
    exact ⟨g a, by rw [StateT.run_map, ha]; rfl⟩
  · rw [StateT.run_map, hp.fails s h]
    rfl

theorem Width.bind (hp : Width p n) (hf : ∀ a, Width (f a) k) : Width (p >>= f) (n + k) := by
  refine ⟨fun s h => ?_, fun s h => ?_⟩
  · obtain ⟨a, ha⟩ := hp.reads s (by omega)
    obtain ⟨b, hb⟩ := (hf a).reads (s.drop n) (by rw [length_drop]; omega)
    rw [drop_drop] at hb
    exact ⟨b, run_bind_some.mpr ⟨a, s.drop n, ha, hb⟩⟩
  · rw [StateT.run_bind]
    by_cases hn : n ≤ s.length
    · obtain ⟨a, ha⟩ := hp.reads s hn
      rw [ha]
      exact (hf a).fails (s.drop n) (by rw [length_drop]; omega)
    · rw [hp.fails s (by omega)]
      rfl

end Width

end Parser

end PulseLog
