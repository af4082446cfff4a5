/-
  Subject:   Computations on a state that return, fail, or never return.

  A process that writes files can end a call in three ways: it returns a value, it returns an
  error (and its caller goes on), or it does not return at all -- it is killed between two system
  calls, or it loops for ever. In all three cases what it did to the state so far stands. A
  computation is therefore a function from a state to an outcome AND a state.

  * `Outcome`, `Prog` -- the computations, with the usual `do` notation;
  * `attempt` -- a call whose error is handled by the caller;
  * `onSnd`, `zoom` -- a computation on a part of the state;
  * `runOn`, `onFirst`, `onEach` -- methods of an object, of one object of a list, of all of them;
  * `Sat Q E H` -- what a finished run has to meet: `Q` if it returned, `E` if it failed, `H` on
    the state it left behind if it never returned (the crash condition);
  * `Preserves f p` -- `p` does not change the reading `f` of the state.
-/
import Mathlib.Logic.Basic

namespace PulseLog

open List

variable {ε σ τ α β : Type}

/-! ## 1. Outcomes and computations -/

/-- How a call ends: with a value, with an error, or not at all. -/
inductive Outcome (ε α : Type) where
  | ok (a : α)
  | error (e : ε)
  | halted
  deriving Repr, DecidableEq

/-- The call returns a value that meets `Q`, or, where `E` allows it, an error. -/
def Outcome.Gives (E : Prop) (Q : α → Prop) : Outcome ε α → Prop
  | .ok a => Q a
  | .error _ => E
  | .halted => False

theorem Outcome.Gives.cases {E : Prop} {Q : α → Prop} {x : Outcome ε α} (h : x.Gives E Q) :
    (∃ a, x = .ok a ∧ Q a) ∨ ∃ e, x = .error e ∧ E := by
  cases x with
  | ok a => exact .inl ⟨a, rfl, h⟩
  | error e => exact .inr ⟨e, rfl, h⟩
  | halted => exact h.elim

theorem Outcome.Gives.mono {E : Prop} {Q Q' : α → Prop} {x : Outcome ε α} (h : x.Gives E Q)
    (hQ : ∀ a, Q a → Q' a) : x.Gives E Q' := by
  cases x with
  | ok a => exact hQ a h
  | error e => exact h
  | halted => exact h

theorem Outcome.Gives.ok {Q : α → Prop} {x : Outcome ε α} (h : x.Gives False Q) :
    ∃ a, x = .ok a ∧ Q a :=
  h.cases.resolve_right fun ⟨_, _, hf⟩ => hf

/-- The returned value, if there is one. -/
def Outcome.value? : Outcome ε α → Option α
  | .ok a => some a
  | _ => none

theorem Outcome.value?_eq_some {x : Outcome ε α} {a : α} (h : x.value? = some a) : x = .ok a := by
  cases x with
  | ok b => rw [Option.some.inj h]
  | error e => cases h
  | halted => cases h

theorem eq_of_value? {r : Outcome ε α × σ} {a : α} (h : r.1.value? = some a) : r = (.ok a, r.2) :=
  Prod.ext (Outcome.value?_eq_some h) rfl

/-- A computation over the state `σ`. The state it leaves is part of every outcome. -/
def Prog (ε σ α : Type) : Type := σ → Outcome ε α × σ

namespace Prog

protected def pure (a : α) : Prog ε σ α := fun s => (.ok a, s)

protected def bind (p : Prog ε σ α) (f : α → Prog ε σ β) : Prog ε σ β := fun s =>
  match p s with
  | (.ok a, s') => f a s'
  | (.error e, s') => (.error e, s')
  | (.halted, s') => (.halted, s')

instance : Monad (Prog ε σ) where
  pure := Prog.pure
  bind := Prog.bind

/-- Return an error to the caller. -/
def fail (e : ε) : Prog ε σ α := fun s => (.error e, s)

/-- Never return. -/
def halt : Prog ε σ α := fun s => (.halted, s)

def get : Prog ε σ σ := fun s => (.ok s, s)

def modify (f : σ → σ) : Prog ε σ Unit := fun s => (.ok (), f s)

/-- Run `p` and hand its error to the caller as a value. A halt is not caught. -/
def attempt (p : Prog ε σ α) : Prog ε σ (Except ε α) := fun s =>
  match p s with
  | (.ok a, s') => (.ok (.ok a), s')
  | (.error e, s') => (.ok (.error e), s')
  | (.halted, s') => (.halted, s')

/-- Lift a pure result. -/
def ofExcept : Except ε α → Prog ε σ α
  | .ok a => Prog.pure a
  | .error e => fail e

/-- A result computed without touching the state. -/
def ofOutcome (x : Outcome ε α) : Prog ε σ α := fun s => (x, s)

/-- Run `p` only under a condition. -/
def when (c : Prop) [Decidable c] (p : Prog ε σ Unit) : Prog ε σ Unit :=
  if c then p else Prog.pure ()

/-- A computation on the second component of a pair state. -/
def onSnd (p : Prog ε τ α) : Prog ε (σ × τ) α := fun s =>
  let r := p s.2
  (r.1, (s.1, r.2))

/-- A computation on a part of the state, given by a reader and a writer. -/
def zoom (rd : σ → τ) (wr : τ → σ → σ) (p : Prog ε τ α) : Prog ε σ α := fun s =>
  let r := p (rd s)
  (r.1, wr r.2 s)

/-- Run a method of the object `a`; the result comes with the object as the method left it. -/
def runOn (a : τ) (p : Prog ε (τ × σ) α) : Prog ε σ (α × τ) := fun s =>
  match p (a, s) with
  | (.ok x, t) => (.ok (x, t.1), t.2)
  | (.error e, t) => (.error e, t.2)
  | (.halted, t) => (.halted, t.2)

/-- Run a method of the first object of a list that meets `c`; without one there is no return. -/
def onFirst (c : τ → Bool) (p : Prog ε (τ × σ) α) : List τ → σ → Outcome ε α × (List τ × σ)
  | [], s => (.halted, ([], s))
  | a :: as, s =>
    if c a then
      let r := p (a, s)
      (r.1, (r.2.1 :: as, r.2.2))
    else
      let r := onFirst c p as s
      (r.1, (a :: r.2.1, r.2.2))

/-- Run a method of each object of a list in turn, stopping at the first error. -/
def onEach (p : Prog ε (τ × σ) α) : List τ → σ → Outcome ε (List α) × (List τ × σ)
  | [], s => (.ok [], ([], s))
  | a :: as, s =>
    match p (a, s) with
    | (.error e, t) => (.error e, (t.1 :: as, t.2))
    | (.halted, t) => (.halted, (t.1 :: as, t.2))
    | (.ok x, t) =>
      match onEach p as t.2 with
      | (.error e, u) => (.error e, (t.1 :: u.1, u.2))
      | (.halted, u) => (.halted, (t.1 :: u.1, u.2))
      | (.ok xs, u) => (.ok (x :: xs), (t.1 :: u.1, u.2))

end Prog

/-! ## 2. What a run has to meet -/

/-- **The conditions on a finished run**: `Q` on a returned value, `E` on an error, `H` on the
    state a run that never returned left behind. -/
def Sat (Q : α → σ → Prop) (E : ε → σ → Prop) (H : σ → Prop) : Outcome ε α × σ → Prop
  | (.ok a, s) => Q a s
  | (.error e, s) => E e s
  | (.halted, s) => H s

section Rules

variable {Q Q' : α → σ → Prop} {R : β → σ → Prop} {E E' : ε → σ → Prop} {H H' : σ → Prop}

variable {r : Outcome ε α × σ} {s : σ} {x : Outcome ε α} {p : Prog ε σ β} {f : β → Prog ε σ α}

@[simp] theorem sat_ok (a : α) (s : σ) : Sat Q E H (.ok a, s) ↔ Q a s := Iff.rfl

/-- A run that meets stronger conditions meets weaker ones. -/
theorem sat_mono (h : Sat Q E H r) (hQ : ∀ a s, Q a s → Q' a s)
    (hE : ∀ e s, E e s → E' e s) (hH : ∀ s, H s → H' s) : Sat Q' E' H' r := by
  rcases r with ⟨a | e | _, s⟩
  · exact hQ a s h
  · exact hE e s h
  · exact hH s h

/-- Only what holds on return is weakened. -/
theorem sat_imp (h : Sat Q E H r) (hQ : ∀ a s, Q a s → Q' a s) : Sat Q' E H r :=
  sat_mono h hQ (fun _ _ h => h) (fun _ h => h)

/-- A run that can neither fail nor halt returns. -/
theorem sat_returns (h : Sat Q (fun _ _ => False) (fun _ => False) r) :
    ∃ a s, r = (.ok a, s) ∧ Q a s := by
  rcases r with ⟨a | e | _, s⟩
  · exact ⟨a, s, rfl, h⟩
  · exact h.elim
  · exact h.elim

theorem sat_trivial (r : Outcome ε α × σ) :
    Sat (fun _ _ => True) (fun _ _ => True) (fun _ => True) r := by
  rcases r with ⟨a | e | _, s⟩ <;> exact trivial

/-- What holds of a run, if it returns. -/
abbrev OnReturn (Q : α → σ → Prop) (r : Outcome ε α × σ) : Prop :=
  Sat Q (fun _ _ => True) (fun _ => True) r

theorem sat_and (h : Sat Q E H r) (h' : Sat Q' E' H' r) :
    Sat (fun a s => Q a s ∧ Q' a s) (fun e s => E e s ∧ E' e s) (fun s => H s ∧ H' s) r := by
  rcases r with ⟨a | e | _, s⟩ <;> exact ⟨h, h'⟩

/-- What else is known of a run that returns. -/
theorem sat_onReturn (h : OnReturn Q r) (h' : Sat Q' E H r) :
    Sat (fun a s => Q a s ∧ Q' a s) E H r :=
  sat_mono (sat_and h h') (fun _ _ h => h) (fun _ _ h => h.2) (fun _ h => h.2)

/-- **Sequencing**: what the first computation establishes on return, the second starts from;
    its errors and its halts are those of the whole. -/
theorem sat_bind (hp : Sat R E H (p s))
    (hf : ∀ b s', R b s' → Sat Q E H (f b s')) : Sat Q E H ((p >>= f) s) := by
  show Sat Q E H (Prog.bind p f s)
  unfold Prog.bind
  rcases hr : p s with ⟨b | e | _, s'⟩
  · rw [hr] at hp
    exact hf b s' hp
  · rw [hr] at hp
    exact hp
  · rw [hr] at hp
    exact hp

/-- What follows a computation is shown where the computation returns. -/
theorem sat_then (h : Sat (fun b s' => Sat Q E H (f b s')) E H (p s)) : Sat Q E H ((p >>= f) s) :=
  sat_bind h (fun _ _ hf => hf)

theorem sat_map {f : β → α} (h : Sat R E H (p s)) :
    Sat (fun a s' => ∃ b, a = f b ∧ R b s') E H ((p >>= fun b => pure (f b)) s) :=
  sat_bind h (fun b _ hb => ⟨b, rfl, hb⟩)

theorem bind_get (f : σ → Prog ε σ α) (s : σ) : (Prog.get >>= f) s = f s s := rfl

theorem bind_ok {s s' : σ} {b : β} (h : p s = (.ok b, s')) : (p >>= f) s = f b s' := by
  show Prog.bind p f s = _
  unfold Prog.bind
  rw [h]

theorem bind_modify (g : σ → σ) (f : Unit → Prog ε σ α) (s : σ) :
    (Prog.modify g >>= f) s = f () (g s) := rfl

theorem sat_attempt {Q : Except ε α → σ → Prop} {p : Prog ε σ α}
    (h : Sat (fun a s' => Q (.ok a) s') (fun e s' => Q (.error e) s') H (p s)) :
    Sat Q E H (p.attempt s) := by
  unfold Prog.attempt
  rcases hr : p s with ⟨a | e | _, s'⟩ <;> (rw [hr] at h; exact h)

theorem sat_ofExcept {x : Except ε α} (hok : ∀ a, x = .ok a → Q a s)
    (herr : ∀ e, x = .error e → E e s) : Sat Q E H ((Prog.ofExcept x : Prog ε σ α) s) := by
  cases x with
  | ok a => exact hok a rfl
  | error e => exact herr e rfl

theorem sat_ofOutcome (hok : ∀ a, x = .ok a → Q a s)
    (herr : ∀ e, x = .error e → E e s) (hhalt : x = .halted → H s) :
    Sat Q E H ((Prog.ofOutcome x : Prog ε σ α) s) := by
  cases x with
  | ok a => exact hok a rfl
  | error e => exact herr e rfl
  | halted => exact hhalt rfl

theorem sat_when {Q : Unit → σ → Prop} {c : Prop} [Decidable c] {p : Prog ε σ Unit}
    (hp : c → Sat Q E H (p s)) (hn : ¬ c → Q () s) : Sat Q E H (Prog.when c p s) := by
  unfold Prog.when
  split
  · exact hp ‹c›
  · exact hn ‹¬ c›

theorem sat_onSnd {Q : α → σ × τ → Prop} {E : ε → σ × τ → Prop} {H : σ × τ → Prop}
    {p : Prog ε τ α} {a : σ} {t : τ}
    (h : Sat (fun x t' => Q x (a, t')) (fun e t' => E e (a, t')) (fun t' => H (a, t')) (p t)) :
    Sat Q E H (p.onSnd (a, t)) := by
  unfold Prog.onSnd
  rcases hr : p t with ⟨x | e | _, t'⟩ <;> (simp only [hr] at h ⊢; exact h)

theorem sat_zoom {rd : σ → τ} {wr : τ → σ → σ} {p : Prog ε τ α}
    (h : Sat (fun x t => Q x (wr t s)) (fun e t => E e (wr t s)) (fun t => H (wr t s)) (p (rd s))) :
    Sat Q E H (p.zoom rd wr s) := by
  unfold Prog.zoom
  rcases hr : p (rd s) with ⟨x | e | _, t'⟩ <;> (simp only [hr] at h ⊢; exact h)

/-- A call on a part of the state whose error is handled by the caller. -/
theorem sat_zoom_attempt {Q : Except ε α → σ → Prop} {rd : σ → τ} {wr : τ → σ → σ} {p : Prog ε τ α}
    (h : Sat (fun x t => Q x (wr t s)) (fun e t => E e (wr t s)) (fun t => H (wr t s))
      (p.attempt (rd s))) : Sat Q E H ((p.zoom rd wr).attempt s) := by
  unfold Prog.zoom Prog.attempt at *
  rcases hr : p (rd s) with ⟨x | e | _, t'⟩ <;> (simp only [hr] at h ⊢; exact h)

end Rules

/-! ## 3. Methods of objects -/

section Objects

variable {p : Prog ε (τ × σ) α} {a : τ}

/-- A method of an object that is not part of the state. -/
theorem sat_runOn {Q : α × τ → σ → Prop} {E : ε → σ → Prop} {H : σ → Prop} {s : σ}
    (h : Sat (fun x t => Q (x, t.1) t.2) (fun e t => E e t.2) (fun t => H t.2) (p (a, s))) :
    Sat Q E H (Prog.runOn a p s) := by
  unfold Prog.runOn
  rcases hr : p (a, s) with ⟨x | e | _, t⟩ <;> (simp only [hr] at h ⊢; exact h)

/-- A method of the one object of a list that meets the condition. -/
theorem sat_onFirst {c : τ → Bool} {ys : List τ} {s : σ} :
    ∀ {xs : List τ} {Q : α → List τ × σ → Prop} {E : ε → List τ × σ → Prop}
      {H : List τ × σ → Prop}, (∀ x ∈ xs, c x = false) → c a = true →
    Sat (fun x t => Q x (xs ++ t.1 :: ys, t.2)) (fun e t => E e (xs ++ t.1 :: ys, t.2))
      (fun t => H (xs ++ t.1 :: ys, t.2)) (p (a, s)) →
    Sat Q E H (Prog.onFirst c p (xs ++ a :: ys) s)
  | [], Q, E, H, _, ha, h => by
    simp only [nil_append, Prog.onFirst, ha]
    rcases hr : p (a, s) with ⟨x | e | _, t⟩ <;> (simp only [hr] at h ⊢; exact h)
  | x :: xs, Q, E, H, hx, ha, h => by
    have ih := sat_onFirst (Q := fun r t => Q r (x :: t.1, t.2))
      (E := fun e t => E e (x :: t.1, t.2))
      (H := fun t => H (x :: t.1, t.2)) (fun y hy => hx y (mem_cons_of_mem _ hy)) ha h
    simp only [cons_append, Prog.onFirst, hx x mem_cons_self]
    rcases hr : Prog.onFirst c p (xs ++ a :: ys) s with ⟨r | e | _, t⟩ <;>
      (simp only [hr] at ih ⊢; exact ih)

variable {E : ε → List τ × σ → Prop} {H : List τ × σ → Prop}

/-- **A method of each object in turn**: `I done todo` is kept by each call. -/
theorem sat_onEach {I : List τ → List τ → σ → Prop} (hstep : ∀ done a todo s, I done (a :: todo) s →
      Sat (fun _ t => I (done ++ [t.1]) todo t.2) (fun e t => E e (done ++ t.1 :: todo, t.2))
        (fun t => H (done ++ t.1 :: todo, t.2)) (p (a, s))) :
    ∀ (todo done : List τ) (s : σ), I done todo s →
      Sat (fun _ t => I (done ++ t.1) [] t.2) (fun e t => E e (done ++ t.1, t.2))
        (fun t => H (done ++ t.1, t.2)) (Prog.onEach p todo s)
  | [], done, s, h => by simpa [Prog.onEach] using h
  | a :: todo, done, s, h => by
    have h1 := hstep done a todo s h
    unfold Prog.onEach
    rcases hr : p (a, s) with ⟨x | e | _, t⟩
    · rw [hr] at h1
      have ih := sat_onEach hstep todo (done ++ [t.1]) t.2 h1
      rcases hr2 : Prog.onEach p todo t.2 with ⟨y | e | _, u⟩ <;>
        (simp only [hr2, append_assoc] at ih ⊢; exact ih)
    · rw [hr] at h1
      exact h1
    · rw [hr] at h1
      exact h1

/-- A method of each object, the last one told apart. -/
theorem sat_onEach_concat :
    ∀ (xs : List τ) (s : σ) {E : ε → List τ × σ → Prop} {H : List τ × σ → Prop}
      {Q : List τ × σ → Prop},
    Sat (fun _ t => Sat (fun _ u => Q (t.1 ++ [u.1], u.2)) (fun e u => E e (t.1 ++ [u.1], u.2))
        (fun u => H (t.1 ++ [u.1], u.2)) (p (a, t.2)))
      (fun e t => E e (t.1 ++ [a], t.2)) (fun t => H (t.1 ++ [a], t.2)) (Prog.onEach p xs s) →
    Sat (fun _ t => Q t) E H (Prog.onEach p (xs ++ [a]) s)
  | [], s, E, H, Q, h => by
    simp only [Prog.onEach, sat_ok, nil_append] at h ⊢
    rcases hr : p (a, s) with ⟨x | e | _, t⟩ <;> (rw [hr] at h; exact h)
  | x :: xs, s, E, H, Q, h => by
    simp only [Prog.onEach, cons_append] at h ⊢
    rcases hr : p (x, s) with ⟨y | e | _, t⟩
    · rw [hr] at h
      have ih := sat_onEach_concat xs t.2
        (E := fun e u => E e (t.1 :: u.1, u.2)) (H := fun u => H (t.1 :: u.1, u.2))
        (Q := fun u => Q (t.1 :: u.1, u.2)) (by
          rcases hr2 : Prog.onEach p xs t.2 with ⟨z | e | _, u⟩ <;> (simp only [hr2] at h; exact h))
      rcases hr2 : Prog.onEach p (xs ++ [a]) t.2 with ⟨z | e | _, u⟩ <;>
        (simp only [hr2] at ih ⊢; exact ih)
    · rw [hr] at h
      exact h
    · rw [hr] at h
      exact h

end Objects

end PulseLog
