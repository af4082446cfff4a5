/-
  Subject:   Infinite runs of a state machine, and what they lead to.

  * `trace` -- the states of the run under an infinite sequence of events;
  * `LeadsTo` -- from every state with `P` the run comes to one with `Q`;
  * `leadsTo_of_rank` -- a rank that no step raises and that helpful steps lower, where helpful
    steps keep coming.
-/
import Mathlib.Data.Nat.Basic

namespace PulseLog

variable {σ ε : Type*} {step : σ → ε → σ} {s₀ : σ} {e : Nat → ε} {s : Nat → σ} {P Q R : σ → Prop}

def trace (step : σ → ε → σ) (s₀ : σ) (e : Nat → ε) : Nat → σ
  | 0 => s₀
  | n + 1 => step (trace step s₀ e n) (e n)

/-- What holds at the start and is kept by every step holds all along. -/
theorem trace_invariant (h₀ : P s₀)
    (hstep : ∀ n, P (trace step s₀ e n) → P (trace step s₀ e (n + 1))) (n : Nat) :
    P (trace step s₀ e n) := by
  induction n with
  | zero => exact h₀
  | succ n ih => exact hstep n ih

/-- What every step keeps, once it holds, holds from then on. -/
theorem stable (hstep : ∀ n, P (s n) → P (s (n + 1))) {n m : Nat} (hnm : n ≤ m) (hn : P (s n)) :
    P (s m) := by
  induction m, hnm using Nat.le_induction with
  | base => exact hn
  | succ m _ ih => exact hstep m ih

def LeadsTo (s : Nat → σ) (P Q : σ → Prop) : Prop := ∀ n, P (s n) → ∃ m, n ≤ m ∧ Q (s m)

theorem LeadsTo.trans (hpq : LeadsTo s P Q) (hqr : LeadsTo s Q R) : LeadsTo s P R := by
  intro n hp
  obtain ⟨m, hnm, hq⟩ := hpq n hp
  obtain ⟨k, hmk, hr⟩ := hqr m hq
  exact ⟨k, le_trans hnm hmk, hr⟩

theorem LeadsTo.or (hp : LeadsTo s P R) (hq : LeadsTo s Q R) :
    LeadsTo s (fun x => P x ∨ Q x) R := by
  intro n h
  rcases h with h | h
  · exact hp n h
  · exact hq n h

/-- **The rank rule.** As long as `Q` has not come, `P` stays and the rank does not rise; a helpful
    step lowers it, and there is always another helpful step. -/
theorem leadsTo_of_rank (rank : σ → Nat) (helpful : Nat → Prop)
    (hfair : ∀ n, ∃ m, n ≤ m ∧ helpful m)
    (hstay : ∀ n, P (s n) → Q (s (n + 1)) ∨ P (s (n + 1)) ∧ rank (s (n + 1)) ≤ rank (s n))
    (hdrop : ∀ n, helpful n → P (s n) →
      Q (s (n + 1)) ∨ P (s (n + 1)) ∧ rank (s (n + 1)) < rank (s n)) : LeadsTo s P Q := by
  -- up to the next helpful step
  have hwalk : ∀ n m, n ≤ m → P (s n) →
      (∃ k, n ≤ k ∧ Q (s k)) ∨ P (s m) ∧ rank (s m) ≤ rank (s n) := by
    intro n m hnm hp
    induction m, hnm using Nat.le_induction with
    | base => exact .inr ⟨hp, le_rfl⟩
    | succ m hm ih =>
      rcases ih with hq | ⟨hpm, hle⟩
      · exact .inl hq
      · rcases hstay m hpm with hq | ⟨hpm', hle'⟩
        · exact .inl ⟨m + 1, by omega, hq⟩
        · exact .inr ⟨hpm', le_trans hle' hle⟩
  have hmain : ∀ r n, P (s n) → rank (s n) = r → ∃ m, n ≤ m ∧ Q (s m) := by
    intro r
    induction r using Nat.strong_induction_on with
    | _ r ih =>
      intro n hp hr
      obtain ⟨m, hnm, hm⟩ := hfair n
      rcases hwalk n m hnm hp with hq | ⟨hpm, hle⟩
      · exact hq
      rcases hdrop m hm hpm with hq | ⟨hpm', hlt⟩
      · exact ⟨m + 1, by omega, hq⟩
      obtain ⟨k, hk, hq⟩ := ih (rank (s (m + 1))) (by omega) (m + 1) hpm' rfl
      exact ⟨k, by omega, hq⟩
  exact fun n hp => hmain (rank (s n)) n hp rfl

end PulseLog
