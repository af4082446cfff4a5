/-
  Subject:   Runs of a state machine given by a step function.

  A run is the fold of `step` over the events. What a run may assume about its steps is said with
  `Along`: the condition is asked of each event in the state the event meets.

  * `Along.foldl` -- an invariant that every admitted step keeps holds at the end of the run;
  * `Along.strengthen` -- and in every state the run passes;
  * `Along.le_take` -- a preorder that every admitted step respects orders the states of the run;
  * `Along.forall_take_iff` -- the condition on the steps under which a property holds throughout;
  * `foldl_done` -- a run with more ticks than the measure of its start is done.
-/
import Mathlib.Data.List.Basic
import Mathlib.Order.Basic

namespace PulseLog

open List

variable {σ ε : Type*} {step : σ → ε → σ} {P Q : σ → ε → Prop} {I : σ → Prop}

variable {es : List ε} {s : σ}

/-- Every event of the run meets `P` in the state it finds. -/
def Along (step : σ → ε → σ) (P : σ → ε → Prop) : σ → List ε → Prop
  | _, [] => True
  | s, e :: es => P s e ∧ Along step P (step s e) es

instance Along.decidable [∀ s e, Decidable (P s e)] : ∀ (s : σ) (es : List ε),
    Decidable (Along step P s es)
  | _, [] => inferInstanceAs (Decidable True)
  | s, e :: es => @instDecidableAnd _ _ _ (Along.decidable (step s e) es)

theorem along_append {fs : List ε} : ∀ (es : List ε) (s : σ),
    Along step P s (es ++ fs) ↔ Along step P s es ∧ Along step P (es.foldl step s) fs
  | [], s => by simp only [nil_append, Along, foldl_nil, true_and]
  | e :: es, s => by
    simp only [cons_append, Along, foldl_cons, and_assoc, along_append es (step s e)]

theorem Along.mono (h : ∀ s e, P s e → Q s e) : ∀ {es : List ε} {s : σ}, Along step P s es →
    Along step Q s es
  | [], _, _ => trivial
  | _ :: _, _, ha => ⟨h _ _ ha.1, Along.mono h ha.2⟩

theorem along_of_forall {S : ε → Prop} : ∀ {es : List ε} {s : σ}, (∀ e ∈ es, S e) →
    Along step (fun _ e => S e) s es
  | [], _, _ => trivial
  | _ :: _, _, h => ⟨h _ mem_cons_self, along_of_forall fun e he => h e (mem_cons_of_mem _ he)⟩

theorem Along.take (h : Along step P s es) (n : Nat) : Along step P s (es.take n) := by
  rw [← take_append_drop n es, along_append] at h
  exact h.1

/-- The event in place `n` meets `P` in the state before it. -/
theorem Along.get (h : Along step P s es) {n : Nat} {e : ε}
    (he : es[n]? = some e) : P ((es.take n).foldl step s) e := by
  obtain ⟨hn, rfl⟩ := List.getElem?_eq_some_iff.mp he
  rw [← take_append_drop n es, along_append, drop_eq_getElem_cons hn] at h
  exact h.2.1

section Invariant

variable (hstep : ∀ s e, I s → P s e → I (step s e))
include hstep

/-- **The invariant rule.** -/
theorem Along.foldl (ha : Along step P s es) (hs : I s) : I (es.foldl step s) := by
  induction es generalizing s with
  | nil => exact hs
  | cons e es ih => exact ih ha.2 (hstep s e hs ha.1)

/-- The invariant holds where each event is taken. -/
theorem Along.strengthen : ∀ {es : List ε} {s : σ}, Along step P s es → I s →
    Along step (fun s e => I s ∧ P s e) s es
  | [], _, _, _ => trivial
  | _ :: _, _, ha, hs => ⟨⟨hs, ha.1⟩, Along.strengthen ha.2 (hstep _ _ hs ha.1)⟩

section

variable {α : Type*} [Preorder α] {f : σ → α} (hle : ∀ s e, I s → P s e → f s ≤ f (step s e))
  (ha : Along step P s es) (hs : I s)
include hle ha hs

/-- **The order rule**: if admitted steps go up in a preorder, so do runs. -/
theorem Along.le_foldl : f s ≤ f (es.foldl step s) := by
  induction es generalizing s with
  | nil => exact le_rfl
  | cons e es ih => exact le_trans (hle s e hs ha.1) (ih ha.2 (hstep s e hs ha.1))

theorem Along.le_take {m n : Nat} (hmn : m ≤ n) :
    f ((es.take m).foldl step s) ≤ f ((es.take n).foldl step s) := by
  obtain ⟨k, rfl⟩ := Nat.exists_eq_add_of_le hmn
  have hsplit : es.take (m + k) = es.take m ++ (es.drop m).take k := by
    rw [take_add]
  have hrest := ha.take (m + k)
  rw [hsplit, along_append] at hrest
  rw [hsplit, foldl_append]
  exact Along.le_foldl hstep hle hrest.2 (Along.foldl hstep hrest.1 hs)

end

end Invariant

/-- **The exact condition of a run**: where an admitted step keeps `J` if it meets `Q`, and breaks
    `I` if not, `I` holds throughout exactly if every step meets `Q`. -/
theorem Along.forall_take_iff {J : σ → Prop} (hJI : ∀ s, J s → I s)
    (hgood : ∀ s e, J s → P s e → Q s e → J (step s e))
    (hbad : ∀ s e, J s → P s e → ¬ Q s e → ¬ I (step s e)) : ∀ {es : List ε} {s : σ},
    Along step P s es → J s → ((∀ n, I ((es.take n).foldl step s)) ↔ Along step Q s es)
  | [], s, _, hs => by simp only [take_nil, foldl_nil, Along, hJI s hs, implies_true]
  | e :: es, s, ha, hs => by
    have ih := fun hq => Along.forall_take_iff hJI hgood hbad ha.2 (hgood s e hs ha.1 hq)
    constructor
    · intro h
      have hq : Q s e := by_contra fun hq => hbad s e hs ha.1 hq (h 1)
      exact ⟨hq, (ih hq).mp fun n => h (n + 1)⟩
    · rintro ⟨hq, hes⟩ n
      cases n with
      | zero => exact hJI s hs
      | succ n => exact (ih hq).mpr hes n

/-- **The progress rule**: a step never raises the measure, a tick lowers it as long as the run is
    not done, and done is done. -/
theorem foldl_done {D : σ → Prop} {t : ε → Bool} {m : σ → Nat}
    (hI : ∀ s e, I s → I (step s e)) (hdone : ∀ s e, I s → D s → D (step s e))
    (hle : ∀ s e, I s → ¬ D s → m (step s e) ≤ m s)
    (hlt : ∀ s e, I s → ¬ D s → t e = true → m (step s e) < m s)
    (hs : I s) (hn : m s < es.countP t) : D (es.foldl step s) := by
  have hstay : ∀ (es : List ε) s, I s → D s → D (es.foldl step s) := by
    intro es
    induction es with
    | nil => exact fun s _ h => h
    | cons e es ih => exact fun s hs h => ih (step s e) (hI s e hs) (hdone s e hs h)
  induction es generalizing s with
  | nil => simp at hn
  | cons e es ih =>
    by_cases hd : D s
    · exact hstay (e :: es) s hs hd
    refine ih (hI s e hs) ?_
    rw [countP_cons] at hn
    split at hn
    · rename_i ht
      have := hlt s e hs hd ht
      omega
    · have := hle s e hs hd
      omega

end PulseLog
