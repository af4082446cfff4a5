/-
  Subject:   A stream of self-delimiting frames that arrives in chunks.

  A scanner looks at the symbols that have arrived and says that it needs more, that a frame of some
  size stands at the front, or that the stream is broken. It delimits an encoding (`Delimits`) when
  it waits at every proper front part of an encoded frame and finds the frame as soon as it is
  there, whatever stands behind it. Then it does not matter how the stream is cut:

  * `drain`, `feed` -- scan and cut off frames until more is needed; a chunk arrives;
  * `Arrived` -- what has come out and what is left after some of the stream; `Arrived.feed` keeps
    it, and `Arrived.done` says what it means when all has arrived.
-/
import Mathlib.Data.List.Infix
import Mathlib.Tactic.Common

namespace PulseLog

open List

universe u

variable {τ α φ : Type u}

/-- What a scanner says about the symbols that have arrived. -/
inductive Scan (φ : Type u) where
  | more
  | frame (f : φ) (size : Nat)
  | bad

/-- `scan` finds the frame of `a`, and `out a` in it, exactly when all of `enc a` is there. -/
structure Delimits (scan : List τ → Scan φ) (enc : α → List τ) (out : α → φ) (a : α) : Prop where
  pos : 0 < (enc a).length
  waits : ∀ b, b <+: enc a → b.length < (enc a).length → scan b = .more
  finds : ∀ t, scan (enc a ++ t) = .frame (out a) (enc a).length

/-- Cut off frames until more is needed. -/
def drain (scan : List τ → Scan φ) : Nat → List τ → List φ × List τ
  | 0, b => ([], b)
  | fuel + 1, b =>
    match scan b with
    | .frame f size => ((f :: (drain scan fuel (b.drop size)).1), (drain scan fuel (b.drop size)).2)
    | .more => ([], b)
    | .bad => ([], b)

/-- A chunk arrives: the frames so far, and what is left. -/
def feed (scan : List τ → Scan φ) (s : List φ × List τ) (chunk : List τ) : List φ × List τ :=
  let b := s.2 ++ chunk
  (s.1 ++ (drain scan b.length b).1, (drain scan b.length b).2)

section Frames

variable {scan : List τ → Scan φ} {enc : α → List τ} {out : α → φ} {as : List α} {fuel : Nat}
  {b t future : List τ} {f : φ} {size : Nat}

theorem drain_more (h : scan b = .more) : drain scan fuel b = ([], b) := by
  cases fuel with
  | zero => rfl
  | succ fuel =>
    unfold drain
    rw [h]

theorem drain_frame (h : scan b = .frame f size) : drain scan (fuel + 1) b =
    (f :: (drain scan fuel (b.drop size)).1, (drain scan fuel (b.drop size)).2) := by
  conv_lhs => unfold drain
  rw [h]

/-- If looking for one more frame finds no more than `n`, none is left behind the first `n`. -/
theorem drain_left : ∀ {n : Nat} {b : List τ}, (drain scan (n + 1) b).1.length ≤ n →
    scan (drain scan n b).2 ≠ .frame f size
  | n, b, h => by
    intro hframe
    cases hb : scan b with
    | more => rw [drain_more hb, hb] at hframe; cases hframe
    | bad =>
      have hsame : drain scan n b = ([], b) := by cases n <;> simp [drain, hb]
      rw [hsame, hb] at hframe
      cases hframe
    | frame g k =>
      rw [drain_frame hb, length_cons] at h
      cases n with
      | zero => omega
      | succ n =>
        rw [drain_frame hb] at hframe
        exact drain_left (Nat.le_of_succ_le_succ h) hframe

/-- Where two cuts of one stream meet: the first part ends inside the other or reaches past it. -/
theorem cut_cases {x y : List τ} (h : b ++ future = x ++ y) :
    (b <+: x ∧ b.length < x.length) ∨ ∃ t, b = x ++ t ∧ t ++ future = y := by
  rcases append_eq_append_iff.mp h with ⟨u, rfl, rfl⟩ | ⟨u, rfl, rfl⟩
  · cases u with
    | nil => exact .inr ⟨[], by simp, by simp⟩
    | cons c u => exact .inl ⟨prefix_append _ _, by simp⟩
  · exact .inr ⟨u, rfl, rfl⟩

/-- **Draining** a front part of an encoded stream takes out the frames that are all there, and
    leaves less than the next one. -/
theorem drain_frames (hnil : scan [] = .more) (has : ∀ a ∈ as, Delimits scan enc out a)
    (hb : b ++ future = as.flatMap enc) (hfuel : b.length ≤ fuel) :
    ∃ done rest, as = done ++ rest ∧ (drain scan fuel b).1 = done.map out ∧
      (drain scan fuel b).2 ++ future = rest.flatMap enc ∧
      ∀ a ∈ rest.head?, (drain scan fuel b).2.length < (enc a).length := by
  induction fuel generalizing as b with
  | zero =>
    have hempty : b = [] := length_eq_zero_iff.mp (by omega)
    subst hempty
    exact ⟨[], as, rfl, rfl, hb, fun a ha => (has a (mem_of_mem_head? ha)).pos⟩
  | succ fuel ih =>
    cases as with
    | nil =>
      obtain ⟨rfl, -⟩ := append_eq_nil_iff.mp hb
      rw [drain_more hnil]
      exact ⟨[], [], rfl, rfl, hb, fun a ha => by simp at ha⟩
    | cons a as =>
      have ha := has a mem_cons_self
      rcases cut_cases hb with ⟨hpre, hlt⟩ | ⟨t, rfl, ht⟩
      · rw [drain_more (ha.waits b hpre hlt)]
        refine ⟨[], a :: as, rfl, rfl, hb, fun a' ha' => ?_⟩
        rw [← Option.some.inj ha']
        exact hlt
      · have hpos := ha.pos
        rw [length_append] at hfuel
        obtain ⟨done, rest, rfl, hdone, hrest, hleft⟩ :=
          ih (fun x hx => has x (mem_cons_of_mem a hx)) ht (by omega)
        rw [drain_frame (ha.finds t), drop_left]
        exact ⟨a :: done, rest, rfl, by rw [hdone, map_cons], hrest, hleft⟩

/-- The frames taken out so far, what is left of the arrived symbols, and the rest of the stream. -/
structure Arrived (enc : α → List τ) (out : α → φ) (as : List α) (s : List φ × List τ)
    (future : List τ) : Prop where
  cut : ∃ done rest, as = done ++ rest ∧ s.1 = done.map out ∧ s.2 ++ future = rest.flatMap enc ∧
    ∀ a ∈ rest.head?, s.2.length < (enc a).length

section Arrived

variable {s : List φ × List τ} {chunk : List τ} (has : ∀ a ∈ as, Delimits scan enc out a)
include has

theorem arrived_start : Arrived enc out as ([], []) (as.flatMap enc) :=
  ⟨[], as, rfl, rfl, rfl, fun a ha => (has a (mem_of_mem_head? ha)).pos⟩

theorem Arrived.feed (hnil : scan [] = .more) (h : Arrived enc out as s (chunk ++ future)) :
    Arrived enc out as (feed scan s chunk) future := by
  obtain ⟨done, rest, rfl, hs, hleft, -⟩ := h.cut
  have hrest : ∀ a ∈ rest, Delimits scan enc out a := fun a ha => has a (mem_append_right done ha)
  rw [← append_assoc] at hleft
  obtain ⟨done', rest', rfl, hdone, htail, hlt⟩ := drain_frames hnil hrest hleft le_rfl
  refine ⟨done ++ done', rest', (append_assoc _ _ _).symm, ?_, htail, hlt⟩
  rw [map_append, ← hs, ← hdone]
  rfl

/-- The scanner waits at what is left. -/
theorem Arrived.scan_eq (hnil : scan [] = .more) (h : Arrived enc out as s future) :
    scan s.2 = .more := by
  obtain ⟨done, rest, rfl, -, hleft, hlt⟩ := h.cut
  cases rest with
  | nil =>
    rw [(append_eq_nil_iff.mp hleft).1]
    exact hnil
  | cons a rest =>
    have ha := has a (mem_append_right done mem_cons_self)
    have hshort := hlt a rfl
    rcases cut_cases hleft with ⟨hpre, -⟩ | ⟨t, ht, -⟩
    · exact ha.waits _ hpre hshort
    · rw [ht, length_append] at hshort
      omega

omit has in
/-- **All has arrived**: the frames have come out in order and no symbol is left. -/
theorem Arrived.done (h : Arrived enc out as s []) : s = (as.map out, []) := by
  obtain ⟨done, rest, rfl, hdone, hleft, hlt⟩ := h.cut
  rw [append_nil] at hleft
  cases rest with
  | nil => exact Prod.ext (by rw [hdone, append_nil]) hleft
  | cons a rest =>
    -- a frame that is still to come would be all there
    have hshort := hlt a rfl
    rw [hleft, flatMap_cons, length_append] at hshort
    omega

end Arrived

end Frames

end PulseLog
