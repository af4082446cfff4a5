/-
  Subject:   Integers as decimal text.

  * `printNat`, `printInt` -- no leading zeros, a minus sign before a negative number;
  * `parseInt` -- an optional minus sign and at least one digit, nothing else, and the value in a
    range;
  * `parseInt_print` -- what is printed is parsed back;
  * `foldl_lt_foldl_iff` -- texts of digits of one length are ordered as their values.
-/
import PulseLog.General.Bytes
import Mathlib.Data.Nat.Digits.Lemmas

namespace PulseLog

open List

/-- The byte of a digit. -/
def digitByte (d : Nat) : UInt8 := UInt8.ofNat (48 + d)

/-- `-`. -/
def minusSign : UInt8 := 45

def isDigit (c : UInt8) : Bool := 48 ≤ c.toNat && c.toNat ≤ 57

def printNat (n : Nat) : Bytes :=
  if n = 0 then [digitByte 0] else (Nat.digits 10 n).reverse.map digitByte

def printInt (v : Int) : Bytes :=
  if v < 0 then minusSign :: printNat v.natAbs else printNat v.natAbs

/-- The value of a string of digits. -/
def parseNat (text : Bytes) : Option Nat :=
  if text ≠ [] ∧ text.all isDigit then some (text.foldl (fun n c => 10 * n + (c.toNat - 48)) 0)
  else none

/-- The number that is all of the text, if it lies between `lo` and `hi`. -/
def parseInt (lo hi : Int) (text : Bytes) : Option Int :=
  let value : Option Int :=
    match text with
    | [] => none
    | c :: digits =>
      if c = minusSign then (parseNat digits).map fun (n : Nat) => -(n : Int)
      else (parseNat text).map fun (n : Nat) => (n : Int)
  value.filter fun v => lo ≤ v && v ≤ hi

/-! ## 1. Digits -/

theorem toNat_digitByte {d : Nat} (h : d < 10) : (digitByte d).toNat = 48 + d := by
  unfold digitByte
  rw [UInt8.toNat_ofNat']
  omega

theorem isDigit_digitByte {d : Nat} (h : d < 10) : isDigit (digitByte d) = true := by
  unfold isDigit
  rw [toNat_digitByte h]
  simp
  omega

theorem printNat_ne_nil (n : Nat) : printNat n ≠ [] := by
  unfold printNat
  split
  · simp
  · rename_i h
    simpa using Nat.digits_ne_nil_iff_ne_zero.mpr h

theorem mem_printNat {n : Nat} {c : UInt8} (h : c ∈ printNat n) : isDigit c = true := by
  unfold printNat at h
  split at h
  · rw [mem_singleton.mp h]
    rfl
  · obtain ⟨d, hd, rfl⟩ := mem_map.mp h
    exact isDigit_digitByte (Nat.digits_lt_base (by decide) (mem_reverse.mp hd))

theorem mem_printInt {v : Int} {c : UInt8} (h : c ∈ printInt v) :
    c = minusSign ∨ isDigit c = true := by
  unfold printInt at h
  split at h
  · rcases mem_cons.mp h with h | h
    · exact .inl h
    · exact .inr (mem_printNat h)
  · exact .inr (mem_printNat h)

theorem printInt_ne_nil (v : Int) : printInt v ≠ [] := by
  unfold printInt
  split
  · simp
  · exact printNat_ne_nil _

/-- The digits, read from the left. -/
theorem foldl_printNat (n : Nat) :
    (printNat n).foldl (fun n c => 10 * n + (c.toNat - 48)) 0 = n := by
  unfold printNat
  split
  · rename_i h
    simp [h, digitByte]
  · have hfold : ∀ ds : List Nat, (∀ d ∈ ds, d < 10) →
        (ds.reverse.map digitByte).foldl (fun n c => 10 * n + (c.toNat - 48)) 0 =
          Nat.ofDigits 10 ds := by
      intro ds
      induction ds with
      | nil => exact fun _ => rfl
      | cons d ds ih =>
        intro hds
        have hd := toNat_digitByte (hds d mem_cons_self)
        rw [reverse_cons, map_append, foldl_append,
          ih fun x hx => hds x (mem_cons_of_mem d hx), Nat.ofDigits_cons]
        simp only [map_cons, map_nil, foldl_cons, foldl_nil]
        omega
    rw [hfold _ fun d hd => Nat.digits_lt_base (by decide) hd, Nat.ofDigits_digits]

theorem length_printNat_le {n k : Nat} (hk : 0 < k) (h : n < 10 ^ k) : (printNat n).length ≤ k := by
  unfold printNat
  split
  · exact hk
  · rw [length_map, length_reverse]
    exact (Nat.digits_length_le_iff (by decide) n).mpr h

/-- Texts of digits of one length are ordered as their values, read behind `m` and behind `n`. -/
theorem foldl_lt_foldl_iff : ∀ {s t : Bytes} {m n : Nat}, s.length = t.length →
    s.all isDigit = true → t.all isDigit = true →
    (s.foldl (fun n c => 10 * n + (c.toNat - 48)) m < t.foldl (fun n c => 10 * n + (c.toNat - 48))
      n ↔ m < n ∨ m = n ∧ s < t)
  | [], [], m, n, _, _, _ => by simp
  | c :: s, d :: t, m, n, hlen, hs, ht => by
    rw [all_cons, Bool.and_eq_true] at hs ht
    have ih := foldl_lt_foldl_iff (m := 10 * m + (c.toNat - 48)) (n := 10 * n + (d.toNat - 48))
      (Nat.succ.inj hlen) hs.2 ht.2
    have hc := hs.1
    have hd := ht.1
    simp only [isDigit, Bool.and_eq_true, decide_eq_true_eq] at hc hd
    rw [foldl_cons, foldl_cons, ih, cons_lt_cons_iff, UInt8.lt_iff_toNat_lt, ← UInt8.toNat_inj]
    constructor
    · rintro (h | ⟨h, hst⟩)
      · omega
      · have : m = n ∧ c.toNat = d.toNat := by omega
        exact .inr ⟨this.1, .inr ⟨this.2, hst⟩⟩
    · rintro (h | ⟨rfl, h | ⟨h, hst⟩⟩)
      · omega
      · omega
      · exact .inr ⟨by rw [h], hst⟩

/-- Texts of digits of one length are equal if their values are. -/
theorem eq_of_foldl_eq {s t : Bytes} (hlen : s.length = t.length) (hs : s.all isDigit = true)
    (ht : t.all isDigit = true) (h : s.foldl (fun n c => 10 * n + (c.toNat - 48)) 0 =
      t.foldl (fun n c => 10 * n + (c.toNat - 48)) 0) : s = t := by
  have hst := foldl_lt_foldl_iff (m := 0) (n := 0) hlen hs ht
  have hts := foldl_lt_foldl_iff (m := 0) (n := 0) hlen.symm ht hs
  rw [h] at hst hts
  refine List.le_antisymm (fun hlt => ?_) (fun hlt => ?_)
  · exact absurd (hts.mpr (.inr ⟨rfl, hlt⟩)) (lt_irrefl _)
  · exact absurd (hst.mpr (.inr ⟨rfl, hlt⟩)) (lt_irrefl _)

/-! ## 2. What is printed is parsed back -/

theorem parseNat_print (n : Nat) : parseNat (printNat n) = some n := by
  unfold parseNat
  rw [if_pos ⟨printNat_ne_nil n, all_eq_true.mpr fun c hc => mem_printNat hc⟩, foldl_printNat]

/-- A text that does not begin with a minus sign is its digits. -/
theorem parseInt_unsigned {text : Bytes} (lo hi : Int) (h : text.head? ≠ some minusSign) :
    parseInt lo hi text =
      ((parseNat text).map fun (n : Nat) => (n : Int)).filter fun v => lo ≤ v && v ≤ hi := by
  unfold parseInt
  cases text with
  | nil => rfl
  | cons c digits => simp only [if_neg fun hc => h (congrArg some hc)]

/-- **What is printed is parsed back**, if it lies in the range. -/
theorem parseInt_print {lo hi v : Int} (hlo : lo ≤ v) (hhi : v ≤ hi) :
    parseInt lo hi (printInt v) = some v := by
  have hrange : (some v).filter (fun v => decide (lo ≤ v) && decide (v ≤ hi)) = some v := by
    rw [Option.filter_some, if_pos (by simp [hlo, hhi])]
  unfold printInt
  by_cases hneg : v < 0
  · have hv : -v.natAbs = v := by omega
    rw [if_pos hneg, parseInt]
    simp only [parseNat_print, Option.map_some, hv]
    exact hrange
  · have hv : v.natAbs = v := by omega
    have hhead : (printNat v.natAbs).head? ≠ some minusSign := fun hc =>
      absurd (mem_printNat (mem_of_head? hc)) (by decide)
    rw [if_neg hneg, parseInt_unsigned lo hi hhead, parseNat_print, Option.map_some, hv]
    exact hrange

end PulseLog
