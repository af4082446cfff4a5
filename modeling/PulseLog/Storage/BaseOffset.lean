/-
  Subject:   The names of segment files: `FormatBaseOffset` and `ParseBaseOffset`
             (include/pulselog/storage/segment.h, src/storage/segment.cc).

  A segment file is named by its base offset, padded with zeros to 20 characters. `LoadSegments`
  takes every name that `ParseBaseOffset` accepts for a segment, so the two should be inverse to
  each other.

  * `parseBaseOffset_inverse_iff` -- an accepted name is the name of the offset it yields exactly
    if it does not begin with a minus sign. `std::from_chars` takes a sign, and 19 digits behind
    it make up the length.
-/
import PulseLog.General.Decimal

namespace PulseLog

open List

/-- `FormatBaseOffset`: `std::setw(20)` with the fill `0`, which stands before the number, also
    before its sign. -/
def formatBaseOffset (baseOffset : Int) : Bytes :=
  replicate (20 - (printInt baseOffset).length) (digitByte 0) ++ printInt baseOffset

/-- `ParseBaseOffset`: `std::from_chars` has to read all of a stem of 20 characters, and its value
    has to fit into 64 bits. -/
def parseBaseOffset (stem : Bytes) : Option Int :=
  if stem.length ≠ 20 then none else parseInt (-2 ^ 63) (2 ^ 63 - 1) stem

/-! ## 1. The name of an offset -/

theorem formatBaseOffset_nat (n : Nat) :
    formatBaseOffset n = replicate (20 - (printNat n).length) (digitByte 0) ++ printNat n := by
  rw [formatBaseOffset, printInt, if_neg (by omega), Int.natAbs_natCast]

theorem length_formatBaseOffset {n : Nat} (h : n < 2 ^ 63) : (formatBaseOffset n).length = 20 := by
  have hlen : (printNat n).length ≤ 20 := length_printNat_le (by decide) (h.trans (by decide))
  rw [formatBaseOffset_nat, length_append, length_replicate, Nat.sub_add_cancel hlen]

theorem all_formatBaseOffset (n : Nat) : (formatBaseOffset n).all isDigit = true := by
  rw [all_eq_true]
  intro c hc
  rcases mem_append.mp hc with hc | hc
  · rw [eq_of_mem_replicate hc]
    rfl
  · exact mem_printNat hc

/-- The zeros in front count for nothing. -/
theorem foldl_formatBaseOffset (n : Nat) :
    (formatBaseOffset n).foldl (fun n c => 10 * n + (c.toNat - 48)) 0 = n := by
  have hzeros : ∀ k,
      (replicate k (digitByte 0)).foldl (fun n c => 10 * n + (c.toNat - 48)) 0 = 0 := by
    intro k
    induction k with
    | zero => rfl
    | succ k ih => exact ih
  rw [formatBaseOffset_nat, foldl_append, hzeros, foldl_printNat]

theorem head?_formatBaseOffset (n : Nat) : (formatBaseOffset n).head? ≠ some minusSign := fun h =>
  absurd (all_eq_true.mp (all_formatBaseOffset n) _ (mem_of_head? h)) (by decide)

/-- **The name of an offset is parsed back to it.** -/
theorem parseBaseOffset_format {n : Nat} (h : n < 2 ^ 63) :
    parseBaseOffset (formatBaseOffset n) = some (n : Int) := by
  have hlen := length_formatBaseOffset h
  have hparse : parseNat (formatBaseOffset n) = some n := by
    rw [parseNat, if_pos ⟨ne_nil_of_length_pos (by omega), all_formatBaseOffset n⟩,
      foldl_formatBaseOffset]
  rw [parseBaseOffset, if_neg (not_not.mpr hlen), parseInt_unsigned _ _ (head?_formatBaseOffset n),
    hparse, Option.map_some, Option.filter_some, if_pos (by simp; omega)]

/-- **Names are ordered as their offsets.** -/
theorem formatBaseOffset_lt_iff {m n : Nat} (hm : m < 2 ^ 63) (hn : n < 2 ^ 63) :
    formatBaseOffset m < formatBaseOffset n ↔ m < n := by
  have hlen := (length_formatBaseOffset hm).trans (length_formatBaseOffset hn).symm
  have h := foldl_lt_foldl_iff (m := 0) (n := 0) hlen (all_formatBaseOffset m)
    (all_formatBaseOffset n)
  rw [foldl_formatBaseOffset, foldl_formatBaseOffset] at h
  rw [h]
  simp

/-! ## 2. The names that are accepted -/

/-- A name without a sign is the name of what it yields. -/
theorem formatBaseOffset_parse {stem : Bytes} {v : Int} (h : parseBaseOffset stem = some v)
    (hhead : stem.head? ≠ some minusSign) : 0 ≤ v ∧ formatBaseOffset v = stem := by
  unfold parseBaseOffset at h
  split at h
  · cases h
  rename_i hlen
  rw [parseInt_unsigned _ _ hhead, Option.filter_eq_some_iff, Option.map_eq_some_iff] at h
  obtain ⟨⟨n, hn, rfl⟩, hrange⟩ := h
  have hlt : n < 2 ^ 63 := by
    simp at hrange
    omega
  unfold parseNat at hn
  split at hn
  · rename_i hdigits
    refine ⟨Int.natCast_nonneg n, eq_of_foldl_eq ?_ (all_formatBaseOffset n) hdigits.2 ?_⟩
    · rw [length_formatBaseOffset hlt, not_not.mp hlen]
    · rw [foldl_formatBaseOffset, Option.some.inj hn]
  · cases hn

/-- **Formatting and parsing are inverse to each other up to the sign**: on every offset, and on an
    accepted name exactly if it has no minus sign; and names are ordered as their offsets. -/
theorem parseBaseOffset_inverse_iff (stem : Bytes) (v w : Int) :
    (parseBaseOffset stem = some v →
      (0 ≤ v ∧ formatBaseOffset v = stem ↔ stem.head? ≠ some minusSign)) ∧
    (0 ≤ v → v < 2 ^ 63 → parseBaseOffset (formatBaseOffset v) = some v) ∧
    (0 ≤ v → v < 2 ^ 63 → 0 ≤ w → w < 2 ^ 63 →
      (formatBaseOffset v < formatBaseOffset w ↔ v < w)) := by
  refine ⟨fun h => ⟨?_, formatBaseOffset_parse h⟩, ?_, ?_⟩
  · rintro ⟨hv, rfl⟩
    lift v to Nat using hv
    exact head?_formatBaseOffset v
  · intro hv hlt
    lift v to Nat using hv
    exact parseBaseOffset_format (by omega)
  · intro hv hvlt hw hwlt
    lift v to Nat using hv
    lift w to Nat using hw
    rw [formatBaseOffset_lt_iff (by omega) (by omega), Int.ofNat_lt]

/-- A minus sign and 19 zeros are accepted and yield 0, whose name has 20 zeros; with a 5 at the end
    they yield an offset below 0. -/
theorem parseBaseOffset_minus :
    parseBaseOffset (minusSign :: replicate 19 (digitByte 0)) = some 0 ∧
    formatBaseOffset 0 ≠ minusSign :: replicate 19 (digitByte 0) ∧
    parseBaseOffset (minusSign :: replicate 18 (digitByte 0) ++ [digitByte 5]) = some (-5) := by
  decide +kernel

end PulseLog
