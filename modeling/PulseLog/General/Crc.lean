/-
  Subject:   Reflected cyclic redundancy checks over an arbitrary polynomial.

  One step shifts a bit out and folds the polynomial in if the bit was set. Steps are linear for the
  exclusive or, and a step on an even word is a shift. All table algorithms rest on these two facts.

  * `crcStep_xor`, `crcSteps_xor` -- linearity;
  * `crcSteps_split` -- `n` steps act on the low `n` bits, and shift the rest;
  * `crcSteps_leNat` -- the bytes of a little-endian word, fed one by one or all at once.
-/
import PulseLog.General.Bytes

namespace PulseLog

variable {w : Nat} (poly : BitVec w)

/-- Shift a bit out, and fold the polynomial in if it was set. -/
def crcStep (x : BitVec w) : BitVec w := (x >>> 1) ^^^ (if x.getLsbD 0 then poly else 0#w)

/-- `n` steps. -/
def crcSteps (n : Nat) (x : BitVec w) : BitVec w := (crcStep poly)^[n] x

variable {poly} {x y : BitVec w} {m n : Nat}

/-! ## 1. Linearity -/

theorem crcStep_xor : crcStep poly (x ^^^ y) = crcStep poly x ^^^ crcStep poly y := by
  unfold crcStep
  rw [BitVec.ushiftRight_xor_distrib, BitVec.getLsbD_xor]
  apply BitVec.eq_of_getLsbD_eq
  intro i hi
  cases hx : x.getLsbD 0 <;> cases hy : y.getLsbD 0 <;>
    simp only [BitVec.getLsbD_xor, Bool.xor_false, Bool.xor_true, Bool.not_false, Bool.not_true,
      Bool.false_eq_true, if_true, if_false, BitVec.getLsbD_zero] <;>
    cases (x >>> 1).getLsbD i <;> cases (y >>> 1).getLsbD i <;> cases poly.getLsbD i <;> rfl

theorem crcSteps_add : crcSteps poly (m + n) x = crcSteps poly m (crcSteps poly n x) :=
  Function.iterate_add_apply _ m n x

theorem crcSteps_xor : crcSteps poly n (x ^^^ y) = crcSteps poly n x ^^^ crcSteps poly n y := by
  induction n generalizing x y with
  | zero => rfl
  | succ n ih =>
    simp only [crcSteps, Function.iterate_succ, Function.comp_apply, crcStep_xor] at ih ⊢
    exact ih

/-- **Steps lose nothing** if the polynomial has its top bit: the bit shifted out is the top bit of
    the result. -/
theorem crcStep_injective (htop : poly.getLsbD (w - 1) = true) :
    Function.Injective (crcStep poly) := by
  intro x y h
  have hout : ∀ z : BitVec w, (crcStep poly z).getLsbD (w - 1) = z.getLsbD 0 := by
    intro z
    unfold crcStep
    rw [BitVec.getLsbD_xor, BitVec.getLsbD_ushiftRight, BitVec.getLsbD_of_ge z _ (by omega)]
    cases z.getLsbD 0 <;> simp [htop]
  have h0 : x.getLsbD 0 = y.getLsbD 0 := by rw [← hout x, ← hout y, h]
  have hrest : x >>> 1 = y >>> 1 := by
    unfold crcStep at h
    rw [h0] at h
    exact (BitVec.xor_left_inj _).mp h
  apply BitVec.eq_of_getLsbD_eq
  intro i _
  cases i with
  | zero => exact h0
  | succ i =>
    have hbit := congrArg (·.getLsbD i) hrest
    simp only [BitVec.getLsbD_ushiftRight] at hbit
    rw [Nat.add_comm, hbit]

/-! ## 2. The bits that are shifted out -/

theorem crcStep_even (h : x.getLsbD 0 = false) : crcStep poly x = x >>> 1 := by
  unfold crcStep
  rw [h]
  simp

/-- A word whose low bits are clear is shifted. -/
theorem crcSteps_low (h : ∀ i < n, x.getLsbD i = false) : crcSteps poly n x = x >>> n := by
  induction n with
  | zero => simp [crcSteps]
  | succ n ih =>
    have hlow : (x >>> n).getLsbD 0 = false := by
      exact h n (Nat.lt_succ_self n)
    rw [Nat.add_comm n 1, crcSteps_add, ih fun i hi => h i (Nat.lt_succ_of_lt hi)]
    show crcStep poly (x >>> n) = _
    rw [crcStep_even hlow, ← BitVec.shiftRight_add, Nat.add_comm]

/-- **The low bits decide**: `n` steps act on the low `n` bits, and shift the others. -/
theorem crcSteps_split {mask : BitVec w} (hmask : ∀ i < w, mask.getLsbD i = decide (i < n)) :
    crcSteps poly n x = crcSteps poly n (x &&& mask) ^^^ (x >>> n) := by
  have hsplit : x = (x &&& mask) ^^^ (x &&& ~~~mask) := by
    apply BitVec.eq_of_getLsbD_eq
    intro i hi
    simp only [BitVec.getLsbD_xor, BitVec.getLsbD_and, BitVec.getLsbD_not, hi]
    cases x.getLsbD i <;> cases mask.getLsbD i <;> rfl
  have hhigh : crcSteps poly n (x &&& ~~~mask) = x >>> n := by
    rw [crcSteps_low]
    · apply BitVec.eq_of_getLsbD_eq
      intro i hi
      simp only [BitVec.getLsbD_ushiftRight, BitVec.getLsbD_and, BitVec.getLsbD_not]
      by_cases hw : n + i < w
      · have hm : mask.getLsbD (n + i) = false := by rw [hmask (n + i) hw]; simp
        rw [hm, decide_eq_true hw, Bool.not_false, Bool.true_and, Bool.and_true]
      · rw [BitVec.getLsbD_of_ge x (n + i) (by omega), Bool.false_and]
    · intro i hi
      simp only [BitVec.getLsbD_and, BitVec.getLsbD_not]
      by_cases hw : i < w
      · have hm : mask.getLsbD i = true := by rw [hmask i hw]; simp [hi]
        rw [hm, Bool.not_true, Bool.and_false, Bool.and_false]
      · rw [BitVec.getLsbD_of_ge x i (by omega), Bool.false_and]
  conv_lhs => rw [hsplit, crcSteps_xor, hhigh]

/-! ## 3. Bytes and words -/

theorem ofNat_byte_add {b : Nat} (hb : b < 256) (v : Nat) :
    BitVec.ofNat w (b + 256 * v) = BitVec.ofNat w b ^^^ (BitVec.ofNat w v <<< 8) := by
  apply BitVec.eq_of_getLsbD_eq
  intro i hi
  have hbits : (b + 256 * v).testBit i = if i < 8 then b.testBit i else v.testBit (i - 8) := by
    have h := Nat.testBit_two_pow_mul_add v (i := 8) hb i
    rw [Nat.add_comm b]
    exact h
  simp only [BitVec.getLsbD_xor, BitVec.getLsbD_shiftLeft, BitVec.getLsbD_ofNat, hi, hbits]
  by_cases h8 : i < 8
  · simp [h8]
  · have hhigh : b.testBit i = false :=
      Nat.testBit_lt_two_pow (Nat.lt_of_lt_of_le hb
        (Nat.pow_le_pow_right (by decide : 0 < 2) (by omega : 8 ≤ i)))
    simp [hhigh, show i - 8 < w by omega]

/-- A shifted word that fits comes back. -/
theorem crcSteps_shifted {v : Nat} (hv : 256 * v < 2 ^ w) :
    crcSteps poly 8 (BitVec.ofNat w v <<< 8) = BitVec.ofNat w v := by
  rw [crcSteps_low]
  · apply BitVec.eq_of_getLsbD_eq
    intro i hi
    simp only [BitVec.getLsbD_ushiftRight, BitVec.getLsbD_shiftLeft, BitVec.getLsbD_ofNat]
    by_cases hw : 8 + i < w
    · simp [hw, hi]
    · have hpow : 256 * v < 256 * 2 ^ i := by
        refine Nat.lt_of_lt_of_le hv ?_
        rw [show 256 = 2 ^ 8 from rfl, ← Nat.pow_add]
        exact Nat.pow_le_pow_right (by decide) (by omega)
      have hclear : v.testBit i = false := Nat.testBit_lt_two_pow (by omega)
      simp [hclear]
  · intro i hi
    simp [hi]

variable (poly) in
/-- **A word at once**: the bytes of a little-endian word, fed one after the other. -/
theorem crcSteps_leNat : ∀ (bs : Bytes) (crc : BitVec w), 8 * bs.length ≤ w →
    crcSteps poly (8 * bs.length) (crc ^^^ BitVec.ofNat w (leNat bs)) =
      bs.foldl (fun crc b => crcSteps poly 8 (crc ^^^ BitVec.ofNat w b.toNat)) crc := by
  intro bs
  induction bs with
  | nil => simp [leNat, crcSteps]
  | cons b bs ih =>
    intro crc hw
    rw [List.length_cons] at hw
    have hfits : 256 * leNat bs < 2 ^ w := by
      have hlt := leNat_lt bs
      have hpow : 256 * 256 ^ bs.length ≤ 2 ^ w := by
        rw [← Nat.pow_succ', show (256 : Nat) = 2 ^ 8 from rfl, ← Nat.pow_mul]
        exact Nat.pow_le_pow_right (by decide) hw
      omega
    rw [List.length_cons, Nat.mul_add, crcSteps_add, leNat, ofNat_byte_add b.toNat_lt,
      ← BitVec.xor_assoc, crcSteps_xor, crcSteps_shifted hfits, List.foldl_cons]
    exact ih _ (by omega)

end PulseLog
