/-
  Subject:   Byte strings, slices and little-endian integers.

  * `slice` -- `n` bytes from a position; `splice` -- a positional write, which fills a gap past
    the end with zeros;
  * `leNat`, `storeLe` -- an unsigned integer from and to little-endian bytes, and that they undo
    each other;
  * `toI64`, `ofI64` -- two's complement on 64 bits.
-/
import Mathlib.Data.List.Basic
import Mathlib.Tactic.Common
import Mathlib.Tactic.Ring

namespace PulseLog

open List

abbrev Bytes := List UInt8

/-- `n` zero bytes. -/
def zeros (n : Nat) : Bytes := List.replicate n 0

@[simp] theorem length_zeros (n : Nat) : (zeros n).length = n := by simp [zeros]

theorem drop_zeros (k n : Nat) : (zeros n).drop k = zeros (n - k) := by simp [zeros]

theorem take_zeros (k n : Nat) : (zeros n).take k = zeros (min k n) := by simp [zeros]

/-! ## 1. Slices and positional writes -/

/-- The `n` bytes from position `pos`, fewer at the end. -/
def slice (bs : Bytes) (pos n : Nat) : Bytes := (bs.drop pos).take n

@[simp] theorem length_slice (bs : Bytes) (pos n : Nat) :
    (slice bs pos n).length = min n (bs.length - pos) := by simp [slice]

theorem slice_append_right (x y : Bytes) (n : Nat) : slice (x ++ y) x.length n = y.take n := by
  simp [slice]

theorem drop_mid (x r y : Bytes) (k : Nat) (h : k ≤ r.length) :
    (x ++ r ++ y).drop (x.length + k) = r.drop k ++ y := by
  rw [append_assoc, ← drop_drop, drop_left, drop_append_of_le_length h]

/-- A slice that lies inside the middle part of `x ++ r ++ y`. -/
theorem slice_mid (x r y : Bytes) (k n : Nat) (h : k + n ≤ r.length) :
    slice (x ++ r ++ y) (x.length + k) n = slice r k n := by
  unfold slice
  rw [drop_mid x r y k (by omega), take_append_of_le_length (by simp; omega)]

theorem take_slice_drop (bs : Bytes) (pos n : Nat) :
    bs.take pos ++ slice bs pos n ++ bs.drop (pos + n) = bs := by
  rw [slice, append_assoc, ← drop_drop, take_append_drop, take_append_drop]

theorem slice_zero (bs : Bytes) (n : Nat) : slice bs 0 n = bs.take n := rfl

/-- `data` written at `pos`: what lies before and after stays, a gap reads as zeros. -/
def splice (bs : Bytes) (pos : Nat) (data : Bytes) : Bytes :=
  bs.take pos ++ zeros (pos - bs.length) ++ data ++ bs.drop (pos + data.length)

/-- A write inside the file or at its end. -/
theorem splice_append (x y data : Bytes) :
    splice (x ++ y) x.length data = x ++ data ++ y.drop data.length := by
  simp [splice, zeros]

/-! ## 2. Little-endian integers -/

/-- The value of little-endian bytes. -/
def leNat : Bytes → Nat
  | [] => 0
  | b :: bs => b.toNat + 256 * leNat bs

/-- The low `n` bytes of a value, little-endian. -/
def storeLe : Nat → Nat → Bytes
  | 0, _ => []
  | n + 1, v => UInt8.ofNat (v % 256) :: storeLe n (v / 256)

@[simp] theorem length_storeLe : ∀ (n v : Nat), (storeLe n v).length = n
  | 0, _ => rfl
  | n + 1, v => by simp [storeLe, length_storeLe n]

theorem leNat_storeLe : ∀ (n v : Nat), leNat (storeLe n v) = v % 256 ^ n
  | 0, v => by simp [storeLe, leNat, Nat.mod_one]
  | n + 1, v => by
    have h1 : (UInt8.ofNat (v % 256)).toNat = v % 256 := by
      simp
    simp only [storeLe, leNat, leNat_storeLe n, h1]
    rw [Nat.pow_succ, Nat.mul_comm (256 ^ n) 256, Nat.mod_mul]

theorem leNat_lt : ∀ bs : Bytes, leNat bs < 256 ^ bs.length
  | [] => by simp [leNat]
  | b :: bs => by
    have hb := b.toNat_lt
    have ih := leNat_lt bs
    simp only [leNat, length_cons]
    omega

theorem storeLe_leNat : ∀ bs : Bytes, storeLe bs.length (leNat bs) = bs
  | [] => rfl
  | b :: bs => by
    have hb := b.toNat_lt
    have h2 : (b.toNat + 256 * leNat bs) / 256 = leNat bs := by omega
    simp only [length_cons, storeLe, leNat, h2, storeLe_leNat bs]
    simp

theorem leNat_zeros : ∀ n : Nat, leNat (zeros n) = 0
  | 0 => rfl
  | n + 1 => by
    have h : zeros (n + 1) = 0 :: zeros n := by simp [zeros, replicate_succ]
    rw [h, leNat, leNat_zeros n]
    rfl

/-- The unsigned integer of `n` bytes at `pos`; bytes past the end count as zero. -/
def loadLe (n : Nat) (bs : Bytes) (pos : Nat) : Nat := leNat (slice bs pos n)

/-- An integer that lies inside the middle part of `x ++ r ++ y`. -/
theorem loadLe_mid (x r y : Bytes) (k n : Nat) (h : k + n ≤ r.length) :
    loadLe n (x ++ r ++ y) (x.length + k) = loadLe n r k := by
  rw [loadLe, slice_mid x r y k n h, loadLe]

/-- An integer that was stored at the front. -/
theorem loadLe_storeLe (n v : Nat) (t : Bytes) : loadLe n (storeLe n v ++ t) 0 = v % 256 ^ n := by
  rw [loadLe, slice_zero, take_left' (length_storeLe n v), leNat_storeLe]

/-- An integer that was stored in the middle. -/
theorem loadLe_storeLe_mid {x : Bytes} {n k v : Nat} (y : Bytes) (hx : x.length = k)
    (hv : v < 256 ^ n) : loadLe n (x ++ storeLe n v ++ y) k = v := by
  have hmid := loadLe_mid x (storeLe n v) y 0 n (by simp)
  have hload := loadLe_storeLe n v []
  rw [append_nil, Nat.mod_eq_of_lt hv] at hload
  rw [hx, hload] at hmid
  exact hmid

/-- An integer behind a stored one. -/
theorem loadLe_skip {m n k : Nat} (v : Nat) (t : Bytes) (h : m ≤ k) :
    loadLe n (storeLe m v ++ t) k = loadLe n t (k - m) := by
  obtain ⟨j, rfl⟩ := Nat.exists_eq_add_of_le h
  rw [Nat.add_sub_cancel_left]
  unfold loadLe slice
  rw [← drop_drop, drop_left' (length_storeLe m v)]

theorem loadLe_slice {m n k p : Nat} (bs : Bytes) (h : k + m ≤ n) :
    loadLe m (slice bs p n) k = loadLe m bs (p + k) := by
  unfold loadLe slice
  rw [drop_take, drop_drop, take_take, Nat.min_eq_left (by omega)]

theorem loadLe_lt (n : Nat) (bs : Bytes) (pos : Nat) : loadLe n bs pos < 256 ^ n := by
  have h := leNat_lt (slice bs pos n)
  have h2 : (slice bs pos n).length ≤ n := by simp
  exact Nat.lt_of_lt_of_le h (Nat.pow_le_pow_right (by decide) h2)

/-! ## 3. Two's complement -/

/-- A 64-bit word read as a signed integer. -/
def toI64 (v : Nat) : Int := if v < 2 ^ 63 then (v : Int) else (v : Int) - 2 ^ 64

/-- A signed integer as a 64-bit word. -/
def ofI64 (i : Int) : Nat := (i % 2 ^ 64).toNat

theorem toI64_ofI64 {i : Int} (h : -2 ^ 63 ≤ i ∧ i < 2 ^ 63) : toI64 (ofI64 i) = i := by
  unfold toI64 ofI64
  split <;> omega

theorem toI64_ofI64_nat {n : Nat} (h : n < 2 ^ 63) : toI64 (ofI64 (n : Int)) = n :=
  toI64_ofI64 (by omega)

theorem toI64_ofI64_le {i : Int} (h : -2 ^ 63 ≤ i) : toI64 (ofI64 i) ≤ i := by
  unfold toI64 ofI64
  split <;> omega

theorem ofI64_lt (i : Int) : ofI64 i < 256 ^ 8 := by
  unfold ofI64
  omega

end PulseLog
