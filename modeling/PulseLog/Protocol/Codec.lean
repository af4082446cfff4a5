/-
  Subject:   The fields of a payload (include/pulselog/protocol/codec.h and `ElementBudget` of
             src/protocol/messages_control.cc and messages_group.cc).

  `PayloadWriter` appends fields to a buffer, so a write is the bytes it appends. `PayloadReader` is
  a span with a position; the reader here is a `Parser` whose state is the unread part, and a read
  that fails is the failure of the whole. Strings are byte strings. The varint and nullable-bytes
  fields, which no message has, are left out.

  * `Reads.u8` .. `Reads.array` -- each field is read back wherever it stands. An array needs
    that no element is shorter than the size its budget assumes.
-/
import PulseLog.General.Bytes
import PulseLog.General.Parse

namespace PulseLog

open List

namespace Protocol

open PulseLog.Parser

/-- `PayloadReader`. -/
abbrev PayloadReader := Parser UInt8

/-- `kMaxStringLength`. -/
def maxStringLength : Nat := 65535

/-- `kMaxArrayElements`. -/
def maxArrayElements : Nat := 2 ^ 20

/-! ## 1. Writing -/

def putU8 (v : UInt8) : Bytes := [v]

def putU16 (v : UInt16) : Bytes := storeLe 2 v.toNat

def putU32 (v : UInt32) : Bytes := storeLe 4 v.toNat

def putI16 (v : Int16) : Bytes := putU16 v.toUInt16

def putI32 (v : Int32) : Bytes := putU32 v.toUInt32

def putI64 (v : Int64) : Bytes := storeLe 8 v.toUInt64.toNat

def putBool (v : Bool) : Bytes := putU8 (if v then 1 else 0)

/-- `PutString`; the length is cut to 16 bits. -/
def putString (s : Bytes) : Bytes := putU16 (UInt16.ofNat s.length) ++ s

/-- `PutArrayLen`. -/
def putArrayLen (n : Nat) : Bytes := putU32 (UInt32.ofNat n)

/-- An array: its length and its elements. -/
def putArray {α : Type} (put : α → Bytes) (xs : List α) : Bytes :=
  putArrayLen xs.length ++ xs.flatMap put

/-- Opaque bytes behind their 32-bit length. -/
def putRecords (records : Bytes) : Bytes := putU32 (UInt32.ofNat records.length) ++ records

/-! ## 2. Reading -/

/-- `LoadLe` of the next `n` bytes. -/
def getLe (n : Nat) : PayloadReader Nat := leNat <$> exactly n

def getU8 : PayloadReader UInt8 := UInt8.ofNat <$> getLe 1

def getU16 : PayloadReader UInt16 := UInt16.ofNat <$> getLe 2

def getU32 : PayloadReader UInt32 := UInt32.ofNat <$> getLe 4

def getI16 : PayloadReader Int16 := UInt16.toInt16 <$> getU16

def getI32 : PayloadReader Int32 := UInt32.toInt32 <$> getU32

def getI64 : PayloadReader Int64 := (fun n => (UInt64.ofNat n).toInt64) <$> getLe 8

def getBool : PayloadReader Bool := (fun v => v != 0) <$> getU8

def getString : PayloadReader Bytes := do
  let len ← getU16
  exactly len.toNat

/-- `ElementBudget`: how many elements the unread bytes can hold, the length field included. -/
def elementBudget (minElementBytes : Nat) : PayloadReader Nat := do
  let unread ← get
  pure (min (unread.length / if minElementBytes = 0 then 1 else minElementBytes) maxArrayElements)

/-- `GetArrayLen`. -/
def getArrayLen (maxElements : Nat) : PayloadReader Nat := do
  let n ← getU32
  ensure (n.toNat ≤ maxElements)
  pure n.toNat

/-- The array loop of the decoders. -/
def getArray {α : Type} (minElementBytes : Nat) (element : PayloadReader α) :
    PayloadReader (List α) := do
  let budget ← elementBudget minElementBytes
  let count ← getArrayLen budget
  element.times count

/-- The record bytes at the end of a payload: as many as the length says, and what stands behind
    them is dropped (`GetRemaining().subspan(0, records_len)`). -/
def getRecords : PayloadReader Bytes := do
  let recordsLen ← getU32
  let left ← rest
  ensure (recordsLen.toNat ≤ left.length)
  pure (left.take recordsLen.toNat)

end Protocol

/-! ## 3. What is written is read back -/

namespace Parser

open Protocol

theorem reads_getLe (n v : Nat) : Reads (getLe n) (storeLe n v) (v % 256 ^ n) := by
  have h := (reads_exactly (storeLe n v)).map leNat
  rw [length_storeLe, leNat_storeLe] at h
  exact h

theorem reads_getLe_of_lt {n v : Nat} (h : v < 256 ^ n) : Reads (getLe n) (storeLe n v) v := by
  have hr := reads_getLe n v
  rw [Nat.mod_eq_of_lt h] at hr
  exact hr

theorem Reads.u8 (v : UInt8) : Reads getU8 (putU8 v) v := by
  have h := (reads_getLe_of_lt (n := 1) v.toNat_lt).map UInt8.ofNat
  have hv : v.toNat % 256 = v.toNat := Nat.mod_eq_of_lt v.toNat_lt
  simp only [storeLe, hv, UInt8.ofNat_toNat] at h
  exact h

theorem Reads.u16 (v : UInt16) : Reads getU16 (putU16 v) v := by
  have h := (reads_getLe_of_lt (n := 2) v.toNat_lt).map UInt16.ofNat
  rw [UInt16.ofNat_toNat] at h
  exact h

theorem Reads.u32 (v : UInt32) : Reads getU32 (putU32 v) v := by
  have h := (reads_getLe_of_lt (n := 4) v.toNat_lt).map UInt32.ofNat
  rw [UInt32.ofNat_toNat] at h
  exact h

theorem Reads.i16 (v : Int16) : Reads getI16 (putI16 v) v := by
  have h := (Reads.u16 v.toUInt16).map UInt16.toInt16
  exact h

theorem Reads.i32 (v : Int32) : Reads getI32 (putI32 v) v := by
  have h := (Reads.u32 v.toUInt32).map UInt32.toInt32
  exact h

theorem Reads.i64 (v : Int64) : Reads getI64 (putI64 v) v := by
  have h := (reads_getLe_of_lt (n := 8) v.toUInt64.toNat_lt).map
    fun n => (UInt64.ofNat n).toInt64
  rw [UInt64.ofNat_toNat] at h
  exact h

theorem Reads.bool (v : Bool) : Reads getBool (putBool v) v := by
  have h := (Reads.u8 (if v then 1 else 0)).map fun v => v != 0
  have hv : ((if v then (1 : UInt8) else 0) != 0) = v := by cases v <;> rfl
  rw [hv] at h
  exact h

theorem Reads.string {s : Bytes} (h : s.length ≤ maxStringLength) :
    Reads getString (putString s) s := by
  have hlen : (UInt16.ofNat s.length).toNat = s.length := by
    unfold maxStringLength at h
    rw [UInt16.toNat_ofNat']
    omega
  refine (Reads.u16 _).bind ?_
  rw [hlen]
  exact reads_exactly s

/-- A text is read as far as its length field says, which keeps 16 bits of its length. -/
theorem run_getString (s t : Bytes) : getString.run (putString s ++ t) =
    some (s.take (s.length % 2 ^ 16), s.drop (s.length % 2 ^ 16) ++ t) := by
  have hlen : (UInt16.ofNat s.length).toNat = s.length % 2 ^ 16 := UInt16.toNat_ofNat'
  have hle : s.length % 2 ^ 16 ≤ s.length := Nat.mod_le _ _
  unfold getString putString
  rw [append_assoc, (Reads.u16 _).run_bind, hlen]
  show (if (s ++ t).length < _ then none else some ((s ++ t).take _, (s ++ t).drop _)) = _
  rw [if_neg (by rw [length_append]; omega), take_append_of_le_length hle,
    drop_append_of_le_length hle]

variable {α : Type} {put : α → Bytes} {xs : List α} {element : PayloadReader α}

/-- **The budget never refuses a well-formed array**: the bytes of the elements are still unread
    when it is computed. -/
theorem le_elementBudget {minBytes : Nat}
    (hmin : ∀ x ∈ xs, minBytes ≤ (put x).length) (hpos : 0 < minBytes) {t : Bytes} :
    xs.length ≤ (putArray put xs ++ t).length / minBytes := by
  have hsum : xs.length * minBytes ≤ (xs.flatMap put).length := by
    induction xs with
    | nil => simp
    | cons x xs ih =>
      have hx := hmin x mem_cons_self
      have htail := ih fun y hy => hmin y (mem_cons_of_mem x hy)
      rw [length_cons, flatMap_cons, length_append, Nat.add_mul]
      omega
  rw [Nat.le_div_iff_mul_le hpos]
  unfold putArray
  rw [length_append, length_append]
  omega

/-- An array is taken if its length is within the budget. -/
theorem run_getArray (minBytes : Nat) (h32 : xs.length < 2 ^ 32) (t : Bytes) :
    (getArray minBytes element).run (putArray put xs ++ t) =
      if xs.length ≤ min ((putArray put xs ++ t).length / if minBytes = 0 then 1 else minBytes)
          maxArrayElements then (element.times xs.length).run (xs.flatMap put ++ t)
      else none := by
  have hlen : (UInt32.ofNat xs.length).toNat = xs.length := UInt32.toNat_ofNat_of_lt h32
  unfold getArray elementBudget getArrayLen
  simp only [bind_assoc, pure_bind, StateT.run_bind, StateT.run_get, Option.bind_eq_bind]
  rw [putArray, append_assoc, putArrayLen, Reads.u32 _ _, Option.bind_some, hlen]
  generalize min _ maxArrayElements = budget
  unfold ensure
  split <;> rfl

theorem Reads.array {minBytes : Nat} (hread : ∀ x ∈ xs, Reads element (put x) x)
    (hmin : ∀ x ∈ xs, minBytes ≤ (put x).length) (hpos : 0 < minBytes)
    (hlen : xs.length ≤ maxArrayElements) :
    Reads (getArray minBytes element) (putArray put xs) xs := by
  intro t
  have hbudget := le_elementBudget (t := t) hmin hpos
  have h32 : xs.length < 2 ^ 32 := by
    unfold maxArrayElements at hlen
    omega
  rw [run_getArray minBytes h32, if_neg hpos.ne', if_pos (le_min hbudget hlen)]
  exact Reads.times hread t

/-- The record bytes that are read back: all of them, as long as the length field can hold their
    number. -/
theorem run_getRecords (records : Bytes) :
    getRecords.run (putRecords records) = some (records.take (records.length % 2 ^ 32), []) := by
  unfold getRecords putRecords
  rw [(Reads.u32 _).run_bind]
  refine run_bind_some.mpr ⟨records, [], rfl, ?_⟩
  exact run_bind_some.mpr ⟨⟨⟩, [], run_ensure_some.mpr ⟨Nat.mod_le _ _, rfl⟩, rfl⟩

end Parser

/-! ## 4. Sizes -/

namespace Protocol

open PulseLog.Parser

theorem width_getLe (n : Nat) : Width (getLe n) n := (width_exactly n).map _

theorem width_getI32 : Width getI32 4 := ((width_getLe 4).map _).map _

theorem width_getI64 : Width getI64 8 := (width_getLe 8).map _

@[simp] theorem length_putU16 (v : UInt16) : (putU16 v).length = 2 := length_storeLe 2 _

@[simp] theorem length_putU32 (v : UInt32) : (putU32 v).length = 4 := length_storeLe 4 _

@[simp] theorem length_putI32 (v : Int32) : (putI32 v).length = 4 := length_storeLe 4 _

@[simp] theorem length_putI64 (v : Int64) : (putI64 v).length = 8 := length_storeLe 8 _

@[simp] theorem length_putString (s : Bytes) : (putString s).length = 2 + s.length := by
  simp [putString]

theorem length_putArray {α : Type} (put : α → Bytes) (xs : List α) :
    (putArray put xs).length = 4 + (xs.flatMap put).length := by
  simp [putArray, putArrayLen]

end Protocol

end PulseLog
