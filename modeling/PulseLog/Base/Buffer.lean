/-
  Subject:   `ByteBuffer`: a growable byte array with a read and a write cursor
             (include/pulselog/base/buffer.h, src/base/buffer.cc).

  The bytes between the cursors are the content. Making room may move them to the front and may
  grow the array; neither changes the content, so a buffer is a queue of bytes.
-/
import PulseLog.General.Bytes

namespace PulseLog

open List

/-- `ByteBuffer`. The cursors are in order and inside the array. -/
structure ByteBuffer where
  storage : Bytes
  readPos : Nat
  writePos : Nat
  read_le : readPos ≤ writePos
  write_le : writePos ≤ storage.length

namespace ByteBuffer

variable (b : ByteBuffer)

def empty : ByteBuffer := ⟨[], 0, 0, Nat.le_refl _, Nat.le_refl _⟩

/-- `ReadableBytes`. -/
def readableBytes : Nat := b.writePos - b.readPos

/-- `Readable`. -/
def readable : Bytes := slice b.storage b.readPos b.readableBytes

/-- `WritableBytes`. -/
def writableBytes : Nat := b.storage.length - b.writePos

@[simp] theorem length_readable : b.readable.length = b.readableBytes := by
  have hw := b.write_le
  unfold readable
  rw [length_slice, readableBytes]
  omega

/-- `Consume`: both cursors go back to the start when the buffer drains. -/
def consume (n : Nat) (h : n ≤ b.readableBytes) : ByteBuffer :=
  if b.readPos + n = b.writePos then ⟨b.storage, 0, 0, le_rfl, Nat.zero_le _⟩
  else ⟨b.storage, b.readPos + n, b.writePos, by
      have hr := b.read_le
      unfold readableBytes at h
      omega, b.write_le⟩

/-- `Compact`: the content moves to the front. -/
def compact : ByteBuffer :=
  if b.readPos = 0 then b
  else ⟨b.readable ++ b.storage.drop b.readableBytes, 0, b.readableBytes, Nat.zero_le _, by
      rw [length_append, length_readable]
      exact Nat.le_add_right _ _⟩

/-- The loop of `EnsureWritable`: double until there is room. -/
def grow (required : Nat) : Nat → Nat → Nat
  | 0, newSize => newSize
  | fuel + 1, newSize => if newSize < required then grow required fuel (newSize * 2) else newSize

/-- `storage_.resize` to a size that is not smaller. -/
def resize (newSize : Nat) : ByteBuffer :=
  ⟨b.storage ++ zeros (newSize - b.storage.length), b.readPos, b.writePos, b.read_le, by
    rw [length_append]
    exact Nat.le_add_right_of_le b.write_le⟩

/-- `EnsureWritable`: move the content to the front if that is enough, otherwise grow. -/
def ensureWritable (n : Nat) : ByteBuffer :=
  if n ≤ b.writableBytes then b
  else if 0 < b.readPos ∧ n ≤ b.storage.length - b.readableBytes then b.compact
  else
    let required := b.readableBytes + n
    let start := if b.storage = [] then 1024 else b.storage.length
    b.compact.resize (grow required required start)

/-! ## The content -/

theorem compact_readable : b.compact.readable = b.readable := by
  unfold compact
  split
  · rfl
  · show slice (b.readable ++ b.storage.drop b.readableBytes) 0 b.readableBytes = b.readable
    rw [slice_zero, take_left' (length_readable b)]

theorem resize_readable (newSize : Nat) : (b.resize newSize).readable = b.readable := by
  have hr := b.read_le
  have hw := b.write_le
  show slice (b.storage ++ zeros _) b.readPos b.readableBytes =
    slice b.storage b.readPos b.readableBytes
  unfold slice readableBytes
  rw [drop_append_of_le_length (by omega), take_append_of_le_length (by simp; omega)]

/-- Making room changes no content. -/
theorem ensureWritable_readable (n : Nat) : (b.ensureWritable n).readable = b.readable := by
  unfold ensureWritable
  split
  · rfl
  split
  · exact b.compact_readable
  · rw [resize_readable, compact_readable]

/-- `Append`: the bytes are copied behind the write cursor. -/
def append (data : Bytes) : ByteBuffer :=
  if data = [] then b
  else
    let r := b.ensureWritable data.length
    ⟨splice r.storage r.writePos data, r.readPos, r.writePos + data.length,
      Nat.le_add_right_of_le r.read_le, by
        have hw := r.write_le
        unfold splice
        simp only [length_append, length_take, length_zeros, length_drop]
        omega⟩

/-- A copy behind the write cursor adds to the content. -/
theorem slice_splice {storage data : Bytes} {i j : Nat} (hij : i ≤ j) (hj : j ≤ storage.length) :
    slice (splice storage j data) i (j + data.length - i) = slice storage i (j - i) ++ data := by
  have hcut : storage = storage.take j ++ storage.drop j := (take_append_drop j storage).symm
  have htake : (storage.take j).length = j := by rw [length_take]; omega
  have hspl := splice_append (storage.take j) (storage.drop j) data
  rw [← hcut, htake] at hspl
  have hslice : slice storage i (j - i) = (storage.take j).drop i := by
    unfold slice
    rw [drop_take]
  rw [hspl, hslice]
  unfold slice
  rw [append_assoc, drop_append_of_le_length (by omega), ← append_assoc]
  refine take_left' ?_
  rw [length_append, length_drop]
  omega

/-- **`append` adds at the end.** -/
theorem readable_append (data : Bytes) : (b.append data).readable = b.readable ++ data := by
  unfold append
  split
  · rename_i h
    rw [h, append_nil]
  · rw [← ensureWritable_readable b data.length]
    exact slice_splice (b.ensureWritable data.length).read_le
      (b.ensureWritable data.length).write_le

/-- **`consume` takes from the front.** -/
theorem readable_consume {n : Nat} (h : n ≤ b.readableBytes) :
    (b.consume n h).readable = b.readable.drop n := by
  unfold consume
  split
  · have hn : b.readable.length ≤ n := by
      rw [length_readable, readableBytes]
      omega
    rw [drop_of_length_le hn]
    rfl
  · show slice b.storage (b.readPos + n) (b.writePos - (b.readPos + n)) = _
    unfold readable slice readableBytes
    rw [drop_take, drop_drop]
    congr 1
    omega

end ByteBuffer

end PulseLog
