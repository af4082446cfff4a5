/-
  Subject:   Sequences of calls on a `ByteBuffer` (include/pulselog/base/buffer.h,
             src/base/buffer.cc).

  `ByteBuffer` of Base/Buffer.lean has its cursors in order by construction. Here they are the plain
  `size_t` values of the source and memory can run out, so a call can fail, never return, or leave
  the cursors out of order. `Content b q` ties the two: `b` is a well-formed buffer with content
  `q`.

  * `queue_iff` -- over every sequence of calls the buffer is a queue with its cursors in order
    exactly if no `Shrink` asks for less than there is to read. `Shrink` cuts the array without
    looking at the write cursor.
-/
import PulseLog.Base.Buffer
import PulseLog.General.Effect
import PulseLog.General.Run

namespace PulseLog

open List

/-- `std::vector<std::uint8_t>::max_size`, and the largest object there is. -/
def maxSize : Nat := 2 ^ 63 - 1

/-- Subtraction of `std::size_t`. -/
def sizeSub (m n : Nat) : Nat := (m + 2 ^ 64 - n) % 2 ^ 64

theorem sizeSub_of_le {m n : Nat} (hm : m ≤ maxSize) (h : n ≤ m) : sizeSub m n = m - n := by
  unfold maxSize at hm
  unfold sizeSub
  omega

/-- The members of `ByteBuffer`. -/
structure RawBuffer where
  storage : Bytes
  readPos : Nat
  writePos : Nat
  deriving DecidableEq, Repr

/-- What `resize` throws. -/
inductive ResizeError
  | lengthError
  | badAlloc
  deriving DecidableEq, Repr

namespace RawBuffer

/-! ## 1. The calls -/

section Calls

variable (b : RawBuffer)

/-- `ReadableBytes`. -/
def readableBytes : Nat := sizeSub b.writePos b.readPos

/-- `Readable`. -/
def readable : Bytes := slice b.storage b.readPos b.readableBytes

/-- `WritableBytes`. -/
def writableBytes : Nat := sizeSub b.storage.length b.writePos

/-- `Writable`. -/
def writable : Bytes := b.storage.drop b.writePos

/-- Bytes stored into `Writable`, from position `k` on. -/
def write (k : Nat) (data : Bytes) : RawBuffer :=
  { b with storage := splice b.storage (b.writePos + k) data }

/-- `Commit`. -/
def commit (n : Nat) : RawBuffer := { b with writePos := b.writePos + n }

/-- `Consume`. -/
def consume (n : Nat) : RawBuffer :=
  if b.readPos + n = b.writePos then { b with readPos := 0, writePos := 0 }
  else { b with readPos := b.readPos + n }

/-- `Clear`. -/
def clear : RawBuffer := { b with readPos := 0, writePos := 0 }

/-- `Compact`. -/
def compact : RawBuffer :=
  if b.readPos = 0 then b
  else
    { storage := b.readable ++ b.storage.drop b.readableBytes
      readPos := 0
      writePos := b.readableBytes }

end Calls

/-- `storage_.resize`, where an array of more than `limit` bytes cannot be had. -/
def resize (limit size : Nat) : Prog ResizeError RawBuffer Unit := do
  let b ← Prog.get
  if b.storage.length < size ∧ maxSize < size then Prog.fail .lengthError
  else if b.storage.length < size ∧ limit < size then Prog.fail .badAlloc
  else Prog.modify fun b =>
    { b with storage := b.storage.take size ++ zeros (size - b.storage.length) }

/-- The loop of `EnsureWritable`. Doubling is modulo `2 ^ 64`: a size that was doubled 64 times is 0
    and stays 0, so a loop that is not done by then never ends. -/
def growSize (required : Nat) : Nat → Nat → Option Nat
  | 0, _ => none
  | fuel + 1, newSize =>
    if newSize < required then growSize required fuel (newSize * 2 % 2 ^ 64) else some newSize

/-- `EnsureWritable`. -/
def ensureWritable (limit n : Nat) : Prog ResizeError RawBuffer Unit := do
  let b ← Prog.get
  if n ≤ b.writableBytes then pure ()
  else if 0 < b.readPos ∧ n ≤ sizeSub b.storage.length b.readableBytes then Prog.modify compact
  else
    let required := (b.readableBytes + n) % 2 ^ 64
    let start := if b.storage = [] then 1024 else b.storage.length
    match growSize required 65 start with
    | none => Prog.halt
    | some newSize => do
      Prog.modify compact
      resize limit newSize

/-- `Append`, in both forms. The bytes are the caller's, outside of the buffer; a null pointer has
    none. -/
def append (limit : Nat) (data : Bytes) : Prog ResizeError RawBuffer Unit :=
  Prog.when (data ≠ []) do
    ensureWritable limit data.length
    Prog.modify fun b => b.write 0 data
    Prog.modify fun b => b.commit data.length

/-- `AppendByte`. -/
def appendByte (limit : Nat) (c : UInt8) : Prog ResizeError RawBuffer Unit := do
  ensureWritable limit 1
  Prog.modify fun b => b.write 0 [c]
  Prog.modify fun b => b.commit 1

/-- `Reserve`. -/
def reserve (limit capacity : Nat) : Prog ResizeError RawBuffer Unit := do
  let b ← Prog.get
  Prog.when (b.storage.length < capacity) (resize limit capacity)

/-- `Shrink`. -/
def shrink (limit targetCapacity : Nat) : Prog ResizeError RawBuffer Unit := do
  Prog.modify compact
  let b ← Prog.get
  Prog.when (targetCapacity < b.storage.length) (resize limit targetCapacity)

end RawBuffer

open RawBuffer

/-- The calls on a buffer, and the bytes its owner stores into `Writable`. -/
inductive BufferOp
  | append (data : Bytes)
  | appendByte (c : UInt8)
  | write (k : Nat) (data : Bytes)
  | commit (n : Nat)
  | consume (n : Nat)
  | ensureWritable (n : Nat)
  | reserve (capacity : Nat)
  | compact
  | shrink (targetCapacity : Nat)
  | clear
  deriving DecidableEq, Repr

namespace BufferOp

def call (limit : Nat) : BufferOp → Prog ResizeError RawBuffer Unit
  | append data => RawBuffer.append limit data
  | appendByte c => RawBuffer.appendByte limit c
  | write k data => Prog.modify fun b => b.write k data
  | commit n => Prog.modify fun b => b.commit n
  | consume n => Prog.modify fun b => b.consume n
  | ensureWritable n => RawBuffer.ensureWritable limit n
  | reserve capacity => RawBuffer.reserve limit capacity
  | compact => Prog.modify RawBuffer.compact
  | shrink targetCapacity => RawBuffer.shrink limit targetCapacity
  | clear => Prog.modify RawBuffer.clear

/-- The same on a queue of bytes. What is committed are the first bytes of `window`. -/
def onQueue (window : Bytes) : BufferOp → Bytes → Bytes
  | append data, q => q ++ data
  | appendByte c, q => q ++ [c]
  | commit n, q => q ++ window.take n
  | consume n, q => q.drop n
  | clear, _ => []
  | _, q => q

/-- What a caller must keep to. -/
def Allowed (b : RawBuffer) : BufferOp → Prop
  | append data => data.length ≤ maxSize
  | write k data => k + data.length ≤ b.writableBytes
  | commit n => n ≤ b.writableBytes
  | consume n => n ≤ b.readableBytes
  | _ => True

/-- A `Shrink` leaves room for what is to be read. -/
def Fits (b : RawBuffer) : BufferOp → Prop
  | shrink targetCapacity => b.readableBytes ≤ targetCapacity
  | _ => True

instance (b : RawBuffer) : DecidablePred (Allowed b) := fun op => by
  cases op <;> first | exact instDecidableTrue | exact Nat.decLe _ _

instance (b : RawBuffer) : DecidablePred (Fits b) := fun op => by
  cases op <;> first | exact instDecidableTrue | exact Nat.decLe _ _

end BufferOp

/-- A buffer, the queue beside it, and whether the last call came back. -/
structure BufferRun where
  buffer : RawBuffer
  queue : Bytes
  running : Bool
  deriving DecidableEq, Repr

namespace BufferRun

/-- A new buffer. One with a capacity is this one after `Reserve`. -/
def start : BufferRun := ⟨⟨[], 0, 0⟩, [], true⟩

/-- One call, with the memory that can be had for it. A call that throws changes no queue. -/
def step (s : BufferRun) (c : BufferOp × Nat) : BufferRun :=
  match c.1.call c.2 s.buffer with
  | (.ok _, b) => ⟨b, c.1.onQueue s.buffer.writable s.queue, true⟩
  | (.error _, b) => ⟨b, s.queue, true⟩
  | (.halted, b) => ⟨b, s.queue, false⟩

def Allowed (s : BufferRun) (c : BufferOp × Nat) : Prop := s.running = true ∧ c.1.Allowed s.buffer

def Fits (s : BufferRun) (c : BufferOp × Nat) : Prop := c.1.Fits s.buffer

instance (s : BufferRun) : DecidablePred (Allowed s) := fun _ => instDecidableAnd

instance (s : BufferRun) : DecidablePred (Fits s) := fun c =>
  inferInstanceAs (Decidable (c.1.Fits s.buffer))

/-- The buffer is the queue, and its cursors are in order. -/
def Agrees (s : BufferRun) : Prop :=
  s.buffer.readable = s.queue ∧
    s.buffer.readPos ≤ s.buffer.writePos ∧ s.buffer.writePos ≤ s.buffer.storage.length

end BufferRun

/-! ## 2. Well-formed buffers -/

def ByteBuffer.raw (B : ByteBuffer) : RawBuffer := ⟨B.storage, B.readPos, B.writePos⟩

/-- `b` is a well-formed buffer with the content `q`. -/
def Content (b : RawBuffer) (q : Bytes) : Prop :=
  ∃ B : ByteBuffer, B.raw = b ∧ B.readable = q ∧ B.storage.length ≤ maxSize

section Raw

variable {B : ByteBuffer} (h : B.storage.length ≤ maxSize)
include h

theorem raw_readableBytes : B.raw.readableBytes = B.readableBytes :=
  sizeSub_of_le (B.write_le.trans h) B.read_le

theorem raw_writableBytes : B.raw.writableBytes = B.writableBytes := sizeSub_of_le h B.write_le

theorem raw_readable : B.raw.readable = B.readable := by
  rw [RawBuffer.readable, raw_readableBytes h]
  rfl

theorem raw_compact : B.raw.compact = B.compact.raw := by
  unfold RawBuffer.compact ByteBuffer.compact
  rw [raw_readable h, raw_readableBytes h, apply_ite ByteBuffer.raw]
  rfl

omit h in
theorem raw_consume {n : Nat} (hn : n ≤ B.readableBytes) :
    B.raw.consume n = (B.consume n hn).raw := by
  unfold RawBuffer.consume ByteBuffer.consume
  rw [apply_ite ByteBuffer.raw]
  rfl

end Raw

theorem readable_eq (B : ByteBuffer) : B.readable = (B.storage.take B.writePos).drop B.readPos := by
  unfold ByteBuffer.readable ByteBuffer.readableBytes slice
  rw [drop_take]

section Content

variable {b : RawBuffer} {q : Bytes}

theorem Content.of_empty (storage : Bytes) (h : storage.length ≤ maxSize) :
    Content ⟨storage, 0, 0⟩ [] :=
  ⟨⟨storage, 0, 0, le_rfl, Nat.zero_le _⟩, rfl, rfl, h⟩

variable (h : Content b q)
include h

theorem Content.readable : b.readable = q := by
  obtain ⟨B, rfl, rfl, hmax⟩ := h
  exact raw_readable hmax

theorem Content.readableBytes : b.readableBytes = q.length := by
  obtain ⟨B, rfl, rfl, hmax⟩ := h
  rw [raw_readableBytes hmax, ByteBuffer.length_readable]

theorem Content.read_le : b.readPos ≤ b.writePos := by
  obtain ⟨B, rfl, -⟩ := h
  exact B.read_le

theorem Content.write_le : b.writePos ≤ b.storage.length := by
  obtain ⟨B, rfl, -⟩ := h
  exact B.write_le

theorem Content.size_le : b.storage.length ≤ maxSize := by
  obtain ⟨B, rfl, -, hmax⟩ := h
  exact hmax

theorem Content.length_eq : q.length = b.writePos - b.readPos := by
  obtain ⟨B, rfl, rfl, -⟩ := h
  exact B.length_readable

theorem Content.writableBytes : b.writableBytes = b.storage.length - b.writePos :=
  sizeSub_of_le h.size_le h.write_le

/-- The content depends on the array up to the write cursor only. -/
theorem Content.keep {storage : Bytes} (htake : storage.take b.writePos = b.storage.take b.writePos)
    (hlen : b.writePos ≤ storage.length) (hmax : storage.length ≤ maxSize) :
    Content { b with storage := storage } q := by
  obtain ⟨B, rfl, rfl, -⟩ := h
  refine ⟨⟨storage, B.readPos, B.writePos, B.read_le, hlen⟩, rfl, ?_, hmax⟩
  rw [readable_eq, readable_eq]
  exact congrArg (drop B.readPos) htake

theorem Content.compact : Content b.compact q ∧ b.compact.readPos = 0 ∧
    b.compact.storage.length = b.storage.length := by
  obtain ⟨B, rfl, rfl, hmax⟩ := h
  have hlen : B.compact.storage.length = B.storage.length := by
    have hw := B.write_le
    unfold ByteBuffer.compact
    split
    · rfl
    · rw [length_append, length_drop, ByteBuffer.length_readable, ByteBuffer.readableBytes]
      omega
  have hread : B.compact.readPos = 0 := by
    unfold ByteBuffer.compact
    split
    · assumption
    · rfl
  rw [raw_compact hmax]
  exact ⟨⟨B.compact, rfl, B.compact_readable, hlen.trans_le hmax⟩, hread, hlen⟩

theorem Content.consume {n : Nat} (hn : n ≤ b.readableBytes) :
    Content (b.consume n) (q.drop n) := by
  obtain ⟨B, rfl, rfl, hmax⟩ := h
  rw [raw_readableBytes hmax] at hn
  refine ⟨B.consume n hn, (raw_consume hn).symm, B.readable_consume hn, ?_⟩
  unfold ByteBuffer.consume
  split <;> exact hmax

theorem Content.commit {n : Nat} (hn : n ≤ b.writableBytes) :
    Content (b.commit n) (q ++ b.writable.take n) := by
  obtain ⟨B, rfl, rfl, hmax⟩ := h
  rw [raw_writableBytes hmax] at hn
  have hr := B.read_le
  have hw := B.write_le
  unfold ByteBuffer.writableBytes at hn
  refine ⟨⟨B.storage, B.readPos, B.writePos + n, by omega, by omega⟩, rfl, ?_, hmax⟩
  rw [readable_eq, readable_eq]
  show (B.storage.take (B.writePos + n)).drop B.readPos = _
  rw [take_add, drop_append_of_le_length (by rw [length_take]; omega)]
  rfl

theorem Content.write {k : Nat} {data : Bytes} (hk : k + data.length ≤ b.writableBytes) :
    Content (b.write k data) q ∧ (b.write k data).storage.length = b.storage.length := by
  have hw := h.write_le
  have hmax := h.size_le
  rw [h.writableBytes] at hk
  have hlen : (splice b.storage (b.writePos + k) data).length = b.storage.length := by
    simp only [splice, length_append, length_take, length_zeros, length_drop]
    omega
  refine ⟨h.keep ?_ (hlen ▸ hw) (hlen ▸ hmax), hlen⟩
  unfold splice
  rw [append_assoc, append_assoc, take_append_of_le_length (by rw [length_take]; omega), take_take,
    Nat.min_eq_left (by omega)]

/-- A copy behind the write cursor, and its commit. -/
theorem Content.push {data : Bytes} (hn : data.length ≤ b.writableBytes) :
    Content ((b.write 0 data).commit data.length) (q ++ data) := by
  have hwrite := h.write ((Nat.zero_add _).trans_le hn)
  have hroom : (b.write 0 data).writableBytes = b.writableBytes := by
    rw [hwrite.1.writableBytes, hwrite.2, h.writableBytes]
    rfl
  have hcommit := hwrite.1.commit (hn.trans_eq hroom.symm)
  have hdata : (b.write 0 data).writable.take data.length = data := by
    have hcut : (b.storage.take b.writePos ++ zeros (b.writePos - b.storage.length)).length =
        b.writePos := by
      simp only [length_append, length_take, length_zeros]
      omega
    show ((splice b.storage b.writePos data).drop b.writePos).take data.length = data
    rw [splice, append_assoc, drop_left' hcut, take_left]
  rwa [hdata] at hcommit

end Content

/-! ## 3. One call -/

theorem growSize_ge {required n : Nat} : ∀ {fuel newSize : Nat},
    growSize required fuel newSize = some n → newSize ≤ n ∧ required ≤ n
  | fuel + 1, newSize, h => by
    unfold growSize at h
    split at h
    · have ih := growSize_ge h
      omega
    · cases h
      omega

section Rules

variable {b : RawBuffer} {q : Bytes} {limit : Nat} (h : Content b q)
include h

/-- An array that still holds the content can be had, or everything stays as it is. -/
theorem sat_resize {size : Nat} (hsize : b.writePos ≤ size) :
    Sat (fun _ b' => Content b' q ∧ b'.storage.length = size ∧ b'.writePos = b.writePos)
      (fun _ b' => Content b' q) (fun b' => Content b' q) (resize limit size b) := by
  have hw := h.write_le
  have hmax := h.size_le
  unfold resize
  rw [bind_get]
  split
  · exact h
  split
  · exact h
  have hlen : (b.storage.take size ++ zeros (size - b.storage.length)).length = size := by
    simp only [length_append, length_take, length_zeros]
    omega
  refine ⟨h.keep ?_ (hlen.symm ▸ hsize) (by omega), hlen, rfl⟩
  rw [take_append_of_le_length (by rw [length_take]; omega), take_take, Nat.min_eq_left hsize]

/-- **Making room changes no content**, and there is room if the sizes add up. -/
theorem sat_ensureWritable (n : Nat) :
    Sat (fun _ b' => Content b' q ∧ (q.length + n < 2 ^ 64 → n ≤ b'.writableBytes))
      (fun _ b' => Content b' q) (fun b' => Content b' q) (ensureWritable limit n b) := by
  have hlen := h.length_eq
  have hw := h.write_le
  obtain ⟨hc, hread, hsame⟩ := h.compact
  have hclen := hc.length_eq
  unfold ensureWritable
  rw [bind_get]
  split
  · exact ⟨h, fun _ => ‹_›⟩
  split
  · rename_i hroom
    rw [h.readableBytes, sizeSub_of_le h.size_le (by omega)] at hroom
    refine ⟨hc, fun _ => ?_⟩
    rw [hc.writableBytes]
    omega
  · rw [h.readableBytes]
    dsimp only
    generalize hgrow : growSize _ 65 _ = size
    cases size with
    | none => exact h
    | some size =>
      obtain ⟨hstart, hreq⟩ := growSize_ge hgrow
      have hsize : b.compact.writePos ≤ size := by
        split at hstart
        · rename_i hnil
          rw [hnil, length_nil] at hw
          omega
        · omega
      refine sat_imp (sat_resize hc hsize) fun _ b' ⟨hb', hsz, hwr⟩ => ⟨hb', fun hadd => ?_⟩
      rw [hb'.writableBytes]
      omega

theorem sat_push {data : Bytes} (hdata : data.length ≤ maxSize) :
    Sat (fun _ b' => Content b' (q ++ data)) (fun _ b' => Content b' q) (fun b' => Content b' q)
      ((do
        ensureWritable limit data.length
        Prog.modify fun b => b.write 0 data
        Prog.modify fun b => b.commit data.length : Prog ResizeError RawBuffer Unit) b) := by
  have hq : q.length + data.length < 2 ^ 64 := by
    have hlen := h.length_eq
    have hw := h.write_le
    have hmax := h.size_le
    unfold maxSize at hmax hdata
    omega
  refine sat_bind (sat_ensureWritable h data.length) fun _ b' ⟨hb', hroom⟩ => ?_
  exact hb'.push (hroom hq)

/-- `Shrink` to a size that leaves room for the content. -/
theorem sat_shrink {target : Nat} (hfits : b.readableBytes ≤ target) :
    Sat (fun _ b' => Content b' q) (fun _ b' => Content b' q) (fun b' => Content b' q)
      (RawBuffer.shrink limit target b) := by
  obtain ⟨hc, hread, -⟩ := h.compact
  have hlen := hc.length_eq
  rw [h.readableBytes] at hfits
  refine sat_when (fun _ => ?_) (fun _ => hc)
  exact sat_imp (sat_resize hc (by omega)) fun _ _ hb' => hb'.1

/-- `Shrink` below the content leaves the write cursor behind the array. -/
theorem sat_shrink_cut {target : Nat} (hcut : target < b.readableBytes) :
    Sat (fun _ b' => b'.storage.length < b'.writePos) (fun _ _ => False) (fun _ => False)
      (RawBuffer.shrink limit target b) := by
  obtain ⟨hc, hread, -⟩ := h.compact
  have hlen := hc.length_eq
  have hw := hc.write_le
  rw [h.readableBytes] at hcut
  show Sat _ _ _ (Prog.when (target < b.compact.storage.length) (resize limit target) b.compact)
  rw [Prog.when, if_pos (by omega), resize, bind_get, if_neg (by omega), if_neg (by omega)]
  show (b.compact.storage.take target ++ zeros _).length < b.compact.writePos
  simp only [length_append, length_take, length_zeros]
  omega

/-- **Every call does to the content what it does to a queue.** A call that throws or does not come
    back leaves the content as it is. -/
theorem sat_call {op : BufferOp} (hop : op.Allowed b) (hfits : op.Fits b) :
    Sat (fun _ b' => Content b' (op.onQueue b.writable q)) (fun _ b' => Content b' q)
      (fun b' => Content b' q) (op.call limit b) := by
  cases op with
  | append data =>
    refine sat_when (fun _ => sat_push h hop) (fun hnil => ?_)
    have hq : q = q ++ data := by rw [not_not.mp hnil, append_nil]
    show Content b (q ++ data)
    rwa [← hq]
  | appendByte c => exact sat_push h (Nat.le_of_ble_eq_true rfl)
  | write k data => exact (h.write hop).1
  | commit n => exact h.commit hop
  | consume n => exact h.consume hop
  | ensureWritable n => exact sat_imp (sat_ensureWritable h n) fun _ _ hb' => hb'.1
  | reserve capacity =>
    refine sat_when (fun hlt => ?_) (fun _ => h)
    exact sat_imp (sat_resize h (h.write_le.trans (Nat.le_of_lt hlt))) fun _ _ hb' => hb'.1
  | compact => exact h.compact.1
  | shrink target => exact sat_shrink h hfits
  | clear => exact Content.of_empty b.storage h.size_le

end Rules

/-! ## 4. Sequences of calls -/

namespace BufferRun

theorem agrees_of_content {s : BufferRun} (h : Content s.buffer s.queue) : s.Agrees :=
  ⟨h.readable, h.read_le, h.write_le⟩

theorem content_step {s : BufferRun} {c : BufferOp × Nat} (h : Content s.buffer s.queue)
    (hc : s.Allowed c) (hfits : s.Fits c) : Content (s.step c).buffer (s.step c).queue := by
  have hcall : Sat _ _ _ (c.1.call c.2 s.buffer) := sat_call h hc.2 hfits
  unfold step
  generalize c.1.call c.2 s.buffer = r at hcall ⊢
  rcases r with ⟨_ | _ | _, b⟩ <;> exact hcall

theorem not_agrees_step {s : BufferRun} {c : BufferOp × Nat} (h : Content s.buffer s.queue)
    (hfits : ¬ s.Fits c) : ¬ (s.step c).Agrees := by
  obtain ⟨op, limit⟩ := c
  cases op with
  | shrink target =>
    have hshrink : Sat _ _ _ (RawBuffer.shrink limit target s.buffer) :=
      sat_shrink_cut h (Nat.lt_of_not_le hfits)
    obtain ⟨_, b', hcall, hcut⟩ := sat_returns hshrink
    have hb : (s.step (.shrink target, limit)).buffer = b' := by
      simp only [step, BufferOp.call, hcall]
    rintro ⟨-, -, hw⟩
    rw [hb] at hw
    exact Nat.not_lt.mpr hw hcut
  | _ => exact absurd trivial hfits

/-- **A buffer is a queue of bytes with its cursors in order throughout, exactly if no `Shrink` asks
    for less than there is to read.** -/
theorem queue_iff {calls : List (BufferOp × Nat)} (h : Along step Allowed start calls) :
    (∀ n, ((calls.take n).foldl step start).Agrees) ↔ Along step Fits start calls :=
  h.forall_take_iff (J := fun s => Content s.buffer s.queue) (fun _ => agrees_of_content)
    (fun _ _ => content_step) (fun _ _ hs _ => not_agrees_step hs)
      (Content.of_empty [] (Nat.zero_le _))

/-- Bytes are added in both ways, some are taken, and the array is cut to what is left. -/
theorem queue_append_shrink :
    let calls := [(.append [1, 2, 3], 1024), (.consume 2, 0), (.ensureWritable 1023, 0),
      (.write 0 [7], 0), (.commit 1, 0), (.shrink 2, 0)]
    Along step Allowed start calls ∧ (calls.foldl step start).queue = [3, 7] ∧
      ∀ n, ((calls.take n).foldl step start).Agrees :=
  ⟨by decide +kernel, by decide +kernel, (queue_iff (by decide +kernel)).mpr (by decide +kernel)⟩

/-- Two bytes are added and the array is cut to one. -/
theorem shrink_cuts_content :
    let calls := [(.append [1, 2], 1024), (.shrink 1, 0)]
    Along step Allowed start calls ∧ (calls.foldl step start).queue = [1, 2] ∧
      (calls.foldl step start).buffer = ⟨[1], 0, 2⟩ ∧ ¬ (calls.foldl step start).Agrees := by
  have hrun : [(.append [1, 2], 1024), (.shrink 1, 0)].foldl step start =
      ⟨⟨[1], 0, 2⟩, [1, 2], true⟩ := by decide +kernel
  refine ⟨by decide +kernel, ?_⟩
  rw [hrun]
  exact ⟨rfl, rfl, fun h => absurd h.2.2 (by decide)⟩

end BufferRun

end PulseLog
