/-
  Subject:   Writing records and reading them back (`AppendRecord` of src/protocol/record.cc).

  * `NewRecord.parseRecord_bytes` -- a record within the size limit is parsed wherever it stands,
    and the view shows what was written;
  * `iterateRecords_shows`, `iterateRecords_run` -- so is a run of records, by the iterator;
  * `NewRecord.rewriteRecordHeader_bytes` -- the leader's stamp makes the record that would have
    been written with the stamped offset and timestamp.
-/
import PulseLog.Protocol.Record
import PulseLog.Base.Crc32cTables
import PulseLog.General.Lists

namespace PulseLog

open List

/-! ## 1. The writer -/

/-- The loop of `WriteVarUInt`; a 64-bit value takes ten rounds at most. -/
def writeVarUIntLoop : Nat → Nat → Bytes
  | 0, _ => []
  | n + 1, v =>
    if 128 ≤ v then (UInt8.ofNat v ||| 0x80) :: writeVarUIntLoop n (v >>> 7) else [UInt8.ofNat v]

def writeVarUInt (v : Nat) : Bytes := writeVarUIntLoop 10 v

/-- The loop of `VarUIntSize`, after the first byte. -/
def varUIntSizeLoop : Nat → Nat → Nat → Nat
  | 0, _, n => n
  | fuel + 1, v, n => if 128 ≤ v then varUIntSizeLoop fuel (v >>> 7) (n + 1) else n

def varUIntSize (v : Nat) : Nat := varUIntSizeLoop 9 v 1

/-- `EncodedRecordSize`. -/
def encodedRecordSize (keyIsNull : Bool) (keyLen valueLen : Nat) : Nat :=
  let keyField := if keyIsNull then 0 else keyLen + 1
  recordFixedPrefix + varUIntSize keyField + varUIntSize valueLen +
    (if keyIsNull then 0 else keyLen) + valueLen

/-- `AppendRecord`: the bytes it appends. The checksum is over all that stands behind it. -/
def appendRecord (offset timestamp : Int) (attributes : UInt8) (keyIsNull : Bool)
    (key value : Bytes) : Bytes :=
  let total := encodedRecordSize keyIsNull key.length value.length
  let keyField := if keyIsNull then 0 else key.length + 1
  let covered := storeLe 8 (ofI64 offset) ++ storeLe 8 (ofI64 timestamp) ++ [attributes] ++
    writeVarUInt keyField ++ writeVarUInt value.length ++ (if keyIsNull then [] else key) ++ value
  storeLe 4 (total - 4) ++ storeLe 4 (crc32c covered).toNat ++ covered

/-- The arguments of one `AppendRecord`. -/
structure NewRecord where
  offset : Int
  timestamp : Int
  attributes : UInt8
  keyIsNull : Bool
  key : Bytes
  value : Bytes
  deriving Repr, DecidableEq

/-- What a consumer sees of a record. -/
structure RecordFields where
  offset : Int
  timestamp : Int
  key : Option Bytes
  value : Bytes
  deriving Repr, DecidableEq

namespace NewRecord

variable (r : NewRecord)

def bytes : Bytes := appendRecord r.offset r.timestamp r.attributes r.keyIsNull r.key r.value

def size : Nat := encodedRecordSize r.keyIsNull r.key.length r.value.length

/-- Null keys have no bytes. -/
def keyBytes : Bytes := if r.keyIsNull then [] else r.key

def keyField : Nat := if r.keyIsNull then 0 else r.key.length + 1

/-- What the record says, offsets and timestamps as 64-bit integers. -/
def fields : RecordFields :=
  ⟨toI64 (ofI64 r.offset), toI64 (ofI64 r.timestamp), if r.keyIsNull then none else some r.key,
    r.value⟩

/-- The record is within `kMaxRecordBytes`. -/
def Fits : Prop := r.size ≤ maxRecordBytes + 4

instance : Decidable r.Fits := inferInstanceAs (Decidable (_ ≤ _))

end NewRecord

/-- The bytes a span shows. -/
def Span.bytes (s : Span) (data : Bytes) : Bytes := slice data s.start s.len

/-- What a view into a buffer shows. -/
def RecordView.fields (data : Bytes) (view : RecordView) : RecordFields :=
  ⟨view.offset, view.timestamp, if view.keyIsNull then none else some (view.key.bytes data),
    view.value.bytes data⟩

/-- A view into a buffer shows what was written as `r`. -/
structure RecordView.Shows (data : Bytes) (view : RecordView) (r : NewRecord) : Prop where
  fields : view.fields data = r.fields
  attributes : view.attributes = r.attributes

/-- The loop `while (it.Next(view))`: the views it sees, and the iterator where it stops. -/
def RecordIterator.collect : Nat → RecordIterator → List RecordView × RecordIterator
  | 0, it => ([], it)
  | fuel + 1, it =>
    match it.next with
    | (none, it) => ([], it)
    | (some view, it) =>
      let (views, it) := collect fuel it
      (view :: views, it)

/-- The iteration over a buffer. Every record takes a byte at least, so the loop ends before its
    bound. -/
def iterateRecords (data : Bytes) (verifyCrc : Bool) : List RecordView × RecordIterator :=
  (RecordIterator.make data verifyCrc).collect (data.length + 1)

/-! ## 2. Lengths -/

section Varint

theorem toNat_continued (v : Nat) : (UInt8.ofNat v ||| 0x80).toNat = v % 128 + 128 := by
  have hv : v % 256 = v % 128 ∨ v % 256 = v % 128 + 128 := by omega
  have hor : ∀ g, g < 128 → g ||| 128 = g + 128 := by
    intro g hg
    have h := Nat.two_pow_add_eq_or_of_lt (i := 7) hg 1
    rw [Nat.or_comm, Nat.add_comm]
    exact h.symm
  have hself : ∀ g, g < 128 → (g + 128) ||| 128 = g + 128 := by
    intro g hg
    rw [← hor g hg, Nat.or_assoc, Nat.or_self]
  have hlt : v % 128 < 128 := Nat.mod_lt _ (by decide)
  rw [UInt8.toNat_or, UInt8.toNat_ofNat']
  rcases hv with h | h
  · rw [h]
    exact hor _ hlt
  · rw [h]
    exact hself _ hlt

theorem shiftRight_lt_pow {v n : Nat} (hv : v < 128 ^ (n + 1)) : v >>> 7 < 128 ^ n := by
  rw [Nat.pow_succ, Nat.mul_comm] at hv
  rw [Nat.shiftRight_eq_div_pow]
  exact Nat.div_lt_of_lt_mul hv

theorem length_writeVarUIntLoop : ∀ (fuel v n : Nat), v < 128 ^ (fuel + 1) →
    varUIntSizeLoop fuel v n + 1 = n + (writeVarUIntLoop (fuel + 1) v).length := by
  intro fuel
  induction fuel with
  | zero =>
    intro v n hv
    have h128 : ¬ 128 ≤ v := by omega
    simp only [varUIntSizeLoop, writeVarUIntLoop, if_neg h128, length_singleton]
  | succ fuel ih =>
    intro v n hv
    rw [varUIntSizeLoop, writeVarUIntLoop]
    split
    · have hsmall := shiftRight_lt_pow hv
      have hrest := ih (v >>> 7) (n + 1) hsmall
      rw [length_cons]
      omega
    · simp

theorem length_writeVarUInt {v : Nat} (hv : v < 2 ^ 64) :
    (writeVarUInt v).length = varUIntSize v := by
  have h : varUIntSizeLoop 9 v 1 + 1 = 1 + (writeVarUIntLoop 10 v).length :=
    length_writeVarUIntLoop 9 v 1 (by omega)
  unfold writeVarUInt varUIntSize
  omega

/-- The seven low bits and the rest make up a value. -/
theorem shiftLeft_split (v shift : Nat) :
    v <<< shift = (v % 128) <<< shift ||| (v >>> 7) <<< (shift + 7) := by
  have hv7 : v = (v >>> 7) <<< 7 ||| v % 128 := by
    rw [← Nat.shiftLeft_add_eq_or_of_lt (Nat.mod_lt v (by decide))]
    omega
  conv_lhs => rw [hv7]
  rw [Nat.shiftLeft_or_distrib, ← Nat.shiftLeft_add, Nat.add_comm 7 shift, Nat.or_comm]

/-- The reading loop undoes the writing loop, as long as the value fits in 64 bits. -/
theorem readVarUIntLoop_write : ∀ (fuel v shift value consumed : Nat) (t : Bytes),
    v < 128 ^ (fuel + 1) → v <<< shift < 2 ^ 64 →
    readVarUIntLoop (fuel + 1) (writeVarUIntLoop (fuel + 1) v ++ t) shift value consumed =
      some (value ||| v <<< shift, consumed + (writeVarUIntLoop (fuel + 1) v).length) := by
  intro fuel
  induction fuel with
  | zero =>
    intro v shift value consumed t hv hfits
    have h128 : ¬ 128 ≤ v := by omega
    have hbyte : (UInt8.ofNat v).toNat = v := by
      rw [UInt8.toNat_ofNat']
      omega
    simp only [writeVarUIntLoop, if_neg h128, cons_append, readVarUIntLoop,
      hbyte, if_pos (show v < 128 by omega), Nat.mod_eq_of_lt (show v < 128 by omega),
      Nat.mod_eq_of_lt hfits, length_singleton]
  | succ fuel ih =>
    intro v shift value consumed t hv hfits
    rw [writeVarUIntLoop]
    split
    · have hsmall := shiftRight_lt_pow hv
      have hparts := shiftLeft_split v shift
      have hlow : (v % 128) <<< shift < 2 ^ 64 := by
        refine Nat.lt_of_le_of_lt ?_ hfits
        rw [hparts]
        exact Nat.left_le_or
      have hhigh : (v >>> 7) <<< (shift + 7) < 2 ^ 64 := by
        refine Nat.lt_of_le_of_lt ?_ hfits
        rw [hparts]
        exact Nat.right_le_or
      have hmod : (v % 128 + 128) % 128 = v % 128 := by omega
      rw [cons_append, readVarUIntLoop]
      simp only [toNat_continued, hmod, Nat.mod_eq_of_lt hlow]
      rw [if_neg (by omega), ih (v >>> 7) (shift + 7) _ _ t hsmall hhigh, hparts, Nat.or_assoc,
        length_cons, Nat.add_right_comm consumed, Nat.add_assoc]
    · have hbyte : (UInt8.ofNat v).toNat = v := by
        rw [UInt8.toNat_ofNat']
        omega
      simp only [cons_append, readVarUIntLoop, hbyte,
        if_pos (show v < 128 by omega), Nat.mod_eq_of_lt (show v < 128 by omega),
        Nat.mod_eq_of_lt hfits, length_singleton]

/-- **A length is read back** wherever it stands. -/
theorem readVarUInt_write {v : Nat} (hv : v < 2 ^ 64) (x t : Bytes) :
    readVarUInt (x ++ writeVarUInt v ++ t) x.length = some (v, varUIntSize v) := by
  have h := readVarUIntLoop_write 9 v 0 0 0 t (by omega) (by exact hv)
  rw [Nat.zero_or, Nat.zero_add] at h
  rw [← length_writeVarUInt hv]
  unfold readVarUInt
  rw [append_assoc, drop_left]
  exact h

end Varint

/-! ## 3. A record is read back -/

namespace NewRecord

variable {r : NewRecord}

/-- The bytes behind the checksum. -/
def covered (r : NewRecord) : Bytes :=
  storeLe 8 (ofI64 r.offset) ++ storeLe 8 (ofI64 r.timestamp) ++ [r.attributes] ++
    writeVarUInt r.keyField ++ writeVarUInt r.value.length ++ r.keyBytes ++ r.value

theorem bytes_eq (r : NewRecord) :
    r.bytes = storeLe 4 (r.size - 4) ++ storeLe 4 (crc32c r.covered).toNat ++ r.covered := rfl

theorem size_eq (r : NewRecord) : r.size = recordFixedPrefix + varUIntSize r.keyField +
    varUIntSize r.value.length + r.keyBytes.length + r.value.length := by
  unfold size encodedRecordSize keyField keyBytes
  cases r.keyIsNull <;> rfl

/-- A record that 32 bits can measure. -/
def Measurable (r : NewRecord) : Prop := r.size - 4 < 2 ^ 32

theorem Fits.measurable (h : r.Fits) : r.Measurable := by
  unfold Fits maxRecordBytes at h
  unfold Measurable
  omega

theorem keyField_le (r : NewRecord) : r.keyField ≤ r.keyBytes.length + 1 := by
  unfold keyField keyBytes
  split <;> simp

section

variable (h : r.Measurable)
include h

theorem Measurable.keyField_lt : r.keyField < 2 ^ 64 := by
  have hsize := r.size_eq
  have hkey := r.keyField_le
  unfold Measurable at h
  omega

theorem Measurable.value_lt : r.value.length < 2 ^ 64 := by
  have hsize := r.size_eq
  unfold Measurable at h
  omega

theorem length_covered : r.covered.length + 8 = r.size := by
  rw [size_eq, covered]
  simp only [length_append, length_storeLe, length_singleton,
    length_writeVarUInt h.keyField_lt, length_writeVarUInt h.value_lt, recordFixedPrefix]
  omega

theorem length_bytes : r.bytes.length = r.size := by
  rw [bytes_eq, length_append, length_append, length_storeLe, length_storeLe]
  have := length_covered h
  omega

end

theorem size_ge (r : NewRecord) : recordFixedPrefix ≤ r.size := by
  rw [size_eq]
  omega

/-- The length and the checksum at their places. -/
theorem loadLe_length (h : r.Measurable) : loadLe 4 r.bytes 0 = r.size - 4 := by
  rw [bytes_eq, append_assoc, loadLe_storeLe, Nat.mod_eq_of_lt (by unfold Measurable at h; omega)]

section

variable (r : NewRecord)

theorem loadLe_crc : loadLe 4 r.bytes 4 = (crc32c r.covered).toNat := by
  rw [bytes_eq, append_assoc, loadLe_skip _ _ (by decide), loadLe_storeLe]
  exact Nat.mod_eq_of_lt (crc32c r.covered).isLt

theorem drop_bytes : r.bytes.drop 8 = r.covered := by
  have h8 : (storeLe 4 (r.size - 4) ++ storeLe 4 (crc32c r.covered).toNat).length = 8 := by simp
  rw [bytes_eq, ← h8, drop_left]

theorem checksumOk_bytes : ChecksumOk r.bytes := by
  unfold ChecksumOk
  rw [loadLe_crc, drop_bytes]

theorem recordOffset_bytes : recordOffset r.bytes = toI64 (ofI64 r.offset) := by
  unfold recordOffset
  rw [bytes_eq, append_assoc, loadLe_skip _ _ (by decide), loadLe_skip _ _ (by decide)]
  simp only [covered, append_assoc, Nat.reduceSub, loadLe_storeLe,
    Nat.mod_eq_of_lt (ofI64_lt r.offset)]

theorem recordTimestamp_bytes :
    recordTimestamp r.bytes = toI64 (ofI64 r.timestamp) := by
  unfold recordTimestamp
  rw [bytes_eq, append_assoc, loadLe_skip _ _ (by decide), loadLe_skip _ _ (by decide)]
  simp only [covered, append_assoc]
  rw [loadLe_skip _ _ (by decide)]
  simp only [Nat.sub_self, loadLe_storeLe, Nat.mod_eq_of_lt (ofI64_lt r.timestamp)]

end

theorem framed_bytes (h : r.Fits) : Framed r.bytes := by
  have hm := h.measurable
  have hge := r.size_ge
  unfold Fits at h
  unfold recordFixedPrefix at hge
  refine ⟨?_, ?_, ?_⟩
  · rw [length_bytes hm]
    exact r.size_ge
  · rw [loadLe_length hm, length_bytes hm]
    omega
  · rw [loadLe_length hm]
    omega

/-- Where the key begins, counted from the record. -/
def keyStart (r : NewRecord) : Nat :=
  recordFixedPrefix + varUIntSize r.keyField + varUIntSize r.value.length

/-- The prefix, the two lengths, the key and the value. -/
theorem bytes_parts (r : NewRecord) : ∃ p : Bytes, p.length = 25 ∧
    r.bytes = p ++ writeVarUInt r.keyField ++ writeVarUInt r.value.length ++ r.keyBytes ++
      r.value := by
  refine ⟨storeLe 4 (r.size - 4) ++ storeLe 4 (crc32c r.covered).toNat ++
    storeLe 8 (ofI64 r.offset) ++ storeLe 8 (ofI64 r.timestamp) ++ [r.attributes], ?_, ?_⟩
  · simp
  · rw [bytes_eq]
    simp only [covered, append_assoc]

/-- The attributes at their place, wherever the record stands. -/
theorem getD_attributes (r : NewRecord) (x y : Bytes) :
    (x ++ r.bytes ++ y).getD (x.length + 24) 0 = r.attributes := by
  obtain ⟨p, hp, hbytes⟩ : ∃ p : Bytes, p.length = 24 ∧ ∃ q, r.bytes = p ++ r.attributes :: q := by
    refine ⟨storeLe 4 (r.size - 4) ++ storeLe 4 (crc32c r.covered).toNat ++
      storeLe 8 (ofI64 r.offset) ++ storeLe 8 (ofI64 r.timestamp), by simp,
      writeVarUInt r.keyField ++ writeVarUInt r.value.length ++ r.keyBytes ++ r.value, ?_⟩
    rw [bytes_eq]
    simp only [covered, append_assoc, cons_append, nil_append]
  obtain ⟨q, hq⟩ := hbytes
  have hsplit : x ++ r.bytes ++ y = (x ++ p) ++ r.attributes :: (q ++ y) := by
    rw [hq]
    simp
  have hlen : x.length + 24 = (x ++ p).length := by rw [length_append, hp]
  rw [hsplit, hlen, getD_eq_getElem?_getD, getElem?_append_right (Nat.le_refl _), Nat.sub_self]
  rfl

/-- **The lengths of a written record fill it**, and the spans are those of key and value. -/
theorem parseBody_bytes (h : r.Measurable) {x y : Bytes} (hx : x.length + r.size < 2 ^ 64) :
    parseBody (x ++ r.bytes ++ y) x.length r.bytes.length = .ok (r.keyIsNull,
      if r.keyIsNull then ⟨0, 0⟩ else ⟨x.length + r.keyStart, r.keyBytes.length⟩,
      ⟨x.length + r.keyStart + r.keyBytes.length, r.value.length⟩) := by
  obtain ⟨p, hp, hparts⟩ := r.bytes_parts
  have hsize := r.size_eq
  simp only [recordFixedPrefix] at hsize
  have hkey : readVarUInt (x ++ r.bytes ++ y) (x.length + 25) =
      some (r.keyField, varUIntSize r.keyField) := by
    have hread := readVarUInt_write h.keyField_lt (x ++ p)
      (writeVarUInt r.value.length ++ r.keyBytes ++ r.value ++ y)
    rw [length_append, hp] at hread
    rw [hparts]
    simp only [append_assoc] at hread ⊢
    exact hread
  have hvalue : readVarUInt (x ++ r.bytes ++ y) (x.length + 25 + varUIntSize r.keyField) =
      some (r.value.length, varUIntSize r.value.length) := by
    have hread := readVarUInt_write h.value_lt (x ++ p ++ writeVarUInt r.keyField)
      (r.keyBytes ++ r.value ++ y)
    rw [length_append, length_append, hp, length_writeVarUInt h.keyField_lt] at hread
    rw [hparts]
    simp only [append_assoc] at hread ⊢
    exact hread
  have hlen : keyLength r.keyField = r.keyBytes.length := by
    unfold keyLength keyField keyBytes
    cases r.keyIsNull <;> simp
  unfold parseBody
  simp only [hkey, hvalue, hlen, length_bytes h]
  rw [if_neg (by omega), if_neg (by omega)]
  have hstart : x.length + 25 + varUIntSize r.keyField + varUIntSize r.value.length =
      x.length + r.keyStart := by
    unfold keyStart recordFixedPrefix
    omega
  rw [hstart, Nat.mod_eq_of_lt (by omega)]
  cases hk : r.keyIsNull with
  | true => simp [keyField, hk]
  | false => simp [keyField, hk]

/-- A record within the size limit parses alone. -/
theorem parsesAlone_bytes (h : r.Fits) : ParsesAlone r.bytes := by
  have hm := h.measurable
  have hbody := parseBody_bytes hm (y := []) (by
    unfold Measurable at hm
    rw [length_nil]
    omega)
  rw [append_nil] at hbody
  exact ⟨framed_bytes h, _, hbody⟩

/-- **A written record is parsed wherever it stands**, and the view shows what was written. -/
theorem parseRecord_bytes (h : r.Fits) {x y : Bytes} (hx : x.length + r.size < 2 ^ 64) (v : Bool) :
    ∃ view, parseRecord (x ++ r.bytes ++ y) x.length v = .ok (view, x.length + r.bytes.length) ∧
      view.Shows (x ++ r.bytes ++ y) r := by
  have hm := h.measurable
  refine ⟨_, parseRecord_of_parseBody (framed_bytes h) (fun _ => r.checksumOk_bytes)
    (parseBody_bytes hm hx), ?_, r.getD_attributes x y⟩
  obtain ⟨p, hp, hparts⟩ := r.bytes_parts
  have hstart : (p ++ writeVarUInt r.keyField ++ writeVarUInt r.value.length).length =
      r.keyStart := by
    rw [length_append, length_append, hp, length_writeVarUInt hm.keyField_lt,
      length_writeVarUInt hm.value_lt]
    rfl
  have hkey : slice (x ++ r.bytes ++ y) (x.length + r.keyStart) r.keyBytes.length = r.keyBytes := by
    have hmid := slice_mid (x ++ (p ++ writeVarUInt r.keyField ++ writeVarUInt r.value.length))
      r.keyBytes (r.value ++ y) 0 r.keyBytes.length (by omega)
    rw [length_append, hstart, slice_zero, take_length] at hmid
    rw [hparts]
    simp only [append_assoc] at hmid ⊢
    exact hmid
  have hvalue : slice (x ++ r.bytes ++ y) (x.length + r.keyStart + r.keyBytes.length)
      r.value.length = r.value := by
    have hmid := slice_mid (x ++ (p ++ writeVarUInt r.keyField ++ writeVarUInt r.value.length ++
      r.keyBytes)) r.value y 0 r.value.length (by omega)
    rw [length_append, length_append, hstart, slice_zero, take_length, ← Nat.add_assoc] at hmid
    rw [hparts]
    simp only [append_assoc] at hmid ⊢
    exact hmid
  unfold RecordView.fields fields Span.bytes
  simp only [recordOffset_bytes, recordTimestamp_bytes, hvalue]
  cases hk : r.keyIsNull with
  | true => simp
  | false =>
    have hbytes : r.keyBytes = r.key := by simp [keyBytes, hk]
    rw [hbytes] at hkey
    simp only [hbytes, hkey, Bool.false_eq_true, if_false]

/-- **A stamped record is a written one.** -/
theorem rewriteRecordHeader_bytes (r : NewRecord) (o t : Int) :
    rewriteRecordHeader r.bytes o t = { r with offset := o, timestamp := t : NewRecord }.bytes := by
  rfl

/-- Between `x` and `y` the bytes are parsed as the record `r`, and what is next is behind them. -/
def ReadAt (r : NewRecord) (x bytes y : Bytes) : Prop :=
  ∃ view, parseRecord (x ++ bytes ++ y) x.length true = .ok (view, x.length + r.size) ∧
    view.fields (x ++ bytes ++ y) =
      ⟨r.offset, r.timestamp, if r.keyIsNull then none else some r.key, r.value⟩ ∧
    view.attributes = r.attributes

/-- Offset and timestamp are 64-bit integers. -/
def Times (r : NewRecord) : Prop :=
  (-2 ^ 63 ≤ r.offset ∧ r.offset < 2 ^ 63) ∧ -2 ^ 63 ≤ r.timestamp ∧ r.timestamp < 2 ^ 63

theorem readAt_bytes (h : r.Fits) (ht : r.Times) {x y : Bytes} (hx : x.length + r.size < 2 ^ 64) :
    r.ReadAt x r.bytes y := by
  obtain ⟨view, hparse, hshows⟩ := parseRecord_bytes h hx true
  rw [length_bytes h.measurable] at hparse
  refine ⟨view, hparse, ?_, hshows.attributes⟩
  rw [hshows.fields, fields, toI64_ofI64 ht.1, toI64_ofI64 ht.2]

/-- **A record is read back wherever it was appended**, and after a new offset or header too. -/
theorem appended_record_read_back (h : r.Fits) (ht : r.Times) {x y : Bytes}
    (hx : x.length + r.size < 2 ^ 64) :
    r.bytes.length = r.size ∧ r.ReadAt x r.bytes y ∧ ∀ o t,
      { r with offset := o, timestamp := t }.Times →
      { r with offset := o : NewRecord }.ReadAt x (rewriteRecordOffset r.bytes o) y ∧
      { r with offset := o, timestamp := t : NewRecord }.ReadAt x
        (rewriteRecordHeader r.bytes o t) y := by
  refine ⟨length_bytes h.measurable, readAt_bytes h ht hx, fun o t hot => ?_⟩
  rw [rewriteRecordHeader_bytes]
  exact ⟨readAt_bytes (r := { r with offset := o }) h ⟨hot.1, ht.2⟩ hx,
    readAt_bytes (r := { r with offset := o, timestamp := t }) h hot hx⟩

/-- An empty key is not the null key. -/
def emptyKeyRecord : NewRecord := ⟨7, -1, 1, false, [], [118]⟩

theorem emptyKeyRecord_read_back : emptyKeyRecord.bytes.length = emptyKeyRecord.size ∧
    emptyKeyRecord.ReadAt [1, 2, 3] emptyKeyRecord.bytes [4] :=
  have h := appended_record_read_back (by decide) (by unfold Times; decide) (by decide)
  ⟨h.1, h.2.1⟩

end NewRecord

/-! ## 4. So is a run of records -/

/-- The records one after the other. -/
def recordRun (rs : List NewRecord) : Bytes := rs.flatMap NewRecord.bytes

theorem RecordIterator.next_of_parse {it : RecordIterator} {view : RecordView} {next : Nat}
    (hstatus : it.status = none) (hpos : it.pos < it.data.length)
    (h : parseRecord it.data it.pos it.verifyCrc = .ok (view, next)) :
    it.next = (some view, { it with pos := next, recordsRead := it.recordsRead + 1 }) := by
  unfold RecordIterator.next
  rw [hstatus]
  rw [if_neg (by omega), h]

theorem RecordIterator.next_end {it : RecordIterator} (hstatus : it.status = none)
    (hpos : it.data.length ≤ it.pos) : it.next = (none, it) := by
  unfold RecordIterator.next
  rw [hstatus]
  rw [if_pos hpos]

/-- The first `n` records lie before the cut at `k`, and the next one does not. -/
structure CutAfter (rs : List NewRecord) (k n : Nat) : Prop where
  whole : (recordRun (rs.take n)).length ≤ k
  next : ∀ r ∈ rs[n]?, k < (recordRun (rs.take n)).length + r.bytes.length

/-- What the loop over the bytes before the cut sees, and where it stops. -/
structure CutSeen (rs : List NewRecord) (k n : Nat) (data : Bytes)
    (seen : List RecordView × RecordIterator) : Prop where
  records : Forall₂ (RecordView.Shows data) seen.1 (rs.take n)
  boundary : (recordRun (rs.take n)).length = k → seen.2.status = none
  inside : (recordRun (rs.take n)).length ≠ k → ∃ msg, seen.2.status = some (.outOfRange msg)

/-- The loop from a record boundary on. -/
theorem collect_cut {rs : List NewRecord} (hfit : ∀ r ∈ rs, r.Fits) {x data : Bytes} {k : Nat}
    (hk : k ≤ (recordRun rs).length) (hdata : data = x ++ (recordRun rs).take k)
    (hlen : data.length < 2 ^ 64) (v : Bool) (c fuel : Nat) (hfuel : k < fuel) :
    ∃ n, CutAfter rs k n ∧
      CutSeen rs k n data (RecordIterator.collect fuel ⟨data, v, x.length, c, none⟩) := by
  induction rs generalizing x k c fuel with
  | nil =>
    obtain ⟨fuel, rfl⟩ := Nat.exists_eq_add_one_of_ne_zero (Nat.ne_zero_of_lt hfuel)
    have h0 : k = 0 := Nat.le_zero.mp hk
    rw [RecordIterator.collect, RecordIterator.next_end rfl (by simp [hdata, h0])]
    exact ⟨0, ⟨Nat.zero_le _, by simp⟩, .nil, fun _ => rfl, fun h => absurd h0.symm h⟩
  | cons r rs ih =>
    obtain ⟨fuel, rfl⟩ := Nat.exists_eq_add_one_of_ne_zero (Nat.ne_zero_of_lt hfuel)
    have hr := hfit r mem_cons_self
    have hsize := NewRecord.length_bytes hr.measurable
    have hge := r.size_ge
    unfold recordFixedPrefix at hge
    have hcons : ∀ rs, recordRun (r :: rs) = r.bytes ++ recordRun rs := fun _ => rfl
    rw [hcons] at hdata hk
    rw [length_append] at hk
    rw [RecordIterator.collect]
    by_cases hle : r.bytes.length ≤ k
    · -- the record is there: the loop goes on behind it
      have hparts : data = x ++ r.bytes ++ (recordRun rs).take (k - r.bytes.length) := by
        rw [hdata, take_append, take_of_length_le hle, append_assoc]
      have hsizes : x.length + r.bytes.length ≤ data.length := by simp [hparts]
      obtain ⟨view, hparse, hview⟩ := NewRecord.parseRecord_bytes hr (x := x) (by omega) v
      rw [← hparts] at hparse hview
      obtain ⟨n, hcut, hseen⟩ := ih (fun s hs => hfit s (mem_cons_of_mem r hs)) (by omega)
        hparts (c + 1) fuel (by omega)
      rw [RecordIterator.next_of_parse rfl (by dsimp only; omega) hparse]
      have hlength : (recordRun ((r :: rs).take (n + 1))).length =
          r.bytes.length + (recordRun (rs.take n)).length := by
        rw [take_succ_cons, hcons, length_append]
      rw [length_append] at hseen
      refine ⟨n + 1, ⟨?_, fun s hs => ?_⟩, .cons hview hseen.records, fun h => ?_, fun h => ?_⟩
      · have := hcut.whole
        omega
      · have := hcut.next s hs
        omega
      · exact hseen.boundary (by omega)
      · exact hseen.inside (by omega)
    · -- the cut is at the record's beginning or inside it
      have hparts : data = x ++ r.bytes.take k := by
        rw [hdata, take_append_of_le_length (by omega)]
      have hcut : CutAfter (r :: rs) k 0 :=
        ⟨Nat.zero_le _, fun s hs => by obtain rfl := Option.some.inj hs; omega⟩
      have hsizes : data.length = x.length + k := by
        rw [hparts, length_append, length_take]
        omega
      by_cases h0 : k = 0
      · rw [RecordIterator.next_end rfl (by dsimp only; omega)]
        exact ⟨0, hcut, .nil, fun _ => rfl, fun h => absurd h0.symm h⟩
      · obtain ⟨msg, hparse⟩ := parseRecord_cut (NewRecord.framed_bytes hr)
          (Nat.lt_of_not_le hle)
        rw [← hparts] at hparse
        rw [RecordIterator.next]
        dsimp only
        rw [if_neg (by omega), hparse]
        exact ⟨0, hcut, .nil, fun h => absurd h.symm h0, fun _ => ⟨msg, rfl⟩⟩

theorem length_recordRun {rs : List NewRecord} (hfit : ∀ r ∈ rs, r.Measurable) :
    rs.length ≤ (recordRun rs).length := by
  induction rs with
  | nil => exact Nat.zero_le _
  | cons r rs ih =>
    have hsize := NewRecord.length_bytes (hfit r mem_cons_self)
    have hge := r.size_ge
    unfold recordFixedPrefix at hge
    have hrest := ih fun s hs => hfit s (mem_cons_of_mem r hs)
    have hcons : recordRun (r :: rs) = r.bytes ++ recordRun rs := rfl
    rw [hcons, length_cons, length_append]
    omega

/-- **Up to a cut**: the iterator shows the records that lie before it, and stops without an error
    on a record boundary and out of range inside a record. -/
theorem iterateRecords_cut {rs : List NewRecord} (hfit : ∀ r ∈ rs, r.Fits)
    (hlen : (recordRun rs).length < 2 ^ 64) {k : Nat} (hk : k ≤ (recordRun rs).length) (v : Bool) :
    ∃ n, CutAfter rs k n ∧
      CutSeen rs k n ((recordRun rs).take k) (iterateRecords ((recordRun rs).take k) v) := by
  have hlen' : ((recordRun rs).take k).length = k := length_take_of_le hk
  exact collect_cut hfit hk (nil_append _).symm (by omega) v 0 _ (by omega)

/-- The second of two records is cut. -/
theorem two_records_cut : let run := recordRun [NewRecord.emptyKeyRecord, NewRecord.emptyKeyRecord]
    ∃ n, CutAfter [NewRecord.emptyKeyRecord, NewRecord.emptyKeyRecord] 40 n ∧
      CutSeen [NewRecord.emptyKeyRecord, NewRecord.emptyKeyRecord] 40 n (run.take 40)
        (iterateRecords (run.take 40) true) :=
  iterateRecords_cut (by decide) (by decide +kernel) (by decide +kernel) true

/-- **A run of records is read back**, to its end. -/
theorem iterateRecords_shows {rs : List NewRecord} (hfit : ∀ r ∈ rs, r.Fits)
    (hlen : (recordRun rs).length < 2 ^ 64) (v : Bool) :
    Forall₂ (RecordView.Shows (recordRun rs)) (iterateRecords (recordRun rs) v).1 rs ∧
      (iterateRecords (recordRun rs) v).2.status = none := by
  obtain ⟨n, hcut, hseen⟩ := collect_cut hfit le_rfl
    (by rw [take_length, nil_append]) hlen v 0 _ (Nat.lt_succ_self _)
  have hall : rs.take n = rs := by
    cases hn : rs[n]? with
    | none => exact take_of_length_le (List.getElem?_eq_none_iff.mp hn)
    | some r =>
      -- a record that is missing would lie behind the end
      have hnext := hcut.next r hn
      obtain ⟨hlt, rfl⟩ := List.getElem?_eq_some_iff.mp hn
      have hsplit : recordRun rs =
          recordRun (rs.take n) ++ (rs[n].bytes ++ recordRun (rs.drop (n + 1))) := by
        show _ = recordRun (rs.take n) ++ recordRun (rs[n] :: rs.drop (n + 1))
        rw [← drop_eq_getElem_cons hlt, recordRun, recordRun, recordRun, ← flatMap_append,
          take_append_drop]
      rw [hsplit, length_append, length_append] at hnext
      omega
  refine ⟨?_, hseen.boundary (by rw [hall])⟩
  have hrecords := hseen.records
  rwa [hall] at hrecords

/-- A record beyond the limit, alone: no record is shown, and the status is a corruption. -/
theorem iterateRecords_oversized {r : NewRecord} (hm : r.Measurable)
    (hbig : maxRecordBytes + 4 < r.size) (v : Bool) :
    ∃ msg, iterateRecords (recordRun [r]) v =
      ([], ⟨recordRun [r], v, 0, 0, some (.corruption msg)⟩) := by
  have hrun : recordRun [r] = r.bytes := by simp [recordRun]
  have hsize := NewRecord.length_bytes hm
  obtain ⟨msg, hparse⟩ := parseRecord_oversized (x := [])
    (by rw [hsize]; exact r.size_ge) (by rw [NewRecord.loadLe_length hm]; omega)
  rw [append_nil] at hparse
  refine ⟨msg, ?_⟩
  rw [hrun, iterateRecords, RecordIterator.make, RecordIterator.collect, RecordIterator.next]
  dsimp only
  rw [if_neg (by omega), show parseRecord r.bytes 0 v = _ from hparse]

/-- A record of 16 MiB and 30 bytes. -/
def oversizedRecord : NewRecord := ⟨0, 0, 0, true, [], zeros (2 ^ 24)⟩

theorem size_oversizedRecord : oversizedRecord.size = 2 ^ 24 + 30 := by
  unfold NewRecord.size oversizedRecord
  rw [length_zeros]
  decide

theorem oversizedRecord_measurable : oversizedRecord.Measurable := by
  unfold NewRecord.Measurable
  rw [size_oversizedRecord]
  decide

/-- **`AppendRecord` has no limit**: behind a record beyond it, on a record boundary, the status is
    a corruption. -/
theorem oversized_record_corrupt :
    ∃ msg, (iterateRecords (recordRun [oversizedRecord]) false).2.status =
      some (.corruption msg) := by
  obtain ⟨msg, hseen⟩ := iterateRecords_oversized oversizedRecord_measurable
    (by rw [size_oversizedRecord]; decide) false
  exact ⟨msg, by rw [hseen]⟩

theorem iterateRecords_run {rs : List NewRecord} (hfit : ∀ r ∈ rs, r.Fits)
    (hlen : (recordRun rs).length < 2 ^ 64) (v : Bool) :
    ((iterateRecords (recordRun rs) v).1.map (RecordView.fields (recordRun rs))) =
        rs.map NewRecord.fields ∧
      (iterateRecords (recordRun rs) v).2.status = none := by
  obtain ⟨hshows, hstatus⟩ := iterateRecords_shows hfit hlen v
  exact ⟨forall₂_map_eq hshows fun _ _ h => h.fields, hstatus⟩

end PulseLog
