/-
  Subject:   The record format (include/pulselog/protocol/record.h, src/protocol/record.cc).

  One record: length u32 @0, crc32c u32 @4 (over the bytes from 8 on), offset i64 @8, timestamp
  i64 @16, attributes @24, then two varints and the key and value bytes.

  * `parseRecord` -- `ParseRecord`, with its checks in the source's order. The sums of a position
    and a varint length are sums of `size_t` and wrap at 2^64; the varints are read from the
    whole span, not from the record alone;
  * `Framed`, `ChecksumOk`, `recordOffset` -- what a byte string has to be to count as ONE record
    with a checksum and an offset;
  * `ParsesAlone` -- a record that `parseRecord` accepts when it stands alone; such a record is
    accepted wherever it stands (`parseRecord_of_parsesAlone`).
-/
import PulseLog.Base.Status
import PulseLog.Base.Crc32c

namespace PulseLog

open List

variable {x r y : Bytes} {v : Bool}

/-- `kRecordFixedPrefix`: the bytes before the varint fields. -/
def recordFixedPrefix : Nat := 25

/-- `kMaxRecordBytes`. -/
def maxRecordBytes : Nat := 16 * 1024 * 1024

/-- A view into a buffer: where it starts and how long it is. -/
structure Span where
  start : Nat
  len : Nat
  deriving Repr, DecidableEq

/-- `RecordView`. -/
structure RecordView where
  offset : Int
  timestamp : Int
  attributes : UInt8
  keyIsNull : Bool
  key : Span
  value : Span
  deriving Repr, DecidableEq

/-! ## 1. Parsing -/

/-- The loop of `ReadVarUInt`: at most ten bytes, seven value bits each, bits past 63 dropped. -/
def readVarUIntLoop : Nat → Bytes → Nat → Nat → Nat → Option (Nat × Nat)
  | 0, _, _, _, _ => none
  | _ + 1, [], _, _, _ => none
  | n + 1, b :: rest, shift, value, consumed =>
    let value := value ||| ((b.toNat % 128) <<< shift) % 2 ^ 64
    if b.toNat < 128 then some (value, consumed + 1)
    else readVarUIntLoop n rest (shift + 7) value (consumed + 1)

/-- `ReadVarUInt`: the value and the number of bytes consumed. -/
def readVarUInt (data : Bytes) (pos : Nat) : Option (Nat × Nat) :=
  readVarUIntLoop 10 (data.drop pos) 0 0 0

/-- The key length a key field stands for: 0 is the null key, otherwise one less. -/
def keyLength (keyField : Nat) : Nat := if keyField = 0 then 0 else keyField - 1

/-- The part of `ParseRecord` behind the varints: the two lengths against the record's end. -/
def parseBody (data : Bytes) (pos total : Nat) : Except Status (Bool × Span × Span) :=
  match readVarUInt data (pos + 25) with
  | none => .error (.corruption "malformed key length varint")
  | some (keyField, used) =>
    match readVarUInt data (pos + 25 + used) with
    | none => .error (.corruption "malformed value length varint")
    | some (valueLen, used') =>
      let cursor := pos + 25 + used + used'
      let keyLen := keyLength keyField
      let recordEnd := pos + total
      if (cursor + keyLen) % 2 ^ 64 > recordEnd ∨
          (cursor + keyLen + valueLen) % 2 ^ 64 > recordEnd then
        .error (.corruption s!"record key/value lengths overflow the record at byte {pos}")
      else if (cursor + keyLen + valueLen) % 2 ^ 64 ≠ recordEnd then
        .error (.corruption (s!"record has {recordEnd - (cursor + keyLen + valueLen) % 2 ^ 64}" ++
          s!" trailing bytes at byte {pos}"))
      else
        let key : Span := if keyField = 0 then ⟨0, 0⟩ else ⟨cursor, keyLen⟩
        .ok (keyField == 0, key, ⟨(cursor + keyLen) % 2 ^ 64, valueLen⟩)

/-- `ParseRecord`: the record at `pos`, and the position after it. -/
def parseRecord (data : Bytes) (pos : Nat) (verifyCrc : Bool) : Except Status (RecordView × Nat) :=
  if pos + recordFixedPrefix > data.length then
    .error (.outOfRange s!"truncated record header at byte {pos}")
  else
    let length := loadLe 4 data pos
    if length < recordFixedPrefix - 4 then
      .error (.corruption s!"record length {length} is below the minimum")
    else if length > maxRecordBytes then
      .error (.corruption s!"record length {length} exceeds the maximum")
    else
      let total := length + 4
      if pos + total > data.length then
        .error (.outOfRange
          s!"record at byte {pos} claims {total} bytes but only {data.length - pos} remain")
      else
        let stored := loadLe 4 data (pos + 4)
        let computed := (crc32c (slice data (pos + 8) (total - 8))).toNat
        if verifyCrc ∧ stored ≠ computed then
          .error (.corruption s!"record checksum mismatch at byte {pos}")
        else
          match parseBody data pos total with
          | .error e => .error e
          | .ok (keyIsNull, key, value) =>
            .ok (⟨toI64 (loadLe 8 data (pos + 8)), toI64 (loadLe 8 data (pos + 16)),
              data.getD (pos + 24) 0, keyIsNull, key, value⟩, pos + total)

/-- `RewriteRecordOffset`: a record with another offset, and its checksum repaired. -/
def rewriteRecordOffset (record : Bytes) (offset : Int) : Bytes :=
  let covered := storeLe 8 (ofI64 offset) ++ record.drop 16
  record.take 4 ++ storeLe 4 (crc32c covered).toNat ++ covered

/-- `RewriteRecordHeader`: a record with another offset and timestamp, and its checksum repaired. -/
def rewriteRecordHeader (record : Bytes) (offset timestamp : Int) : Bytes :=
  let covered := storeLe 8 (ofI64 offset) ++ storeLe 8 (ofI64 timestamp) ++ record.drop 24
  record.take 4 ++ storeLe 4 (crc32c covered).toNat ++ covered

/-! ## 2. The iterator -/

/-- `RecordIterator`. -/
structure RecordIterator where
  data : Bytes
  verifyCrc : Bool
  pos : Nat
  recordsRead : Nat
  status : Option Status
  deriving Repr, DecidableEq

namespace RecordIterator

def make (data : Bytes) (verifyCrc : Bool) : RecordIterator := ⟨data, verifyCrc, 0, 0, none⟩

/-- `RecordIterator::Next`: the next view, if any, and the iterator after it. -/
def next (it : RecordIterator) : Option RecordView × RecordIterator :=
  match it.status with
  | some _ => (none, it)
  | none =>
    if it.pos ≥ it.data.length then (none, it)
    else
      match parseRecord it.data it.pos it.verifyCrc with
      | .error e => (none, { it with status := some e })
      | .ok (view, nextPos) =>
        (some view, { it with pos := nextPos, recordsRead := it.recordsRead + 1 })

end RecordIterator

/-! ## 3. What one record is -/

/-- The offset field of a record. -/
def recordOffset (r : Bytes) : Int := toI64 (loadLe 8 r 8)

/-- The timestamp field of a record. -/
def recordTimestamp (r : Bytes) : Int := toI64 (loadLe 8 r 16)

/-- A byte string that is exactly as long as its length field says, within the bounds. -/
structure Framed (r : Bytes) : Prop where
  header : recordFixedPrefix ≤ r.length
  length : loadLe 4 r 0 + 4 = r.length
  bound : loadLe 4 r 0 ≤ maxRecordBytes

/-- The stored checksum is the one of the bytes behind it. -/
def ChecksumOk (r : Bytes) : Prop := loadLe 4 r 4 = (crc32c (r.drop 8)).toNat

instance (r : Bytes) : Decidable (Framed r) :=
  decidable_of_iff (recordFixedPrefix ≤ r.length ∧ loadLe 4 r 0 + 4 = r.length ∧
      loadLe 4 r 0 ≤ maxRecordBytes)
    ⟨fun ⟨h1, h2, h3⟩ => ⟨h1, h2, h3⟩, fun ⟨h1, h2, h3⟩ => ⟨h1, h2, h3⟩⟩

instance (r : Bytes) : Decidable (ChecksumOk r) := inferInstanceAs (Decidable (_ = _))

/-- A whole record that carries offset `o` and a valid checksum. -/
structure RecordOk (o : Nat) (r : Bytes) : Prop where
  framed : Framed r
  checksum : ChecksumOk r
  offset : recordOffset r = o

/-- The varint lengths fill the record that stands at `pos`. -/
def BodyOk (data : Bytes) (pos total : Nat) : Prop := ∃ b, parseBody data pos total = .ok b

/-- A record `parseRecord` accepts when nothing stands before or after it. -/
structure ParsesAlone (r : Bytes) : Prop where
  framed : Framed r
  body : BodyOk r 0 r.length

instance (data : Bytes) (pos total : Nat) : Decidable (BodyOk data pos total) :=
  match h : parseBody data pos total with
  | .ok b => isTrue ⟨b, h⟩
  | .error _ => isFalse (fun ⟨b, hb⟩ => by rw [h] at hb; simp at hb)

instance (r : Bytes) : Decidable (ParsesAlone r) :=
  decidable_of_iff (Framed r ∧ BodyOk r 0 r.length) ⟨fun ⟨h1, h2⟩ => ⟨h1, h2⟩, fun h => ⟨h.1, h.2⟩⟩

/-- A record every later reader accepts: it parses on its own, with checksum and offset `o`. -/
structure Good (o : Nat) (r : Bytes) : Prop where
  alone : ParsesAlone r
  checksum : ChecksumOk r
  offset : recordOffset r = o

theorem Good.recordOk {o : Nat} (h : Good o r) : RecordOk o r :=
  ⟨h.alone.framed, h.checksum, h.offset⟩

theorem Framed.pos (h : Framed r) : 0 < r.length := by
  have h1 := h.header
  unfold recordFixedPrefix at h1
  omega

theorem Framed.length_le (h : Framed r) : r.length ≤ maxRecordBytes + 4 := by
  have h1 := h.length
  have h2 := h.bound
  omega

/-! ## 4. What `parseRecord` accepts -/

/-- **What acceptance means**: the accepted bytes are one framed record inside the buffer, with a
    valid checksum when that was asked for, and the view holds its fields. -/
theorem parseRecord_ok {data : Bytes} {pos next : Nat} {view : RecordView}
    (h : parseRecord data pos v = .ok (view, next)) :
    ∃ r, data = data.take pos ++ r ++ data.drop next ∧ pos + r.length = next ∧
      pos ≤ data.length ∧ Framed r ∧ (v = true → ChecksumOk r) ∧ BodyOk data pos r.length ∧
      view.offset = recordOffset r ∧ view.timestamp = recordTimestamp r := by
  unfold parseRecord at h
  simp only [recordFixedPrefix, maxRecordBytes] at h
  split at h
  · simp at h
  split at h
  · simp at h
  split at h
  · simp at h
  split at h
  · simp at h
  split at h
  · simp at h
  rename_i hhdr hmin hmax htot hcrc
  split at h
  · simp at h
  rename_i keyIsNull key value hb
  obtain ⟨rfl, rfl⟩ := h
  -- the record is the slice its length field cuts out
  set total := loadLe 4 data pos + 4 with htotal
  have hlen : (slice data pos total).length = total := by
    rw [length_slice]
    omega
  have hx : (data.take pos).length = pos := by
    rw [length_take]
    omega
  have hcut := take_slice_drop data pos total
  have hload : ∀ n k, k + n ≤ total →
      loadLe n (slice data pos total) k = loadLe n data (pos + k) := by
    intro n k hk
    have h1 := loadLe_mid (data.take pos) (slice data pos total) (data.drop (pos + total)) k n
      (by omega)
    rw [hcut, hx] at h1
    exact h1.symm
  refine ⟨slice data pos total, hcut.symm, by omega, by omega, ⟨?_, ?_, ?_⟩, ?_, ?_, ?_, ?_⟩
  · unfold recordFixedPrefix
    omega
  · have h0 := hload 4 0 (by omega)
    rw [h0, hlen]
    rfl
  · have h0 := hload 4 0 (by omega)
    rw [h0]
    unfold maxRecordBytes
    simpa using hmax
  · intro hv
    have h4 := hload 4 4 (by omega)
    have hd : (slice data pos total).drop 8 = slice data (pos + 8) (total - 8) := by
      simp only [slice, drop_take, drop_drop]
    unfold ChecksumOk
    rw [h4, hd]
    by_contra hne
    exact hcrc ⟨hv, hne⟩
  · rw [hlen]
    exact ⟨_, hb⟩
  · unfold recordOffset
    rw [hload 8 8 (by omega)]
  · unfold recordTimestamp
    rw [hload 8 16 (by omega)]

/-- What is parsed at a framed record between `x` and `y`: its checksum is compared, then its
    lengths are read there. -/
theorem parseRecord_framed (x y : Bytes) (v : Bool) (hf : Framed r) :
    ∃ msg, parseRecord (x ++ r ++ y) x.length v =
      if v = true ∧ ¬ ChecksumOk r then .error (.corruption msg)
      else match parseBody (x ++ r ++ y) x.length r.length with
        | .error e => .error e
        | .ok (kn, key, value) => .ok (⟨recordOffset r, recordTimestamp r,
            (x ++ r ++ y).getD (x.length + 24) 0, kn, key, value⟩, x.length + r.length) := by
  have h1 := hf.header
  have h2 := hf.length
  have h3 := hf.bound
  simp only [recordFixedPrefix, maxRecordBytes] at h1 h3
  have h0 : loadLe 4 (x ++ r ++ y) x.length = loadLe 4 r 0 := loadLe_mid x r y 0 4 (by omega)
  have h4 := loadLe_mid x r y 4 4 (by omega)
  have h8 := loadLe_mid x r y 8 8 (by omega)
  have h16 := loadLe_mid x r y 16 8 (by omega)
  have hd : slice (x ++ r ++ y) (x.length + 8) (r.length - 8) = r.drop 8 := by
    rw [slice_mid x r y 8 _ (by omega), slice, take_of_length_le (by rw [length_drop])]
  have hlen : (x ++ r ++ y).length = x.length + r.length + y.length := by
    rw [length_append, length_append]
  unfold parseRecord
  simp only [recordFixedPrefix, maxRecordBytes, h0, h4, h8, h16, hd, h2]
  rw [if_neg (by omega), if_neg (by omega), if_neg (by omega), if_neg (by omega)]
  exact ⟨_, rfl⟩

theorem parseRecord_of_parseBody {v kn : Bool} {key value : Span} (hf : Framed r)
    (hc : v = true → ChecksumOk r)
    (hb : parseBody (x ++ r ++ y) x.length r.length = .ok (kn, key, value)) :
    parseRecord (x ++ r ++ y) x.length v = .ok (⟨recordOffset r, recordTimestamp r,
      (x ++ r ++ y).getD (x.length + 24) 0, kn, key, value⟩, x.length + r.length) := by
  obtain ⟨msg, hp⟩ := parseRecord_framed x y v hf
  rw [hp, if_neg fun h => h.2 (hc h.1), hb]

/-- **What is accepted**: a framed record between `x` and `y` whose lengths fill it there. -/
theorem parseRecord_of_bodyOk (hf : Framed r)
    (hc : v = true → ChecksumOk r) (hb : BodyOk (x ++ r ++ y) x.length r.length) :
    ∃ view, parseRecord (x ++ r ++ y) x.length v = .ok (view, x.length + r.length) ∧
      view.offset = recordOffset r ∧ view.timestamp = recordTimestamp r := by
  obtain ⟨⟨kn, key, value⟩, hb⟩ := hb
  exact ⟨_, parseRecord_of_parseBody hf hc hb, rfl, rfl⟩

/-- The varint loop reads no further than it says, and only what it reads counts. -/
theorem readVarUIntLoop_append : ∀ (n : Nat) (d y : Bytes) (shift value consumed a b : Nat),
    readVarUIntLoop n d shift value consumed = some (a, b) →
      b ≤ consumed + d.length ∧ readVarUIntLoop n (d ++ y) shift value consumed = some (a, b)
  | 0, _, _, _, _, _, _, _, h => by simp [readVarUIntLoop] at h
  | _ + 1, [], _, _, _, _, _, _, h => by simp [readVarUIntLoop] at h
  | n + 1, c :: rest, y, shift, value, consumed, a, b, h => by
    simp only [readVarUIntLoop] at h
    simp only [cons_append, readVarUIntLoop]
    by_cases hc : c.toNat < 128
    · rw [if_pos hc] at h ⊢
      refine ⟨?_, h⟩
      simp only [Option.some.injEq, Prod.mk.injEq] at h
      simp only [length_cons]
      omega
    · rw [if_neg hc] at h ⊢
      obtain ⟨h1, h2⟩ := readVarUIntLoop_append n rest y _ _ _ a b h
      refine ⟨?_, h2⟩
      simp only [length_cons]
      omega

/-- A varint inside `r` reads the same when `r` stands between `x` and `y`. -/
theorem readVarUInt_mid (x r y : Bytes) (k a b : Nat) (hk : k ≤ r.length)
    (h : readVarUInt r k = some (a, b)) :
    k + b ≤ r.length ∧ readVarUInt (x ++ r ++ y) (x.length + k) = some (a, b) := by
  unfold readVarUInt at h ⊢
  obtain ⟨h1, h2⟩ := readVarUIntLoop_append 10 (r.drop k) y 0 0 0 a b h
  rw [drop_mid x r y k hk]
  refine ⟨?_, h2⟩
  rw [length_drop] at h1
  omega

/-- **Lengths that fill a record in a buffer fill it in a larger one**: moving the buffer up moves
    both sides of every comparison by the same amount, and no sum wraps that did not wrap before. -/
theorem bodyOk_within {x c y : Bytes} {pos total : Nat} (hpos : pos + recordFixedPrefix ≤ c.length)
    (hend : pos + total ≤ c.length) (hb : BodyOk c pos total) (hx : x.length + c.length < 2 ^ 64) :
    BodyOk (x ++ c ++ y) (x.length + pos) total := by
  obtain ⟨b, hb⟩ := hb
  unfold parseBody at hb
  split at hb
  · simp at hb
  rename_i keyField used hk
  split at hb
  · simp at hb
  rename_i valueLen used' hv
  dsimp only at hb
  split at hb
  · simp at hb
  split at hb
  · simp at hb
  obtain ⟨hk1, hk2⟩ := readVarUInt_mid x c y (pos + 25) _ _ hpos hk
  obtain ⟨hv1, hv2⟩ := readVarUInt_mid x c y (pos + 25 + used) _ _ hk1 hv
  rw [← Nat.add_assoc] at hk2
  rw [← Nat.add_assoc, ← Nat.add_assoc] at hv2
  unfold BodyOk parseBody
  simp only [hk2, hv2]
  rw [if_neg (by omega), if_neg (by omega)]
  exact ⟨_, rfl⟩

/-- Lengths that fill a record alone fill it anywhere. -/
theorem bodyOk_mid (hr : recordFixedPrefix ≤ r.length)
    (hb : BodyOk r 0 r.length) (hx : x.length + r.length < 2 ^ 64) :
    BodyOk (x ++ r ++ y) x.length r.length :=
  bodyOk_within (by omega) (by omega) hb hx

/-- **The two lengths of a record fill it at position `p`.** They need not do so at another one:
    the sums of `ParseRecord` wrap. -/
def FillsAt (p : Nat) (r : Bytes) : Prop :=
  ∃ keyField used valueLen used', readVarUInt r 25 = some (keyField, used) ∧
    readVarUInt r (25 + used) = some (valueLen, used') ∧
    (p + 25 + used + used' + keyLength keyField) % 2 ^ 64 ≤ p + r.length ∧
    (p + 25 + used + used' + keyLength keyField + valueLen) % 2 ^ 64 = p + r.length

theorem FillsAt.bodyOk (h : FillsAt x.length r) (hr : recordFixedPrefix ≤ r.length) :
    BodyOk (x ++ r ++ y) x.length r.length := by
  obtain ⟨keyField, used, valueLen, used', hk, hv, hkey, hend⟩ := h
  obtain ⟨hk1, hk2⟩ := readVarUInt_mid x r y 25 _ _ hr hk
  obtain ⟨-, hv2⟩ := readVarUInt_mid x r y (25 + used) _ _ hk1 hv
  rw [← Nat.add_assoc] at hv2
  unfold BodyOk parseBody
  simp only [hk2, hv2]
  rw [if_neg (by omega), if_neg (by omega)]
  exact ⟨_, rfl⟩

theorem ParsesAlone.fillsAt {p : Nat} (h : ParsesAlone r) (hp : p + r.length < 2 ^ 64) :
    FillsAt p r := by
  obtain ⟨b, hb⟩ := h.body
  unfold parseBody at hb
  split at hb
  · simp at hb
  rename_i keyField used hk
  split at hb
  · simp at hb
  rename_i valueLen used' hv
  dsimp only at hb
  split at hb
  · simp at hb
  split at hb
  · simp at hb
  simp only [Nat.zero_add] at *
  exact ⟨keyField, used, valueLen, used', hk, hv, by omega, by omega⟩

/-- **A record that parses alone is accepted wherever it stands.** -/
theorem parseRecord_of_parsesAlone (ha : ParsesAlone r)
    (hc : v = true → ChecksumOk r) (hx : x.length + r.length < 2 ^ 64) :
    ∃ view, parseRecord (x ++ r ++ y) x.length v = .ok (view, x.length + r.length) ∧
      view.offset = recordOffset r ∧ view.timestamp = recordTimestamp r :=
  parseRecord_of_bodyOk ha.framed hc (bodyOk_mid ha.framed.header ha.body hx)

/-- A record cut short is reported as out of range, never as corrupt. -/
theorem parseRecord_cut {x r : Bytes} {k : Nat} (hf : Framed r) (hk : k < r.length) :
    ∃ msg, parseRecord (x ++ r.take k) x.length v = .error (.outOfRange msg) := by
  have h1 := hf.header
  have h2 := hf.length
  have h3 := hf.bound
  simp only [maxRecordBytes] at h1 h3
  have hlen : (x ++ r.take k).length = x.length + k := by
    rw [length_append, length_take]
    omega
  unfold parseRecord
  simp only [recordFixedPrefix, maxRecordBytes]
  by_cases h25 : k < 25
  · rw [if_pos (by omega)]
    exact ⟨_, rfl⟩
  · have hl : loadLe 4 (x ++ r.take k) x.length = loadLe 4 r 0 := by
      have e : slice (x ++ r.take k) x.length 4 = r.take 4 := by
        rw [slice_append_right, take_take]
        congr 1
        omega
      rw [loadLe, e]
      rfl
    rw [if_neg (by omega), if_neg (by omega), if_neg (by omega), if_pos (by omega)]
    exact ⟨_, rfl⟩

section Refused

variable {x r y : Bytes}

/-- A length field beyond the limit is refused, whatever it stands in front of. -/
theorem parseRecord_oversized (hr : recordFixedPrefix ≤ r.length)
    (hbig : maxRecordBytes < loadLe 4 r 0) :
    ∃ msg, parseRecord (x ++ r ++ y) x.length v = .error (.corruption msg) := by
  unfold recordFixedPrefix at hr
  unfold maxRecordBytes at hbig
  have h0 : loadLe 4 (x ++ r ++ y) x.length = loadLe 4 r 0 := loadLe_mid x r y 0 4 (by omega)
  unfold parseRecord
  simp only [recordFixedPrefix, maxRecordBytes, length_append]
  rw [if_neg (by omega), if_neg (by omega), if_pos (by omega)]
  exact ⟨_, rfl⟩

/-- So is a record whose checksum is another one. -/
theorem parseRecord_mismatch (hf : Framed r) (hc : ¬ ChecksumOk r) :
    ∃ msg, parseRecord (x ++ r ++ y) x.length true = .error (.corruption msg) := by
  obtain ⟨msg, hp⟩ := parseRecord_framed x y true hf
  exact ⟨msg, hp.trans (if_pos ⟨rfl, hc⟩)⟩

end Refused

/-! ## 5. A record that gets its offset -/

section Rewrite

variable {r : Bytes} (offset timestamp : Int)

/-- The parts of a rewritten record: the old length, a checksum, the new fields, the old rest. -/
theorem rewriteRecordHeader_eq (r : Bytes) (offset timestamp : Int) :
    ∃ crc, crc.length = 4 ∧ rewriteRecordHeader r offset timestamp =
      r.take 4 ++ crc ++ storeLe 8 (ofI64 offset) ++ storeLe 8 (ofI64 timestamp) ++ r.drop 24 :=
  ⟨storeLe 4 (crc32c (storeLe 8 (ofI64 offset) ++ storeLe 8 (ofI64 timestamp) ++
      r.drop 24)).toNat, length_storeLe 4 _, by simp only [rewriteRecordHeader, append_assoc]⟩

theorem length_rewriteRecordHeader (h : recordFixedPrefix ≤ r.length) :
    (rewriteRecordHeader r offset timestamp).length = r.length := by
  obtain ⟨crc, hc, e⟩ := rewriteRecordHeader_eq r offset timestamp
  unfold recordFixedPrefix at h
  simp only [e, length_append, length_take, length_storeLe, length_drop]
  omega

theorem loadLe_length_rewriteRecordHeader (h : recordFixedPrefix ≤ r.length) :
    loadLe 4 (rewriteRecordHeader r offset timestamp) 0 = loadLe 4 r 0 := by
  obtain ⟨crc, -, e⟩ := rewriteRecordHeader_eq r offset timestamp
  unfold recordFixedPrefix at h
  have h4 : (r.take 4).length = 4 := by
    rw [length_take]
    omega
  rw [e, append_assoc, append_assoc, append_assoc]
  simp only [loadLe, slice_zero]
  rw [take_append_of_le_length (by omega), take_take, Nat.min_self]

theorem Framed.rewriteRecordHeader (h : Framed r) :
    Framed (rewriteRecordHeader r offset timestamp) := by
  have h1 := length_rewriteRecordHeader offset timestamp h.header
  have h2 := loadLe_length_rewriteRecordHeader offset timestamp h.header
  exact ⟨by rw [h1]; exact h.header, by rw [h1, h2]; exact h.length, by rw [h2]; exact h.bound⟩

section

variable (h : recordFixedPrefix ≤ r.length)
include h

/-- The fields behind the checksum, at their places. -/
theorem recordOffset_rewriteRecordHeader :
    recordOffset (rewriteRecordHeader r offset timestamp) = toI64 (ofI64 offset) := by
  obtain ⟨crc, hc, e⟩ := rewriteRecordHeader_eq r offset timestamp
  unfold recordFixedPrefix at h
  have h8 : (r.take 4 ++ crc).length = 8 := by
    simp only [length_append, length_take]
    omega
  unfold recordOffset
  rw [e, append_assoc, loadLe_storeLe_mid _ h8 (ofI64_lt offset)]

theorem recordTimestamp_rewriteRecordHeader :
    recordTimestamp (rewriteRecordHeader r offset timestamp) = toI64 (ofI64 timestamp) := by
  obtain ⟨crc, hc, e⟩ := rewriteRecordHeader_eq r offset timestamp
  unfold recordFixedPrefix at h
  have h16 : (r.take 4 ++ crc ++ storeLe 8 (ofI64 offset)).length = 16 := by
    simp only [length_append, length_take, length_storeLe]
    omega
  unfold recordTimestamp
  rw [e, loadLe_storeLe_mid _ h16 (ofI64_lt timestamp)]

theorem checksumOk_rewriteRecordHeader :
    ChecksumOk (rewriteRecordHeader r offset timestamp) := by
  unfold recordFixedPrefix at h
  unfold ChecksumOk PulseLog.rewriteRecordHeader
  generalize storeLe 8 (ofI64 offset) ++ storeLe 8 (ofI64 timestamp) ++ r.drop 24 = covered
  have h4 : (r.take 4).length = 4 := by
    rw [length_take]
    omega
  have hl := loadLe_mid (r.take 4) (storeLe 4 (crc32c covered).toNat) covered 0 4 (by simp)
  have hs : slice (storeLe 4 (crc32c covered).toNat) 0 4 = storeLe 4 (crc32c covered).toNat :=
    take_of_length_le (by simp)
  have h8 : (r.take 4 ++ storeLe 4 (crc32c covered).toNat).length = 8 := by
    rw [length_append, h4, length_storeLe]
  have hd : (r.take 4 ++ storeLe 4 (crc32c covered).toNat ++ covered).drop 8 = covered := by
    rw [← h8, drop_left]
  rw [h4] at hl
  rw [hl, hd, loadLe, hs, leNat_storeLe]
  exact Nat.mod_eq_of_lt (crc32c covered).isLt

end

/-- Whether a record parses alone depends on its length and on the bytes behind the prefix. -/
theorem bodyOk_congr {r r' : Bytes} (hd : r.drop 25 = r'.drop 25) (hl : r.length = r'.length)
    (h : BodyOk r 0 r.length) : BodyOk r' 0 r'.length := by
  obtain ⟨b, h⟩ := h
  have hv : ∀ k, readVarUInt r (0 + 25 + k) = readVarUInt r' (0 + 25 + k) := by
    intro k
    rw [Nat.zero_add, readVarUInt, readVarUInt, ← drop_drop, ← drop_drop, hd]
  refine ⟨b, ?_⟩
  rw [← h, ← hl]
  unfold parseBody
  rw [← Nat.add_zero (0 + 25)]
  simp only [hv]

/-- The bytes behind the prefix stay. -/
theorem drop_rewriteRecordHeader (h : recordFixedPrefix ≤ r.length) :
    (rewriteRecordHeader r offset timestamp).drop 25 = r.drop 25 := by
  obtain ⟨crc, hc, e⟩ := rewriteRecordHeader_eq r offset timestamp
  unfold recordFixedPrefix at h
  have h24 : (r.take 4 ++ crc ++ storeLe 8 (ofI64 offset) ++ storeLe 8 (ofI64 timestamp)).length
      = 24 := by
    simp only [length_append, length_take, length_storeLe]
    omega
  rw [e, show 25 = 24 + 1 from rfl, ← drop_drop, ← drop_drop]
  conv_lhs => rw [← h24, drop_left, h24]

theorem ParsesAlone.rewriteRecordHeader (h : ParsesAlone r) :
    ParsesAlone (rewriteRecordHeader r offset timestamp) :=
  ⟨h.framed.rewriteRecordHeader offset timestamp,
    bodyOk_congr (drop_rewriteRecordHeader offset timestamp h.framed.header).symm
      (length_rewriteRecordHeader offset timestamp h.framed.header).symm h.body⟩

theorem FillsAt.rewriteRecordHeader {p : Nat} (h : FillsAt p r)
    (hr : recordFixedPrefix ≤ r.length) : FillsAt p (rewriteRecordHeader r offset timestamp) := by
  have hv : ∀ k, readVarUInt (PulseLog.rewriteRecordHeader r offset timestamp) (25 + k) =
      readVarUInt r (25 + k) := by
    intro k
    rw [readVarUInt, readVarUInt, ← drop_drop, ← drop_drop,
      drop_rewriteRecordHeader offset timestamp hr]
  unfold FillsAt at h ⊢
  rw [length_rewriteRecordHeader offset timestamp hr]
  simp only [hv]
  rw [← Nat.add_zero 25, hv]
  exact h

end Rewrite

/-! ## 6. Runs of framed records -/

/-- Two framed records at the head of the same bytes are the same record. -/
theorem framed_append_inj {r s x y : Bytes} (hr : Framed r) (hs : Framed s)
    (h : r ++ x = s ++ y) : r = s ∧ x = y := by
  have key : ∀ {t z}, Framed t → loadLe 4 (t ++ z) 0 = loadLe 4 t 0 := by
    intro t z ht
    have h1 := ht.header
    unfold recordFixedPrefix at h1
    simp only [loadLe, slice_zero]
    rw [take_append_of_le_length (by omega)]
  have h4 : loadLe 4 r 0 = loadLe 4 s 0 := by rw [← key hr, ← key hs, h]
  have hl : r.length = s.length := by rw [← hr.length, ← hs.length, h4]
  exact append_inj h hl

/-- **Length prefixes cut a byte string in one way**: of two runs of framed records at the head
    of the same bytes, the shorter one is a prefix of the other. -/
theorem flatten_framed_prefix : ∀ {rs ss : List Bytes} {x y : Bytes}, (∀ r ∈ rs, Framed r) →
    (∀ s ∈ ss, Framed s) → rs.flatten ++ x = ss.flatten ++ y → rs.length ≤ ss.length → rs <+: ss
  | [], ss, _, _, _, _, _, _ => nil_prefix
  | r :: rs, [], _, _, _, _, _, hl => by simp at hl
  | r :: rs, s :: ss, x, y, hr, hs, h, hl => by
    simp only [flatten_cons, append_assoc] at h
    obtain ⟨rfl, h2⟩ := framed_append_inj (hr r (by simp)) (hs s (by simp)) h
    have ih := flatten_framed_prefix (fun t ht => hr t (by simp [ht]))
      (fun t ht => hs t (by simp [ht])) h2 (by simpa using hl)
    exact cons_prefix_cons.mpr ⟨rfl, ih⟩

/-- The records of a byte string are determined by it. -/
theorem flatten_framed_inj {rs ss : List Bytes} (hr : ∀ r ∈ rs, Framed r) (hs : ∀ s ∈ ss, Framed s)
    (h : rs.flatten = ss.flatten) : rs = ss := by
  have hle : ∀ {us vs : List Bytes}, (∀ u ∈ us, Framed u) → (∀ v ∈ vs, Framed v) →
      us.flatten = vs.flatten → us.length ≤ vs.length → us = vs := by
    intro us vs hu hv he hl
    obtain ⟨ws, rfl⟩ := flatten_framed_prefix hu hv (congrArg (· ++ []) he) hl
    cases ws with
    | nil => rw [append_nil]
    | cons w ws =>
      have hw := (hv w (by simp)).pos
      have hlen := congrArg List.length he
      simp only [flatten_append, flatten_cons, length_append] at hlen
      omega
  rcases Nat.le_total rs.length ss.length with hl | hl
  · exact hle hr hs h hl
  · exact (hle hs hr h.symm hl).symm

end PulseLog
