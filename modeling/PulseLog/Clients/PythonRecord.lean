/-
  Subject:   The record format in the Python client (clients/python/pulselog.py).

  Python's integers are unbounded: numbers are naturals or integers here, and `struct.pack` fails on
  a value that does not fit. `decode_records` is a generator; its run is the records it yields, and
  the exception it ends with, if any.

  * `record_formats_agree` -- both clients write the same bytes, and read the same records from what
    `AppendRecord` writes within the size limit; `oversized_record_read_differently` -- beyond it
    only the Python client reads on.
-/
import PulseLog.Protocol.RecordWrite

namespace PulseLog

open List

namespace Python

/-! ## 1. The client -/

/-- `_CRC_TABLE[i]`. -/
def crcTable (i : Nat) : Nat :=
  (fun crc => (crc >>> 1) ^^^ (if crc &&& 1 ≠ 0 then 0x82F63B78 else 0))^[8] i

/-- `crc32c`. -/
def crc32c (data : Bytes) : Nat :=
  data.foldl (fun crc byte => crcTable ((crc ^^^ byte.toNat) &&& 0xFF) ^^^ (crc >>> 8)) 0xFFFFFFFF
    ^^^ 0xFFFFFFFF

/-- `struct.pack("<I", v)`. -/
def packU32 (v : Nat) : Option Bytes := if v < 2 ^ 32 then some (storeLe 4 v) else none

/-- `struct.pack("<q", v)`. -/
def packI64 (v : Int) : Option Bytes :=
  if -2 ^ 63 ≤ v ∧ v < 2 ^ 63 then some (storeLe 8 (ofI64 v)) else none

/-- `_Writer.varuint`; a number below `128 ^ n` takes `n` rounds at most. -/
def varuintLoop : Nat → Nat → Bytes
  | 0, _ => []
  | n + 1, value =>
    if 0x80 ≤ value then UInt8.ofNat ((value &&& 0x7F) ||| 0x80) :: varuintLoop n (value >>> 7)
    else [UInt8.ofNat value]

def varuint (value : Nat) : Bytes := varuintLoop (value + 1) value

/-- The key length that is written: 0 for no key, otherwise one more. -/
def keyField : Option Bytes → Nat
  | none => 0
  | some key => key.length + 1

/-- `encode_record`. -/
def encodeRecord (key : Option Bytes) (value : Bytes) (timestamp : Int) : Option Bytes := do
  let offset ← packI64 0
  let time ← packI64 timestamp
  let lengths := varuint (keyField key) ++ varuint value.length
  let body := offset ++ time ++ [0] ++ lengths ++ key.getD [] ++ value
  let length ← packU32 (body.length + 4)
  let crc ← packU32 (crc32c body)
  pure (length ++ crc ++ body)

/-- `PulseLogError`. -/
structure PulseLogError where
  code : Nat
  message : String
  deriving Repr, DecidableEq

/-- A `_Reader`: the bytes from its position on. -/
abbrev Reader := StateT Bytes (Except PulseLogError)

/-- `_take`. -/
def take (count : Nat) : Reader Bytes := fun data =>
  if data.length < count then .error ⟨13, "response payload is truncated"⟩
  else .ok (data.take count, data.drop count)

/-- The loop of `_Reader.varuint`: ten rounds until the shift is too far. -/
def readVaruintLoop : Nat → Nat → Nat → Reader Nat
  | 0, _, _ => throw ⟨13, "malformed varint"⟩
  | n + 1, value, shift => do
      let byte := leNat (← take 1)
      let value := value ||| ((byte &&& 0x7F) <<< shift)
      if byte &&& 0x80 = 0 then pure value else readVaruintLoop n value (shift + 7)

def readVaruint : Reader Nat := readVaruintLoop 10 0 0

/-- The lengths, the key and the value of a record. -/
def readBody : Reader (Option Bytes × Bytes) := do
  let keyField ← readVaruint
  let valueLength ← readVaruint
  let key ← if keyField = 0 then pure none else some <$> take (keyField - 1)
  let value ← take valueLength
  pure (key, value)

/-- One round of `decode_records`: the loop ends, or raises, or yields a record and goes on behind
    it. -/
inductive Round where
  | stop
  | raised (e : PulseLogError)
  | yielded (record : RecordFields) (next : Nat)

def decodeRound (data : Bytes) (pos : Nat) : Round :=
  if pos + 25 ≤ data.length then
    let total := loadLe 4 data pos + 4
    if data.length < pos + total then .stop
    else if crc32c (slice data (pos + 8) (total - 8)) ≠ loadLe 4 data (pos + 4) then
      .raised ⟨6, s!"record checksum mismatch at byte {pos}"⟩
    else
      match readBody.run (slice data (pos + 25) (total - 25)) with
      | .error e => .raised e
      | .ok ((key, value), _) =>
        .yielded ⟨toI64 (loadLe 8 data (pos + 8)), toI64 (loadLe 8 data (pos + 16)), key, value⟩
          (pos + total)
  else .stop

def decodeRecordsLoop : Nat → Bytes → Nat → List RecordFields × Option PulseLogError
  | 0, _, _ => ([], none)
  | fuel + 1, data, pos =>
    match decodeRound data pos with
    | .stop => ([], none)
    | .raised e => ([], some e)
    | .yielded record next =>
      let (records, e) := decodeRecordsLoop fuel data next
      (record :: records, e)

/-- `decode_records`; every round goes on by four bytes at least. -/
def decodeRecords (data : Bytes) : List RecordFields × Option PulseLogError :=
  decodeRecordsLoop (data.length + 1) data 0

/-! ## 2. The byte table -/

theorem crcStep_toNat (x : BitVec 32) : (crcStep crcPoly x).toNat =
    (x.toNat >>> 1) ^^^ (if x.toNat &&& 1 ≠ 0 then 0x82F63B78 else 0) := by
  have hbit : x.getLsbD 0 = decide (x.toNat &&& 1 ≠ 0) := by
    rw [BitVec.getLsbD]
    rcases Nat.mod_two_eq_zero_or_one x.toNat with h | h <;> simp [h]
  unfold crcStep
  rw [hbit]
  by_cases h : x.toNat &&& 1 ≠ 0
  · rw [if_pos h, decide_eq_true h]
    rfl
  · rw [if_neg h, decide_eq_false h]
    rfl

theorem crcTable_eq (x : BitVec 32) : crcTable x.toNat = (table0 x).toNat := by
  have hsteps : ∀ n x,
      (fun crc => (crc >>> 1) ^^^ (if crc &&& 1 ≠ 0 then 0x82F63B78 else 0))^[n] x.toNat =
        (crcSteps crcPoly n x).toNat := by
    intro n
    induction n with
    | zero => exact fun x => rfl
    | succ n ih =>
      intro x
      rw [Function.iterate_succ_apply, ← crcStep_toNat]
      exact ih _
  rw [table0_eq]
  exact hsteps 8 x

/-- **The byte table computes CRC-32C.** -/
theorem crc32c_eq (data : Bytes) : crc32c data = (PulseLog.crc32c data).toNat := by
  have hfold : ∀ (data : Bytes) crc,
      data.foldl (fun crc byte => crcTable ((crc ^^^ byte.toNat) &&& 0xFF) ^^^ (crc >>> 8))
        crc.toNat = (data.foldl crcByte crc).toNat := by
    intro data
    induction data with
    | nil => exact fun crc => rfl
    | cons b data ih =>
      intro crc
      have hb : b.toNat % 2 ^ 32 = b.toNat := by
        have := b.toNat_lt
        omega
      have hindex : (crc.toNat ^^^ b.toNat) &&& 0xFF =
          ((crc ^^^ BitVec.ofNat 32 b.toNat) &&& 0xFF#32).toNat := by
        rw [BitVec.toNat_and, BitVec.toNat_xor, BitVec.toNat_ofNat, hb]
        rfl
      rw [foldl_cons, foldl_cons, hindex, crcTable_eq, ← BitVec.toNat_ushiftRight,
        ← BitVec.toNat_xor, ih, ← tableByte_eq]
      rfl
  unfold crc32c PulseLog.crc32c crc32cSeeded
  have hstart : 0xFFFFFFFF = (~~~0#32).toNat := rfl
  have hones : ∀ x : BitVec 32, x.toNat ^^^ 0xFFFFFFFF = (~~~x).toNat := by
    intro x
    rw [← BitVec.xor_allOnes]
    rfl
  rw [← hones, ← hfold, ← hstart]

/-! ## 3. Writing -/

theorem byte_eq (v : Nat) : UInt8.ofNat ((v &&& 0x7F) ||| 0x80) = UInt8.ofNat v ||| 0x80 := by
  have hlow : v &&& 0x7F = v % 128 := Nat.and_two_pow_sub_one_eq_mod v 7
  have hor : v % 128 ||| 128 = v % 128 + 128 := by
    have h := Nat.two_pow_add_eq_or_of_lt (i := 7) (Nat.mod_lt v (by decide)) 1
    rw [Nat.or_comm, Nat.add_comm]
    exact h.symm
  apply UInt8.toNat_inj.mp
  rw [toNat_continued, UInt8.toNat_ofNat', hlow]
  omega

theorem varuintLoop_eq : ∀ (m n v : Nat), v < 128 ^ (m + 1) → v < 128 ^ (n + 1) →
    varuintLoop (m + 1) v = writeVarUIntLoop (n + 1) v := by
  intro m
  induction m with
  | zero =>
    intro n v hm _
    have hlt : ¬ 128 ≤ v := by omega
    rw [varuintLoop, writeVarUIntLoop, if_neg hlt, if_neg hlt]
  | succ m ih =>
    intro n v hm hn
    rw [varuintLoop, writeVarUIntLoop]
    split
    · obtain ⟨n, rfl⟩ : ∃ k, n = k + 1 := by
        cases n with
        | zero => omega
        | succ k => exact ⟨k, rfl⟩
      have hdiv : ∀ k, v < 128 ^ (k + 1 + 1) → v >>> 7 < 128 ^ (k + 1) := by
        intro k hk
        rw [Nat.shiftRight_eq_div_pow]
        exact Nat.div_lt_of_lt_mul (by rw [Nat.pow_succ, Nat.mul_comm] at hk; exact hk)
      rw [byte_eq, ih n (v >>> 7) (hdiv m hm) (hdiv n hn)]
    · rfl

theorem varuint_eq {v : Nat} (hv : v < 2 ^ 64) : varuint v = writeVarUInt v := by
  have hself : v < 128 ^ (v + 1) := by
    have h := Nat.lt_pow_self (n := v + 1) (a := 128) (by decide)
    omega
  exact varuintLoop_eq v 9 v hself (by omega)

/-- The record both clients write for a key, a value and a timestamp. -/
def newRecord (key : Option Bytes) (value : Bytes) (timestamp : Int) : NewRecord :=
  ⟨0, timestamp, 0, key.isNone, key.getD [], value⟩

/-- **The two writers agree.** -/
theorem encodeRecord_eq {key : Option Bytes} {value : Bytes} {timestamp : Int}
    (hfit : (newRecord key value timestamp).Measurable)
    (htime : -2 ^ 63 ≤ timestamp ∧ timestamp < 2 ^ 63) :
    encodeRecord key value timestamp = some (newRecord key value timestamp).bytes := by
  have hkey : keyField key = (newRecord key value timestamp).keyField := by
    cases key <;> rfl
  have hbytes : key.getD [] = (newRecord key value timestamp).keyBytes := by
    cases key <;> rfl
  have hbody : storeLe 8 (ofI64 0) ++ storeLe 8 (ofI64 timestamp) ++ [0] ++
      (varuint (keyField key) ++ varuint value.length) ++ key.getD [] ++ value =
      (newRecord key value timestamp).covered := by
    rw [hkey, hbytes, varuint_eq hfit.keyField_lt, varuint_eq (v := value.length) hfit.value_lt]
    rfl
  have hlen := NewRecord.length_covered hfit
  have hsize : (newRecord key value timestamp).covered.length + 4 =
      (newRecord key value timestamp).size - 4 := by omega
  have hmeasure := hfit
  unfold NewRecord.Measurable at hmeasure
  unfold encodeRecord packI64 packU32
  rw [if_pos (by decide), if_pos htime]
  simp only [Option.bind_eq_bind, Option.bind_some, hbody, hsize, crc32c_eq]
  rw [if_pos hmeasure, if_pos (BitVec.isLt _)]
  rfl

/-! ## 4. Reading -/

theorem take_run (bs t : Bytes) : (take bs.length).run (bs ++ t) = .ok (bs, t) := by
  show (if (bs ++ t).length < bs.length then Except.error _
    else .ok ((bs ++ t).take bs.length, (bs ++ t).drop bs.length)) = _
  rw [if_neg (by simp), take_left, drop_left]

theorem run_bind_ok {α β : Type} {p : Reader α} {f : α → Reader β} {s t : Bytes} {a : α}
    (h : p.run s = .ok (a, t)) : (p >>= f).run s = (f a).run t := by
  rw [StateT.run_bind, h]
  rfl

/-- One round on a byte of the C++ writer. -/
theorem readVaruintLoop_cons (n value shift : Nat) (b : UInt8) (t : Bytes) :
    (readVaruintLoop (n + 1) value shift).run (b :: t) =
      if b.toNat < 128 then .ok (value ||| (b.toNat % 128) <<< shift, t)
      else (readVaruintLoop n (value ||| (b.toNat % 128) <<< shift) (shift + 7)).run t := by
  have hlow : b.toNat &&& 0x7F = b.toNat % 128 := Nat.and_two_pow_sub_one_eq_mod b.toNat 7
  have hhigh : (b.toNat &&& 0x80 = 0) ↔ b.toNat < 128 := by
    have hall : ∀ m < 256, (m &&& 0x80 = 0) ↔ m < 128 := by decide +kernel
    exact hall b.toNat b.toNat_lt
  have htake : (take 1).run (b :: t) = .ok ([b], t) := take_run [b] t
  have hbyte : leNat [b] = b.toNat := by simp [leNat]
  rw [readVaruintLoop, run_bind_ok htake, hbyte]
  by_cases h : b.toNat < 128
  · rw [if_pos (hhigh.mpr h), if_pos h, hlow]
    rfl
  · rw [if_neg (fun h0 => h (hhigh.mp h0)), if_neg h, hlow]

theorem readVaruintLoop_write : ∀ (fuel v value shift : Nat) (t : Bytes), v < 128 ^ (fuel + 1) →
    (readVaruintLoop (fuel + 1) value shift).run (writeVarUIntLoop (fuel + 1) v ++ t) =
      .ok (value ||| v <<< shift, t) := by
  intro fuel
  induction fuel with
  | zero =>
    intro v value shift t hv
    have hbyte : (UInt8.ofNat v).toNat = v := by
      rw [UInt8.toNat_ofNat']
      omega
    rw [writeVarUIntLoop, if_neg (by omega), singleton_append, readVaruintLoop_cons, hbyte,
      if_pos (by omega), Nat.mod_eq_of_lt (by omega)]
  | succ fuel ih =>
    intro v value shift t hv
    rw [writeVarUIntLoop]
    split
    · have hsmall := shiftRight_lt_pow hv
      have hmod : (v % 128 + 128) % 128 = v % 128 := by omega
      rw [cons_append, readVaruintLoop_cons, toNat_continued, if_neg (by omega), hmod,
        ih _ _ _ t hsmall, Nat.or_assoc, ← shiftLeft_split]
    · have hbyte : (UInt8.ofNat v).toNat = v := by
        rw [UInt8.toNat_ofNat']
        omega
      rw [singleton_append, readVaruintLoop_cons, hbyte, if_pos (by omega),
        Nat.mod_eq_of_lt (by omega)]

theorem readVaruint_write {v : Nat} (hv : v < 2 ^ 64) (t : Bytes) :
    readVaruint.run (writeVarUInt v ++ t) = .ok (v, t) := by
  have h := readVaruintLoop_write 9 v 0 0 t (by omega)
  rw [Nat.zero_or] at h
  exact h

/-- The lengths, the key and the value of a written record. -/
theorem readBody_run {r : NewRecord} (h : r.Measurable) :
    readBody.run (writeVarUInt r.keyField ++
      (writeVarUInt r.value.length ++ (r.keyBytes ++ r.value))) =
      .ok ((r.fields.key, r.value), []) := by
  unfold readBody
  rw [run_bind_ok (readVaruint_write h.keyField_lt _), run_bind_ok (readVaruint_write h.value_lt _)]
  have hvalue : (take r.value.length).run r.value = .ok (r.value, []) := by
    have hrun := take_run r.value []
    rw [append_nil] at hrun
    exact hrun
  cases hk : r.keyIsNull with
  | true =>
    have hfield : r.keyField = 0 := by simp [NewRecord.keyField, hk]
    have hbytes : r.keyBytes = [] := by simp [NewRecord.keyBytes, hk]
    rw [if_pos hfield, hbytes, nil_append, run_bind_ok rfl, run_bind_ok hvalue]
    simp [NewRecord.fields, hk]
    rfl
  | false =>
    have hfield : r.keyField = r.key.length + 1 := by simp [NewRecord.keyField, hk]
    have hbytes : r.keyBytes = r.key := by simp [NewRecord.keyBytes, hk]
    have htake : (some <$> take (r.keyField - 1)).run (r.keyBytes ++ r.value) =
        .ok (some r.key, r.value) := by
      rw [hfield, hbytes, Nat.add_sub_cancel, StateT.run_map, take_run]
      rfl
    rw [if_neg (by omega), run_bind_ok htake, run_bind_ok hvalue]
    simp [NewRecord.fields, hk]
    rfl

theorem decodeRound_bytes {r : NewRecord} (hr : r.Measurable) (x y : Bytes) :
    decodeRound (x ++ r.bytes ++ y) x.length = .yielded r.fields (x.length + r.bytes.length) := by
  have hsize := NewRecord.length_bytes hr
  have hge := r.size_ge
  unfold recordFixedPrefix at hge
  have hlen : (x ++ r.bytes ++ y).length = x.length + r.bytes.length + y.length := by
    rw [length_append, length_append]
  -- the fields and the parts of the record at its place
  have hload : ∀ n k, k + n ≤ r.bytes.length →
      loadLe n (x ++ r.bytes ++ y) (x.length + k) = loadLe n r.bytes k :=
    fun n k hk => loadLe_mid x r.bytes y k n hk
  have hslice : ∀ k, k ≤ r.size →
      slice (x ++ r.bytes ++ y) (x.length + k) (r.size - k) = r.bytes.drop k := by
    intro k hk
    rw [slice_mid x r.bytes y k _ (by omega)]
    exact take_of_length_le (by rw [length_drop]; omega)
  have htotal : loadLe 4 (x ++ r.bytes ++ y) x.length + 4 = r.size := by
    have h0 := hload 4 0 (by omega)
    rw [Nat.add_zero, NewRecord.loadLe_length hr] at h0
    omega
  have hbody : r.bytes.drop 25 =
      writeVarUInt r.keyField ++ (writeVarUInt r.value.length ++ (r.keyBytes ++ r.value)) := by
    obtain ⟨p, hp, hbytes⟩ := r.bytes_parts
    rw [hbytes, ← hp]
    simp only [append_assoc, drop_left]
  have hoffset : toI64 (loadLe 8 r.bytes 8) = r.fields.offset := r.recordOffset_bytes
  have htimestamp : toI64 (loadLe 8 r.bytes 16) = r.fields.timestamp := r.recordTimestamp_bytes
  unfold decodeRound
  rw [if_pos (by omega)]
  rw [htotal, if_neg (by omega), hslice 8 (by omega), hslice 25 (by omega), r.drop_bytes, hbody,
    hload 4 4 (by omega), hload 8 8 (by omega), hload 8 16 (by omega), r.loadLe_crc, crc32c_eq,
    if_neg (by simp), readBody_run hr, hoffset, htimestamp, hsize]
  rfl

/-- The loop from a record boundary on. -/
theorem decodeRecordsLoop_run {rs : List NewRecord} (hfit : ∀ r ∈ rs, r.Measurable) {x data : Bytes}
    (hdata : data = x ++ recordRun rs) {fuel : Nat} (hfuel : rs.length < fuel) :
    decodeRecordsLoop fuel data x.length = (rs.map NewRecord.fields, none) := by
  induction rs generalizing x fuel with
  | nil =>
    obtain ⟨fuel, rfl⟩ := Nat.exists_eq_add_one_of_ne_zero (Nat.ne_zero_of_lt hfuel)
    have hend : data.length = x.length := by simp [hdata, recordRun]
    have hstop : decodeRound data x.length = .stop := if_neg (by omega)
    rw [decodeRecordsLoop, hstop]
    rfl
  | cons r rs ih =>
    obtain ⟨fuel, rfl⟩ := Nat.exists_eq_add_one_of_ne_zero (Nat.ne_zero_of_lt hfuel)
    have hparts : data = x ++ r.bytes ++ recordRun rs := by
      rw [hdata, append_assoc]
      rfl
    have hround := decodeRound_bytes (hfit r mem_cons_self) x (recordRun rs)
    have hless : rs.length < fuel := by
      rw [length_cons] at hfuel
      omega
    have hrest := ih (fun s hs => hfit s (mem_cons_of_mem r hs)) hparts hless
    rw [length_append] at hrest
    rw [← hparts] at hround
    rw [decodeRecordsLoop, hround]
    dsimp only
    rw [hrest]
    rfl

theorem decodeRecords_run {rs : List NewRecord} (hfit : ∀ r ∈ rs, r.Measurable) :
    decodeRecords (recordRun rs) = (rs.map NewRecord.fields, none) :=
  decodeRecordsLoop_run hfit (nil_append _).symm (Nat.lt_add_one_of_le (length_recordRun hfit))

/-! ## 5. The two clients -/

/-- **The clients agree on the record format.** What `encode_record` returns is what `AppendRecord`
    writes for offset 0 and no attributes, and from a buffer of records that `AppendRecord` has
    written within the size limit `decode_records` yields what `RecordIterator` shows. The checksums
    are those of every implementation of `Crc32c`. -/
theorem record_formats_agree :
    (∀ (key : Option Bytes) (value : Bytes) (timestamp : Int),
    (newRecord key value timestamp).Fits →
      -2 ^ 63 ≤ timestamp → timestamp < 2 ^ 63 → encodeRecord key value timestamp =
        some (appendRecord 0 timestamp 0 key.isNone (key.getD []) value)) ∧
    (∀ rs : List NewRecord, (∀ r ∈ rs, r.Fits) → (recordRun rs).length < 2 ^ 64 →
      decodeRecords (recordRun rs) =
          ((iterateRecords (recordRun rs) true).1.map (RecordView.fields (recordRun rs)), none) ∧
        (iterateRecords (recordRun rs) true).2.status = none) ∧
    ∀ (impl : Crc32cImpl) (address : Nat) (data : Bytes),
      crc32c data = (crc32cWith impl address data 0#32).toNat := by
  refine ⟨?_, ?_, ?_⟩
  · intro key value timestamp hfit hlow hhigh
    exact encodeRecord_eq hfit.measurable ⟨hlow, hhigh⟩
  · intro rs hfit hlen
    obtain ⟨hviews, hstatus⟩ := iterateRecords_run hfit hlen true
    rw [hviews, decodeRecords_run fun r hr => (hfit r hr).measurable]
    exact ⟨rfl, hstatus⟩
  · intro impl address data
    rw [crc32cWith_eq, crc32c_eq]
    rfl

theorem emptyKey_agrees : encodeRecord (some []) [118] (-1) =
      some (appendRecord 0 (-1) 0 false [] [118]) ∧
    decodeRecords (recordRun [.emptyKeyRecord]) = ((iterateRecords (recordRun [.emptyKeyRecord])
      true).1.map (RecordView.fields (recordRun [.emptyKeyRecord])), none) :=
  ⟨record_formats_agree.1 (some []) [118] (-1) (by decide) (by decide) (by decide),
    (record_formats_agree.2.1 [.emptyKeyRecord] (by decide) (by decide +kernel)).1⟩

/-- A record beyond the limit that 32 bits can still measure. -/
theorem read_differently {r : NewRecord} (hm : r.Measurable) (hbig : maxRecordBytes + 4 < r.size) :
    decodeRecords (recordRun [r]) = ([r.fields], none) ∧
      (iterateRecords (recordRun [r]) true).1 = [] := by
  constructor
  · have hall : ∀ s ∈ [r], s.Measurable := by
      intro s hs
      rw [mem_singleton.mp hs]
      exact hm
    exact decodeRecords_run hall
  · obtain ⟨msg, hseen⟩ := iterateRecords_oversized hm hbig true
    rw [hseen]

/-- **Beyond the size limit they differ**: `AppendRecord` writes the record, `decode_records` yields
    it, and `RecordIterator` shows nothing. -/
theorem oversized_record_read_differently :
    decodeRecords (recordRun [oversizedRecord]) = ([oversizedRecord.fields], none) ∧
      (iterateRecords (recordRun [oversizedRecord]) true).1 = [] := by
  exact read_differently oversizedRecord_measurable (by rw [size_oversizedRecord]; decide)

end Python

end PulseLog
