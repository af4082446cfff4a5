/-
  Subject:   Where the views lie that `ParseRecord` hands out.

  The two lengths of a record are 64-bit varints, and the sums they are checked in wrap at 2^64. A
  key length just below 2^64 therefore passes the check against the record's end.

  * **`parseRecord_fills_iff`** -- the views of an accepted record fill it if and only if its key
    does not wrap;
  * `key_view_outside` -- a record of 36 bytes with a valid checksum whose key view is not in the
    buffer.
-/
import PulseLog.Protocol.Record

namespace PulseLog

variable {data : Bytes} {pos next : Nat}

/-! ## 1. Varints -/

theorem readVarUIntLoop_lt : ∀ (n : Nat) (d : Bytes) (shift value consumed a b : Nat),
    value < 2 ^ 64 → readVarUIntLoop n d shift value consumed = some (a, b) → a < 2 ^ 64
  | 0, _, _, _, _, _, _, _, h => by simp [readVarUIntLoop] at h
  | _ + 1, [], _, _, _, _, _, _, h => by simp [readVarUIntLoop] at h
  | n + 1, c :: rest, shift, value, consumed, a, b, hv, h => by
    have hor : value ||| ((c.toNat % 128) <<< shift) % 2 ^ 64 < 2 ^ 64 :=
      Nat.or_lt_two_pow hv (Nat.mod_lt _ (Nat.two_pow_pos 64))
    simp only [readVarUIntLoop] at h
    split at h
    · simp only [Option.some.injEq, Prod.mk.injEq] at h
      rw [← h.1]
      exact hor
    · exact readVarUIntLoop_lt n rest _ _ _ a b hor h

/-- A varint is a 64-bit value. -/
theorem readVarUInt_lt {pos a b : Nat} (h : readVarUInt data pos = some (a, b)) : a < 2 ^ 64 :=
  readVarUIntLoop_lt 10 _ 0 0 0 a b (Nat.two_pow_pos 64) h

/-- The two varints of the record at `pos`: the key field, the value length, and where they end. -/
def recordVarints (data : Bytes) (pos : Nat) : Option (Nat × Nat × Nat) :=
  match readVarUInt data (pos + recordFixedPrefix) with
  | none => none
  | some (keyField, used) =>
    match readVarUInt data (pos + recordFixedPrefix + used) with
    | none => none
    | some (valueLen, used') => some (keyField, valueLen, pos + recordFixedPrefix + used + used')

/-! ## 2. The views of a record -/

/-- **The views fill the record**: it ends where its length field says, inside the buffer; the key
    stands behind the varints, the value behind the key, and the record ends with the value. A null
    key has an empty view. -/
structure Fills (data : Bytes) (pos : Nat) (view : RecordView) (next : Nat) : Prop where
  next_eq : next = pos + (loadLe 4 data pos + 4)
  next_le : next ≤ data.length
  body : ∃ keyField valueLen start, recordVarints data pos = some (keyField, valueLen, start) ∧
    pos + recordFixedPrefix ≤ start ∧
    (view.keyIsNull = true → view.key.len = 0) ∧ (view.keyIsNull = false → view.key.start = start) ∧
    view.value.start = start + view.key.len ∧ view.value.start + view.value.len = next

/-- **No view leaves the buffer**, and none reaches before the record's varints. -/
theorem Fills.inside {view : RecordView} (h : Fills data pos view next) :
    (view.key.len = 0 ∨ pos + recordFixedPrefix ≤ view.key.start ∧
      view.key.start + view.key.len ≤ data.length) ∧
    pos + recordFixedPrefix ≤ view.value.start ∧
    view.value.start + view.value.len ≤ data.length := by
  obtain ⟨_, _, start, -, hle, hnull, hkey, hadj, hend⟩ := h.body
  have := h.next_le
  refine ⟨?_, by omega, by omega⟩
  cases hk : view.keyIsNull with
  | true => exact .inl (hnull hk)
  | false =>
    have := hkey hk
    exact .inr ⟨by omega, by omega⟩

/-- The key of the record at `pos` would end at 2^64 or later. -/
def KeyWraps (data : Bytes) (pos : Nat) : Prop :=
  ∃ keyField valueLen start, recordVarints data pos = some (keyField, valueLen, start) ∧
    2 ^ 64 ≤ start + keyLength keyField

/-- What `parseBody` accepts, with the sums it checks. -/
theorem parseBody_ok {pos total : Nat} {keyIsNull : Bool} {key value : Span}
    (h : parseBody data pos total = .ok (keyIsNull, key, value)) :
    ∃ keyField valueLen start, recordVarints data pos = some (keyField, valueLen, start) ∧
      pos + recordFixedPrefix ≤ start ∧ valueLen < 2 ^ 64 ∧
      (start + keyLength keyField) % 2 ^ 64 ≤ pos + total ∧
      (start + keyLength keyField + valueLen) % 2 ^ 64 = pos + total ∧
      keyIsNull = (keyField == 0) ∧
      key = (if keyField = 0 then ⟨0, 0⟩ else ⟨start, keyLength keyField⟩) ∧
      value = ⟨(start + keyLength keyField) % 2 ^ 64, valueLen⟩ := by
  unfold parseBody at h
  split at h
  · cases h
  rename_i keyField used hk
  split at h
  · cases h
  rename_i valueLen used' hv
  dsimp only at h
  split at h
  · cases h
  rename_i hover
  split at h
  · cases h
  rename_i hend
  push Not at hover hend
  simp only [Except.ok.injEq, Prod.mk.injEq] at h
  have hvar : recordVarints data pos = some (keyField, valueLen, pos + 25 + used + used') := by
    unfold recordVarints recordFixedPrefix
    simp only [hk, hv]
  exact ⟨keyField, valueLen, _, hvar, by unfold recordFixedPrefix; omega, readVarUInt_lt hv,
    hover.1, hend, h.1.symm, h.2.1.symm, h.2.2.symm⟩

theorem parseRecord_body {v : Bool} {view : RecordView}
    (h : parseRecord data pos v = .ok (view, next)) :
    next = pos + (loadLe 4 data pos + 4) ∧ next ≤ data.length ∧
      parseBody data pos (loadLe 4 data pos + 4) = .ok (view.keyIsNull, view.key, view.value) := by
  unfold parseRecord at h
  dsimp only at h
  split at h
  · cases h
  split at h
  · cases h
  split at h
  · cases h
  split at h
  · cases h
  split at h
  · cases h
  split at h
  · cases h
  rename_i hcut _ _ _ _ _ hbody
  cases h
  exact ⟨rfl, by omega, hbody⟩

/-- **The views of an accepted record fill it if and only if its key does not wrap.** -/
theorem parseRecord_fills_iff {v : Bool} {view : RecordView}
    (h : parseRecord data pos v = .ok (view, next)) :
    Fills data pos view next ↔ ¬ KeyWraps data pos := by
  obtain ⟨hnext, hle, hbody⟩ := parseRecord_body h
  obtain ⟨keyField, valueLen, start, hvar, hstart, hlt, hkey, hend, hnull, hkeyv, hvalue⟩ :=
    parseBody_ok hbody
  rw [← hnext] at hkey hend
  have hlen : view.key.len = keyLength keyField := by
    rw [hkeyv]
    unfold keyLength
    split <;> rfl
  constructor
  · rintro ⟨-, -, k, l, s, hvar', -, -, -, hadj, hfill⟩ ⟨k', l', s', hvar'', hwrap⟩
    rw [hvar] at hvar' hvar''
    cases hvar'
    cases hvar''
    -- the record ends below 2^64, so it cannot hold such a key
    have hsmall : next < 2 ^ 64 := by
      rw [← hend]
      exact Nat.mod_lt _ (Nat.two_pow_pos 64)
    omega
  · intro hno
    have hfit : start + keyLength keyField < 2 ^ 64 := by
      by_contra hge
      exact hno ⟨keyField, valueLen, start, hvar, by omega⟩
    rw [Nat.mod_eq_of_lt hfit] at hkey hvalue
    have hsum : start + keyLength keyField + valueLen = next := by omega
    refine ⟨hnext, hle, keyField, valueLen, start, hvar, hstart, fun hn => ?_, fun hn => ?_, ?_, ?_⟩
    · rw [hnull, beq_iff_eq] at hn
      rw [hlen, keyLength, if_pos hn]
    · rw [hnull, beq_eq_false_iff_ne] at hn
      rw [hkeyv, if_neg hn]
    · rw [hvalue, hlen]
    · rw [hvalue]
      exact hsum

/-- A record with key `k` and value `v`, at offset 0, its checksum field left zero. -/
def keyedRecord : Bytes := storeLe 4 25 ++ zeros 21 ++ [2, 1, 107, 118]

theorem keyedRecord_fills : ∃ view, parseRecord keyedRecord 0 false = .ok (view, 29) ∧
    view.key = ⟨27, 1⟩ ∧ view.value = ⟨28, 1⟩ ∧ Fills keyedRecord 0 view 29 := by
  have hparse : parseRecord keyedRecord 0 false =
      .ok (⟨0, 0, 0, false, ⟨27, 1⟩, ⟨28, 1⟩⟩, 29) := by decide +kernel
  have hvar : recordVarints keyedRecord 0 = some (2, 1, 27) := by decide +kernel
  refine ⟨_, hparse, rfl, rfl, (parseRecord_fills_iff hparse).mpr ?_⟩
  rintro ⟨k, l, s, h, hwrap⟩
  rw [hvar] at h
  cases h
  simp [keyLength] at hwrap

/-- The bytes behind the checksum of a record with key length 2^64 - 10 and value length 10. -/
def wrappedFields : Bytes := zeros 17 ++ [247, 255, 255, 255, 255, 255, 255, 255, 255, 1] ++ [10]

/-- The record itself: 36 bytes, of which none is left for a key or a value. -/
def wrappedKeyRecord : Bytes :=
  storeLe 4 32 ++ storeLe 4 (crc32c wrappedFields).toNat ++ wrappedFields

/-- **A view outside the buffer.** The record is accepted, checksum and all, with a key view that
    begins at its end and goes on for 2^64 - 10 bytes, and a value view over its own varints. -/
theorem key_view_outside : ∃ view, parseRecord wrappedKeyRecord 0 true = .ok (view, 36) ∧
    wrappedKeyRecord.length = 36 ∧ view.key = ⟨36, 2 ^ 64 - 10⟩ ∧ view.value = ⟨26, 10⟩ ∧
    ¬ Fills wrappedKeyRecord 0 view 36 := by
  have hparse : parseRecord wrappedKeyRecord 0 true =
      .ok (⟨0, 0, 0, false, ⟨36, 2 ^ 64 - 10⟩, ⟨26, 10⟩⟩, 36) := by decide +kernel
  refine ⟨_, hparse, by decide +kernel, rfl, rfl, fun hf => ?_⟩
  rcases hf.inside.1 with h0 | ⟨-, hle⟩
  · cases h0
  · have hlen : wrappedKeyRecord.length = 36 := by decide +kernel
    rw [hlen] at hle
    simp at hle

end PulseLog
