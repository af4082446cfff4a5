/-
  Subject:   A byte that has changed on the way (src/base/crc32c.cc, src/protocol/record.cc,
             frame.cc).

  * `changed_byte_refused` -- a record with a changed byte behind the checksum is corrupt, and a
    frame with a changed byte anywhere is no frame, as long as the lengths fit in their 32 bits;
  * `wrapped_frame_found` -- a payload of 2^32 bytes is written under the length zero, and no
    checksum covers it.
-/
import PulseLog.Protocol.RecordWrite
import PulseLog.Protocol.Frame

namespace PulseLog

open List

/-! ## 1. One byte -/

section Change

variable {p s : Bytes} {b b' : UInt8}

theorem crcByte_injective : Function.Injective fun crc => crcByte crc b := by
  intro x y h
  simp only [crcByte_eq] at h
  exact (BitVec.xor_left_inj _).mp (((crcStep_injective (by decide)).iterate 8) h)

theorem foldl_crcByte_injective (s : Bytes) : Function.Injective fun crc =>
    s.foldl crcByte crc := by
  induction s with
  | nil => exact fun _ _ h => h
  | cons b s ih => exact fun _ _ h => crcByte_injective (ih h)

/-- **A changed byte changes the checksum.** -/
theorem crc32c_change (h : b' ≠ b) : crc32c (p ++ b' :: s) ≠ crc32c (p ++ b :: s) := by
  intro heq
  unfold crc32c crc32cSeeded at heq
  simp only [BitVec.not_inj, foldl_append] at heq
  have hbyte := foldl_crcByte_injective s heq
  rw [crcByte_eq, crcByte_eq] at hbyte
  have hxor := (BitVec.xor_right_inj _).mp (((crcStep_injective (by decide)).iterate 8) hbyte)
  have hnat := congrArg BitVec.toNat hxor
  have h1 := b.toNat_lt
  have h2 := b'.toNat_lt
  rw [BitVec.toNat_ofNat, BitVec.toNat_ofNat, Nat.mod_eq_of_lt (by omega),
    Nat.mod_eq_of_lt (by omega)] at hnat
  exact h (UInt8.toNat_inj.mp hnat)

theorem leNat_change (h : b' ≠ b) : leNat (p ++ b' :: s) ≠ leNat (p ++ b :: s) := by
  intro heq
  have hlen : (p ++ b' :: s).length = (p ++ b :: s).length := by simp
  have hstore := storeLe_leNat (p ++ b' :: s)
  rw [heq, hlen, storeLe_leNat] at hstore
  exact h (by simpa using hstore.symm)

theorem take_before {n : Nat} (h : n ≤ p.length) :
    (p ++ b' :: s).take n = (p ++ b :: s).take n := by
  rw [take_append_of_le_length h, take_append_of_le_length h]

theorem take_behind {n : Nat} (h : p.length < n) :
    (p ++ b :: s).take n = p ++ b :: s.take (n - p.length - 1) := by
  rw [take_append, take_of_length_le (Nat.le_of_lt h),
    show n - p.length = n - p.length - 1 + 1 by omega]
  rfl

theorem drop_behind {n : Nat} (h : p.length < n) :
    (p ++ b' :: s).drop n = (p ++ b :: s).drop n := by
  rw [drop_append, drop_append, show n - p.length = n - p.length - 1 + 1 by omega]
  rfl

end Change

/-! ## 2. Records -/

/-- **A record with a changed byte behind the checksum** is corrupt, wherever it stands. -/
theorem changed_record_corrupt {r : NewRecord} (hm : r.Measurable) {p s : Bytes} {b b' : UInt8}
    (hr : r.bytes = p ++ b :: s) (hb : b' ≠ b) (hp : 8 ≤ p.length) (x y : Bytes) :
    ∃ msg, parseRecord (x ++ (p ++ b' :: s) ++ y) x.length true = .error (.corruption msg) := by
  have hsize := NewRecord.length_bytes hm
  have hlen : (p ++ b' :: s).length = r.size := by
    rw [← hsize, hr]
    simp
  -- the length and the checksum stand before the change
  have hload : ∀ k, k ≤ 4 → loadLe 4 (p ++ b' :: s) k = loadLe 4 r.bytes k := by
    intro k hk
    have htake : ∀ t : Bytes, loadLe 4 t k = loadLe 4 (t.take 8) k := fun t => by
      rw [loadLe, loadLe, slice, slice, drop_take, take_take, Nat.min_eq_left (by omega)]
    rw [htake, htake r.bytes, hr, take_before hp]
  have hlength := hload 0 (by decide)
  rw [NewRecord.loadLe_length hm] at hlength
  have hge := r.size_ge
  by_cases hbig : maxRecordBytes < r.size - 4
  · exact parseRecord_oversized (by rw [hlen]; exact hge) (by rw [hlength]; exact hbig)
  · unfold recordFixedPrefix at hge
    refine parseRecord_mismatch ⟨by rw [hlen]; exact hge, by omega, by omega⟩ fun hc => ?_
    unfold ChecksumOk at hc
    rw [hload 4 le_rfl, r.checksumOk_bytes, hr, drop_append_of_le_length hp,
      drop_append_of_le_length hp] at hc
    exact crc32c_change hb (BitVec.eq_of_toNat_eq hc).symm

namespace Protocol

/-! ## 3. Frames -/

theorem decodeFrameHeader_ok {src : Bytes} {maxPayload : UInt32} {header : FrameHeader}
    (h : decodeFrameHeader src maxPayload = .ok header) :
    loadLe 4 src 28 = (crc32c (slice src 0 28)).toNat ∧
      header.payloadLen = UInt32.ofNat (loadLe 4 src 16) ∧
      header.payloadCrc = BitVec.ofNat 32 (loadLe 4 src 24) := by
  unfold decodeFrameHeader at h
  dsimp only at h
  split at h
  · simp at h
  split at h
  · simp at h
  rename_i hcrc
  split at h
  · simp at h
  split at h
  · simp at h
  split at h
  · simp at h
  split at h
  · simp at h
  rw [← Except.ok.inj h]
  exact ⟨Classical.not_not.mp hcrc, rfl, rfl⟩

/-- **A frame with a changed byte is no frame.** -/
theorem changed_frame_refused {header : FrameHeader} {payload : Bytes}
    (hlen : payload.length < 2 ^ 32)
    {p s : Bytes} {b b' : UInt8} (hf : encodeFrame header payload = p ++ b :: s) (hb : b' ≠ b)
    (d : FrameDecoder) (f : Frame) : (d.next (p ++ b' :: s)).1 ≠ .frame f := by
  intro hnext
  obtain ⟨hdecode, hpayload, -, -, hcrc⟩ := FrameDecoder.next_frame (Prod.ext hnext rfl)
  obtain ⟨hstored, hpl, hpc⟩ := decodeFrameHeader_ok hdecode
  unfold encodeFrame at hf
  set hc := header.complete payload with hcomplete
  have hsize := length_encodeFrameHeader hc
  unfold frameHeaderSize at hsize
  by_cases h32 : p.length < 32
  · -- the header checksum does not fit the header
    have horig : loadLe 4 (p ++ b :: s) 28 = (crc32c ((p ++ b :: s).take 28)).toNat := by
      rw [← hf, (encodeFrameHeader_fields hc payload).2.2.2.2.2.2.2.2, encodeFrameHeader,
        append_assoc, take_left' FrameHeader.length_covered]
    rw [slice_zero] at hstored
    unfold loadLe slice at hstored horig
    by_cases h28 : p.length < 28
    · rw [drop_behind h28, horig, take_behind h28, take_behind h28] at hstored
      exact crc32c_change hb (BitVec.eq_of_toNat_eq hstored).symm
    · rw [take_before (by omega), ← horig, drop_append_of_le_length (by omega),
        drop_append_of_le_length (by omega), take_behind (by rw [length_drop]; omega),
        take_behind (by rw [length_drop]; omega)] at hstored
      exact leNat_change hb hstored
  · -- the payload checksum does not fit the payload
    obtain ⟨p', rfl⟩ : encodeFrameHeader hc <+: p :=
      prefix_of_prefix_length_le (hf ▸ prefix_append _ _) (prefix_append _ _) (by omega)
    rw [append_assoc] at hf hpl hpc hpayload
    have hpay := append_cancel_left hf
    obtain ⟨-, -, -, -, h16, -, -, h24, -⟩ := encodeFrameHeader_fields hc (p' ++ b' :: s)
    rw [h16, UInt32.ofNat_toNat] at hpl
    rw [h24, BitVec.ofNat_toNat] at hpc
    have hcount : hc.payloadLen.toNat = (p' ++ b' :: s).length := by
      refine (UInt32.toNat_ofNat_of_lt hlen).trans ?_
      rw [hpay]
      simp
    have hslice := slice_append_right (encodeFrameHeader hc) (p' ++ b' :: s) (p' ++ b' :: s).length
    rw [hsize, take_length] at hslice
    rw [hpl, hcount, frameHeaderSize, hslice] at hpayload
    have hsame := hcrc (by rw [hpayload]; simp)
    rw [hpayload, hpc, hcomplete, FrameHeader.complete, if_neg (by rw [hpay]; simp), hpay] at hsame
    exact crc32c_change hb hsame

/-- **One changed byte is noticed**: in a record behind the checksum as a corruption, in a frame
    anywhere. The lengths are those that their 32 bits can hold. -/
theorem changed_byte_refused (p s : Bytes) (b b' : UInt8) (hb : b' ≠ b) :
    (∀ r : NewRecord, r.Measurable → r.bytes = p ++ b :: s → 8 ≤ p.length → ∀ x y : Bytes,
      ∃ msg, parseRecord (x ++ (p ++ b' :: s) ++ y) x.length true = .error (.corruption msg)) ∧
    ∀ (header : FrameHeader) (payload : Bytes), payload.length < 2 ^ 32 →
      encodeFrame header payload = p ++ b :: s → ∀ (d : FrameDecoder) (f : Frame),
      (d.next (p ++ b' :: s)).1 ≠ .frame f :=
  ⟨fun _ hm hr hp x y => changed_record_corrupt hm hr hb hp x y,
    fun _ _ hlen hf d f => changed_frame_refused hlen hf hb d f⟩

/-- The value byte of a record. -/
theorem changed_value_refused : (1 : UInt8) ≠ 118 ∧
    ∃ msg, parseRecord (NewRecord.emptyKeyRecord.bytes.take 27 ++ [1]) 0 true =
      .error (.corruption msg) :=
  ⟨by decide, (changed_byte_refused (NewRecord.emptyKeyRecord.bytes.take 27) [] 118 1 (by decide)).1
    NewRecord.emptyKeyRecord (by unfold NewRecord.Measurable; decide) (by decide +kernel)
    (by decide +kernel) [] [] |>.imp fun msg h => by exact h⟩

/-- A payload of `n` zeros and four bytes that make its checksum zero. -/
def zeroCrcPayload (n : Nat) : Bytes :=
  zeros n ++ storeLe 4 ((zeros n).foldl crcByte 0xFFFFFFFF#32 ^^^ 0x641F6454#32).toNat

theorem crc32c_zeroCrcPayload (n : Nat) : crc32c (zeroCrcPayload n) = 0#32 := by
  unfold crc32c crc32cSeeded zeroCrcPayload
  set crc := (zeros n).foldl crcByte 0xFFFFFFFF#32
  have hword : loadWord (storeLe 4 (crc ^^^ 0x641F6454#32).toNat) = crc ^^^ 0x641F6454#32 := by
    rw [loadWord, leNat_storeLe, Nat.mod_eq_of_lt (show _ < 256 ^ 4 from BitVec.isLt _),
      BitVec.ofNat_toNat, BitVec.setWidth_eq]
  rw [foldl_append, show (~~~0#32) = 0xFFFFFFFF#32 from rfl,
    foldl_crcByte _ _ (length_storeLe 4 _), hword, ← BitVec.xor_assoc, BitVec.xor_self]
  decide

/-- **2^32 bytes are written under the length zero**: a byte of the payload can change, and the
    decoder finds a frame without payload. -/
theorem wrapped_frame_found : let header : FrameHeader := ⟨1, .health, 7, 0, 0, 0⟩
    let decoder : FrameDecoder := ⟨16, none⟩
    ∃ (payload p s : Bytes) (b b' : UInt8), b' ≠ b ∧ encodeFrame header payload = p ++ b :: s ∧
      (decoder.next (p ++ b' :: s)).1 = .frame ⟨header, [], frameHeaderSize⟩ := by
  intro header decoder
  have hlen : (zeroCrcPayload (2 ^ 32 - 4)).length = 2 ^ 32 := by
    unfold zeroCrcPayload
    rw [length_append, length_zeros, length_storeLe, Nat.sub_add_cancel (by decide)]
  have hne : zeroCrcPayload (2 ^ 32 - 4) ≠ [] := by
    intro h
    rw [h] at hlen
    cases hlen
  have hcomplete : header.complete (zeroCrcPayload (2 ^ 32 - 4)) = header := by
    rw [FrameHeader.complete, hlen, crc32c_zeroCrcPayload]
    rfl
  obtain ⟨b, s, hs⟩ := exists_cons_of_ne_nil hne
  refine ⟨_, encodeFrameHeader header, s, b, b + 1, by simp, by rw [encodeFrame, hcomplete, hs], ?_⟩
  unfold FrameDecoder.next
  rw [decodeFrameHeader_encode ⟨by decide, by decide, by decide, by decide⟩]
  rfl

end Protocol

end PulseLog
