/-
  Subject:   Frames and the incremental frame decoder (include/pulselog/protocol/opcode.h, frame.h,
             src/protocol/opcode.cc, frame.cc).

  A frame is a header of 32 bytes and a payload. Header: magic u32 @0, version u16 @4, opcode u16
  @6, request id u64 @8, payload length u32 @16, flags u16 @20, reserved u16 @22, payload checksum
  u32 @24, header checksum u32 @28 (over the bytes before it).

  * `delimits_encodeFrame` -- the decoder waits at every front part of a frame and finds it when it
    is all there; `chunks_decoded` -- so a stream of frames is decoded however it is cut;
    `other_version_refused` -- except that a frame of another protocol version ends the stream.
-/
import PulseLog.Base.Buffer
import PulseLog.Base.Crc32c
import PulseLog.Base.Status
import PulseLog.General.Framing

namespace PulseLog

open List

/-! ## 1. Opcodes -/

/-- `OpCode`. -/
inductive OpCode where
  | unknown | produce | fetch | listOffsets | createTopic | metadata | commitOffset | fetchOffset
  | joinGroup | heartbeat | leaveGroup | health | listTopics | replicate | replicaAck
  | replicaFetch | deleteTopic | describeCluster
  deriving Repr, DecidableEq

namespace OpCode

/-- The number of an opcode on the wire. -/
def toU16 : OpCode → UInt16
  | .unknown => 0
  | .produce => 1
  | .fetch => 2
  | .listOffsets => 3
  | .createTopic => 20
  | .metadata => 21
  | .commitOffset => 22
  | .fetchOffset => 23
  | .joinGroup => 24
  | .heartbeat => 25
  | .leaveGroup => 26
  | .health => 27
  | .listTopics => 28
  | .replicate => 40
  | .replicaAck => 41
  | .replicaFetch => 42
  | .deleteTopic => 60
  | .describeCluster => 61

/-- The opcode of a number that `IsKnownOpCode` accepts. -/
def ofU16 (raw : UInt16) : Option OpCode :=
  match raw.toNat with
  | 1 => some .produce
  | 2 => some .fetch
  | 3 => some .listOffsets
  | 20 => some .createTopic
  | 21 => some .metadata
  | 22 => some .commitOffset
  | 23 => some .fetchOffset
  | 24 => some .joinGroup
  | 25 => some .heartbeat
  | 26 => some .leaveGroup
  | 27 => some .health
  | 28 => some .listTopics
  | 40 => some .replicate
  | 41 => some .replicaAck
  | 42 => some .replicaFetch
  | 60 => some .deleteTopic
  | 61 => some .describeCluster
  | _ => none

theorem ofU16_toU16 {op : OpCode} (h : op ≠ .unknown) : ofU16 op.toU16 = some op := by
  cases op <;> first | rfl | exact absurd rfl h

/-- `OpCodeName`. -/
def name : OpCode → String
  | .unknown => "UNKNOWN"
  | .produce => "PRODUCE"
  | .fetch => "FETCH"
  | .listOffsets => "LIST_OFFSETS"
  | .createTopic => "CREATE_TOPIC"
  | .metadata => "METADATA"
  | .commitOffset => "COMMIT_OFFSET"
  | .fetchOffset => "FETCH_OFFSET"
  | .joinGroup => "JOIN_GROUP"
  | .heartbeat => "HEARTBEAT"
  | .leaveGroup => "LEAVE_GROUP"
  | .health => "HEALTH"
  | .listTopics => "LIST_TOPICS"
  | .replicate => "REPLICATE"
  | .replicaAck => "REPLICA_ACK"
  | .replicaFetch => "REPLICA_FETCH"
  | .deleteTopic => "DELETE_TOPIC"
  | .describeCluster => "DESCRIBE_CLUSTER"

end OpCode

namespace Protocol

/-! ## 2. Frames -/

/-- `kFrameHeaderSize`. -/
def frameHeaderSize : Nat := 32

/-- `kFrameMagic`. -/
def frameMagic : Nat := 0x47534C50

/-- `kProtocolVersion`. -/
def protocolVersion : UInt16 := 1

/-- `kMinSupportedVersion`. -/
def minSupportedVersion : UInt16 := 1

/-- `FrameHeader`. -/
structure FrameHeader where
  version : UInt16
  opcode : OpCode
  requestId : UInt64
  payloadLen : UInt32
  flags : UInt16
  payloadCrc : BitVec 32
  deriving Repr, DecidableEq

/-- The header bytes the header checksum covers. -/
def FrameHeader.covered (header : FrameHeader) : Bytes :=
  [storeLe 4 frameMagic, storeLe 2 header.version.toNat, storeLe 2 header.opcode.toU16.toNat,
    storeLe 8 header.requestId.toNat, storeLe 4 header.payloadLen.toNat,
    storeLe 2 header.flags.toNat, storeLe 2 0, storeLe 4 header.payloadCrc.toNat].flatten

/-- `EncodeFrameHeader`. -/
def encodeFrameHeader (header : FrameHeader) : Bytes :=
  header.covered ++ storeLe 4 (crc32c header.covered).toNat

/-- `DecodeFrameHeader`: the checks in the source's order. -/
def decodeFrameHeader (src : Bytes) (maxPayload : UInt32) : Except Status FrameHeader :=
  let magic := loadLe 4 src 0
  if magic ≠ frameMagic then
    .error ⟨.protocolError, s!"bad frame magic: expected 0x{frameMagic}, got 0x{magic}"⟩
  else if loadLe 4 src 28 ≠ (crc32c (slice src 0 28)).toNat then
    .error (.corruption "frame header checksum mismatch")
  else
    let reserved := loadLe 2 src 22
    if reserved ≠ 0 then
      .error ⟨.protocolError, s!"reserved header bits must be zero (got {reserved})"⟩
    else
      let version := UInt16.ofNat (loadLe 2 src 4)
      if version < minSupportedVersion ∨ protocolVersion < version then
        .error ⟨.unsupportedVersion, s!"unsupported protocol version {version}" ++
          s!" (this build speaks {minSupportedVersion}..{protocolVersion})"⟩
      else
        let rawOpcode := UInt16.ofNat (loadLe 2 src 6)
        match OpCode.ofU16 rawOpcode with
        | none => .error ⟨.protocolError, s!"unknown opcode {rawOpcode}"⟩
        | some opcode =>
          let payloadLen := UInt32.ofNat (loadLe 4 src 16)
          if maxPayload < payloadLen then
            .error ⟨.resourceExhausted, s!"payload length {payloadLen} exceeds limit {maxPayload}"⟩
          else
            .ok ⟨version, opcode, UInt64.ofNat (loadLe 8 src 8), payloadLen,
              UInt16.ofNat (loadLe 2 src 20), BitVec.ofNat 32 (loadLe 4 src 24)⟩

/-- The header `EncodeFrame` writes: with the length and the checksum of the payload. -/
def FrameHeader.complete (header : FrameHeader) (payload : Bytes) : FrameHeader :=
  { header with
    payloadLen := UInt32.ofNat payload.length
    payloadCrc := if payload = [] then 0#32 else crc32c payload }

/-- `EncodeFrame`. -/
def encodeFrame (header : FrameHeader) (payload : Bytes) : Bytes :=
  encodeFrameHeader (header.complete payload) ++ payload

/-! ## 3. The decoder -/

/-- `FrameDecoder::Frame`. -/
structure Frame where
  header : FrameHeader
  payload : Bytes
  totalSize : Nat
  deriving Repr, DecidableEq

/-- `FrameDecoder`. -/
structure FrameDecoder where
  maxPayload : UInt32
  error : Option Status
  deriving Repr, DecidableEq

/-- `FrameDecoder::State`, with the frame. -/
inductive FrameState where
  | needMore
  | frame (f : Frame)
  | error
  deriving Repr, DecidableEq

/-- An error is kept: the stream cannot be resynchronised. -/
def FrameDecoder.fail (d : FrameDecoder) (e : Status) : FrameState × FrameDecoder :=
  (.error, { d with error := some e })

/-- `FrameDecoder::Next`. -/
def FrameDecoder.next (d : FrameDecoder) (input : Bytes) : FrameState × FrameDecoder :=
  if d.error.isSome then (.error, d)
  else if input.length < frameHeaderSize then (.needMore, d)
  else
    match decodeFrameHeader input d.maxPayload with
    | .error e => d.fail e
    | .ok header =>
      let total := frameHeaderSize + header.payloadLen.toNat
      if input.length < total then (.needMore, d)
      else
        let payload := slice input frameHeaderSize header.payloadLen.toNat
        if payload ≠ [] ∧ crc32c payload ≠ header.payloadCrc then
          d.fail (.corruption (s!"frame payload checksum mismatch (opcode {header.opcode.name}, " ++
            s!"{payload.length} bytes)"))
        else if payload = [] ∧ header.payloadCrc ≠ 0#32 then
          d.fail ⟨.protocolError, "empty payload must carry a zero checksum"⟩
        else (.frame ⟨header, payload, total⟩, d)

variable {d d' : FrameDecoder} {input : Bytes}

/-- What a frame that is found says. -/
theorem FrameDecoder.next_frame {f : Frame} (h : d.next input = (.frame f, d')) :
    decodeFrameHeader input d.maxPayload = .ok f.header ∧
      f.payload = slice input frameHeaderSize f.header.payloadLen.toNat ∧
      f.totalSize = frameHeaderSize + f.header.payloadLen.toNat ∧ f.totalSize ≤ input.length ∧
      (f.payload ≠ [] → crc32c f.payload = f.header.payloadCrc) := by
  unfold next fail at h
  split at h
  · simp at h
  split at h
  · simp at h
  split at h
  · simp at h
  rename_i header hheader
  dsimp only at h
  split at h
  · simp at h
  split at h
  · simp at h
  rename_i hlen hcrc
  split at h
  · simp at h
  obtain ⟨hf, -⟩ := Prod.mk.inj h
  rw [← FrameState.frame.inj hf]
  exact ⟨hheader, rfl, rfl, Nat.le_of_not_lt hlen,
    fun hne => Classical.not_not.mp fun h => hcrc ⟨hne, h⟩⟩

/-- A frame that is found is all there. -/
theorem FrameDecoder.totalSize_le {f : Frame}
    (h : d.next input = (.frame f, d')) : f.totalSize ≤ input.length := (next_frame h).2.2.2.1

/-- The read side of a connection: the decoder, the bytes that have arrived, and the frames handed
    on so far. -/
structure Receiver where
  decoder : FrameDecoder
  input : ByteBuffer
  frames : List Frame

/-- The decode loop: each frame is handed on and consumed, until more is needed or the stream is
    broken. -/
def Receiver.decodeAll : Nat → Receiver → Receiver
  | 0, r => r
  | fuel + 1, r =>
    match h : r.decoder.next r.input.readable with
    | (.needMore, d) => { r with decoder := d }
    | (.error, d) => { r with decoder := d }
    | (.frame f, d) =>
      decodeAll fuel ⟨d, r.input.consume f.totalSize (by
        rw [← ByteBuffer.length_readable]
        exact FrameDecoder.totalSize_le h), r.frames ++ [f]⟩

/-- A chunk arrives. Every frame takes up a header at least, so the loop ends before its bound. -/
def Receiver.feed (r : Receiver) (chunk : Bytes) : Receiver :=
  let input := r.input.append chunk
  Receiver.decodeAll input.readableBytes { r with input := input }

def Receiver.start (maxPayload : UInt32) : Receiver := ⟨⟨maxPayload, none⟩, .empty, []⟩

/-! ## 4. A frame is found when it is all there -/

section Header

variable {header : FrameHeader} {maxPayload : UInt32}

theorem FrameHeader.length_covered : header.covered.length = 28 := by
  simp [covered]

theorem length_encodeFrameHeader (header : FrameHeader) :
    (encodeFrameHeader header).length = frameHeaderSize := by
  rfl

/-- What the decoder asks of a header. -/
structure FrameHeader.Decodable (header : FrameHeader) (maxPayload : UInt32) : Prop where
  version_ge : minSupportedVersion ≤ header.version
  version_le : header.version ≤ protocolVersion
  opcode : header.opcode ≠ .unknown
  payloadLen : header.payloadLen ≤ maxPayload

/-- The fields of an encoded header at their places. -/
theorem encodeFrameHeader_fields (header : FrameHeader) (t : Bytes) :
    let src := encodeFrameHeader header ++ t
    loadLe 4 src 0 = frameMagic ∧ loadLe 2 src 4 = header.version.toNat ∧
      loadLe 2 src 6 = header.opcode.toU16.toNat ∧ loadLe 8 src 8 = header.requestId.toNat ∧
      loadLe 4 src 16 = header.payloadLen.toNat ∧ loadLe 2 src 20 = header.flags.toNat ∧
      loadLe 2 src 22 = 0 ∧ loadLe 4 src 24 = header.payloadCrc.toNat ∧
      loadLe 4 src 28 = (crc32c header.covered).toNat := by
  intro src
  set crc := (crc32c header.covered).toNat with hcrc
  have hsrc : src = storeLe 4 frameMagic ++ (storeLe 2 header.version.toNat ++
      (storeLe 2 header.opcode.toU16.toNat ++ (storeLe 8 header.requestId.toNat ++
      (storeLe 4 header.payloadLen.toNat ++ (storeLe 2 header.flags.toNat ++ (storeLe 2 0 ++
      (storeLe 4 header.payloadCrc.toNat ++ (storeLe 4 crc ++ t)))))))) := by
    have hparts : src = header.covered ++ storeLe 4 crc ++ t := rfl
    rw [hparts]
    simp only [FrameHeader.covered, flatten_cons, flatten_nil, append_nil, append_assoc]
  have h16 : ∀ v : UInt16, v.toNat % 256 ^ 2 = v.toNat := fun v => Nat.mod_eq_of_lt v.toNat_lt
  have h32 : ∀ v : UInt32, v.toNat % 256 ^ 4 = v.toNat := fun v => Nat.mod_eq_of_lt v.toNat_lt
  have h64 : ∀ v : UInt64, v.toNat % 256 ^ 8 = v.toNat := fun v => Nat.mod_eq_of_lt v.toNat_lt
  have hbv : ∀ v : BitVec 32, v.toNat % 256 ^ 4 = v.toNat := fun v => Nat.mod_eq_of_lt v.isLt
  rw [hsrc]
  refine ⟨?_, ?_, ?_, ?_, ?_, ?_, ?_, ?_, ?_⟩ <;>
    simp (disch := decide) only [loadLe_skip, Nat.reduceSub, loadLe_storeLe, h16, h32, h64,
      hbv, hcrc]
  · decide
  · decide

/-- **The header is read back**, whatever stands behind it. -/
theorem decodeFrameHeader_encode (h : header.Decodable maxPayload) (t : Bytes) :
    decodeFrameHeader (encodeFrameHeader header ++ t) maxPayload = .ok header := by
  obtain ⟨hmagic, hversion, hopcode, hid, hlen, hflags, hreserved, hpcrc, hcrc⟩ :=
    encodeFrameHeader_fields header t
  have hcov : slice (encodeFrameHeader header ++ t) 0 28 = header.covered := by
    rw [slice_zero, encodeFrameHeader, append_assoc, take_left' FrameHeader.length_covered]
  unfold decodeFrameHeader
  simp only [hmagic, hversion, hopcode, hid, hlen, hflags, hreserved, hpcrc, hcrc, hcov,
    UInt16.ofNat_toNat, UInt32.ofNat_toNat, UInt64.ofNat_toNat, BitVec.ofNat_toNat,
    BitVec.setWidth_eq, OpCode.ofU16_toU16 h.opcode]
  rw [if_neg (by simp), if_neg (by simp), if_neg (by simp),
    if_neg (by simp [h.version_ge, h.version_le]),
    if_neg (by simp [h.payloadLen])]

end Header

/-- A frame to send. -/
structure Outgoing where
  header : FrameHeader
  payload : Bytes
  deriving Repr, DecidableEq

def Outgoing.encode (o : Outgoing) : Bytes := encodeFrame o.header o.payload

/-- The frame the other side should get. -/
def Outgoing.frame (o : Outgoing) : Frame :=
  ⟨o.header.complete o.payload, o.payload, frameHeaderSize + o.payload.length⟩

/-- A known opcode, and a payload within the limit. -/
structure Outgoing.Fits (o : Outgoing) (maxPayload : UInt32) : Prop where
  opcode : o.header.opcode ≠ .unknown
  payload : o.payload.length ≤ maxPayload.toNat

/-- A version the decoder speaks. -/
def Outgoing.Supported (o : Outgoing) : Prop :=
  minSupportedVersion ≤ o.header.version ∧ o.header.version ≤ protocolVersion

/-- The decoder as a scanner. -/
def FrameDecoder.scan (d : FrameDecoder) (input : Bytes) : Scan Frame :=
  match (d.next input).1 with
  | .needMore => .more
  | .frame f => .frame f f.totalSize
  | .error => .bad

section Scan

variable {d d' : FrameDecoder} {o : Outgoing} {input : Bytes}

theorem scan_nil (hd : d.error = none) : d.scan [] = .more := by
  unfold FrameDecoder.scan FrameDecoder.next
  rw [hd]
  rfl

theorem Outgoing.payloadLen (h : o.Fits d.maxPayload) :
    (o.header.complete o.payload).payloadLen.toNat = o.payload.length :=
  UInt32.toNat_ofNat_of_lt (lt_of_le_of_lt h.payload d.maxPayload.toNat_lt)

theorem Outgoing.decodable (h : o.Fits d.maxPayload) (hv : o.Supported) :
    (o.header.complete o.payload).Decodable d.maxPayload :=
  ⟨hv.1, hv.2, h.opcode, by rw [UInt32.le_iff_toNat_le, Outgoing.payloadLen h]; exact h.payload⟩

/-- The header is there, the payload is not. -/
theorem next_waits (hd : d.error = none) (h : o.Fits d.maxPayload) (hv : o.Supported) {t : Bytes}
    (ht : t.length < o.payload.length) :
    d.next (encodeFrameHeader (o.header.complete o.payload) ++ t) = (.needMore, d) := by
  have hlen : (encodeFrameHeader (o.header.complete o.payload) ++ t).length =
      frameHeaderSize + t.length := by rw [length_append, length_encodeFrameHeader]
  unfold FrameDecoder.next
  rw [hd, if_neg (by simp), if_neg (by omega), decodeFrameHeader_encode (Outgoing.decodable h hv)]
  simp only [Outgoing.payloadLen h]
  rw [if_pos (by omega)]

/-- All of the frame is there. -/
theorem next_finds (hd : d.error = none) (h : o.Fits d.maxPayload) (hv : o.Supported) (t : Bytes) :
    d.next (o.encode ++ t) = (.frame o.frame, d) := by
  have hlen : (o.encode ++ t).length = frameHeaderSize + o.payload.length + t.length := by
    rw [length_append, Outgoing.encode, encodeFrame, length_append, length_encodeFrameHeader]
  have hpay : slice (o.encode ++ t) frameHeaderSize o.payload.length = o.payload := by
    have hmid := slice_mid (encodeFrameHeader (o.header.complete o.payload)) o.payload t 0
      o.payload.length (by omega)
    exact hmid.trans (by rw [slice_zero, take_length])
  have hdecode : decodeFrameHeader (o.encode ++ t) d.maxPayload =
      .ok (o.header.complete o.payload) := by
    rw [Outgoing.encode, encodeFrame, append_assoc]
    exact decodeFrameHeader_encode (Outgoing.decodable h hv) _
  unfold FrameDecoder.next
  rw [hd, if_neg (by simp), if_neg (by omega), hdecode]
  simp only [Outgoing.payloadLen h, hpay]
  rw [if_neg (by omega), if_neg, if_neg]
  · rfl
  · rintro ⟨hnil, hcrc⟩
    exact hcrc (by simp [FrameHeader.complete, hnil])
  · rintro ⟨hne, hcrc⟩
    exact hcrc (by simp [FrameHeader.complete, hne])

/-- **The decoder delimits frames.** -/
theorem delimits_encodeFrame (hd : d.error = none) (h : o.Fits d.maxPayload) (hv : o.Supported) :
    Delimits d.scan Outgoing.encode Outgoing.frame o where
  pos := by
    rw [Outgoing.encode, encodeFrame, length_append, length_encodeFrameHeader]
    exact Nat.add_pos_left (by decide) _
  waits := by
    intro b hpre hlt
    rw [Outgoing.encode, encodeFrame] at hpre hlt
    obtain ⟨t, ht⟩ := hpre
    unfold FrameDecoder.scan
    rcases cut_cases ht with ⟨-, hshort⟩ | ⟨u, rfl, -⟩
    · rw [length_encodeFrameHeader] at hshort
      unfold FrameDecoder.next
      rw [hd, if_neg (by simp), if_pos hshort]
    · rw [length_append, length_append] at hlt
      rw [next_waits hd h hv (by omega)]
  finds := by
    intro t
    unfold FrameDecoder.scan
    rw [next_finds hd h hv t]
    have hsize : o.encode.length = o.frame.totalSize := by
      rw [Outgoing.encode, encodeFrame, length_append]
      rfl
    rw [hsize]

end Scan

/-! ## 5. However the stream is cut -/

/-- The decoder is only changed by an error. -/
theorem FrameDecoder.next_eq_self {state : FrameState}
    (h : d.next input = (state, d')) (hstate : state ≠ .error) : d' = d := by
  unfold next fail at h
  split at h
  · exact absurd (Prod.mk.inj h).1.symm hstate
  split at h
  · exact (Prod.mk.inj h).2.symm
  split at h
  · exact absurd (Prod.mk.inj h).1.symm hstate
  dsimp only at h
  split at h
  · exact (Prod.mk.inj h).2.symm
  split at h
  · exact absurd (Prod.mk.inj h).1.symm hstate
  split at h
  · exact absurd (Prod.mk.inj h).1.symm hstate
  · exact (Prod.mk.inj h).2.symm

namespace Receiver

/-- The frames handed on and the bytes that are left. -/
def view (r : Receiver) : List Frame × Bytes := (r.frames, r.input.readable)

/-- The decode loop drains the buffer, and keeps the decoder if the stream is not broken. -/
theorem decodeAll_drain : ∀ (fuel : Nat) (r : Receiver),
    (decodeAll fuel r).view = (r.frames ++ (drain r.decoder.scan fuel r.input.readable).1,
        (drain r.decoder.scan fuel r.input.readable).2) ∧
      (r.decoder.scan (decodeAll fuel r).input.readable ≠ .bad →
        (decodeAll fuel r).decoder = r.decoder) := by
  intro fuel
  induction fuel with
  | zero => exact fun r => ⟨by simp [decodeAll, drain, view], fun _ => rfl⟩
  | succ fuel ih =>
    intro r
    unfold decodeAll
    split
    · rename_i d hnext
      have hscan : r.decoder.scan r.input.readable = .more := by
        unfold FrameDecoder.scan
        rw [hnext]
      rw [drain_more hscan]
      exact ⟨by simp [view], fun _ => FrameDecoder.next_eq_self hnext (by simp)⟩
    · rename_i d hnext
      have hscan : r.decoder.scan r.input.readable = .bad := by
        unfold FrameDecoder.scan
        rw [hnext]
      unfold drain
      rw [hscan]
      simp [view]
    · rename_i f d hnext
      obtain rfl := FrameDecoder.next_eq_self hnext (by simp)
      have hscan : r.decoder.scan r.input.readable = .frame f f.totalSize := by
        unfold FrameDecoder.scan
        rw [hnext]
      have hle : f.totalSize ≤ r.input.readableBytes := by
        rw [← ByteBuffer.length_readable]
        exact FrameDecoder.totalSize_le hnext
      obtain ⟨hview, hdecoder⟩ := ih ⟨r.decoder, r.input.consume f.totalSize hle, r.frames ++ [f]⟩
      simp only [ByteBuffer.readable_consume, append_assoc] at hview
      rw [drain_frame hscan]
      exact ⟨hview, hdecoder⟩

/-- A chunk that arrives, seen from outside. -/
theorem feed_view (r : Receiver) (chunk : Bytes) :
    (r.feed chunk).view = PulseLog.feed r.decoder.scan r.view chunk ∧
      (r.decoder.scan (r.feed chunk).input.readable ≠ .bad →
        (r.feed chunk).decoder = r.decoder) := by
  have h := decodeAll_drain (r.input.append chunk).readableBytes
    { r with input := r.input.append chunk }
  refine ⟨?_, h.2⟩
  rw [← ByteBuffer.length_readable, ByteBuffer.readable_append] at h
  unfold feed
  dsimp only
  rw [← ByteBuffer.length_readable, ByteBuffer.readable_append]
  exact h.1

/-- The decoder is untouched, and what has come out and what is left fit the stream. -/
structure InStep (d : FrameDecoder) (os : List Outgoing) (future : Bytes) (r : Receiver) :
    Prop where
  decoder : r.decoder = d
  arrived : Arrived Outgoing.encode Outgoing.frame os r.view future

theorem InStep.feed {d : FrameDecoder} {os : List Outgoing} {future chunk : Bytes} {r : Receiver}
    (hd : d.error = none) (hos : ∀ o ∈ os, Delimits d.scan Outgoing.encode Outgoing.frame o)
    (h : InStep d os (chunk ++ future) r) : InStep d os future (r.feed chunk) := by
  obtain ⟨hview, hkeep⟩ := r.feed_view chunk
  rw [h.decoder] at hview hkeep
  have harrived := h.arrived.feed hos (scan_nil hd)
  rw [← hview] at harrived
  have hwaits := harrived.scan_eq hos (scan_nil hd)
  exact ⟨hkeep (by rw [show d.scan (r.feed chunk).input.readable = .more from hwaits]; simp),
    harrived⟩

end Receiver

/-- **A stream of frames is decoded however it is cut**: the headers and payloads come out in order,
    without an error, and no byte is left over. -/
theorem chunks_decoded (maxPayload : UInt32) (os : List Outgoing) (chunks : List Bytes)
    (hfit : ∀ o ∈ os, o.Fits maxPayload) (hversion : ∀ o ∈ os, o.Supported)
    (hcut : chunks.flatten = os.flatMap Outgoing.encode) :
    let r := chunks.foldl Receiver.feed (Receiver.start maxPayload)
    r.frames = os.map Outgoing.frame ∧ r.decoder.error = none ∧ r.input.readable = [] := by
  let d : FrameDecoder := ⟨maxPayload, none⟩
  have hos : ∀ o ∈ os, Delimits d.scan Outgoing.encode Outgoing.frame o :=
    fun o ho => delimits_encodeFrame rfl (hfit o ho) (hversion o ho)
  have hall : ∀ (chunks : List Bytes) r, Receiver.InStep d os chunks.flatten r →
      Receiver.InStep d os [] (chunks.foldl Receiver.feed r) := by
    intro chunks
    induction chunks with
    | nil => exact fun r h => h
    | cons chunk chunks ih => exact fun r h => ih (r.feed chunk) (h.feed rfl hos)
  have hstart : Receiver.InStep d os chunks.flatten (Receiver.start maxPayload) :=
    ⟨rfl, by rw [hcut]; exact arrived_start hos⟩
  have hend := hall chunks _ hstart
  obtain ⟨hframes, hleft⟩ := Prod.mk.inj hend.arrived.done
  exact ⟨hframes, by rw [hend.decoder], hleft⟩

/-- A request without payload and a produce request of three bytes. -/
def twoFrames : List Outgoing :=
  [⟨⟨1, .health, 7, 0, 0, 0⟩, []⟩, ⟨⟨1, .produce, 8, 0, 0, 0⟩, [1, 2, 3]⟩]

/-- Cut inside both headers, with an empty chunk. -/
def twoFramesCut : List Bytes :=
  let stream := twoFrames.flatMap Outgoing.encode
  [stream.take 5, [], (stream.drop 5).take 40, stream.drop 45]

theorem twoFrames_decoded :
    let r := twoFramesCut.foldl Receiver.feed (Receiver.start 16)
    r.frames = twoFrames.map Outgoing.frame ∧ r.decoder.error = none ∧ r.input.readable = [] := by
  refine chunks_decoded 16 twoFrames twoFramesCut ?_ ?_ (by decide +kernel)
  · intro o ho
    simp only [twoFrames, mem_cons, not_mem_nil, or_false] at ho
    rcases ho with rfl | rfl
    · exact ⟨by decide, by decide⟩
    · exact ⟨by decide, by decide⟩
  · intro o ho
    simp only [twoFrames, mem_cons, not_mem_nil, or_false] at ho
    rcases ho with rfl | rfl
    · exact ⟨by decide, by decide⟩
    · exact ⟨by decide, by decide⟩

/-- A health request of protocol version 2. -/
def nextVersionFrame : Outgoing := ⟨⟨2, .health, 7, 0, 0, 0⟩, []⟩

/-- **Another protocol version ends the stream**: the opcode is known and the payload fits, and the
    decoder answers with an error. -/
theorem other_version_refused :
    nextVersionFrame.Fits 16 ∧
      let r := [nextVersionFrame.encode].foldl Receiver.feed (Receiver.start 16)
      r.frames = [] ∧ r.decoder.error = some ⟨.unsupportedVersion,
        "unsupported protocol version 2 (this build speaks 1..1)"⟩ := by
  exact ⟨⟨by decide, by decide⟩, by decide +kernel⟩

end Protocol

end PulseLog
