/-
  Subject:   The fields that are declared for each request (include/pulselog/protocol/messages.h,
             docs/PROTOCOL.md, section 4).

  A layout is stated apart from the decoders: `fieldsRest opcode payload` is what stands behind the
  last declared field, whatever the values of the fields are.

  * `stops_fetch` .. `stops_replicaAck` -- each of the decoders stops behind the last field of its
    layout. The decoders of PRODUCE and REPLICATE, which take everything that is left, are not among
    them: `decode_produce_iff`, `decode_replicate_iff` say which values they take.
-/
import PulseLog.Protocol.Frame
import PulseLog.Protocol.Messages

namespace PulseLog

namespace Protocol

open PulseLog.Parser

/-! ## 1. Layouts -/

inductive PayloadField where
  | u8 | bool | i16 | i32 | u32 | i64
  | string
  /-- opaque bytes behind their 32-bit length -/
  | block
  | array (element : PayloadField)
  deriving Repr, DecidableEq

/-- The next `n` bytes, unread. -/
def skip (n : Nat) : PayloadReader PUnit := (fun _ => ⟨⟩) <$> exactly n

namespace PayloadField

/-- Goes over a field. -/
def pass : PayloadField → PayloadReader PUnit
  | .u8 | .bool => skip 1
  | .i16 => skip 2
  | .i32 | .u32 => skip 4
  | .i64 => skip 8
  | .string => do
      let len ← getU16
      skip len.toNat
  | .block => do
      let len ← getU32
      skip len.toNat
  | .array element => do
      let count ← getU32
      (fun _ => ⟨⟩) <$> element.pass.times count.toNat

/-- Goes over the fields of a layout. -/
def passAll : List PayloadField → PayloadReader PUnit
  | [] => pure ⟨⟩
  | field :: fields => do
      field.pass
      passAll fields

end PayloadField

/-- The layout of each request; there is none for an opcode that is unknown. -/
def requestFields : OpCode → Option (List PayloadField)
  | .unknown => none
  | .produce => some [.string, .i32, .u8, .i32, .u32, .block]
  | .fetch => some [.string, .i32, .i64, .u32, .u32, .i32, .u8]
  | .listOffsets => some [.string, .i32, .i64]
  | .createTopic => some [.string, .i32, .i16, .i64, .i64, .u8, .bool]
  | .metadata => some [.array .string]
  | .commitOffset => some [.string, .string, .i32, .string, .i32, .i64, .string]
  | .fetchOffset => some [.string, .string, .i32]
  | .joinGroup => some [.string, .string, .array .string, .i32, .u8]
  | .heartbeat => some [.string, .string, .i32]
  | .leaveGroup => some [.string, .string]
  | .health => some []
  | .listTopics => some []
  | .replicate => some [.string, .i32, .i32, .i64, .i64, .i64, .i64, .i64, .u32, .block]
  | .replicaAck => some [.string, .i32, .i32, .i64, .i64, .i64]
  | .replicaFetch => some [.string, .i32, .i32, .i64, .i64, .u32]
  | .deleteTopic => some [.string]
  | .describeCluster => some []

/-- What stands behind the declared fields, if they are all there. -/
def fieldsRest (opcode : OpCode) (payload : Bytes) : Option Bytes :=
  (requestFields opcode).bind fun fields => ((PayloadField.passAll fields).run payload).map Prod.snd

end Protocol

/-! ## 2. Where the decoders stop -/

namespace Parser

open Protocol

theorem passes_getLe (n : Nat) : Passes (getLe n) (skip n) := by
  refine Passes.map ?_
  intro s a t h
  unfold skip
  rw [StateT.run_map, h]
  rfl

theorem Passes.u8 : Passes getU8 (PayloadField.pass .u8) := (passes_getLe 1).map

theorem Passes.bool : Passes getBool (PayloadField.pass .bool) := Passes.u8.map

theorem Passes.i16 : Passes getI16 (PayloadField.pass .i16) := (passes_getLe 2).map.map

theorem Passes.u32 : Passes getU32 (PayloadField.pass .u32) := (passes_getLe 4).map

theorem Passes.i32 : Passes getI32 (PayloadField.pass .i32) := Passes.u32.map

theorem Passes.i64 : Passes getI64 (PayloadField.pass .i64) := (passes_getLe 8).map

theorem Passes.string : Passes getString (PayloadField.pass .string) := by
  intro s a t h
  obtain ⟨len, u, hlen, h⟩ := run_bind_some.mp h
  refine run_bind_some.mpr ⟨len, u, hlen, ?_⟩
  unfold skip
  rw [StateT.run_map, h]
  rfl

/-- The element budget looks at the payload and takes nothing. -/
theorem Passes.array {α : Type} {minElementBytes : Nat} {element : PayloadReader α}
    {field : PayloadField} (h : Passes element field.pass) :
    Passes (getArray minElementBytes element) (PayloadField.pass (.array field)) := by
  intro s as t has
  obtain ⟨budget, s', hbudget, has⟩ := run_bind_some.mp has
  obtain ⟨unread, s'', hget, hpure⟩ := run_bind_some.mp hbudget
  obtain ⟨-, rfl⟩ := Prod.mk.inj (Option.some.inj hget)
  obtain ⟨-, rfl⟩ := Prod.mk.inj (Option.some.inj hpure)
  obtain ⟨count, u, hcount, has⟩ := run_bind_some.mp has
  obtain ⟨n, v, hn, hcount⟩ := run_bind_some.mp hcount
  obtain ⟨⟨⟩, w, hle, hpure⟩ := run_bind_some.mp hcount
  obtain ⟨-, rfl⟩ := run_ensure_some.mp hle
  obtain ⟨rfl, rfl⟩ := Prod.mk.inj (Option.some.inj hpure)
  exact run_bind_some.mpr ⟨n, _, hn, h.times n.toNat _ as t has⟩

end Parser

namespace Protocol

open PulseLog.Parser

/-- A decoder stops where the layout of the request ends. -/
def StopsBehind {α : Type} (decode : PayloadReader α) (opcode : OpCode) : Prop :=
  ∃ fields, requestFields opcode = some fields ∧ Passes decode (PayloadField.passAll fields)

theorem stops_fetch : StopsBehind FetchRequest.decode .fetch :=
  ⟨_, rfl, .bind .string fun _ => .bind .i32 fun _ => .bind .i64 fun _ =>
    .bind .u32 fun _ => .bind .u32 fun _ => .bind .i32 fun _ =>
    .bind .u8 fun _ => .ensured <| .lifted fun _ => .done _⟩

theorem stops_listOffsets : StopsBehind ListOffsetsRequest.decode .listOffsets :=
  ⟨_, rfl, .bind .string fun _ => .bind .i32 fun _ => .ensured <| .bind .i64 fun _ => .done _⟩

theorem stops_createTopic : StopsBehind CreateTopicRequest.decode .createTopic :=
  ⟨_, rfl, .bind .string fun _ => .bind .i32 fun _ => .bind .i16 fun _ =>
    .bind .i64 fun _ => .bind .i64 fun _ => .bind .u8 fun _ =>
    .lifted fun _ => .bind .bool fun _ => .done _⟩

theorem stops_deleteTopic : StopsBehind DeleteTopicRequest.decode .deleteTopic :=
  ⟨_, rfl, .bind .string fun _ => .done _⟩

theorem stops_metadata : StopsBehind MetadataRequest.decode .metadata :=
  ⟨_, rfl, .bind (.array .string) fun _ => .done _⟩

theorem stops_joinGroup : StopsBehind JoinGroupRequest.decode .joinGroup :=
  ⟨_, rfl, .bind .string fun _ => .bind .string fun _ =>
    .bind (.array .string) fun _ => .bind .i32 fun _ =>
    .bind .u8 fun _ => .lifted fun _ => .done _⟩

theorem stops_heartbeat : StopsBehind HeartbeatRequest.decode .heartbeat :=
  ⟨_, rfl, .bind .string fun _ => .bind .string fun _ => .bind .i32 fun _ =>
    .done _⟩

theorem stops_leaveGroup : StopsBehind LeaveGroupRequest.decode .leaveGroup :=
  ⟨_, rfl, .bind .string fun _ => .bind .string fun _ => .done _⟩

theorem stops_commitOffset : StopsBehind CommitOffsetRequest.decode .commitOffset :=
  ⟨_, rfl, .bind .string fun _ => .bind .string fun _ => .bind .i32 fun _ =>
    .bind .string fun _ => .bind .i32 fun _ => .ensured <|
    .bind .i64 fun _ => .bind .string fun _ => .done _⟩

theorem stops_fetchOffset : StopsBehind FetchOffsetRequest.decode .fetchOffset :=
  ⟨_, rfl, .bind .string fun _ => .bind .string fun _ => .bind .i32 fun _ =>
    .ensured <| .done _⟩

theorem stops_replicaFetch : StopsBehind ReplicaFetchRequest.decode .replicaFetch :=
  ⟨_, rfl, .bind .string fun _ => .bind .i32 fun _ => .bind .i32 fun _ =>
    .ensured <| .bind .i64 fun _ => .bind .i64 fun _ =>
    .bind .u32 fun _ => .done _⟩

theorem stops_replicaAck : StopsBehind ReplicaAckRequest.decode .replicaAck :=
  ⟨_, rfl, .bind .string fun _ => .bind .i32 fun _ => .bind .i32 fun _ =>
    .ensured <| .bind .i64 fun _ => .bind .i64 fun _ =>
    .bind .i64 fun _ => .done _⟩

/-- What such a decoder leaves is what stands behind the declared fields. -/
theorem StopsBehind.fieldsRest_eq {α : Type} {decode : PayloadReader α} {opcode : OpCode}
    (h : StopsBehind decode opcode) {payload t : Bytes} {a : α}
    (hdecode : decode.run payload = some (a, t)) : fieldsRest opcode payload = some t := by
  obtain ⟨fields, hfields, hpass⟩ := h
  unfold fieldsRest
  rw [hfields, Option.bind_some, hpass payload a t hdecode]
  rfl

/-! ## 3. The requests whose end is not checked -/

/-- The declared fields of the requests whose handlers do not ask for the end of the payload, and
    whether the decoder takes their values. -/
def valuesTaken : OpCode → PayloadReader Bool
  | .produce => do
      let _topic ← getString
      let partition ← getI32
      let acks ← getU8
      let _timeoutMs ← getI32
      let _recordCount ← getU32
      PayloadField.pass .block
      pure (decide (0 ≤ partition) && (AckMode.ofU8 acks).isSome)
  | .replicate => do
      let _topic ← getString
      let partition ← getI32
      let _leaderId ← getI32
      let _leaderEpoch ← getI64
      let _baseOffset ← getI64
      let _prevOffset ← getI64
      let _leaderHighWaterMark ← getI64
      let _leaderLogStartOffset ← getI64
      let _recordCount ← getU32
      PayloadField.pass .block
      pure (decide (0 ≤ partition))
  | _ => pure true

theorem stops_produceValues : StopsBehind (valuesTaken .produce) .produce :=
  ⟨_, rfl, .bind .string fun _ => .bind .i32 fun _ => .bind .u8 fun _ => .bind .i32 fun _ =>
    .bind .u32 fun _ => .bind (fun _ _ _ h => h) fun _ => .done _⟩

theorem stops_replicateValues : StopsBehind (valuesTaken .replicate) .replicate :=
  ⟨_, rfl, .bind .string fun _ => .bind .i32 fun _ => .bind .i32 fun _ => .bind .i64 fun _ =>
    .bind .i64 fun _ => .bind .i64 fun _ => .bind .i64 fun _ => .bind .i64 fun _ =>
    .bind .u32 fun _ => .bind (fun _ _ _ h => h) fun _ => .done _⟩

/-- The record bytes are there if the block can be passed. -/
theorem run_getRecords_iff {s : Bytes} : (∃ records r, getRecords.run s = some (records, r)) ↔
    ∃ t, (PayloadField.pass .block).run s = some (⟨⟩, t) := by
  have hskip : ∀ (n : Nat) (u : Bytes), (∃ t, (skip n).run u = some (⟨⟩, t)) ↔ n ≤ u.length := by
    intro n u
    have hrun : (exactly n).run u = if u.length < n then none else some (u.take n, u.drop n) := rfl
    unfold skip
    rw [StateT.run_map, hrun]
    by_cases h : u.length < n
    · simp [h]
    · simp [h, Nat.le_of_not_lt h]
  unfold getRecords PayloadField.pass
  simp only [run_bind_some]
  constructor
  · rintro ⟨records, r, len, u, hlen, left, v, hrest, ⟨⟩, w, hle, -⟩
    cases hrest
    obtain ⟨t, ht⟩ := (hskip len.toNat u).mpr (run_ensure_some.mp hle).1
    exact ⟨t, len, u, hlen, ht⟩
  · rintro ⟨t, len, u, hlen, ht⟩
    exact ⟨_, _, len, u, hlen, u, [], rfl, ⟨⟩, [],
      run_ensure_some.mpr ⟨(hskip len.toNat u).mp ⟨t, ht⟩, rfl⟩, rfl⟩

theorem decode_produce_iff {payload : Bytes} :
    (∃ m r, ProduceRequest.decode.run payload = some (m, r)) ↔
      ∃ t, (valuesTaken .produce).run payload = some (true, t) := by
  simp only [ProduceRequest.decode, valuesTaken, run_bind_some]
  constructor
  · rintro ⟨m, r, topic, u1, h1, partition, u2, h2, acks, u3, h3, ms, u4, h4, count, u5, h5,
      records, u6, h6, mode, u7, hmode, ⟨⟩, u8, hpart, -⟩
    obtain ⟨t, ht⟩ := run_getRecords_iff.mp ⟨records, u6, h6⟩
    refine ⟨t, topic, u1, h1, partition, u2, h2, acks, u3, h3, ms, u4, h4, count, u5, h5, ⟨⟩,
      t, ht, ?_⟩
    rw [(run_lift_some.mp hmode).1, decide_eq_true (run_ensure_some.mp hpart).1]
    rfl
  · rintro ⟨t, topic, u1, h1, partition, u2, h2, acks, u3, h3, ms, u4, h4, count, u5, h5, ⟨⟩, u6,
      h6, hok⟩
    obtain ⟨records, r, hr⟩ := run_getRecords_iff.mpr ⟨u6, h6⟩
    have hvalues := Bool.and_eq_true_iff.mp (Prod.mk.inj (Option.some.inj hok)).1
    obtain ⟨mode, hmode⟩ := Option.isSome_iff_exists.mp hvalues.2
    exact ⟨_, r, topic, u1, h1, partition, u2, h2, acks, u3, h3, ms, u4, h4, count, u5, h5,
      records, r, hr, mode, r, run_lift_some.mpr ⟨hmode, rfl⟩, ⟨⟩, r,
      run_ensure_some.mpr ⟨of_decide_eq_true hvalues.1, rfl⟩, rfl⟩

theorem decode_replicate_iff {payload : Bytes} :
    (∃ m r, ReplicateRequest.decode.run payload = some (m, r)) ↔
      ∃ t, (valuesTaken .replicate).run payload = some (true, t) := by
  simp only [ReplicateRequest.decode, valuesTaken, run_bind_some]
  constructor
  · rintro ⟨m, r, topic, u1, h1, partition, u2, h2, leader, u3, h3, ⟨⟩, u4, hpart, epoch, u5, h5,
      base, u6, h6, prev, u7, h7, mark, u8, h8, start, u9, h9, count, u10, h10, records,
        u11, h11, -⟩
    obtain ⟨hpos, rfl⟩ := run_ensure_some.mp hpart
    obtain ⟨t, ht⟩ := run_getRecords_iff.mp ⟨records, u11, h11⟩
    refine ⟨t, topic, u1, h1, partition, u2, h2, leader, _, h3, epoch, u5, h5, base, u6, h6, prev,
      u7, h7, mark, u8, h8, start, u9, h9, count, u10, h10, ⟨⟩, t, ht, ?_⟩
    rw [decide_eq_true hpos]
    rfl
  · rintro ⟨t, topic, u1, h1, partition, u2, h2, leader, u3, h3, epoch, u5, h5, base, u6, h6, prev,
      u7, h7, mark, u8, h8, start, u9, h9, count, u10, h10, ⟨⟩, u11, h11, hok⟩
    obtain ⟨records, r, hr⟩ := run_getRecords_iff.mpr ⟨u11, h11⟩
    have hpos := of_decide_eq_true (Prod.mk.inj (Option.some.inj hok)).1
    exact ⟨_, r, topic, u1, h1, partition, u2, h2, leader, u3, h3, ⟨⟩, u3,
      run_ensure_some.mpr ⟨hpos, rfl⟩, epoch, u5, h5, base, u6, h6, prev, u7, h7, mark, u8, h8,
      start, u9, h9, count, u10, h10, records, r, hr, rfl⟩
end Protocol

end PulseLog
