/-
  Subject:   The store of committed consumer offsets (include/pulselog/consumer/offset_store.h,
             src/consumer/offset_store.cc).

  The store is a map in memory and a partition log as its journal: a commit appends a record and
  then sets the entry of the map, `Open` replays the journal. Strings are byte strings here, as in
  the fields of a payload; the coordinator's `OffsetKey` has them as text. `ForGroup` and `Size`,
  which only list the map, and the flag `sync_on_commit_`, which nothing reads behind `Open`, are
  left out.

  * `decodeKey_encodeKey`, `decodeValue_encodeValue` -- what a commit writes is read back.
-/
import PulseLog.General.Keyed
import PulseLog.Protocol.Codec
import PulseLog.Protocol.RecordWrite
import PulseLog.Storage.PartitionLog

namespace PulseLog

namespace OffsetStore

open PulseLog.Parser PulseLog.Protocol

/-! ## 1. Keys and values -/

/-- `OffsetKey`. -/
structure OffsetKey where
  groupId : Bytes
  topic : Bytes
  partition : Int32
  deriving Repr, DecidableEq

/-- `CommittedOffset`. -/
structure CommittedOffset where
  offset : Int64
  metadata : Bytes
  commitTime : Int64
  deriving Repr, DecidableEq

/-- The entries of `offsets_`. -/
abbrev Offsets := List (OffsetKey × CommittedOffset)

def encodeKey (key : OffsetKey) : Bytes :=
  putString key.groupId ++ (putString key.topic ++ putI32 key.partition)

def keyReader : PayloadReader OffsetKey := do
  let groupId ← getString
  let topic ← getString
  let partition ← getI32
  ensure (0 ≤ partition)
  pure ⟨groupId, topic, partition⟩

/-- `DecodeKey`; nothing may follow the partition. -/
def decodeKey (bytes : Bytes) : Option OffsetKey :=
  match keyReader.run bytes with
  | some (key, []) => some key
  | _ => none

def encodeValue (value : CommittedOffset) : Bytes :=
  putI64 value.offset ++ (putI64 value.commitTime ++ putString value.metadata)

def valueReader : PayloadReader CommittedOffset := do
  let offset ← getI64
  let commitTime ← getI64
  let metadata ← getString
  pure ⟨offset, metadata, commitTime⟩

/-- `DecodeValue`. -/
def decodeValue (bytes : Bytes) : Option CommittedOffset :=
  match valueReader.run bytes with
  | some (value, []) => some value
  | _ => none

/-- What a commit may be asked to store: the strings fit their length fields, and the partition is
    one. -/
structure Storable (key : OffsetKey) (value : CommittedOffset) : Prop where
  group : key.groupId.length ≤ maxStringLength
  topic : key.topic.length ≤ maxStringLength
  partition : 0 ≤ key.partition
  metadata : value.metadata.length ≤ maxStringLength

section RoundTrip

variable {key : OffsetKey} {value : CommittedOffset}

variable (h : Storable key value)
include h

theorem decodeKey_encodeKey : decodeKey (encodeKey key) = some key := by
  have hread : Reads keyReader (putString key.groupId ++ (putString key.topic ++
      (putI32 key.partition ++ ([] ++ [])))) key :=
    .bind (.string h.group) <| .bind (.string h.topic) <| .bind (.i32 _) <|
      .ensured h.partition <| .done _
  rw [List.append_nil, List.append_nil] at hread
  unfold decodeKey encodeKey
  rw [hread.complete]

theorem decodeValue_encodeValue :
    decodeValue (encodeValue value) = some value := by
  have hread : Reads valueReader (putI64 value.offset ++ (putI64 value.commitTime ++
      (putString value.metadata ++ []))) value :=
    .bind (.i64 _) <| .bind (.i64 _) <| .bind (.string h.metadata) <| .done _
  rw [List.append_nil] at hread
  unfold decodeValue encodeValue
  rw [hread.complete]

theorem length_encodeKey : (encodeKey key).length ≤ 131078 := by
  have hg := h.group
  have ht := h.topic
  unfold maxStringLength at hg ht
  simp only [encodeKey, List.length_append, length_putString, length_putI32]
  omega

theorem length_encodeValue : (encodeValue value).length ≤ 65553 := by
  have hm := h.metadata
  unfold maxStringLength at hm
  simp only [encodeValue, List.length_append, length_putString, length_putI64]
  omega

end RoundTrip

end OffsetStore

/-! ## 2. The store -/

/-- `OffsetStore`. -/
structure OffsetStore where
  log : Option PartitionLog
  offsets : OffsetStore.Offsets
  replayedRecords : Nat

namespace OffsetStore

/-- Run a method of the log; nothing checks that the store still has one. -/
def onLog {α : Type} (p : Prog Status (PartitionLog × World) α) :
    Prog Status (OffsetStore × World) α := fun t =>
  match t.1.log with
  | none => (.halted, t)
  | some l =>
    let r := p (l, t.2)
    (r.1, ({ t.1 with log := some r.2.1 }, r.2.2))

/-- The options of the journal. -/
def logOptions (syncOnCommit : Bool) : LogOptions where
  segmentBytes := 8 * 1024 * 1024
  segmentMs := -1
  indexIntervalBytes := 4096
  retentionBytes := -1
  retentionMs := -1
  minFreeDiskBytes := 64 * 1024 * 1024
  preallocate := false
  flush := ⟨syncOnCommit, 200, 256 * 1024, 100⟩

/-- `kTombstone`. -/
def tombstone : UInt8 := 0x04

/-- The replay of one record. A record without a key that parses is skipped and not counted. -/
def replayRecord (data : Bytes) (s : OffsetStore) (view : RecordView) : OffsetStore :=
  match decodeKey (view.key.bytes data) with
  | none => s
  | some key =>
    let offsets :=
      if view.attributes &&& tombstone ≠ 0 then s.offsets.filter fun e => e.1 ≠ key
      else
        match decodeValue (view.value.bytes data) with
        | some value => putKey Prod.fst s.offsets (key, value)
        | none => s.offsets
    { s with offsets := offsets, replayedRecords := s.replayedRecords + 1 }

/-- The loop of `Replay`. Each round reads one record at least. -/
def replayLoop (l : PartitionLog) (w : World) : Nat → Nat → OffsetStore → Outcome Status OffsetStore
  | 0, _, _ => .halted
  | fuel + 1, cursor, s =>
    if cursor < l.logEndOffset then
      match l.read w cursor (2 ^ 20) with
      | .error e => .error e
      | .halted => .halted
      | .ok read =>
        if read.recordCount = 0 then .ok s
        else
          let seen := iterateRecords read.out true
          match seen.2.status with
          | some e => .error (e.withContext "replaying the offset log")
          | none => replayLoop l w fuel (cursor + read.recordCount)
              (seen.1.foldl (replayRecord read.out) s)
    else .ok s

/-- `OffsetStore::Replay`. -/
def replay (l : PartitionLog) (w : World) (s : OffsetStore) : Outcome Status OffsetStore :=
  if l.logEndOffset = 0 then .ok s
  else replayLoop l w (l.logEndOffset - l.logStartOffset + 1) l.logStartOffset s

/-- `OffsetStore::Flush`. -/
def flush : Prog Status (OffsetStore × World) Unit := do
  let t ← Prog.get
  match t.1.log with
  | none => pure ()
  | some _ => onLog PartitionLog.flush

/-- `OffsetStore::Close`: the error of the flush goes before that of the close. -/
def close : Prog Status (OffsetStore × World) Unit := do
  let t ← Prog.get
  match t.1.log with
  | none => pure ()
  | some _ => do
    let flushed ← (onLog PartitionLog.flush).attempt
    let closed ← (onLog PartitionLog.close).attempt
    Prog.modify fun t => ({ t.1 with log := none }, t.2)
    match flushed with
    | .ok _ => Prog.ofExcept closed
    | .error e => Prog.fail e

/-- `OffsetStore::Open`. A store whose replay fails is destroyed, and its destructor closes it. -/
def openStore (syncOnCommit : Bool) : Prog Status World OffsetStore := do
  let opened ← PartitionLog.openLog (logOptions syncOnCommit)
  let w ← Prog.get
  let store : OffsetStore := ⟨some opened.1, [], 0⟩
  match replay opened.1 w store with
  | .ok s => pure s
  | .halted => Prog.halt
  | .error e => do
    let _ ← Prog.runOn store close.attempt
    Prog.fail e

/-- The record a commit appends. -/
def commitRecord (key : OffsetKey) (value : CommittedOffset) : NewRecord :=
  ⟨0, value.commitTime.toInt, 0, false, encodeKey key, encodeValue value⟩

/-- `OffsetStore::Commit`; the value holds its `offset`, `metadata` and `now`. -/
def commit (key : OffsetKey) (value : CommittedOffset) :
    Prog Status (OffsetStore × World) Unit := do
  let appended ←
    (onLog (PartitionLog.appendAssigningOffsets (commitRecord key value).bytes 1)).attempt
  match appended with
  | .error e => Prog.fail (e.withContext "committing consumer offset")
  | .ok _ =>
    Prog.modify fun t => ({ t.1 with offsets := putKey Prod.fst t.1.offsets (key, value) }, t.2)

/-- `OffsetStore::Get`. -/
def get (s : OffsetStore) (key : OffsetKey) : Option CommittedOffset :=
  (findKey Prod.fst s.offsets key).map Prod.snd

section Rules

variable {α : Type} {Q : α → OffsetStore × World → Prop} {E : Status → OffsetStore × World → Prop}
  {H : OffsetStore × World → Prop}

theorem sat_onLog {p : Prog Status (PartitionLog × World) α} {s : OffsetStore} {l : PartitionLog}
    {w : World} (hl : s.log = some l) (h : Sat (fun a t => Q a ({ s with log := some t.1 }, t.2))
      (fun e t => E e ({ s with log := some t.1 }, t.2))
      (fun t => H ({ s with log := some t.1 }, t.2)) (p (l, w))) : Sat Q E H (onLog p (s, w)) := by
  unfold onLog
  rw [hl]
  dsimp only
  rcases hr : p (l, w) with ⟨a | e | _, t⟩ <;> (rw [hr] at h; exact h)

end Rules

end OffsetStore

end PulseLog
