/-
  Subject:   The log of one partition: an ordered list of segments
             (include/pulselog/storage/partition_log.h, src/storage/partition_log.cc).

  The methods of the writer thread, one call at a time; `active_` is a pointer, here the identity
  of a segment, and following it when the object is gone does not return. Metrics are left out.

  * `openLog` -- `Open` with `LoadSegments`; a log that fails to load is destroyed, which closes
    what it had opened.
-/
import PulseLog.Storage.Batch
import PulseLog.Storage.Segment

namespace PulseLog

/-- `FlushPolicy`. -/
structure FlushPolicy where
  syncOnAppend : Bool
  intervalMs : Int
  maxUnflushedBytes : Int
  maxUnflushedRecords : Int
  deriving Repr, DecidableEq

/-- `LogOptions`, without the directory and the write and sync modes. -/
structure LogOptions where
  segmentBytes : Int
  segmentMs : Int
  indexIntervalBytes : Int
  retentionBytes : Int
  retentionMs : Int
  minFreeDiskBytes : Int
  preallocate : Bool
  flush : FlushPolicy
  deriving Repr, DecidableEq

def LogOptions.segmentOptions (o : LogOptions) : SegmentOptions :=
  ⟨o.segmentBytes, o.indexIntervalBytes, o.preallocate⟩

/-- `AppendResult`. -/
structure AppendResult where
  baseOffset : Nat
  lastOffset : Nat
  recordCount : Nat
  bytes : Nat
  appendTime : Int
  rolledSegment : Bool
  deriving Repr, DecidableEq

/-- `PartitionLog`. -/
structure PartitionLog where
  options : LogOptions
  segments : List Segment
  active : Option Nat
  nextId : Nat
  logStartOffset : Nat
  logEndOffset : Nat
  flushedOffset : Nat
  unflushedBytes : Int
  unflushedRecords : Int
  lastFlushMs : Int
  diskCheckDueMs : Int
  diskFull : Bool
  closed : Bool
  deriving Repr, DecidableEq

namespace PartitionLog

/-- The constructor. -/
def make (options : LogOptions) (now : Int) : PartitionLog :=
  ⟨options, [], none, 0, 0, 0, 0, 0, 0, now, 0, false, false⟩

/-- Change fields of the object. -/
def update (f : PartitionLog → PartitionLog) : Prog Status (PartitionLog × World) Unit :=
  Prog.modify (fun s => (f s.1, s.2))

/-- Run a method of the segment `id` points to. -/
def onSegment {α : Type} (id : Nat) (p : Prog Status (Segment × World) α) :
    Prog Status (PartitionLog × World) α :=
  Prog.zoom (fun s => (s.1.segments, s.2)) (fun t s => ({ s.1 with segments := t.1 }, t.2))
    (fun t => Prog.onFirst (fun seg => seg.id == id) p t.1 t.2)

/-- Run a method of every segment in turn. -/
def onSegments {α : Type} (p : Prog Status (Segment × World) α) :
    Prog Status (PartitionLog × World) (List α) :=
  Prog.zoom (fun s => (s.1.segments, s.2)) (fun t s => ({ s.1 with segments := t.1 }, t.2))
    (fun t => Prog.onEach p t.1 t.2)

/-- The object behind a segment pointer. -/
def deref (id : Nat) : Prog Status (PartitionLog × World) Segment := do
  let t ← Prog.get
  match t.1.segments.find? (fun seg => seg.id == id) with
  | some seg => pure seg
  | none => Prog.halt

/-- `active_`, which the callers below never find null. -/
def activeSegment : Prog Status (PartitionLog × World) Segment := do
  let t ← Prog.get
  match t.1.active with
  | some id => deref id
  | none => Prog.halt

/-! ## 1. Rolling and flushing -/

/-- `kDiskCheckIntervalMs`. -/
def diskCheckIntervalMs : Int := 1000

/-- `PartitionLog::CheckDiskSpace`. -/
def checkDiskSpace : Prog Status (PartitionLog × World) Unit := do
  let now ← Prog.onSnd clockMillis
  let t ← Prog.get
  let full := Prog.fail (.resourceExhausted "disk below the configured free-space floor")
  if now < t.1.diskCheckDueMs then
    if t.1.diskFull then full else pure ()
  else do
    update (fun l => { l with diskCheckDueMs := now + diskCheckIntervalMs })
    let available ← Prog.onSnd availableBytes
    match available with
    | none => update (fun l => { l with diskFull := false })
    | some a => do
      update (fun l => { l with diskFull := decide ((a : Int) < t.1.options.minFreeDiskBytes) })
      if (a : Int) < t.1.options.minFreeDiskBytes then full else pure ()

/-- `PartitionLog::RollSegment`: the new file is made first, then the old one is synced. -/
def rollSegment : Prog Status (PartitionLog × World) Unit := do
  let t ← Prog.get
  match t.1.active with
  | none => do
    let segment ← Prog.onSnd
      (Segment.openSegment t.1.nextId t.1.logEndOffset t.1.options.segmentOptions)
    let _ ← (Prog.onSnd syncDirectory).attempt
    update (fun l => { l with
      segments := l.segments ++ [segment], active := some segment.id, nextId := l.nextId + 1 })
  | some id => do
    let previous ← deref id
    let segment ← Prog.onSnd
      (Segment.openSegment t.1.nextId previous.nextOffset t.1.options.segmentOptions)
    onSegment id Segment.sync
    -- an error of the directory fsync is logged and dropped
    let _ ← (Prog.onSnd syncDirectory).attempt
    update (fun l => { l with
      segments := l.segments ++ [segment], active := some segment.id, nextId := l.nextId + 1 })

/-- `PartitionLog::MaybeRoll`. -/
def maybeRoll (incomingBytes : Nat) : Prog Status (PartitionLog × World) Unit := do
  let t ← Prog.get
  match t.1.active with
  | none => Prog.fail (.internal "partition log has no active segment")
  | some id => do
    let active ← deref id
    let size := active.endPosition
    let bySize := t.1.options.segmentBytes > 0 ∧
      ((size + incomingBytes : Nat) : Int) > t.1.options.segmentBytes ∧ size > 0
    let byAge ←
      if t.1.options.segmentMs > 0 ∧ size > 0 then do
        let now ← Prog.onSnd clockMillis
        pure (decide (now - active.createdAt ≥ t.1.options.segmentMs))
      else pure false
    -- index positions are 32 bits wide
    let byLimit := size + incomingBytes > uint32Max
    if bySize ∨ byAge = true ∨ byLimit then rollSegment else pure ()

/-- `PartitionLog::Flush`. -/
def flush : Prog Status (PartitionLog × World) Unit := do
  let t ← Prog.get
  if t.1.logEndOffset = t.1.flushedOffset then pure ()
  else do
    let _ ← onSegments do
      let s ← Prog.get
      Prog.when (s.1.syncedPosition < s.1.endPosition) Segment.sync
    update (fun l => { l with
      flushedOffset := t.1.logEndOffset
      unflushedBytes := l.unflushedBytes - t.1.unflushedBytes
      unflushedRecords := l.unflushedRecords - t.1.unflushedRecords })
    let now ← Prog.onSnd clockMillis
    update (fun l => { l with lastFlushMs := now })

/-! ## 2. Appending -/

/-- `PartitionLog::FinalizeAppend`. -/
def finalizeAppend (result : AppendResult) : Prog Status (PartitionLog × World) Unit := do
  let t ← Prog.get
  update (fun l => { l with
    logEndOffset := result.lastOffset + 1
    unflushedBytes := l.unflushedBytes + result.bytes
    unflushedRecords := l.unflushedRecords + result.recordCount })
  if t.1.options.flush.syncOnAppend then flush else pure ()

/-- The refusals all three append paths start with. -/
def refuseAppend (empty : Bool) : Prog Status (PartitionLog × World) Unit := do
  let t ← Prog.get
  if t.1.closed then Prog.fail ⟨.closed, "log is closed"⟩
  else if empty then Prog.fail (.invalidArgument "append with no records")
  else checkDiskSpace

/-- `PartitionLog::AppendAssigningOffsets`. -/
def appendAssigningOffsets (records : Bytes) (recordCount : Nat) :
    Prog Status (PartitionLog × World) AppendResult := do
  refuseAppend (records.isEmpty || recordCount == 0)
  maybeRoll records.length
  let active ← activeSegment
  let base := active.nextOffset
  let appendTime ← Prog.onSnd clockMillis
  let a ← Prog.ofOutcome (assignLoop appendTime records.length records 0 base (-1) 0)
  if a.seen ≠ recordCount then
    Prog.fail (.invalidArgument
      s!"produce batch declared {recordCount} records but contains {a.seen}")
  else do
    onSegment active.id (Segment.appendEncoded a.data base (a.offset - 1) a.seen a.maxTimestamp)
    let result : AppendResult := ⟨base, a.offset - 1, a.seen, records.length, appendTime, false⟩
    finalizeAppend result
    return result

/-- `PartitionLog::AppendWithOffsets`. -/
def appendWithOffsets (records : Bytes) (recordCount : Nat) :
    Prog Status (PartitionLog × World) AppendResult := do
  refuseAppend (records.isEmpty || recordCount == 0)
  let t ← Prog.get
  let expected := t.1.logEndOffset
  let c ← Prog.ofExcept (checkReplicated records expected)
  if c.seen ≠ recordCount then
    Prog.fail (.invalidArgument
      s!"replicated batch declared {recordCount} records but contains {c.seen}")
  else do
    maybeRoll records.length
    let active ← activeSegment
    if active.nextOffset ≠ expected then
      Prog.fail (.internal s!"segment end {active.nextOffset} disagrees with log end {expected}")
    else do
      onSegment active.id
        (Segment.appendEncoded records expected (c.offset - 1) c.seen c.maxTimestamp)
      let appendTime ← Prog.onSnd clockMillis
      let result : AppendResult :=
        ⟨expected, c.offset - 1, c.seen, records.length, appendTime, false⟩
      finalizeAppend result
      return result

/-- `PartitionLog::AppendVectoredWithOffsets`. -/
def appendVectoredWithOffsets (chunks : List Bytes) (recordCount : Nat) :
    Prog Status (PartitionLog × World) AppendResult := do
  refuseAppend (chunks.flatten.isEmpty || recordCount == 0)
  maybeRoll chunks.flatten.length
  let active ← activeSegment
  let base := active.nextOffset
  let c ← Prog.ofExcept (checkChunks chunks ⟨base, -1, 0⟩)
  if c.seen ≠ recordCount then
    Prog.fail (.invalidArgument
      s!"vectored append declared {recordCount} records but contains {c.seen}")
  else do
    onSegment active.id
      (Segment.appendEncodedVectored chunks base (c.offset - 1) c.seen c.maxTimestamp)
    let appendTime ← Prog.onSnd clockMillis
    let result : AppendResult :=
      ⟨base, c.offset - 1, c.seen, chunks.flatten.length, appendTime, false⟩
    finalizeAppend result
    return result

/-! ## 3. Truncation, retention, closing -/

/-- Close and delete a segment that was taken out of the list. -/
def discard (segment : Segment) : Prog Status (PartitionLog × World) Unit := do
  let _ ← Prog.onSnd (Prog.runOn segment do
    Segment.close
    Segment.delete)
  pure ()

/-- The loop of `TruncateTo` over the segments that begin at or after `offset`. -/
def dropBack (offset : Nat) : Nat → Prog Status (PartitionLog × World) Unit
  | 0 => pure ()
  | n + 1 => do
    let t ← Prog.get
    match t.1.segments.getLast? with
    | none => pure ()
    | some segment =>
      if t.1.segments.length > 1 ∧ segment.baseOffset ≥ offset then do
        update (fun l => { l with segments := l.segments.dropLast })
        discard segment
        dropBack offset n
      else pure ()

/-- `PartitionLog::TruncateTo`. -/
def truncateTo (offset : Nat) : Prog Status (PartitionLog × World) Unit := do
  let t ← Prog.get
  if offset ≥ t.1.logEndOffset then pure ()
  else if offset < t.1.logStartOffset then
    Prog.fail (.outOfRange s!"cannot truncate to {offset}; log starts at {t.1.logStartOffset}")
  else do
    dropBack offset t.1.segments.length
    update (fun l => { l with active := l.segments.getLast?.map Segment.id })
    let active ← activeSegment
    onSegment active.id (Segment.truncateFrom offset)
    update (fun l => { l with
      logEndOffset := offset
      flushedOffset := min l.flushedOffset offset
      unflushedBytes := 0
      unflushedRecords := 0 })

/-- The loop of `EnforceRetention`; `deleted` counts. -/
def dropFront (now : Int) : Nat → Nat → Prog Status (PartitionLog × World) Nat
  | 0, deleted => pure deleted
  | n + 1, deleted => do
    let t ← Prog.get
    match t.1.segments with
    | oldest :: newest :: rest =>
      let total : Nat := ((oldest :: newest :: rest).map Segment.endPosition).sum
      let tooOld := t.1.options.retentionMs > 0 ∧ oldest.maxTimestamp > 0 ∧
        now - oldest.maxTimestamp > t.1.options.retentionMs
      let tooBig := t.1.options.retentionBytes > 0 ∧ (total : Int) > t.1.options.retentionBytes
      if tooOld ∨ tooBig then do
        update (fun l => { l with segments := newest :: rest })
        discard oldest
        update (fun l => { l with logStartOffset := newest.baseOffset })
        dropFront now n (deleted + 1)
      else pure deleted
    | _ => pure deleted

/-- `PartitionLog::EnforceRetention`. -/
def enforceRetention : Prog Status (PartitionLog × World) Nat := do
  let t ← Prog.get
  if t.1.options.retentionBytes ≤ 0 ∧ t.1.options.retentionMs ≤ 0 then pure 0
  else do
    let now ← Prog.onSnd clockMillis
    dropFront now t.1.segments.length 0

/-- The first error of a list of results. -/
def firstError : List (Except Status Unit) → Except Status Unit
  | [] => .ok ()
  | .error e :: _ => .error e
  | .ok _ :: rest => firstError rest

/-- `PartitionLog::Close`. -/
def close : Prog Status (PartitionLog × World) Unit := do
  let t ← Prog.get
  if t.1.closed then pure ()
  else do
    update (fun l => { l with closed := true })
    let results ← onSegments Segment.close.attempt
    update (fun l => { l with active := none })
    Prog.ofExcept (firstError results)

/-! ## 4. Opening -/

/-- The report of several segments, one after the other. -/
def combine (a b : RecoveryReport) : RecoveryReport where
  nextOffset := b.nextOffset
  validBytes := a.validBytes + b.validBytes
  truncatedBytes := a.truncatedBytes + (if b.truncated then b.truncatedBytes else 0)
  preallocatedBytes := a.preallocatedBytes + b.preallocatedBytes
  recordsScanned := a.recordsScanned + b.recordsScanned
  truncated := a.truncated || b.truncated
  reason := if b.truncated then b.reason else a.reason

/-- The loop of `LoadSegments`: open and recover the segments in the order of their bases. -/
def loadEach : List Nat → RecoveryReport → Prog Status (PartitionLog × World) RecoveryReport
  | [], combined => pure combined
  | base :: rest, combined => do
    let t ← Prog.get
    let segment ← Prog.onSnd (Segment.openSegment t.1.nextId base t.1.options.segmentOptions)
    let recovered ← Prog.onSnd (Prog.runOn segment (Segment.recover false))
    update (fun l => { l with
      segments := l.segments ++ [recovered.2], nextId := l.nextId + 1 })
    loadEach rest (combine combined recovered.1)

/-- `PartitionLog::LoadSegments`. -/
def loadSegments : Prog Status (PartitionLog × World) RecoveryReport := do
  let t ← Prog.get
  if t.2.logBases = [] then do
    let segment ← Prog.onSnd (Segment.openSegment t.1.nextId 0 t.1.options.segmentOptions)
    update (fun l => { l with
      segments := l.segments ++ [segment], active := some segment.id, nextId := l.nextId + 1
      logStartOffset := 0, logEndOffset := 0, flushedOffset := 0 })
    return ⟨0, 0, 0, 0, 0, false, ""⟩
  else do
    let combined ← loadEach t.2.logBases ⟨0, 0, 0, 0, 0, false, ""⟩
    update (fun l => { l with
      active := l.segments.getLast?.map Segment.id
      logStartOffset := (l.segments.head?.map Segment.baseOffset).getD 0
      logEndOffset := (l.segments.getLast?.map Segment.nextOffset).getD 0
      flushedOffset := (l.segments.getLast?.map Segment.nextOffset).getD 0 })
    return combined

/-- `PartitionLog::Open`. A log that fails to load is destroyed, and its destructor closes it. -/
def openLog (options : LogOptions) : Prog Status World (PartitionLog × RecoveryReport) := do
  ensureDirectory
  let now ← clockMillis
  let loaded ← Prog.runOn (make options now) loadSegments.attempt
  match loaded.1 with
  | .ok report => pure (loaded.2, report)
  | .error e => do
    let _ ← Prog.runOn loaded.2 close.attempt
    Prog.fail e

/-! ## 5. Reading -/

/-- `PartitionLog::SegmentForOffsetLocked`: the place of the last segment based at or below. -/
def segmentForOffset (l : PartitionLog) (offset : Nat) : Option Nat :=
  let it := lowerBound (fun s => ¬ offset < s.baseOffset) l.segments
  if it = 0 then none else some (it - 1)

/-- `LogReadResult`, with the bytes the call appended to its buffer. `recordCount` is a uint32: a
    buffer of less than 100 GiB holds fewer records than that. -/
structure LogReadResult where
  baseOffset : Nat
  recordCount : Nat
  out : Bytes
  logStartOffset : Nat
  logEndOffset : Nat
  deriving Repr, DecidableEq

/-- The loop of `Read`, at the segment in place `i`. -/
def readSegments (l : PartitionLog) (w : World) (maxBytes : Nat) :
    Nat → Nat → Nat → Segment.Gathered → Outcome Status Segment.Gathered
  | 0, _, _, _ => .halted
  | fuel + 1, i, cursor, acc =>
    match l.segments[i]? with
    | none => .ok acc
    | some segment =>
      if acc.out.length < maxBytes then
        match segment.read w cursor (maxBytes - acc.out.length) with
        | .error e => .error e
        | .halted => .halted
        | .ok chunk =>
          let acc' : Segment.Gathered := ⟨acc.count + chunk.recordCount, acc.out ++ chunk.out⟩
          let cursor' := cursor + chunk.recordCount
          if chunk.recordCount = 0 then
            if chunk.reachedEnd = false then .ok acc'
            else readSegments l w maxBytes fuel (i + 1) cursor' acc'
          else if cursor' ≥ l.logEndOffset then .ok acc'
          else if cursor' ≥ segment.nextOffset then
            readSegments l w maxBytes fuel (i + 1) cursor' acc'
          else readSegments l w maxBytes fuel i cursor' acc'
      else .ok acc

/-- `PartitionLog::Read`. -/
def read (l : PartitionLog) (w : World) (offset maxBytes : Nat) : Outcome Status LogReadResult :=
  if offset < l.logStartOffset then
    .error (.outOfRange
      s!"offset {offset} was deleted by retention (log starts at {l.logStartOffset})")
  else if offset > l.logEndOffset then
    .error (.outOfRange s!"offset {offset} is beyond the log end {l.logEndOffset}")
  else if offset = l.logEndOffset then
    .ok ⟨offset, 0, [], l.logStartOffset, l.logEndOffset⟩
  else
    match l.segmentForOffset offset with
    | none => .error (.outOfRange s!"no segment holds offset {offset}")
    | some i =>
      match readSegments l w maxBytes (l.logEndOffset - offset + l.segments.length + 1) i offset
          ⟨0, []⟩ with
      | .error e => .error e
      | .halted => .halted
      | .ok acc => .ok ⟨offset, acc.count, acc.out, l.logStartOffset, l.logEndOffset⟩

/-- `PartitionLog::OffsetForTimestamp` for a timestamp that is no sentinel. -/
def offsetForTimestamp (l : PartitionLog) (timestamp : Int) : Nat :=
  let hit (s : Segment) : Option Nat :=
    if s.maxTimestamp ≥ 0 ∧ s.maxTimestamp < timestamp then none
    else TimeIndex.lookupCeiling s.timeIndex timestamp
  (l.segments.findSome? hit).getD l.logEndOffset

end PartitionLog

end PulseLog
