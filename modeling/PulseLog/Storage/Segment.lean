/-
  Subject:   One segment: a log file and its two indexes (include/pulselog/storage/segment.h,
             src/storage/segment.cc).

  A method is a computation on the segment object and the world. Loops run on fuel; a loop that
  the fuel does not end does not return (`halted`). Every bound below is one the loop cannot use
  up unless it stands still, as the recovery scan does on a record larger than its chunk.
-/
import PulseLog.Protocol.Record
import PulseLog.Storage.OffsetIndex

namespace PulseLog

/-- `kRecoveryChunkBytes`. -/
def recoveryChunkBytes : Nat := 2 ^ 20

/-- The difference of two `uint64_t` values. -/
def uint64Sub (a b : Nat) : Nat := if b ≤ a then a - b else a + 2 ^ 64 - b

/-- `SegmentOptions`; the write and sync modes change no behaviour here. -/
structure SegmentOptions where
  maxBytes : Int
  indexIntervalBytes : Int
  preallocate : Bool
  deriving Repr, DecidableEq

/-- `RecoveryReport`. -/
structure RecoveryReport where
  nextOffset : Nat
  validBytes : Nat
  truncatedBytes : Nat
  preallocatedBytes : Nat
  recordsScanned : Nat
  truncated : Bool
  reason : String
  deriving Repr, DecidableEq

/-- `Segment`. `id` is the object's identity (its address), `isOpen` says that its file
    descriptors are valid. -/
structure Segment where
  id : Nat
  options : SegmentOptions
  baseOffset : Nat
  index : OffsetIndex
  timeIndex : TimeIndex
  isOpen : Bool
  createdAt : Int
  endPosition : Nat
  nextOffset : Nat
  syncedPosition : Nat
  maxTimestamp : Int
  recordCount : Nat
  lastIndexedPosition : Nat
  preallocatedTo : Nat
  deriving Repr, DecidableEq

/-! ## 1. The recovery scan -/

/-- Where the scan of one chunk ended; `stop` is the reason when the whole scan ends there. -/
structure ScanStep where
  chunkPos : Nat
  offset : Nat
  records : Nat
  maxTimestamp : Int
  stop : Option String
  deriving Repr, DecidableEq

/-- The inner loop of `Recover`. `more` says that the file goes on behind the chunk: then a record
    cut by the end of the chunk is read again from its start. -/
def scanChunk (chunk : Bytes) (more : Bool) (position : Nat) :
    Nat → Nat → Nat → Nat → Int → ScanStep
  | 0, chunkPos, offset, records, maxTimestamp => ⟨chunkPos, offset, records, maxTimestamp, none⟩
  | fuel + 1, chunkPos, offset, records, maxTimestamp =>
    if chunkPos < chunk.length then
      match parseRecord chunk chunkPos true with
      | .error e =>
        if e.code = .outOfRange ∧ more = true then
          ⟨chunkPos, offset, records, maxTimestamp, none⟩
        else
          ⟨chunkPos, offset, records, maxTimestamp,
            some (e.toText ++ s!" (file offset {position + chunkPos})")⟩
      | .ok (view, next) =>
        if view.offset ≠ offset then
          ⟨chunkPos, offset, records, maxTimestamp,
            some s!"offset discontinuity: expected {offset}, found {view.offset}"⟩
        else
          scanChunk chunk more position fuel next (offset + 1) (records + 1)
            (max maxTimestamp view.timestamp)
    else ⟨chunkPos, offset, records, maxTimestamp, none⟩

/-- What the scan found. -/
structure Scanned where
  position : Nat
  offset : Nat
  records : Nat
  maxTimestamp : Int
  reason : String
  deriving Repr, DecidableEq

/-- The outer loop of `Recover` over a file of bytes `data`. -/
def scanLoop (data : Bytes) : Nat → Nat → Nat → Nat → Int → Outcome Status Scanned
  | 0, _, _, _, _ => .halted
  | fuel + 1, position, offset, records, maxTimestamp =>
    if position < data.length then
      let want := min recoveryChunkBytes (data.length - position)
      let chunk := slice data position want
      let step := scanChunk chunk
        (chunk.length == want && decide (position + chunk.length < data.length)) position
        chunk.length 0 offset records maxTimestamp
      match step.stop with
      | some reason =>
        .ok ⟨position + step.chunkPos, step.offset, step.records, step.maxTimestamp, reason⟩
      | none =>
        if step.chunkPos = 0 then
          -- the chunk is not grown: the next round reads the same bytes again
          if want ≥ maxRecordBytes + 64 then
            .ok ⟨position, offset, records, maxTimestamp,
              "record larger than the maximum record size"⟩
          else scanLoop data fuel position offset records maxTimestamp
        else
          scanLoop data fuel (position + step.chunkPos) step.offset step.records step.maxTimestamp
    else .ok ⟨position, offset, records, maxTimestamp, ""⟩

namespace Segment

def logPath (s : Segment) : Path := ⟨s.baseOffset, .log⟩

/-- Run a method of the offset index. -/
def onIndex {α : Type} (p : Prog Status (OffsetIndex × World) α) :
    Prog Status (Segment × World) α :=
  Prog.zoom (fun s => (s.1.index, s.2)) (fun t s => ({ s.1 with index := t.1 }, t.2)) p

/-- Run a method of the time index. -/
def onTimeIndex {α : Type} (p : Prog Status (TimeIndex × World) α) :
    Prog Status (Segment × World) α :=
  Prog.zoom (fun s => (s.1.timeIndex, s.2)) (fun t s => ({ s.1 with timeIndex := t.1 }, t.2)) p

/-- Change fields of the object. -/
def update (f : Segment → Segment) : Prog Status (Segment × World) Unit :=
  Prog.modify (fun s => (f s.1, s.2))

/-! ## 2. Opening and recovery -/

/-- The preallocation of a new file in `Segment::Open`: how far the file is known to reach. A
    failure is logged and the segment goes on without it. -/
def preallocateNew (base : Nat) (options : SegmentOptions) (existed : Bool) (fileSize : Nat) :
    Prog Status World Nat := do
  if existed = false ∧ options.preallocate = true ∧ options.maxBytes > 0 then do
    let status ← (preallocateFile ⟨base, .log⟩ options.maxBytes.toNat).attempt
    match status with
    | .ok _ => pure options.maxBytes.toNat
    | .error _ => pure fileSize
  else pure fileSize

/-- `Segment::Open`. -/
def openSegment (id base : Nat) (options : SegmentOptions) : Prog Status World Segment := do
  let w ← Prog.get
  let existed := w.fileExists ⟨base, .log⟩
  openFile ⟨base, .log⟩
  let index ← offsetFormat.openIndex base
  let timeIndex ← timeFormat.openIndex base
  let w ← Prog.get
  let preallocatedTo ← preallocateNew base options existed (w.size ⟨base, .log⟩)
  let createdAt ← clockMillis
  return ⟨id, options, base, index, timeIndex, true, createdAt, 0, base, 0, -1, 0,
    OffsetIndex.lastIndexedPosition index, preallocatedTo⟩

/-- Where `Recover` starts: at the last index entry, or at the beginning. -/
def scanStart (s : Segment) (fullScan : Bool) : Nat × Nat :=
  if fullScan = false ∧ s.index.entries ≠ [] then
    (OffsetIndex.lastIndexedPosition s.index, OffsetIndex.lastIndexedOffset s.index)
  else (0, s.baseOffset)

/-- The report of a scan: unwritten preallocated space is told from damage by its zero length. -/
def report (data : Bytes) (r : Scanned) : RecoveryReport :=
  let tail := slice data r.position 4
  let cut := data.length - r.position
  if r.position < data.length then
    if tail.length = 4 ∧ loadLe 4 tail 0 = 0 then
      ⟨r.offset, r.position, 0, cut, r.records, false, ""⟩
    else
      ⟨r.offset, r.position, cut, 0, r.records, true,
        if r.reason.isEmpty then "trailing bytes are not a valid record" else r.reason⟩
  else ⟨r.offset, r.position, 0, 0, r.records, false, ""⟩

/-- `Segment::Recover`. -/
def recover (fullScan : Bool) : Prog Status (Segment × World) RecoveryReport := do
  let t ← Prog.get
  let data := t.2.bytes t.1.logPath
  let start := t.1.scanStart fullScan
  let r ← Prog.ofOutcome (scanLoop data (data.length + 1) start.1 start.2 0 (-1))
  Prog.when (r.position < data.length) do
    Prog.onSnd (truncateFile t.1.logPath r.position)
    onIndex (offsetFormat.truncateFrom r.offset)
    onTimeIndex (timeFormat.truncateFrom r.offset)
    update (fun s => { s with preallocatedTo := r.position })
  update (fun s => { s with
    endPosition := r.position
    syncedPosition := r.position
    nextOffset := r.offset
    recordCount := r.records + (if fullScan then 0 else s.index.entries.length)
    maxTimestamp := max r.maxTimestamp (TimeIndex.maxTimestamp s.timeIndex)
    lastIndexedPosition := OffsetIndex.lastIndexedPosition s.index })
  return report data r

/-! ## 3. Appending -/

/-- The index part of `FinishAppend`; its errors are logged and dropped. -/
def indexAppend (appendBase : Nat) (maxTimestamp : Int) : Prog Status (Segment × World) Unit := do
  let t ← Prog.get
  let start := t.1.endPosition
  -- both sides of the comparison are uint64_t
  if uint64Sub start t.1.lastIndexedPosition ≥ ofI64 t.1.options.indexIntervalBytes ∨
      t.1.index.entries = [] then do
    let status ← (onIndex (OffsetIndex.append appendBase start)).attempt
    match status with
    | .error _ => pure ()
    | .ok _ => do
      update (fun s => { s with lastIndexedPosition := start })
      let _ ← (onTimeIndex (TimeIndex.append maxTimestamp appendBase)).attempt
      pure ()
  else pure ()

/-- `Segment::FinishAppend`. -/
def finishAppend (bytes appendBase lastOffset recordCount : Nat) (maxTimestamp : Int) :
    Prog Status (Segment × World) Unit := do
  indexAppend appendBase maxTimestamp
  update (fun s => { s with
    endPosition := s.endPosition + bytes
    nextOffset := lastOffset + 1
    recordCount := s.recordCount + recordCount
    maxTimestamp := max s.maxTimestamp maxTimestamp })

/-- `Segment::AppendEncoded`. -/
def appendEncoded (records : Bytes) (appendBase lastOffset recordCount : Nat)
    (maxTimestamp : Int) : Prog Status (Segment × World) Unit := do
  if records = [] then pure ()
  else do
    let t ← Prog.get
    update (fun s => { s with
      preallocatedTo := max s.preallocatedTo (s.endPosition + records.length) })
    Prog.onSnd (writeAllAt t.1.logPath records t.1.endPosition)
    finishAppend records.length appendBase lastOffset recordCount maxTimestamp

/-- `Segment::AppendEncodedVectored`: one `pwritev` over the chunks. -/
def appendEncodedVectored (chunks : List Bytes) (appendBase lastOffset recordCount : Nat)
    (maxTimestamp : Int) : Prog Status (Segment × World) Unit := do
  if chunks.flatten = [] then pure ()
  else do
    let t ← Prog.get
    update (fun s => { s with
      preallocatedTo := max s.preallocatedTo (s.endPosition + chunks.flatten.length) })
    Prog.onSnd (writeVectoredAt t.1.logPath chunks t.1.endPosition)
    finishAppend chunks.flatten.length appendBase lastOffset recordCount maxTimestamp

/-! ## 4. Looking up and reading -/

/-- The inner loop of `PositionFor`: records of the block, up to `offset` or the block's end. -/
def walkBlock (block : Bytes) (limit position offset : Nat) :
    Nat → Nat → Nat → Except Status (Nat × Nat)
  | 0, blockPos, current => .ok (blockPos, current)
  | fuel + 1, blockPos, current =>
    if current < offset ∧ blockPos + 4 ≤ block.length then
      let recordSize := loadLe 4 block blockPos + 4
      if recordSize < recordFixedPrefix ∨ position + blockPos + recordSize > limit then
        .error (.corruption
          s!"scan for offset {offset} ran off the segment at {position + blockPos}")
      else if blockPos + recordSize > block.length then .ok (blockPos, current)
      else walkBlock block limit position offset fuel (blockPos + recordSize) (current + 1)
    else .ok (blockPos, current)

/-- The outer loop of `PositionFor`: a block at a time, grown once for a record that exceeds it. -/
def seekLoop (data : Bytes) (limit offset : Nat) : Nat → Nat → Nat → Nat → Outcome Status Nat
  | 0, _, _, _ => .halted
  | fuel + 1, blockSize, position, current =>
    if current < offset then
      let want := min blockSize (uint64Sub limit position)
      let block := slice data position want
      if want < 4 then
        .error (.corruption s!"scan for offset {offset} ran off the segment at {position}")
      else if block.length < 4 then
        .error (.corruption s!"scan for offset {offset} hit the end of the segment at {position}")
      else
        match walkBlock block limit position offset (offset - current) 0 current with
        | .error e => .error e
        | .ok (blockPos, current') =>
          if blockPos = 0 then
            let recordSize := loadLe 4 block 0 + 4
            if recordSize < recordFixedPrefix ∨ recordSize > maxRecordBytes ∨
                position + recordSize > limit then
              .error (.corruption
                s!"scan for offset {offset} found an impossible record size at {position}")
            else if recordSize ≤ blockSize then
              .error (.corruption s!"scan for offset {offset} made no progress at {position}")
            else seekLoop data limit offset fuel recordSize position current
          else seekLoop data limit offset fuel blockSize (position + blockPos) current'
    else .ok position

/-- Where the scan for an offset starts: at the index entry at or below it. -/
def seekStart (s : Segment) (offset : Nat) : Nat × Nat :=
  match OffsetIndex.lookupFloor s.index offset with
  | some e => (e.filePosition, s.baseOffset + e.relativeOffset)
  | none => (0, s.baseOffset)

/-- `Segment::PositionFor`. -/
def positionFor (s : Segment) (w : World) (offset : Nat) : Outcome Status Nat :=
  if offset < s.baseOffset then
    .error (.outOfRange s!"offset {offset} precedes segment base {s.baseOffset}")
  else if offset ≥ s.nextOffset then
    .error (.outOfRange s!"offset {offset} is at or past segment end {s.nextOffset}")
  else
    let start := s.seekStart offset
    if start.2 ≥ offset then .ok start.1
    else
      seekLoop (w.bytes s.logPath) s.endPosition offset (2 * (offset - start.2) + 2)
        (max s.options.indexIntervalBytes 8192).toNat start.1 start.2

/-- The inner loop of `Read`: whole records of the chunk within the budget. -/
def acceptLoop (chunk : Bytes) (endOffset offset maxBytes bytes count : Nat) :
    Nat → Nat → Nat → Nat × Nat
  | 0, accepted, n => (accepted, n)
  | fuel + 1, accepted, n =>
    if accepted < chunk.length ∧ offset + n < endOffset then
      let recordSize := loadLe 4 chunk accepted + 4
      if accepted + 4 > chunk.length then (accepted, n)
      else if accepted + recordSize > chunk.length then (accepted, n)
      -- one record is always returned, however large
      else if count + n > 0 ∧ bytes + accepted + recordSize > maxBytes then (accepted, n)
      else acceptLoop chunk endOffset offset maxBytes bytes count fuel (accepted + recordSize)
        (n + 1)
    else (accepted, n)

/-- What a read has gathered: its record count and the bytes put into the output buffer. -/
structure Gathered where
  count : Nat
  out : Bytes
  deriving Repr, DecidableEq

/-- The outer loop of `Read`; the result is the offset after the last record, and the records. -/
def readLoop (data : Bytes) (limit endOffset maxBytes : Nat) :
    Nat → Nat → Nat → Gathered → Outcome Status (Nat × Gathered)
  | 0, _, _, _ => .halted
  | fuel + 1, cursor, offset, acc =>
    if cursor < limit ∧ offset < endOffset then
      let budgetLeft := maxBytes - acc.out.length
      let lengthBytes := slice data cursor 4
      let recordSize := loadLe 4 lengthBytes 0 + 4
      if budgetLeft = 0 then .ok (offset, acc)
      else if lengthBytes.length ≠ 4 then
        .error (.outOfRange
          s!"short read: wanted 4 bytes at offset {cursor}, got {lengthBytes.length}")
      else if recordSize < recordFixedPrefix ∨ cursor + recordSize > limit then
        .error (.corruption
          s!"record at position {cursor} claims a size that runs past the segment end")
      else
        let room := min (min recoveryChunkBytes (limit - cursor)) budgetLeft
        if room < recordSize ∧ acc.count > 0 then .ok (offset, acc)
        else
          let chunk := slice data cursor (max room recordSize)
          if chunk.length < recordSize then .ok (offset, acc)
          else
            let got := acceptLoop chunk endOffset offset maxBytes acc.out.length acc.count
              chunk.length 0 0
            if got.1 = 0 then .ok (offset, acc)
            else readLoop data limit endOffset maxBytes fuel (cursor + got.1) (offset + got.2)
              ⟨acc.count + got.2, acc.out ++ chunk.take got.1⟩
    else .ok (offset, acc)

/-- `Segment::ReadResult`, with the bytes the call appended to its buffer. A segment below 4 GiB has
    fewer records than the uint32 `recordCount` can count. -/
structure ReadResult where
  baseOffset : Nat
  recordCount : Nat
  out : Bytes
  reachedEnd : Bool
  deriving Repr, DecidableEq

/-- `Segment::Read`. -/
def read (s : Segment) (w : World) (offset maxBytes : Nat) : Outcome Status ReadResult :=
  if offset ≥ s.nextOffset then .ok ⟨offset, 0, [], true⟩
  else
    match s.positionFor w offset with
    | .error e => .error e
    | .halted => .halted
    | .ok position =>
      match readLoop (w.bytes s.logPath) s.endPosition s.nextOffset maxBytes
          (s.nextOffset - offset + 1) position offset ⟨0, []⟩ with
      | .error e => .error e
      | .halted => .halted
      | .ok (next, acc) => .ok ⟨offset, acc.count, acc.out, decide (next ≥ s.nextOffset)⟩

/-! ## 5. Truncating, syncing, closing, deleting -/

/-- `Segment::TruncateFrom`. -/
def truncateFrom (offset : Nat) : Prog Status (Segment × World) Unit := do
  let t ← Prog.get
  if offset ≥ t.1.nextOffset then pure ()
  else if offset ≤ t.1.baseOffset then do
    Prog.onSnd (truncateFile t.1.logPath 0)
    onIndex (offsetFormat.truncateFrom t.1.baseOffset)
    onTimeIndex (timeFormat.truncateFrom t.1.baseOffset)
    update (fun s => { s with
      endPosition := 0, nextOffset := s.baseOffset, syncedPosition := 0, recordCount := 0
      lastIndexedPosition := 0, preallocatedTo := 0 })
  else do
    let position ← Prog.ofOutcome (t.1.positionFor t.2 offset)
    Prog.onSnd (truncateFile t.1.logPath position)
    onIndex (offsetFormat.truncateFrom offset)
    onTimeIndex (timeFormat.truncateFrom offset)
    update (fun s => { s with
      endPosition := position
      nextOffset := offset
      syncedPosition := min s.syncedPosition position
      recordCount := offset - s.baseOffset
      lastIndexedPosition := OffsetIndex.lastIndexedPosition s.index
      preallocatedTo := position })

/-- `Segment::Sync`. The position is taken before the fsync. -/
def sync : Prog Status (Segment × World) Unit := do
  let t ← Prog.get
  if t.1.endPosition = t.1.syncedPosition then pure ()
  else do
    Prog.onSnd (syncFile t.1.logPath)
    onIndex offsetFormat.sync
    onTimeIndex timeFormat.sync
    update (fun s => { s with syncedPosition := t.1.endPosition })

/-- The descriptors are closed and the indexes emptied. -/
def closeHandles (s : Segment) : Segment :=
  { s with isOpen := false, index := { s.index with entries := [] },
           timeIndex := { s.timeIndex with entries := [] } }

/-- `Segment::Close`: sync, trim the preallocated rest, close; the first error is returned. -/
def close : Prog Status (Segment × World) Unit := do
  let t ← Prog.get
  if t.1.isOpen = false then update closeHandles
  else do
    let status ← sync.attempt
    let t ← Prog.get
    let trimmed ←
      (Prog.when (t.1.preallocatedTo > t.1.endPosition)
        (Prog.onSnd (truncateFile t.1.logPath t.1.endPosition))).attempt
    update closeHandles
    Prog.ofExcept status
    Prog.ofExcept trimmed

/-- `Segment::Delete`: the three files; only the last call's error is seen. -/
def delete : Prog Status (Segment × World) Unit := do
  let t ← Prog.get
  let _ ← (Prog.onSnd (removeFile ⟨t.1.baseOffset, .log⟩)).attempt
  let _ ← (Prog.onSnd (removeFile ⟨t.1.baseOffset, .index⟩)).attempt
  let last ← (Prog.onSnd (removeFile ⟨t.1.baseOffset, .tindex⟩)).attempt
  match last with
  | .ok _ => pure ()
  | .error e => Prog.fail (.ioError s!"removing segment {t.1.baseOffset}: {e.message}")

end Segment

end PulseLog
