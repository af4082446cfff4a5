/-
  Subject:   `Flush` on one thread; appends, rolls and truncations on another.

  The threads share the atomics of a log and the list of its segments. Each step below is one access
  to them, or one system call. The list is guarded by a shared mutex: the flusher holds it while it
  goes through the segments, a roll holds it for its push, and a truncation from the cut to its end.

  * `next` -- one event: a step of either thread, or a call of the writer.

  With `sync_on_append` the writer calls `Flush` itself, at the end of each append, and waits for
  it.
-/
import Mathlib.Data.PNat.Basic
import PulseLog.Storage.PartitionLog

namespace PulseLog

open List

namespace FlushThreads

/-! ## 1. Segments -/

/-- A segment. Its file holds records of these sizes; the first `durable` of them are covered by a
    sync that began after they were written and has returned. -/
structure Seg where
  baseOffset : Nat
  sizes : List ℕ+
  durable : Nat
  endPosition : Nat
  nextOffset : Nat
  syncedPosition : Nat
  deriving DecidableEq

/-- The bytes of some records. -/
def bytesOf (sizes : List ℕ+) : Nat := (sizes.map PNat.val).sum

theorem bytesOf_append (sizes more : List ℕ+) :
    bytesOf (sizes ++ more) = bytesOf sizes + bytesOf more := by
  simp [bytesOf]

theorem bytesOf_pos {sizes : List ℕ+} (h : sizes ≠ []) : 0 < bytesOf sizes := by
  obtain ⟨n, rest, rfl⟩ := exists_cons_of_ne_nil h
  have := n.pos
  simp only [bytesOf, map_cons, sum_cons]
  omega

/-- Where `Segment::Sync` stands: it has loaded `end_position_`, it is in the `fsync` of the log
    file, which had `written` records when it began, or it is in those of the indexes. -/
inductive SyncAt where
  | enter
  | loaded (position : Nat)
  | file (position written : Nat)
  | indexes (position : Nat)
  deriving DecidableEq

/-- What a step of `Segment::Sync` leads to. -/
inductive SyncResult where
  | continues (a : SyncAt)
  | returned (ok : Bool)
  deriving DecidableEq

namespace Seg

/-- Where record `i` of the file begins. -/
def position (g : Seg) (i : Nat) : Nat := bytesOf (g.sizes.take i)

/-- `Segment::Sync`; `ok` says whether the system call of the step succeeds. -/
def syncStep (g : Seg) (ok : Bool) : SyncAt → Seg × SyncResult
  | .enter => (g, .continues (.loaded g.endPosition))
  | .loaded position =>
    if position = g.syncedPosition then (g, .returned true)
    else (g, .continues (.file position g.sizes.length))
  | .file position written =>
    if ok then ({ g with durable := max g.durable written }, .continues (.indexes position))
    else (g, .returned false)
  | .indexes position =>
    if ok then ({ g with syncedPosition := position }, .returned true) else (g, .returned false)

/-- `Segment::TruncateFrom`. -/
def truncateFrom (g : Seg) (offset : Nat) : Seg :=
  if offset ≥ g.nextOffset then g
  else if offset ≤ g.baseOffset then
    { g with
      sizes := []
      durable := 0
      endPosition := 0
      nextOffset := g.baseOffset
      syncedPosition := 0 }
  else
    let position := g.position (offset - g.baseOffset)
    { g with
      sizes := g.sizes.take (offset - g.baseOffset)
      durable := min g.durable (offset - g.baseOffset)
      endPosition := position
      nextOffset := offset
      syncedPosition := min g.syncedPosition position }

/-- The segment a roll opens. -/
def fresh (base : Nat) : Seg := ⟨base, [], 0, 0, base, 0⟩

end Seg

/-- The loop of `TruncateTo` over the segments that begin at or after `offset`. -/
def dropBack (offset : Nat) : Nat → List Seg → List Seg
  | 0, segments => segments
  | n + 1, segments =>
    match segments.getLast? with
    | none => segments
    | some g =>
      if segments.length > 1 ∧ g.baseOffset ≥ offset then dropBack offset n segments.dropLast
      else segments

/-- What `TruncateTo` leaves of the segments. -/
def cut (offset : Nat) (segments : List Seg) : List Seg :=
  let kept := dropBack offset segments.length segments
  kept.modify (kept.length - 1) (fun g => g.truncateFrom offset)

/-! ## 2. The threads -/

/-- The locals of `Flush`: the counters it has read and the log end it has captured. -/
structure Covers where
  bytes : Int
  records : Int
  target : Nat
  deriving DecidableEq

/-- Where the flusher stands. From `scanning` to `syncing` it holds the shared lock. -/
inductive Flusher where
  | idle
  | called
  | bytesRead (bytes : Int)
  | recordsRead (bytes records : Int)
  | captured (f : Covers)
  | waiting (f : Covers)
  | scanning (f : Covers) (i : Nat)
  | comparing (f : Covers) (i syncedBytes : Nat)
  | syncing (f : Covers) (i : Nat) (a : SyncAt)
  | covered (f : Covers)
  | published (f : Covers)
  | bytesTaken (f : Covers)
  | recordsTaken
  deriving DecidableEq

/-- The locals of an append. -/
structure Append where
  base : Nat
  count : Nat
  bytes : Nat
  deriving DecidableEq

/-- Where the writer stands. From `cutDone` to `bytesZeroed` it holds the exclusive lock. -/
inductive Writer where
  | idle
  | written (a : Append)
  | endStored (a : Append)
  | nextStored (a : Append)
  | logEndStored (a : Append)
  | bytesAdded (a : Append)
  | flushing (a : Append)
  | rollSync (a : SyncAt)
  | rollPush
  | truncating (offset : Nat)
  | cutDone (offset : Nat)
  | logEndLowered (offset : Nat)
  | lowering (offset : Nat)
  | lowered
  | bytesZeroed
  deriving DecidableEq

/-- The flusher holds the lock. -/
def Flusher.locked : Flusher → Bool
  | .scanning .. | .comparing .. | .syncing .. => true
  | _ => false

/-- The writer holds the lock. -/
def Writer.locked : Writer → Bool
  | .cutDone .. | .logEndLowered .. | .lowering .. | .lowered | .bytesZeroed => true
  | _ => false

/-- The log and its two threads; `finished` lists the appends that have returned. -/
structure State where
  policy : FlushPolicy
  segments : List Seg
  logStartOffset : Nat
  logEndOffset : Nat
  flushedOffset : Nat
  unflushedBytes : Int
  unflushedRecords : Int
  lastFlushMs : Int
  flusher : Flusher
  writer : Writer
  finished : List Append
  deriving DecidableEq

namespace State

/-- `Flush` at segment `i`, in `Segment::Sync`. -/
def syncAt (s : State) (f : Covers) (i : Nat) (a : SyncAt) (ok : Bool) : State :=
  match s.segments[i]? with
  | none => s
  | some g =>
    let s' := { s with segments := s.segments.set i (g.syncStep ok a).1 }
    match (g.syncStep ok a).2 with
    | .continues a' => { s' with flusher := .syncing f i a' }
    | .returned true => { s' with flusher := .scanning f (i + 1) }
    | .returned false => { s' with flusher := .idle }

/-- One step of `PartitionLog::Flush`. -/
def flusherStep (s : State) (ok : Bool) (now : Int) : State :=
  match s.flusher with
  | .idle => if s.policy.syncOnAppend then s else { s with flusher := .called }
  | .called => { s with flusher := .bytesRead s.unflushedBytes }
  | .bytesRead bytes => { s with flusher := .recordsRead bytes s.unflushedRecords }
  | .recordsRead bytes records => { s with flusher := .captured ⟨bytes, records, s.logEndOffset⟩ }
  | .captured f =>
    if f.target = s.flushedOffset then { s with flusher := .idle }
    else { s with flusher := .waiting f }
  | .waiting f => if s.writer.locked then s else { s with flusher := .scanning f 0 }
  | .scanning f i =>
    match s.segments[i]? with
    | none => { s with flusher := .covered f }
    | some g => { s with flusher := .comparing f i g.syncedPosition }
  | .comparing f i syncedBytes =>
    match s.segments[i]? with
    | none => s
    | some g =>
      if syncedBytes < g.endPosition then { s with flusher := .syncing f i .enter }
      else { s with flusher := .scanning f (i + 1) }
  | .syncing f i a => s.syncAt f i a ok
  | .covered f => { s with flushedOffset := f.target, flusher := .published f }
  | .published f =>
    { s with unflushedBytes := s.unflushedBytes - f.bytes, flusher := .bytesTaken f }
  | .bytesTaken f =>
    { s with unflushedRecords := s.unflushedRecords - f.records, flusher := .recordsTaken }
  | .recordsTaken => { s with lastFlushMs := now, flusher := .idle }

/-- Change the active segment. -/
def onActive (s : State) (f : Seg → Seg) : State :=
  { s with segments := s.segments.modify (s.segments.length - 1) f }

/-- `Segment::AppendEncoded` up to the write. -/
def beginAppend (s : State) (sizes : List ℕ+) : State :=
  match s.segments.getLast? with
  | none => s
  | some g =>
    if sizes = [] then s
    else { s.onActive (fun g => { g with sizes := g.sizes ++ sizes }) with
      writer := .written ⟨g.nextOffset, sizes.length, bytesOf sizes⟩ }

/-- `TruncateTo` up to the lock. -/
def beginTruncate (s : State) (offset : Nat) : State :=
  if offset ≥ s.logEndOffset ∨ offset < s.logStartOffset then s
  else { s with writer := .truncating offset }

/-- `RollSegment` in the sync of the old segment. -/
def rollAt (s : State) (a : SyncAt) (ok : Bool) : State :=
  match s.segments.getLast? with
  | none => s
  | some g =>
    let s' := { s with segments := s.segments.set (s.segments.length - 1) (g.syncStep ok a).1 }
    match (g.syncStep ok a).2 with
    | .continues a' => { s' with writer := .rollSync a' }
    | .returned true => { s' with writer := .rollPush }
    | .returned false => { s' with writer := .idle }

/-- The push of `RollSegment`. -/
def push (s : State) : State :=
  match s.segments.getLast? with
  | none => s
  | some g => { s with segments := s.segments ++ [Seg.fresh g.nextOffset], writer := .idle }

/-- One step of the call the writer is in. -/
def writerStep (s : State) (ok : Bool) : State :=
  match s.writer with
  | .idle => s
  | .written a =>
    { s.onActive (fun g => { g with endPosition := g.endPosition + a.bytes }) with
      writer := .endStored a }
  | .endStored a =>
    { s.onActive (fun g => { g with nextOffset := a.base + a.count }) with writer := .nextStored a }
  | .nextStored a => { s with logEndOffset := a.base + a.count, writer := .logEndStored a }
  | .logEndStored a =>
    { s with unflushedBytes := s.unflushedBytes + a.bytes, writer := .bytesAdded a }
  | .bytesAdded a =>
    if s.policy.syncOnAppend then
      { s with
        unflushedRecords := s.unflushedRecords + a.count
        writer := .flushing a
        flusher := .called }
    else
      { s with
        unflushedRecords := s.unflushedRecords + a.count
        writer := .idle
        finished := s.finished ++ [a] }
  | .flushing a =>
    if s.flusher = .idle then { s with writer := .idle, finished := s.finished ++ [a] } else s
  | .rollSync a => s.rollAt a ok
  | .rollPush => if s.flusher.locked then s else s.push
  | .truncating offset =>
    if s.flusher.locked then s
    else { s with segments := cut offset s.segments, writer := .cutDone offset }
  | .cutDone offset => { s with logEndOffset := offset, writer := .logEndLowered offset }
  | .logEndLowered offset =>
    if s.flushedOffset > offset then { s with writer := .lowering offset }
    else { s with writer := .lowered }
  | .lowering offset => { s with flushedOffset := offset, writer := .lowered }
  | .lowered => { s with unflushedBytes := 0, writer := .bytesZeroed }
  | .bytesZeroed => { s with unflushedRecords := 0, writer := .idle }

/-- `PartitionLog::NeedsFlush`. -/
def needsFlush (s : State) (now : Int) : Bool :=
  !s.policy.syncOnAppend && s.unflushedBytes != 0 &&
    (decide (s.policy.maxUnflushedBytes > 0 ∧ s.unflushedBytes ≥ s.policy.maxUnflushedBytes) ||
      decide (s.policy.maxUnflushedRecords > 0 ∧ s.unflushedRecords ≥
        s.policy.maxUnflushedRecords) ||
      decide (s.policy.intervalMs > 0 ∧ now - s.lastFlushMs ≥ s.policy.intervalMs))

end State

/-- A step of a thread, or a call of the writer. `ok` is the result of the step's system call, `now`
    what it reads from the clock. -/
inductive Event where
  | flusher (ok : Bool) (now : Int)
  | writer (ok : Bool)
  | append (sizes : List ℕ+)
  | roll
  | truncateTo (offset : Nat)

/-- The writer is in one call at a time. -/
def next (s : State) : Event → State
  | .flusher ok now => s.flusherStep ok now
  | .writer ok => s.writerStep ok
  | .append sizes => if s.writer = .idle then s.beginAppend sizes else s
  | .roll => if s.writer = .idle then { s with writer := .rollSync .enter } else s
  | .truncateTo offset => if s.writer = .idle then s.beginTruncate offset else s

def run (s : State) (es : List Event) : State := es.foldl next s

section Lists

variable {segments : List Seg} {i : Nat} {g g' : Seg} {f : Seg → Seg}

theorem getLast?_active :
    (segments.modify (segments.length - 1) f).getLast? = segments.getLast?.map f := by
  rcases eq_nil_or_concat' segments with rfl | ⟨front, g, rfl⟩
  · rfl
  · rw [length_append, length_singleton, Nat.add_sub_cancel, modify_concat]
    simp

theorem getElem?_of_getLast? (hg : segments.getLast? = some g) :
    segments[segments.length - 1]? = some g := by
  rw [← hg, getLast?_eq_getElem?]

/-- Changing a segment keeps a value of the active one, if the change does. -/
theorem getLast?_set {α : Type} (v : Seg → α) (hg : segments[i]? = some g) (hv : v g' = v g) :
    (segments.set i g').getLast?.map v = segments.getLast?.map v := by
  rw [getLast?_eq_getElem?, getLast?_eq_getElem?, length_set, getElem?_set]
  split
  · rename_i hi
    subst hi
    rw [if_pos (List.getElem?_eq_some_iff.mp hg).1, hg, Option.map_some, Option.map_some, hv]
  · rfl

end Lists

theorem Seg.syncStep_nextOffset (g : Seg) (ok : Bool) (a : SyncAt) :
    (g.syncStep ok a).1.nextOffset = g.nextOffset := by
  cases a <;> simp only [syncStep] <;> (try split) <;> rfl

/-! ## 3. The start -/

/-- A segment without unsynced records and without a write in flight. -/
structure Seg.Sealed (g : Seg) : Prop where
  durable : g.durable = g.sizes.length
  ends : g.endPosition = bytesOf g.sizes
  next : g.nextOffset = g.baseOffset + g.sizes.length
  synced : g.syncedPosition = g.endPosition

/-- **What `Open` leaves**: everything counts as flushed, and both threads are idle. -/
structure Fresh (s : State) : Prop where
  segments : ∀ g ∈ s.segments, g.Sealed
  chain : s.segments.IsChain (fun g g' => g'.baseOffset = g.nextOffset)
  active : s.segments.getLast?.map Seg.nextOffset = some s.logEndOffset
  flushed : s.flushedOffset = s.logEndOffset
  unflushedBytes : s.unflushedBytes = 0
  flusher : s.flusher = .idle
  writer : s.writer = .idle
  finished : s.finished = []

/-- An empty log with a flush interval of 200 ms. -/
def emptyLog (syncOnAppend : Bool) : State :=
  ⟨⟨syncOnAppend, 200, 0, 0⟩, [Seg.fresh 0], 0, 0, 0, 0, 0, 0, .idle, .idle, []⟩

theorem fresh_emptyLog (syncOnAppend : Bool) : Fresh (emptyLog syncOnAppend) := by
  refine ⟨fun g hg => ?_, .singleton _, rfl, rfl, rfl, rfl, rfl, rfl⟩
  rw [mem_singleton.mp hg]
  exact ⟨rfl, rfl, rfl, rfl⟩

/-- An append of one record of 27 bytes, up to where its records are counted. -/
def oneAppend : List Event := .append [27] :: List.replicate 5 (.writer true)

end FlushThreads

end PulseLog
