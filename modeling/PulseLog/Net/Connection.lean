/-
  Subject:   A framed connection (include/pulselog/net/connection.h, src/net/connection.cc).

  The socket answers every call with a transfer; `wire` is what it has taken. The poller does what
  it is told: `events` is what the connection was last registered for. Statistics, the idle clock
  and the reason of a close decide nothing and are left out.

  * `output_kept_iff` -- the wire, the counter and the registration are right after every call,
    exactly if the high-water mark is not zero;
  * `frames_handed` -- every frame is handed over once, in order and at once, as long as no read
    leaves more frames in the buffer than the cap; `frame_left_behind` -- else frames wait for bytes
    that need not come.
-/
import PulseLog.Protocol.Frame
import PulseLog.General.Run

namespace PulseLog

open Protocol List

/-- `TransferResult` of a write, or its error. -/
inductive Transfer where
  | bytes (n : Nat)
  | wouldBlock
  | eof
  | failed
  deriving Repr, DecidableEq

/-- `EventMask`. -/
structure EventMask where
  read : Bool
  write : Bool
  deriving Repr, DecidableEq

/-- `ConnectionOptions`. -/
structure ConnectionOptions where
  outputHighWaterBytes : Nat
  outputLowWaterBytes : Nat
  outputMaxBytes : Nat
  maxFrameBytes : UInt32
  maxFramesPerEvent : Nat
  deriving Repr, DecidableEq

/-- `kMaxWriteChunks`. -/
def maxWriteChunks : Nat := 64

/-- `OutputChunk`. -/
structure OutputChunk where
  buffer : Bytes
  sent : Nat
  deriving Repr, DecidableEq

/-- What is still to be sent. -/
def OutputChunk.pending (c : OutputChunk) : Bytes := c.buffer.drop c.sent

/-- `Connection`. -/
structure Connection where
  options : ConnectionOptions
  decoder : FrameDecoder
  input : Bytes
  output : List OutputChunk
  outputBytes : Nat
  readPaused : Bool
  wantWrite : Bool
  closing : Bool
  closeWhenDrained : Bool
  events : EventMask
  wire : Bytes
  deriving Repr, DecidableEq

namespace Connection

/-- The constructor, and the registration for reading by the loop. -/
def make (o : ConnectionOptions) : Connection :=
  ⟨o, ⟨o.maxFrameBytes, none⟩, [], [], 0, false, false, false, false, ⟨true, false⟩, []⟩

/-- `CloseNow`. -/
def closeNow (c : Connection) : Connection := { c with closing := true }

/-- `CloseWhenDrained`. -/
def drainAndClose (c : Connection) : Connection :=
  if c.closing then c
  else
    let c := { c with closeWhenDrained := true }
    if c.output = [] then c.closeNow else c

/-- `UpdatePollRegistration`. -/
def updatePollRegistration (c : Connection) : Connection :=
  if c.closing then c
  else
    let shouldPause := c.options.outputHighWaterBytes ≤ c.outputBytes
    let shouldResume := c.outputBytes ≤ c.options.outputLowWaterBytes
    let readPaused := if !c.readPaused ∧ shouldPause then true
      else if c.readPaused ∧ shouldResume then false else c.readPaused
    { c with readPaused, events := ⟨!readPaused, c.wantWrite⟩ }

/-- The loop of `FlushOutput` that takes written bytes off the queue. -/
def consumeOutput : Nat → List OutputChunk → List OutputChunk
  | _, [] => []
  | remaining, front :: output =>
    if remaining = 0 then front :: output
    else if front.pending.length ≤ remaining then consumeOutput
      (remaining - front.pending.length) output
    else { front with sent := front.sent + remaining } :: output

/-- The socket takes no more for now. -/
def blocked (c : Connection) : Connection := { c with wantWrite := true }.updatePollRegistration

/-- The queue is empty. -/
def drained (c : Connection) : Connection :=
  let c := { c with wantWrite := false }
  if c.closeWhenDrained then c.closeNow else c.updatePollRegistration

/-- `FlushOutput`, with what the socket answers to each call; behind the last answer it would block.
    The socket takes no more than it is offered. -/
def flushOutput : List Transfer → Connection → Connection
  | answers, c =>
    if c.output = [] then c.drained
    else
      match answers with
      | .bytes (n + 1) :: answers =>
        let chunks := (c.output.take maxWriteChunks).flatMap OutputChunk.pending
        let taken := chunks.take (n + 1)
        flushOutput answers { c with
          wire := c.wire ++ taken
          outputBytes := c.outputBytes - taken.length
          output := consumeOutput taken.length c.output }
      | .failed :: _ => c.closeNow
      | .eof :: _ => c.closeNow
      | _ => c.blocked

/-- `SendFrame`; whether the frame was accepted. -/
def sendFrame (c : Connection) (o : Outgoing) (answers : List Transfer) : Connection × Bool :=
  if c.closing then (c, false)
  else
    let buffer := o.encode
    if c.options.outputMaxBytes < c.outputBytes + buffer.length then (c.closeNow, false)
    else
      (flushOutput answers { c with
        outputBytes := c.outputBytes + buffer.length
        output := c.output ++ [⟨buffer, 0⟩] }, true)

/-- `OnWritable`. -/
def onWritable (c : Connection) (answers : List Transfer) : Connection := flushOutput answers c

/-- What `on_frame_` does to the connection; what has been read is not its business. -/
structure FrameCallback where
  run : Frame → Connection → Connection
  input : ∀ f c, (run f c).input = c.input
  decoder : ∀ f c, (run f c).decoder = c.decoder

/-- The decode loop of `OnReadable`: the frames handed over, and whether the callback closed the
    connection. -/
def decodeLoop (onFrame : FrameCallback) : Nat → Connection → Connection × List Frame × Bool
  | 0, c => (c, [], false)
  | frames + 1, c =>
    match c.decoder.next c.input with
    | (.needMore, _) => (c, [], false)
    | (.error, d) => ({ c with decoder := d }.closeNow, [], false)
    | (.frame f, _) =>
      let c := onFrame.run f c
      let c := { c with input := c.input.drop f.totalSize }
      if c.closing then (c, [f], true)
      else
        let (c, fs, cut) := decodeLoop onFrame frames c
        (c, f :: fs, cut)

/-- What `ReadInto` returns. -/
inductive Read where
  | bytes (chunk : Bytes)
  | wouldBlock
  | eof
  | failed
  deriving Repr, DecidableEq

/-- The bytes that were read. -/
def Read.chunk : Read → Bytes
  | .bytes chunk => chunk
  | _ => []

/-- `OnReadable`. -/
def onReadable (onFrame : FrameCallback) (c : Connection) (read : Read) :
    Connection × List Frame × Bool :=
  if c.closing then (c, [], false)
  else if read = .failed then (c.closeNow, [], false)
  else if read = .eof ∧ c.input = [] then (c.closeNow, [], false)
  else
    let (c, frames, cut) := decodeLoop onFrame c.options.maxFramesPerEvent
      { c with input := c.input ++ read.chunk }
    if c.closing then (c, frames, cut)
    else (if read = .eof then c.drainAndClose else c.updatePollRegistration, frames, cut)

/-! ## 1. Writing -/

/-- What is queued. -/
def pending (c : Connection) : Bytes := c.output.flatMap OutputChunk.pending

/-- A call, with the answers of the socket. -/
inductive Call where
  | send (o : Outgoing) (answers : List Transfer)
  | writable (answers : List Transfer)

/-- The connection and the frames it has accepted. -/
structure Sender where
  conn : Connection
  accepted : List Outgoing

def Sender.step (s : Sender) : Call → Sender
  | .send o answers =>
    let (conn, ok) := s.conn.sendFrame o answers
    ⟨conn, if ok then s.accepted ++ [o] else s.accepted⟩
  | .writable answers => { s with conn := s.conn.onWritable answers }

/-- The queue is what has been accepted and not written, and the counter counts it. -/
structure Queued (o : ConnectionOptions) (accepted : Bytes) (c : Connection) : Prop where
  options : c.options = o
  stream : c.wire ++ c.pending = accepted
  count : c.outputBytes = c.pending.length
  bound : c.outputBytes ≤ o.outputMaxBytes

/-- Registered for writing while there is something to write, and for reading if not. -/
def Registered (c : Connection) : Prop :=
  c.closing = false → (c.pending ≠ [] → c.events.write = true) ∧
    (c.pending = [] → c.events.read = true)

section Output

variable {o : ConnectionOptions} {accepted : Bytes} {c : Connection}

theorem pending_consumeOutput : ∀ (output : List OutputChunk) (n : Nat),
    (consumeOutput n output).flatMap OutputChunk.pending =
      (output.flatMap OutputChunk.pending).drop n
  | [], _ => by simp [consumeOutput]
  | front :: output, n => by
    unfold consumeOutput
    split
    · rename_i h0
      rw [h0, drop_zero]
    · split
      · rename_i hle
        rw [pending_consumeOutput, flatMap_cons, drop_append, drop_of_length_le hle, nil_append]
      · rw [flatMap_cons, flatMap_cons, drop_append_of_le_length (by omega)]
        simp [OutputChunk.pending]

theorem Queued.update (h : Queued o accepted c) : Queued o accepted c.updatePollRegistration := by
  unfold updatePollRegistration
  split
  · exact h
  · exact ⟨h.options, h.stream, h.count, h.bound⟩

theorem Queued.closeNow (h : Queued o accepted c) : Queued o accepted c.closeNow :=
  ⟨h.options, h.stream, h.count, h.bound⟩

/-- A registration of an empty queue is one for reading. -/
theorem registered_update (hhigh : 0 < o.outputHighWaterBytes) (h : Queued o accepted c)
    (hwrite : c.pending ≠ [] → c.wantWrite = true) : Registered c.updatePollRegistration := by
  unfold updatePollRegistration
  split
  · rename_i hclosing
    exact fun hopen => absurd hclosing (by rw [hopen]; simp)
  · refine fun _ => ⟨hwrite, fun hnil => ?_⟩
    have hzero : c.outputBytes = 0 := by
      rw [h.count, show c.pending = [] from hnil]
      rfl
    have hnot : ¬ c.options.outputHighWaterBytes ≤ 0 := by
      rw [h.options]
      omega
    cases hp : c.readPaused <;> simp [hzero, hnot]

/-- **A flush keeps the queue**, and leaves the connection registered for what it waits for. -/
theorem flushOutput_spec (hhigh : 0 < o.outputHighWaterBytes) :
    ∀ (answers : List Transfer) {c : Connection},
    Queued o accepted c → Queued o accepted (flushOutput answers c) ∧
      Registered (flushOutput answers c)
  | answers, c, h => by
    have hwant : ∀ w, Queued o accepted { c with wantWrite := w } :=
      fun _ => ⟨h.options, h.stream, h.count, h.bound⟩
    unfold flushOutput
    split
    · rename_i hnil
      unfold drained
      dsimp only
      split
      · exact ⟨(hwant _).closeNow, nofun⟩
      · refine ⟨(hwant _).update, registered_update hhigh (hwant _) fun hne => absurd ?_ hne⟩
        simp [pending, hnil]
    · split
      · -- the socket takes a front part of what is queued
        rename_i n answers
        set chunks := (c.output.take maxWriteChunks).flatMap OutputChunk.pending
        set taken := chunks.take (n + 1)
        have hchunks : chunks <+: c.pending := by
          rw [pending, ← take_append_drop maxWriteChunks c.output, flatMap_append]
          exact prefix_append _ _
        have htaken : taken <+: chunks := take_prefix _ _
        have hsplit : taken ++ c.pending.drop taken.length = c.pending :=
          prefix_iff_eq_append.mp (htaken.trans hchunks)
        have hlen := congrArg List.length hsplit
        rw [length_append] at hlen
        have hcount := h.count
        have hbound := h.bound
        refine flushOutput_spec hhigh answers ⟨h.options, ?_, ?_, ?_⟩
        · rw [pending, pending_consumeOutput, append_assoc]
          exact (congrArg _ hsplit).trans h.stream
        · rw [pending, pending_consumeOutput]
          show c.outputBytes - taken.length = (c.pending.drop taken.length).length
          omega
        · show c.outputBytes - taken.length ≤ _
          omega
      · exact ⟨h.closeNow, nofun⟩
      · exact ⟨h.closeNow, nofun⟩
      · exact ⟨(hwant _).update, registered_update hhigh (hwant _) fun _ => rfl⟩

theorem step_queued (hhigh : 0 < o.outputHighWaterBytes) {s : Sender} (call : Call)
    (h : Queued o (s.accepted.flatMap Outgoing.encode) s.conn ∧ Registered s.conn) :
    Queued o ((s.step call).accepted.flatMap Outgoing.encode) (s.step call).conn ∧
      Registered (s.step call).conn := by
  cases call with
  | writable answers => exact flushOutput_spec hhigh answers h.1
  | send out answers =>
    unfold Sender.step sendFrame
    dsimp only
    split
    · exact h
    · split
      · exact ⟨h.1.closeNow, nofun⟩
      · have hcount := h.1.count
        have hstream := h.1.stream
        have hpending : pending { s.conn with
            outputBytes := s.conn.outputBytes + out.encode.length
            output := s.conn.output ++ [⟨out.encode, 0⟩] } = s.conn.pending ++ out.encode := by
          simp [pending, OutputChunk.pending]
        refine flushOutput_spec hhigh answers ⟨h.1.options, ?_, ?_, ?_⟩
        · rw [hpending, ← append_assoc]
          simp [hstream]
        · rw [hpending, length_append, ← hcount]
        · rw [← h.1.options]
          show s.conn.outputBytes + out.encode.length ≤ _
          omega

end Output

/-- **The output is kept exactly if the high-water mark is not zero**: in every state that calls
    lead to, the wire is a front part of the accepted frames, the counter counts the rest within its
    bound, and the connection is registered for writing if there is a rest and for reading if
    not. -/
theorem output_kept_iff (o : ConnectionOptions) :
    (∀ calls : List Call, let s := calls.foldl Sender.step ⟨make o, []⟩
      s.conn.wire <+: s.accepted.flatMap Outgoing.encode ∧
      s.conn.wire.length + s.conn.outputBytes = (s.accepted.flatMap Outgoing.encode).length ∧
      s.conn.outputBytes ≤ o.outputMaxBytes ∧ Registered s.conn) ↔ 0 < o.outputHighWaterBytes := by
  constructor
  · intro h
    by_contra hhigh
    have hzero : o.outputHighWaterBytes = 0 := by omega
    have hread := ((h [.writable []]).2.2.2 rfl).2 rfl
    simp [Sender.step, onWritable, flushOutput, make, drained, updatePollRegistration,
      hzero] at hread
  · intro hhigh calls
    have hstart : Queued o [] (make o) ∧ Registered (make o) :=
      ⟨⟨rfl, rfl, rfl, Nat.zero_le _⟩, fun _ => ⟨fun hne => absurd rfl hne, fun _ => rfl⟩⟩
    have hend := List.foldlRecOn (b := ⟨make o, []⟩)
      (motive := fun s => Queued o (s.accepted.flatMap Outgoing.encode) s.conn ∧ Registered s.conn)
      calls Sender.step hstart fun s hs call _ => step_queued hhigh call hs
    refine ⟨⟨_, hend.1.stream⟩, ?_, hend.1.bound, hend.2⟩
    rw [hend.1.count, ← length_append, hend.1.stream]

/-- **A high-water mark of zero stops the reading**: the response has been written, and the
    connection waits for nothing. -/
theorem drained_not_reading :
    let s := Sender.step ⟨make ⟨0, 0, 64, 64, 64⟩, []⟩
      (.send ⟨⟨1, .health, 7, 0, 0, 0⟩, []⟩ [.bytes 32])
    s.conn.closing = false ∧ s.conn.wire.length = 32 ∧ s.conn.pending = [] ∧
      s.conn.events = ⟨false, false⟩ := by
  decide +kernel

/-! ## 2. Reading -/

/-- The connection, what the kernel holds for it, what is still to arrive, the frames handed over,
    and whether the callback closed the connection. -/
structure Inbound where
  conn : Connection
  unread : Bytes
  future : Bytes
  handed : List Frame
  cut : Bool

/-- Bytes arrive, or the loop calls `OnReadable` and the kernel hands out bytes, none, an end of
    stream or an error. -/
inductive Delivery where
  | arrive (n : Nat)
  | bytes (n : Nat)
  | wouldBlock
  | eof
  | failed

/-- What is read in a delivery. -/
def Inbound.read (s : Inbound) : Delivery → Read
  | .bytes n => .bytes (s.unread.take n)
  | .eof => .eof
  | .failed => .failed
  | _ => .wouldBlock

def Inbound.step (onFrame : FrameCallback) (s : Inbound) : Delivery → Inbound
  | .arrive n => { s with unread := s.unread ++ s.future.take n, future := s.future.drop n }
  | d =>
    let (conn, frames, cut) := s.conn.onReadable onFrame (s.read d)
    ⟨conn, s.unread.drop (if s.conn.closing then 0 else (s.read d).chunk.length), s.future,
      s.handed ++ frames, s.cut || cut⟩

/-- The buffer holds no more frames than one event may handle: looking for one more finds no
    more. -/
def Inbound.Fits (s : Inbound) (d : Delivery) : Prop :=
  (drain s.conn.decoder.scan (s.conn.options.maxFramesPerEvent + 1)
    (s.conn.input ++ (s.read d).chunk)).1.length ≤ s.conn.options.maxFramesPerEvent

/-- **Once, in order and at once**: the frames handed over are the first ones of the stream, and
    what has been read behind them is in the buffer; it holds no frame, unless the callback closed
    the connection. -/
def Inbound.InOrder (os : List Outgoing) (s : Inbound) : Prop :=
  ∃ done rest, os = done ++ rest ∧ s.handed = done.map Outgoing.frame ∧
    s.conn.input ++ (s.unread ++ s.future) = rest.flatMap Outgoing.encode ∧
    (s.cut = false → ∀ o ∈ rest.head?, ¬ o.encode <+: s.conn.input)

section Input

variable {onFrame : FrameCallback} {d : FrameDecoder} {future : Bytes}

theorem next_of_scan_more {b : Bytes} (h : d.scan b = .more) :
    d.next b = (.needMore, (d.next b).2) := by
  refine Prod.ext ?_ rfl
  unfold FrameDecoder.scan at h
  cases hnext : (d.next b).1 <;> rw [hnext] at h <;> first | rfl | cases h

/-- Frames were handed over in order; if the callback kept the connection open, what draining with
    the cap takes out was taken out. -/
def Decoded (d : FrameDecoder) (os : List Outgoing) (n : Nat) (input future : Bytes)
    (r : Connection × List Frame × Bool) : Prop :=
  ∃ done rest, os = done ++ rest ∧ r.2.1 = done.map Outgoing.frame ∧ r.1.decoder = d ∧
    r.1.input ++ future = rest.flatMap Outgoing.encode ∧
    (r.2.2 = false → r.1.input = (drain d.scan n input).2)

theorem decodeLoop_spec (onFrame : FrameCallback) (hd : d.error = none) :
    ∀ (n : Nat) {c : Connection} {os : List Outgoing},
      (∀ o ∈ os, o.Fits d.maxPayload ∧ o.Supported) → c.decoder = d →
      c.input ++ future = os.flatMap Outgoing.encode →
      Decoded d os n c.input future (decodeLoop onFrame n c)
  | 0, c, os, _, hdec, hin => ⟨[], os, rfl, rfl, hdec, hin, fun _ => rfl⟩
  | n + 1, c, os, hos, hdec, hin => by
    have hwait : d.scan c.input = .more →
        Decoded d os (n + 1) c.input future (decodeLoop onFrame (n + 1) c) := by
      intro hmore
      rw [decodeLoop, hdec, next_of_scan_more hmore, Decoded, drain_more hmore]
      exact ⟨[], os, rfl, rfl, hdec, hin, fun _ => rfl⟩
    cases os with
    | nil =>
      refine hwait ?_
      rw [(append_eq_nil_iff.mp hin).1]
      exact scan_nil hd
    | cons o os =>
      obtain ⟨hfit, hsup⟩ := hos o mem_cons_self
      have hdel := delimits_encodeFrame hd hfit hsup
      rcases cut_cases hin with ⟨hpre, hlt⟩ | ⟨t, ht, hrest⟩
      · exact hwait (hdel.waits _ hpre hlt)
      · have hsize : o.frame.totalSize = o.encode.length := by
          rw [Outgoing.encode, encodeFrame, length_append]
          rfl
        have hinput : (onFrame.run o.frame c).input.drop o.frame.totalSize = t := by
          rw [onFrame.input, ht, hsize, drop_left]
        rw [decodeLoop, hdec, ht, next_finds hd hfit hsup t, Decoded, drain_frame (hdel.finds t),
          drop_left]
        dsimp only
        rw [hinput]
        split
        · exact ⟨[o], os, rfl, rfl, (onFrame.decoder _ _).trans hdec, hrest, fun h => by cases h⟩
        · obtain ⟨done, rest, rfl, hdone, hdec', hleft, hcut⟩ := decodeLoop_spec onFrame hd n
            (c := { onFrame.run o.frame c with input := t })
            (fun o' ho' => hos o' (mem_cons_of_mem _ ho')) ((onFrame.decoder _ _).trans hdec) hrest
          exact ⟨o :: done, rest, rfl, by rw [map_cons, ← hdone], hdec', hleft, hcut⟩

/-- The invariant of the deliveries. -/
def Fed (d : FrameDecoder) (os : List Outgoing) (s : Inbound) : Prop :=
  s.conn.decoder = d ∧ s.InOrder os

/-- What stands behind the decode loop does not touch the buffer. -/
theorem afterLoop_kept (c : Connection) (eof : Prop) [Decidable eof] :
    (if eof then c.drainAndClose else c.updatePollRegistration).decoder = c.decoder ∧
      (if eof then c.drainAndClose else c.updatePollRegistration).input = c.input := by
  unfold drainAndClose updatePollRegistration closeNow
  dsimp only
  split <;> split <;> (try split) <;> exact ⟨rfl, rfl⟩

theorem onReadable_fed (hd : d.error = none) {os : List Outgoing}
    (hos : ∀ o ∈ os, o.Fits d.maxPayload ∧ o.Supported) {s : Inbound} (h : Fed d os s) (read : Read)
    (hchunk : read.chunk ++ s.unread.drop read.chunk.length = s.unread)
    (hfits : (drain s.conn.decoder.scan (s.conn.options.maxFramesPerEvent + 1)
      (s.conn.input ++ read.chunk)).1.length ≤ s.conn.options.maxFramesPerEvent) :
    let r := s.conn.onReadable onFrame read
    Fed d os ⟨r.1, s.unread.drop (if s.conn.closing then 0 else read.chunk.length), s.future,
      s.handed ++ r.2.1, s.cut || r.2.2⟩ := by
  obtain ⟨hdec, done, rest, rfl, hhanded, hstream, hleft⟩ := h
  have hsame : ∀ c : Connection, c.decoder = d → c.input = s.conn.input →
      Fed d (done ++ rest) ⟨c, s.unread, s.future, s.handed ++ [], s.cut || false⟩ := by
    intro c hc hin
    rw [append_nil, Bool.or_false]
    exact ⟨hc, done, rest, rfl, hhanded, by rw [hin]; exact hstream, by rw [hin]; exact hleft⟩
  unfold onReadable
  dsimp only
  split
  · exact hsame _ hdec rfl
  · split
    · subst read
      exact hsame _ hdec rfl
    split
    · rename_i hread
      obtain ⟨rfl, -⟩ := hread
      exact hsame _ hdec rfl
    have hstream' : s.conn.input ++ read.chunk ++ (s.unread.drop read.chunk.length ++ s.future) =
        rest.flatMap Outgoing.encode := by
      rw [← hstream]
      conv_rhs => rw [← hchunk]
      simp only [append_assoc]
    have hloop := decodeLoop_spec onFrame hd s.conn.options.maxFramesPerEvent
      (c := { s.conn with input := s.conn.input ++ read.chunk })
      (fun o ho => hos o (mem_append_right _ ho)) hdec hstream'
    generalize decodeLoop onFrame _ _ = r at hloop ⊢
    obtain ⟨c, frames, cut⟩ := r
    obtain ⟨done', rest', rfl, rfl, hdec', hleft', hcut⟩ := hloop
    have hfed : ∀ c' : Connection, c'.decoder = c.decoder → c'.input = c.input →
        Fed d (done ++ (done' ++ rest')) ⟨c', s.unread.drop read.chunk.length, s.future,
          s.handed ++ done'.map Outgoing.frame, s.cut || cut⟩ := by
      intro c' hc hin
      refine ⟨hc.trans hdec', done ++ done', rest', (append_assoc _ _ _).symm, ?_, ?_, ?_⟩
      · rw [map_append, hhanded]
      · rw [hin]
        exact hleft'
      · intro hno o ho hpre
        -- a frame that is all there would have been found
        obtain ⟨t, ht⟩ := hpre
        obtain ⟨hfit, hsup⟩ := hos o (by simp [mem_of_mem_head? ho])
        have hscan := (delimits_encodeFrame hd hfit hsup).finds t
        rw [ht, hin, hcut (Bool.or_eq_false_iff.mp hno).2, ← hdec] at hscan
        exact drain_left hfits hscan
    split
    · exact hfed c rfl rfl
    · exact hfed _ (afterLoop_kept c _).1 (afterLoop_kept c _).2

theorem step_fed (hd : d.error = none) {os : List Outgoing}
    (hos : ∀ o ∈ os, o.Fits d.maxPayload ∧ o.Supported) (s : Inbound) (e : Delivery)
    (h : Fed d os s)
    (hfits : s.Fits e) : Fed d os (s.step onFrame e) := by
  cases e with
  | arrive n =>
    obtain ⟨hdec, done, rest, hos, hhanded, hstream, hleft⟩ := h
    refine ⟨hdec, done, rest, hos, hhanded, ?_, hleft⟩
    show s.conn.input ++ (s.unread ++ s.future.take n ++ s.future.drop n) = _
    rw [append_assoc, take_append_drop, hstream]
  | bytes n =>
    exact onReadable_fed hd hos h _ (prefix_iff_eq_append.mp <| take_prefix n _) hfits
  | wouldBlock | eof | failed => exact onReadable_fed hd hos h _ rfl hfits

end Input

/-- The connection before anything has arrived. -/
def Inbound.start (o : ConnectionOptions) (os : List Outgoing) : Inbound :=
  ⟨make o, [], os.flatMap Outgoing.encode, [], false⟩

/-- **Every frame is handed over once, in order and at once**, before and after an end of stream, in
    every run whose deliveries leave no more frames in the buffer than one event may handle. -/
theorem frames_handed (o : ConnectionOptions) (onFrame : FrameCallback) (os : List Outgoing)
    (hos : ∀ out ∈ os, out.Fits o.maxFrameBytes ∧ out.Supported) (es : List Delivery)
    (hes : Along (Inbound.step onFrame) Inbound.Fits (.start o os) es) :
    (es.foldl (Inbound.step onFrame) (.start o os)).InOrder os := by
  have hstart : Fed ⟨o.maxFrameBytes, none⟩ os (.start o os) := by
    refine ⟨rfl, [], os, rfl, rfl, rfl, fun _ out _ hpre => ?_⟩
    have hnil := prefix_nil.mp hpre
    have hlen := length_encodeFrameHeader (out.header.complete out.payload)
    rw [(append_eq_nil_iff.mp hnil).1] at hlen
    cases hlen
  exact (hes.foldl (fun s e => step_fed rfl hos s e) hstart).2

/-- A callback that answers nothing. -/
def quiet : FrameCallback := ⟨fun _ c => c, fun _ _ => rfl, fun _ _ => rfl⟩

/-- A health request. -/
def ping : Outgoing := ⟨⟨1, .health, 7, 0, 0, 0⟩, []⟩

/-- The default options. -/
def defaults : ConnectionOptions :=
  ⟨4 * 1024 * 1024, 1024 * 1024, 64 * 1024 * 1024, 64 * 1024 * 1024, 64⟩

theorem ping_handed : ([Delivery.arrive 32, .bytes 20, .bytes 12].foldl (Inbound.step quiet)
    (.start defaults [ping])).InOrder [ping] :=
  frames_handed defaults quiet [ping] (fun out ho => by
    rw [mem_singleton.mp ho]
    exact ⟨⟨by decide, by decide⟩, by decide, by decide⟩) _ (by unfold Inbound.Fits; decide +kernel)

/-- **The sixty-fifth frame is left behind**: all bytes have been read, the connection is open, and
    a complete frame waits in the buffer. -/
theorem frame_left_behind :
    let s := ([.arrive 2080, .bytes 2080] : List Delivery).foldl (Inbound.step quiet)
      (.start defaults (.replicate 65 ping))
    s.conn.closing = false ∧ s.unread = [] ∧ s.future = [] ∧ s.handed.length = 64 ∧
      s.conn.input = ping.encode := by
  decide +kernel

end Connection
end PulseLog
