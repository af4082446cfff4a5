/-
  Subject:   The blocking client connection (include/pulselog/net/sync_client.h,
             src/net/sync_client.cc).

  * `requests_whole` -- the bytes on the wire are whole requests between any two operations, as long
    as no request is given up when a part of it has been sent;
  * `half_request_left` -- a request that times out half-sent leaves its part on a connection that
    stays open, and the next request is read as its rest.
-/
import PulseLog.Net.Connection

namespace PulseLog

open Protocol List

/-- What `Write` answers, and after `would_block` the wait for writability. -/
inductive Answer where
  | bytes (n : Nat)
  | wouldBlock (ready : Bool)
  | eof
  | failed
  deriving Repr, DecidableEq

/-- `SyncClient`, and what its socket has taken since the connect. -/
structure SyncClient where
  connected : Bool
  decoder : FrameDecoder
  input : Bytes
  consumed : Nat
  wire : Bytes
  deriving Repr, DecidableEq

namespace SyncClient

/-- After `Connect`. -/
def start (maxFrameBytes : UInt32) : SyncClient := ⟨true, ⟨maxFrameBytes, none⟩, [], 0, []⟩

/-- `Close`. -/
def close (c : SyncClient) : SyncClient :=
  { c with
    connected := false, decoder := { c.decoder with error := none }, input := [], consumed := 0 }

/-- The loop of `SendRequest`; whether all was sent. -/
def sendLoop : List Answer → Bytes → SyncClient → SyncClient × Bool
  | answers, remaining, c =>
    if remaining = [] then (c, true)
    else
      match answers with
      | .bytes n :: answers => sendLoop answers (remaining.drop n)
        { c with wire := c.wire ++ remaining.take n }
      | .wouldBlock true :: answers => sendLoop answers remaining c
      | .eof :: _ => (c.close, false)
      | .failed :: _ => (c.close, false)
      | _ => (c, false)

/-- `SendRequest`. -/
def sendRequest (c : SyncClient) (o : Outgoing) (answers : List Answer) : SyncClient × Bool :=
  if c.connected then sendLoop answers o.encode c else (c, false)

/-- The frames in the buffer: stale responses are skipped. -/
def skipTo (expected : UInt64) : Nat → SyncClient → SyncClient × FrameState
  | 0, c => (c, .needMore)
  | fuel + 1, c =>
    match c.decoder.next c.input with
    | (.error, _) => (c.close, .error)
    | (.needMore, _) => (c, .needMore)
    | (.frame f, _) =>
      if f.header.requestId = expected then ({ c with consumed := f.totalSize }, .frame f)
      else skipTo expected fuel { c with input := c.input.drop f.totalSize }

/-- The loop of `ReadResponse`: a failed wait, or what was read. Every frame takes a byte at
    least. -/
def readLoop (expected : UInt64) : List (Option Connection.Read) → SyncClient →
    SyncClient × Option Frame
  | reads, c =>
    match skipTo expected (c.input.length + 1) c with
    | (c, .frame f) => (c, some f)
    | (c, .error) => (c, none)
    | (c, .needMore) =>
      match reads with
      | some (.bytes chunk) :: reads => readLoop expected reads { c with input := c.input ++ chunk }
      | some .wouldBlock :: reads => readLoop expected reads c
      | some _ :: _ => (c.close, none)
      | _ => (c, none)

/-- `ReadResponse`. -/
def readResponse (c : SyncClient) (expected : UInt64) (reads : List (Option Connection.Read)) :
    SyncClient × Option Frame :=
  if c.connected then
    readLoop expected reads { c with input := c.input.drop c.consumed, consumed := 0 }
  else (c, none)

/-- `Call`. -/
def call (c : SyncClient) (o : Outgoing) (answers : List Answer)
    (reads : List (Option Connection.Read)) : SyncClient × Option Frame :=
  let (c, ok) := c.sendRequest o answers
  if ok then c.readResponse o.header.requestId reads else (c, none)

/-- An operation, with the answers it gets. -/
inductive Op where
  | call (o : Outgoing) (answers : List Answer) (reads : List (Option Connection.Read))
  | send (o : Outgoing) (answers : List Answer)
  | read (expected : UInt64) (reads : List (Option Connection.Read))

def step (c : SyncClient) : Op → SyncClient
  | .call o answers reads => (c.call o answers reads).1
  | .send o answers => (c.sendRequest o answers).1
  | .read expected reads => (c.readResponse expected reads).1

/-- A wait fails when `taken` bytes of the request have been taken and `left` are left. -/
def givenUp : List Answer → Nat → Nat → Bool
  | answers, taken, left =>
    if left = 0 then false
    else
      match answers with
      | .bytes n :: answers => givenUp answers (taken + min n left) (left - n)
      | .wouldBlock true :: answers => givenUp answers taken left
      | .eof :: _ => false
      | .failed :: _ => false
      | _ => 0 < taken

/-- The request of an operation is given up half-sent. -/
def Op.HalfSent : Op → Prop
  | .call o answers _ => givenUp answers 0 o.encode.length = true
  | .send o answers => givenUp answers 0 o.encode.length = true
  | .read _ _ => False

/-- **A request is sent whole or not at all**, if it is not given up half-sent and the client stays
    connected. -/
theorem sendLoop_wire (answers : List Answer) (remaining : Bytes) (c : SyncClient) (taken : Nat)
    (h : givenUp answers taken remaining.length = false) : let r := sendLoop answers remaining c
    r.1.connected = false ∨ r.1.wire = c.wire ++ remaining ∨ taken = 0 ∧ r.1.wire = c.wire := by
  induction answers generalizing remaining c taken with
  | nil =>
    unfold givenUp at h
    unfold sendLoop
    split
    · exact .inr (.inl (by simp [*]))
    · exact .inr (.inr ⟨by simpa [*] using h, rfl⟩)
  | cons answer answers ih =>
    unfold givenUp at h
    unfold sendLoop
    split
    · exact .inr (.inl (by simp [*]))
    · rw [if_neg (by rwa [length_eq_zero_iff])] at h
      cases answer with
      | bytes n =>
        dsimp only at h ⊢
        rw [← length_drop] at h
        rcases ih _ { c with wire := c.wire ++ remaining.take n } _ h with hc | hw | ⟨h0, hw⟩
        · exact .inl hc
        · refine .inr (.inl (hw.trans ?_))
          rw [append_assoc, take_append_drop]
        · have htake : remaining.take n = [] := length_eq_zero_iff.mp (by rw [length_take]; omega)
          exact .inr (.inr ⟨by omega, hw.trans (by rw [htake, append_nil])⟩)
      | wouldBlock ready =>
        cases ready with
        | true => exact ih remaining c taken h
        | false => exact .inr (.inr ⟨by simpa using h, rfl⟩)
      | eof => exact .inl rfl
      | failed => exact .inl rfl

/-- Reading writes nothing, and connects nothing. -/
structure Quiet (c c' : SyncClient) : Prop where
  wire : c'.wire = c.wire
  connected : c'.connected = true → c.connected = true

theorem skipTo_quiet (expected : UInt64) (n : Nat) (c : SyncClient) :
    Quiet c (skipTo expected n c).1 := by
  induction n generalizing c with
  | zero => exact ⟨rfl, id⟩
  | succ n ih =>
    unfold skipTo
    split
    · exact ⟨rfl, fun h => by cases h⟩
    · exact ⟨rfl, id⟩
    · split
      · exact ⟨rfl, id⟩
      · exact ⟨(ih _).wire, (ih _).connected⟩

theorem Quiet.trans {a b c : SyncClient} (h : Quiet a b) (h' : Quiet b c) : Quiet a c :=
  ⟨h'.wire.trans h.wire, fun hc => h.connected (h'.connected hc)⟩

theorem readLoop_quiet (expected : UInt64) (reads : List (Option Connection.Read))
    (c : SyncClient) : Quiet c (readLoop expected reads c).1 := by
  induction reads generalizing c with
  | nil =>
    have hskip := skipTo_quiet expected (c.input.length + 1) c
    unfold readLoop
    split <;> rename_i hr <;> rw [hr] at hskip <;> exact hskip
  | cons read reads ih =>
    have hskip := skipTo_quiet expected (c.input.length + 1) c
    unfold readLoop
    split <;> rename_i hr <;> rw [hr] at hskip
    · exact hskip
    · exact hskip
    · match read with
      | some (.bytes chunk) => exact hskip.trans ⟨(ih _).wire, (ih _).connected⟩
      | some .wouldBlock => exact hskip.trans (ih _)
      | some .eof => exact ⟨hskip.wire, fun h => by cases h⟩
      | some .failed => exact ⟨hskip.wire, fun h => by cases h⟩
      | none => exact hskip

/-- The bytes of whole requests. -/
def Whole (c : SyncClient) : Prop := c.connected = true → ∃ os : List Outgoing,
    c.wire = os.flatMap Outgoing.encode

theorem Quiet.whole {c c' : SyncClient} (h : Quiet c c') (hc : c.Whole) : c'.Whole := by
  intro hconn
  rw [h.wire]
  exact hc (h.connected hconn)

theorem readResponse_whole {c : SyncClient} (hc : c.Whole) (expected : UInt64)
    (reads : List (Option Connection.Read)) : (c.readResponse expected reads).1.Whole := by
  unfold readResponse
  split
  · exact (readLoop_quiet expected reads _).whole hc
  · exact hc

theorem sendRequest_whole {c : SyncClient} (hc : c.Whole) {o : Outgoing} {answers : List Answer}
    (h : ¬ givenUp answers 0 o.encode.length = true) : (c.sendRequest o answers).1.Whole := by
  unfold sendRequest
  split
  · rename_i hconn
    obtain ⟨os, hos⟩ := hc hconn
    intro hstill
    rcases sendLoop_wire answers o.encode c 0 (Bool.eq_false_iff.mpr h) with hclosed | hw | ⟨-, hw⟩
    · rw [hclosed] at hstill
      cases hstill
    · exact ⟨os ++ [o], hw.trans (by rw [hos]; simp)⟩
    · exact ⟨os, hw.trans hos⟩
  · exact hc

/-- **Requests are whole**: in every run in which no request is given up half-sent, the bytes that a
    connected client has written are whole requests whenever an operation begins. -/
theorem requests_whole (maxFrameBytes : UInt32) (ops : List Op) (hops : ∀ op ∈ ops, ¬ op.HalfSent) :
    (ops.foldl step (start maxFrameBytes)).Whole := by
  refine List.foldlRecOn ops step (fun _ => ⟨[], rfl⟩) fun c hc op hop => ?_
  have hwhole := hops op hop
  cases op with
  | send o answers => exact sendRequest_whole hc hwhole
  | read expected reads => exact readResponse_whole hc expected reads
  | call o answers reads =>
    have hsent := sendRequest_whole hc hwhole
    unfold step call
    dsimp only
    split
    · exact readResponse_whole hsent _ reads
    · exact hsent

theorem sent_whole : ((start 1024).step (.send Connection.ping [.bytes 5, .wouldBlock true,
    .bytes 27])).Whole :=
  requests_whole 1024 [.send Connection.ping [.bytes 5, .wouldBlock true, .bytes 27]] (by
    intro op hop
    rw [mem_singleton.mp hop]
    unfold Op.HalfSent
    decide +kernel)

/-- **A timed-out request leaves a part behind**: five bytes are on the wire, the client is
    connected, and with the next request the broker's decoder finds an error. -/
theorem half_request_left :
    let c := (start 1024).step (.send Connection.ping [.bytes 5, .wouldBlock false])
    ¬ c.Whole ∧ c.connected = true ∧
      ((start 1024).decoder.next (c.step (.send Connection.ping [.bytes 32])).wire).1 = .error := by
  intro c
  refine ⟨fun h => ?_, by decide +kernel, by decide +kernel⟩
  obtain ⟨os, hos⟩ := h (by decide +kernel)
  have hlen := congrArg List.length hos
  rw [show c.wire.length = 5 by decide +kernel] at hlen
  cases os with
  | nil => cases hlen
  | cons o os =>
    rw [flatMap_cons, length_append, Outgoing.encode, encodeFrame, length_append,
      length_encodeFrameHeader, frameHeaderSize] at hlen
    omega

end SyncClient
end PulseLog
