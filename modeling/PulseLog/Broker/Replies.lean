/-
  Subject:   The answers to a REPLICATE request and the decoder of the leader that sent it
             (`RouteToWorker`, `ExecuteReplicate` of src/broker/request_handler.cc,
             `Sender::SendPending` of src/replication/replicator.cc).

  An answer has one of two shapes: a whole `ReplicateResponse`, from the handler, or a header alone
  (`EncodeErrorResponse`), from the layers in front of it. The sender has one decoder, for the whole
  response, and gives the connection up if it fails.

  * `reply_recovered_iff` -- the error code arrives exactly where the request reached its handler.
-/
import PulseLog.Broker.Replicate
import PulseLog.Broker.Requests
import PulseLog.Protocol.RoundTrip

namespace PulseLog

namespace Broker

open PulseLog.Parser

/-! ## 1. The answers -/

/-- The answer to a request: a header alone, or the whole response. -/
inductive Reply where
  | header (status : Status)
  | body (m : Protocol.ReplicateResponse)
  deriving Repr, DecidableEq

namespace Reply

/-- The error code that is sent. -/
def error : Reply → Option ErrorCode
  | .header status => some status.code
  | .body m => m.header.error

/-- The payload: `EncodeErrorResponse`, or `ReplicateResponse::Encode`. -/
def payload : Reply → Bytes
  | .header status => Protocol.ResponseHeader.encode ⟨some status.code, text status.message⟩
  | .body m => m.encode

end Reply

/-- The io thread's part: the worker that gets the request, or the error it is answered with. -/
def routeReplicate (c : Routing) (queues : List (Nat × WorkerRequest)) (payload : Bytes) :
    Except Status Nat :=
  match c.workerForRequest payload with
  | none => .error ⟨.protocolError, "request payload could not be parsed"⟩
  | some w =>
    if (queueOf w queues).length < c.queueCapacity then .ok w else .error Server.queueFull

/-- The worker's part: `ExecuteReplicate` with its decoder. -/
def workReplicate (h : Hosting) (payload : Bytes) (fault : Option AppendFault) : Reply :=
  match decodePrefix Protocol.ReplicateRequest.decode payload with
  | none => .header ⟨.protocolError, "malformed replicate request"⟩
  | some m => .body (h.executeReplicate m fault).1

/-- The answer to the payload of a REPLICATE request: `queues` are the workers' queues when it comes
    in, and `h` is the broker when its worker takes it. -/
def reply (c : Routing) (queues : List (Nat × WorkerRequest)) (h : Hosting) (payload : Bytes)
    (fault : Option AppendFault) : Reply :=
  match routeReplicate c queues payload with
  | .error e => .header e
  | .ok _ => workReplicate h payload fault

/-- The io thread's part is that of the broker's request path. -/
theorem onFrame_replicate {σ : Type} (c : Routing) (s : Server σ) (payload : Bytes)
    (handler : Command → σ → σ) :
    s.onFrame c ⟨.replicate, payload⟩ handler =
      match routeReplicate c s.queues payload with
      | .error e => s.settle .io ⟨.replicate, payload⟩ handler (.error e)
      | .ok w => { s with queues := s.queues ++ [(w, ⟨.replicate, payload⟩)] } := by
  simp only [Server.onFrame, handleInline, routeOf, routeReplicate]
  cases c.workerForRequest payload with
  | none => rfl
  | some w =>
    simp only
    split
    · rfl
    · rfl

theorem execute_replicate (payload : Bytes) : execute .replicate payload =
    match decodePrefix Protocol.ReplicateRequest.decode payload with
    | none => .error ⟨.protocolError, "malformed replicate request"⟩
    | some m => .ok (.replicate m) := by
  simp only [execute]
  cases decodePrefix Protocol.ReplicateRequest.decode payload with
  | none => rfl
  | some m => rfl

/-! ## 2. The sender -/

/-- A sender: its peer, whether it is connected, and the batches it has counted as rejected. -/
structure Sender where
  peer : Nat
  connected : Bool
  rejectedBatches : Nat
  deriving Repr, DecidableEq

/-- `SendPending` from the answer on, for one partition: the error it returns, if it does. -/
def Sender.onResponse (s : Sender) (leader : PartitionReplica) (payload : Bytes) (nowMs : Int) :
    Option Status × Sender × (List DurabilityWaiter × PartitionReplica) :=
  match decodePrefix Protocol.ReplicateResponse.decode payload with
  | none =>
    (some ⟨.protocolError, s!"malformed replicate response from broker {s.peer}"⟩,
      { s with connected := false }, ([], leader))
  | some resp =>
    match resp.header.error with
    | none =>
      (none, s, leader.onFollowerProgress s.peer resp.logEndOffset.toInt
        resp.flushedOffset.toInt nowMs)
    | some .outOfRange =>
      (none, { s with rejectedBatches := s.rejectedBatches + 1 },
        leader.onFollowerProgress s.peer resp.logEndOffset.toInt resp.flushedOffset.toInt nowMs)
    | some _ => (none, { s with rejectedBatches := s.rejectedBatches + 1 }, ([], leader))

/-- The decoder gives the error code back that was sent, and the connection is kept where the error
    is a retryable one. -/
structure Recovers (s : Sender) (leader : PartitionReplica) (nowMs : Int) (r : Reply) : Prop where
  code : (decodePrefix Protocol.ReplicateResponse.decode r.payload).map
    (·.header.error) = some r.error
  connection : ∀ e, r.error = some e → e.isRetryable = true →
    (s.onResponse leader r.payload nowMs).2.1.connected = s.connected

/-! ## 3. What the decoder makes of the two shapes -/

section Decode

open Protocol

/-- The decoder behind the header. -/
def replicateBody (header : ResponseHeader) : PayloadReader Protocol.ReplicateResponse := do
  let followerId ← getI32
  let logEndOffset ← getI64
  let flushedOffset ← getI64
  let leaderEpoch ← getI64
  pure { header, followerId, logEndOffset, flushedOffset, leaderEpoch }

theorem width_replicateBody (header : ResponseHeader) : Width (replicateBody header) 28 :=
  width_getI32.bind fun _ => width_getI64.bind fun _ => width_getI64.bind fun _ =>
    width_getI64.bind fun _ => width_pure _

theorem yields_replicateBody (header : ResponseHeader) :
    Yields (replicateBody header) fun m => m.header = header :=
  .bind fun _ => .bind fun _ => .bind fun _ => .bind fun _ => .done rfl

theorem run_response {m : ResponseHeader} {t : Bytes} :
    Protocol.ReplicateResponse.decode.run (m.encode ++ t) =
      (replicateBody ⟨m.error, m.errorMessage.take (m.errorMessage.length % 2 ^ 16)⟩).run
        (m.errorMessage.drop (m.errorMessage.length % 2 ^ 16) ++ t) := by
  have hsplit : Protocol.ReplicateResponse.decode = ResponseHeader.decode >>= replicateBody := rfl
  rw [hsplit, StateT.run_bind, ResponseHeader.run_decode]
  rfl

/-- **A whole response gives its error code back**, whatever the length of its text. -/
theorem decode_body (m : Protocol.ReplicateResponse) :
    (decodePrefix Protocol.ReplicateResponse.decode m.encode).map (·.header.error) =
      some m.header.error := by
  let fields := [putI32 m.followerId, putI64 m.logEndOffset, putI64 m.flushedOffset,
    putI64 m.leaderEpoch].flatten
  have hencode : m.encode = m.header.encode ++ fields := rfl
  have hlong : 28 ≤ (m.header.errorMessage.drop (m.header.errorMessage.length % 2 ^ 16) ++
      fields).length := by
    rw [List.length_append]
    exact Nat.le_add_left 28 _
  have hwidth := width_replicateBody
    ⟨m.header.error, m.header.errorMessage.take (m.header.errorMessage.length % 2 ^ 16)⟩
  obtain ⟨a, ha⟩ := hwidth.reads _ hlong
  unfold decodePrefix
  rw [hencode, run_response, ha, Option.map_some, Option.map_some]
  rw [yields_replicateBody _ _ _ _ ha]

/-- **A header alone is not decoded**, as long as its length field can hold the length of its text.
    -/
theorem decode_header {m : ResponseHeader} (h : m.WellFormed) :
    decodePrefix Protocol.ReplicateResponse.decode m.encode = none := by
  have hmod : m.errorMessage.length % 2 ^ 16 = m.errorMessage.length :=
    Nat.mod_eq_of_lt (Nat.lt_succ_of_le h)
  unfold decodePrefix
  rw [← List.append_nil m.encode, run_response, hmod, List.drop_length]
  rfl

end Decode

/-! ## 4. The answers that arrive -/

section Replies

variable {c : Routing} {queues : List (Nat × WorkerRequest)} {h : Hosting} {payload : Bytes}
  {fault : Option AppendFault} {s : Sender} {leader : PartitionReplica} {nowMs : Int}

/-- The sender keeps the connection where the decoder succeeds. -/
theorem connected_of_decode {resp : Protocol.ReplicateResponse}
    (hd : decodePrefix Protocol.ReplicateResponse.decode payload = some resp) :
    (s.onResponse leader payload nowMs).2.1.connected = s.connected := by
  unfold Sender.onResponse
  rw [hd]
  dsimp only
  split
  · rfl
  · rfl
  · rfl

theorem recovers_body (m : Protocol.ReplicateResponse) : Recovers s leader nowMs (.body m) := by
  refine ⟨decode_body m, fun e _ _ => ?_⟩
  obtain ⟨resp, hd, -⟩ := Option.map_eq_some_iff.mp (decode_body m)
  exact connected_of_decode hd

theorem not_recovers_header {status : Status} (hlen : (text status.message).length ≤ 65535) :
    ¬ Recovers s leader nowMs (.header status) := by
  intro hr
  have hcode := hr.code
  have hnone : decodePrefix Protocol.ReplicateResponse.decode
      (Reply.header status).payload = none :=
    decode_header hlen
  rw [hnone] at hcode
  cases hcode

/-- The worker of a request has room for one more. -/
def HasRoom (c : Routing) (queues : List (Nat × WorkerRequest)) (payload : Bytes) : Prop :=
  ∀ w, c.workerForRequest payload = some w → (queueOf w queues).length < c.queueCapacity

/-- The errors of the layers in front of the handler. -/
theorem route_cases (c : Routing) (queues : List (Nat × WorkerRequest)) (payload : Bytes) :
    (routeReplicate c queues payload = .error ⟨.protocolError,
        "request payload could not be parsed"⟩ ∧ c.workerForRequest payload = none) ∨
      ∃ w, c.workerForRequest payload = some w ∧
        (routeReplicate c queues payload = .error Server.queueFull ∧ ¬ HasRoom c queues payload ∨
          routeReplicate c queues payload = .ok w ∧ HasRoom c queues payload) := by
  unfold routeReplicate
  cases hw : c.workerForRequest payload with
  | none => exact .inl ⟨rfl, rfl⟩
  | some w =>
    refine .inr ⟨w, rfl, ?_⟩
    by_cases hroom : (queueOf w queues).length < c.queueCapacity
    · refine .inr ⟨if_pos hroom, fun v hv => ?_⟩
      rw [hw, Option.some.injEq] at hv
      rw [← hv]
      exact hroom
    · exact .inl ⟨if_neg hroom, fun hall => hroom (hall w hw)⟩

/-- **The error code of an answer reaches the leader exactly where the request reached its
    handler**: its payload is one of a REPLICATE request, and the queue of its worker had room. -/
theorem reply_recovered_iff (c : Routing) (queues : List (Nat × WorkerRequest)) (h : Hosting)
    (payload : Bytes) (fault : Option AppendFault) (s : Sender) (leader : PartitionReplica)
    (nowMs : Int) :
    Recovers s leader nowMs (reply c queues h payload fault) ↔
      (decodePrefix Protocol.ReplicateRequest.decode payload).isSome = true ∧
        HasRoom c queues payload := by
  obtain ⟨hroute, hnone⟩ | ⟨w, hw, ⟨hroute, hfull⟩ | ⟨hroute, hroom⟩⟩ :=
    route_cases c queues payload
  · -- the io thread could not read topic and partition, so no decoder behind it could
    have hr : reply c queues h payload fault =
        .header ⟨.protocolError, "request payload could not be parsed"⟩ := by
      unfold reply
      rw [hroute]
    rw [hr]
    refine ⟨fun hrec => absurd hrec (not_recovers_header (by decide +kernel)), fun hdec => ?_⟩
    obtain ⟨m, hm⟩ := Option.isSome_iff_exists.mp hdec.1
    have hpeek := peeks_replicate _ _ hm
    simp only [Routing.workerForRequest, hpeek] at hnone
    cases hnone
  · have hr : reply c queues h payload fault = .header Server.queueFull := by
      unfold reply
      rw [hroute]
    rw [hr]
    exact ⟨fun hrec => absurd hrec (not_recovers_header (by decide +kernel)),
      fun hdec => absurd hdec.2 hfull⟩
  · have hr : reply c queues h payload fault = workReplicate h payload fault := by
      unfold reply
      rw [hroute]
    rw [hr]
    unfold workReplicate
    cases hm : decodePrefix Protocol.ReplicateRequest.decode payload with
    | none =>
      exact ⟨fun hrec => absurd hrec (not_recovers_header (by decide +kernel)),
        fun hdec => absurd hdec.1 (by simp)⟩
    | some m => exact ⟨fun _ => ⟨rfl, hroom⟩, fun _ => recovers_body _⟩

end Replies

/-- A probe for partition 0 of the topic "t". -/
def probePayload : Bytes :=
  Protocol.ReplicateRequest.encode ⟨[116], 0, 0, 0, 0, -1, 0, 0, 0, []⟩

/-- The broker has one worker, whose queue of one place holds another such request. -/
def busyReply : Reply :=
  reply ⟨1, 1, fun _ => 0⟩ [(0, ⟨.replicate, probePayload⟩)] ⟨1, fun _ => none, fun _ => none⟩
    probePayload none

/-- **A busy worker costs the connection**: the answer is BACKPRESSURE, which is retryable, and the
    sender takes it for a malformed response. -/
theorem backpressure_drops_connection :
    busyReply.error = some .backpressure ∧ ErrorCode.isRetryable .backpressure = true ∧
      ((⟨1, true, 0⟩ : Sender).onResponse (.make ⟨0, 0, [0, 1]⟩ 0 .empty) busyReply.payload 9).1 =
        some ⟨.protocolError, "malformed replicate response from broker 1"⟩ ∧
      ((⟨1, true, 0⟩ : Sender).onResponse (.make ⟨0, 0, [0, 1]⟩ 0 .empty) busyReply.payload 9).2.1 =
        ⟨1, false, 0⟩ ∧
      ¬ Recovers ⟨1, true, 0⟩ (.make ⟨0, 0, [0, 1]⟩ 0 .empty) 9 busyReply := by
  refine ⟨by decide +kernel, rfl, by decide +kernel, by decide +kernel, fun h => ?_⟩
  exact absurd (h.connection .backpressure (by decide +kernel) rfl) (by decide +kernel)

end Broker

end PulseLog
