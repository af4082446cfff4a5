/-
  Subject:   From the payload of a request frame to the handler that acts on it
             (src/broker/request_handler.cc, `PartitionManager::WorkerFor`).

  The io thread decodes the requests it answers inline, and only looks at the topic and the
  partition of the others, to pick the worker that decodes them. What a handler does with a decoded
  request is given with the step, as a function on the rest of the broker: its logs, groups,
  metadata and the responses it sends.

  * `peek_of_execute`, `partition_has_one_worker` -- the peek agrees with the six decoders behind
    it, so every request of a partition is executed by one worker;
  * **`partition_in_order`** -- and they are executed in the order of their frames;
  * `trailing_bytes_refused` -- a payload that goes on behind its declared fields is refused without
    effect by the handlers that ask for its end; `trailing_byte_processed` -- five do not ask.
-/
import PulseLog.Broker.Dispatch
import PulseLog.Protocol.Fields

namespace PulseLog

namespace Broker

open PulseLog.Parser Protocol

/-! ## 1. Decoding -/

/-- A request that has been decoded. -/
inductive Command where
  | health
  | listTopics
  | describeCluster
  | metadata (m : MetadataRequest)
  | joinGroup (m : Protocol.JoinGroupRequest)
  | heartbeat (m : Protocol.HeartbeatRequest)
  | leaveGroup (m : Protocol.LeaveGroupRequest)
  | commitOffset (m : Protocol.CommitOffsetRequest)
  | fetchOffset (m : Protocol.FetchOffsetRequest)
  | createTopic (m : CreateTopicRequest)
  | deleteTopic (m : DeleteTopicRequest)
  | produce (m : ProduceRequest)
  | fetch (m : FetchRequest)
  | listOffsets (m : ListOffsetsRequest)
  | replicate (m : Protocol.ReplicateRequest)
  | replicaFetch (m : ReplicaFetchRequest)
  | replicaAck (m : ReplicaAckRequest)
  deriving Repr, DecidableEq

/-- The partition a partition-scoped request is for. -/
def Command.partition : Command → Option Protocol.TopicPartition
  | .produce m => some ⟨m.topic, m.partition⟩
  | .fetch m => some ⟨m.topic, m.partition⟩
  | .listOffsets m => some ⟨m.topic, m.partition⟩
  | .replicate m => some ⟨m.topic, m.partition⟩
  | .replicaFetch m => some ⟨m.topic, m.partition⟩
  | .replicaAck m => some ⟨m.topic, m.partition⟩
  | _ => none

/-- `request.Decode(reader) && reader.Complete()`. -/
def decodeComplete {α : Type} (p : PayloadReader α) (payload : Bytes) : Option α :=
  match p.run payload with
  | some (a, []) => some a
  | _ => none

/-- `request.Decode(reader)` alone. -/
def decodePrefix {α : Type} (p : PayloadReader α) (payload : Bytes) : Option α :=
  (p.run payload).map Prod.fst

/-- The command, or PROTOCOL_ERROR with the handler's text. -/
def orMalformed (message : String) : Option Command → Except Status Command
  | some c => .ok c
  | none => .error ⟨.protocolError, message⟩

/-- The decoding of `HandleInline`; `none` is left to a worker. -/
def handleInline (opcode : OpCode) (payload : Bytes) : Option (Except Status Command) :=
  match opcode with
  -- these three do not look at the payload
  | .health => some (.ok .health)
  | .listTopics => some (.ok .listTopics)
  | .describeCluster => some (.ok .describeCluster)
  | .metadata => some (orMalformed "malformed metadata request"
      ((decodeComplete MetadataRequest.decode payload).map .metadata))
  | .joinGroup => some (orMalformed "malformed join-group request"
      ((decodeComplete Protocol.JoinGroupRequest.decode payload).map .joinGroup))
  | .heartbeat => some (orMalformed "malformed heartbeat request"
      ((decodeComplete Protocol.HeartbeatRequest.decode payload).map .heartbeat))
  | .leaveGroup => some (orMalformed "malformed leave-group request"
      ((decodeComplete Protocol.LeaveGroupRequest.decode payload).map .leaveGroup))
  | .commitOffset => some (orMalformed "malformed commit-offset request"
      ((decodeComplete Protocol.CommitOffsetRequest.decode payload).map .commitOffset))
  | .fetchOffset => some (orMalformed "malformed fetch-offset request"
      ((decodeComplete Protocol.FetchOffsetRequest.decode payload).map .fetchOffset))
  | _ => none

/-- The decoding of `Execute` and the handlers it calls. -/
def execute (opcode : OpCode) (payload : Bytes) : Except Status Command :=
  match opcode with
  | .produce => orMalformed "malformed produce request"
      ((decodePrefix ProduceRequest.decode payload).map .produce)
  | .fetch => orMalformed "malformed fetch request"
      ((decodeComplete FetchRequest.decode payload).map .fetch)
  | .listOffsets => orMalformed "malformed list-offsets request"
      ((decodeComplete ListOffsetsRequest.decode payload).map .listOffsets)
  | .replicate => orMalformed "malformed replicate request"
      ((decodePrefix Protocol.ReplicateRequest.decode payload).map .replicate)
  | .replicaFetch => orMalformed "malformed replica-fetch request"
      ((decodeComplete ReplicaFetchRequest.decode payload).map .replicaFetch)
  | .replicaAck => orMalformed "malformed replica-ack request"
      ((decodeComplete ReplicaAckRequest.decode payload).map .replicaAck)
  | .createTopic => orMalformed "malformed create-topic request"
      ((decodeComplete CreateTopicRequest.decode payload).map .createTopic)
  | .deleteTopic => orMalformed "malformed delete-topic request"
      ((decodeComplete DeleteTopicRequest.decode payload).map .deleteTopic)
  | _ => .error ⟨.protocolError, "operation is not valid on a partition worker"⟩

/-- `PeekTopicPartition`. -/
def peekTopicPartition (payload : Bytes) : Option Protocol.TopicPartition :=
  decodePrefix (do
    let topic ← getString
    let raw ← getI32
    ensure (0 ≤ raw)
    pure (⟨topic, raw⟩ : Protocol.TopicPartition)) payload

/-- What routing reads of the configuration, and the hash of the standard library. -/
structure Routing where
  workerThreads : Nat
  queueCapacity : Nat
  hashString : Bytes → UInt64

namespace Routing

/-- `std::hash<TopicPartition>`. -/
def hash (c : Routing) (tp : Protocol.TopicPartition) : UInt64 :=
  c.hashString tp.topic ^^^ (tp.partition.toInt64.toUInt64 * 0x9E3779B97F4A7C15)

/-- `PartitionManager::WorkerFor`. -/
def workerFor (c : Routing) (tp : Protocol.TopicPartition) : Nat :=
  if c.workerThreads ≤ 1 then 0 else (c.hash tp).toNat % c.workerThreads

/-- `WorkerForRequest`. -/
def workerForRequest (c : Routing) (payload : Bytes) : Option Nat :=
  (peekTopicPartition payload).map c.workerFor

end Routing

/-! ## 2. The request path -/

/-- A `WorkerRequest`, as far as decoding reads it. -/
structure WorkerRequest where
  opcode : OpCode
  payload : Bytes
  deriving Repr, DecidableEq

/-- Where a request is decided. -/
inductive Thread where
  | io
  | worker (index : Nat)
  deriving Repr, DecidableEq

inductive Outcome where
  | processed (c : Command)
  | refused (status : Status)
  deriving Repr, DecidableEq

structure Handled where
  thread : Thread
  request : WorkerRequest
  outcome : Outcome
  deriving Repr, DecidableEq

/-- The worker queues, what the handlers work on, and what has become of the requests. -/
structure Server (σ : Type) where
  queues : List (Nat × WorkerRequest)
  broker : σ
  done : List Handled

/-- With each step goes what the handler that it may call does. -/
inductive ServerEvent (σ : Type) where
  /-- an io thread gets a frame -/
  | frame (request : WorkerRequest) (handler : Command → σ → σ)
  /-- worker `w` takes the next request of its queue -/
  | work (w : Nat) (handler : Command → σ → σ)

namespace Server

variable {σ : Type}

/-- The request is decided: the handler runs, or the error is sent. -/
def settle (s : Server σ) (thread : Thread) (request : WorkerRequest) (handler : Command → σ → σ) :
    Except Status Command → Server σ
  | .ok c => { s with
      broker := handler c s.broker, done := s.done ++ [⟨thread, request, .processed c⟩] }
  | .error e => { s with done := s.done ++ [⟨thread, request, .refused e⟩] }

/-- The answer to a request that finds its worker's queue full. -/
def queueFull : Status := ⟨.backpressure, "partition worker queue is full; retry shortly"⟩

variable (c : Routing)

/-- `OnFrame` with `RouteToWorker`. -/
def onFrame (s : Server σ) (r : WorkerRequest) (handler : Command → σ → σ) : Server σ :=
  match handleInline r.opcode r.payload with
  | some decoded => s.settle .io r handler decoded
  | none =>
    match routeOf r.opcode (c.workerForRequest r.payload) with
    | none => s.settle .io r handler
      (.error ⟨.protocolError, "request payload could not be parsed"⟩)
    | some w =>
      if (queueOf w s.queues).length < c.queueCapacity then
        { s with queues := s.queues ++ [(w, r)] }
      else s.settle .io r handler (.error queueFull)

def step (s : Server σ) : ServerEvent σ → Server σ
  | .frame r handler => s.onFrame c r handler
  | .work w handler =>
    match pop w s.queues with
    | none => s
    | some (r, rest) =>
      settle { s with queues := rest } (.worker w) r handler (execute r.opcode r.payload)

def start (broker : σ) : Server σ := ⟨[], broker, []⟩

end Server

/-! ## 3. One worker for one partition -/

section Peek

variable {α : Type} {payload : Bytes} {tp : Protocol.TopicPartition}

variable {f : α → Command} {message : String} {opcode : OpCode} {c : Command}

/-- What a handler goes on with was decoded. -/
theorem orMalformed_ok {o : Option α}
    (h : orMalformed message (o.map f) = .ok c) : ∃ m, o = some m ∧ f m = c := by
  cases o with
  | none => simp [orMalformed] at h
  | some m => exact ⟨m, rfl, Except.ok.inj h⟩

theorem decodePrefix_of_complete {p : PayloadReader α} {a : α}
    (h : decodeComplete p payload = some a) : decodePrefix p payload = some a := by
  unfold decodeComplete at h
  unfold decodePrefix
  split at h
  · rename_i b hb
    rw [hb, Option.map_some, Option.some.inj h]
  · simp at h

/-- What the decoder accepts begins with the topic and the partition of the request. -/
def Peeks (decode : PayloadReader α) (part : α → Protocol.TopicPartition) : Prop :=
  ∀ payload a, decodePrefix decode payload = some a → peekTopicPartition payload = some (part a)

/-- A decoder that reads topic and partition first, and hands them on with the partition not
    negative, agrees with the peek. -/
theorem peeks_of_rest {rest : Bytes → Int32 → PayloadReader α} {part : α → Protocol.TopicPartition}
    (hrest : ∀ topic raw, Yields (rest topic raw) fun a => part a = ⟨topic, raw⟩ ∧ 0 ≤ raw) :
    Peeks (getString >>= fun topic => getI32 >>= fun raw => rest topic raw) part := by
  intro payload a h
  obtain ⟨⟨b, t⟩, hb, rfl⟩ := Option.map_eq_some_iff.mp h
  obtain ⟨topic, u, htopic, hb⟩ := run_bind_some.mp hb
  obtain ⟨raw, v, hraw, hb⟩ := run_bind_some.mp hb
  obtain ⟨hpart, hpos⟩ := hrest topic raw v b t hb
  refine Option.map_eq_some_iff.mpr ⟨(part b, v), ?_, rfl⟩
  refine run_bind_some.mpr ⟨topic, u, htopic, run_bind_some.mpr ⟨raw, v, hraw, ?_⟩⟩
  refine run_bind_some.mpr ⟨⟨⟩, v, run_ensure_some.mpr ⟨hpos, rfl⟩, ?_⟩
  rw [hpart]
  rfl

theorem peeks_produce : Peeks ProduceRequest.decode fun m => ⟨m.topic, m.partition⟩ :=
  peeks_of_rest fun _ _ => .bind fun _ => .bind fun _ => .bind fun _ => .bind fun _ =>
    .bind fun _ =>
    .ensured fun hpos => .done ⟨rfl, hpos⟩

theorem peeks_fetch : Peeks FetchRequest.decode fun m => ⟨m.topic, m.partition⟩ :=
  peeks_of_rest fun _ _ => .bind fun _ => .bind fun _ => .bind fun _ => .bind fun _ =>
    .bind fun _ =>
    .ensured fun hpos => .bind fun _ => .done ⟨rfl, hpos⟩

theorem peeks_listOffsets : Peeks ListOffsetsRequest.decode fun m => ⟨m.topic, m.partition⟩ :=
  peeks_of_rest fun _ _ => .ensured fun hpos => .bind fun _ => .done ⟨rfl, hpos⟩

theorem peeks_replicate : Peeks Protocol.ReplicateRequest.decode fun m => ⟨m.topic, m.partition⟩ :=
  peeks_of_rest fun _ _ => .bind fun _ => .ensured fun hpos => .bind fun _ => .bind fun _ =>
    .bind fun _ => .bind fun _ => .bind fun _ => .bind fun _ => .bind fun _ => .done ⟨rfl, hpos⟩

theorem peeks_replicaFetch : Peeks ReplicaFetchRequest.decode fun m => ⟨m.topic, m.partition⟩ :=
  peeks_of_rest fun _ _ => .bind fun _ => .ensured fun hpos => .bind fun _ => .bind fun _ =>
    .bind fun _ => .done ⟨rfl, hpos⟩

theorem peeks_replicaAck : Peeks ReplicaAckRequest.decode fun m => ⟨m.topic, m.partition⟩ :=
  peeks_of_rest fun _ _ => .bind fun _ => .ensured fun hpos => .bind fun _ => .bind fun _ =>
    .bind fun _ => .done ⟨rfl, hpos⟩

/-- **The peek agrees with the decoders**: a payload that a worker's decoder accepts begins with the
    topic and partition of the request. -/
theorem peek_of_execute (h : execute opcode payload = .ok c)
    (htp : c.partition = some tp) : peekTopicPartition payload = some tp := by
  unfold execute at h
  split at h
  · obtain ⟨m, hm, rfl⟩ := orMalformed_ok h
    rw [← htp]
    exact peeks_produce _ _ hm
  · obtain ⟨m, hm, rfl⟩ := orMalformed_ok h
    rw [← htp]
    exact peeks_fetch _ _ (decodePrefix_of_complete hm)
  · obtain ⟨m, hm, rfl⟩ := orMalformed_ok h
    rw [← htp]
    exact peeks_listOffsets _ _ (decodePrefix_of_complete hm)
  · obtain ⟨m, hm, rfl⟩ := orMalformed_ok h
    rw [← htp]
    exact peeks_replicate _ _ hm
  · obtain ⟨m, hm, rfl⟩ := orMalformed_ok h
    rw [← htp]
    exact peeks_replicaFetch _ _ (decodePrefix_of_complete hm)
  · obtain ⟨m, hm, rfl⟩ := orMalformed_ok h
    rw [← htp]
    exact peeks_replicaAck _ _ (decodePrefix_of_complete hm)
  · obtain ⟨m, -, rfl⟩ := orMalformed_ok h
    simp [Command.partition] at htp
  · obtain ⟨m, -, rfl⟩ := orMalformed_ok h
    simp [Command.partition] at htp
  · simp at h

/-- Such a request was routed by its peek. -/
theorem routeOf_of_execute (h : execute opcode payload = .ok c)
    (htp : c.partition = some tp) (peeked : Option Nat) : routeOf opcode peeked = peeked := by
  cases opcode with
  | createTopic =>
    obtain ⟨m, -, rfl⟩ := orMalformed_ok h
    simp [Command.partition] at htp
  | deleteTopic =>
    obtain ⟨m, -, rfl⟩ := orMalformed_ok h
    simp [Command.partition] at htp
  | produce | fetch | listOffsets | replicate | replicaFetch | replicaAck | unknown => rfl
  | _ => simp [execute] at h

/-- No request that is answered inline is for a partition. -/
theorem partition_of_handleInline
    (h : handleInline opcode payload = some (.ok c)) : c.partition = none := by
  unfold handleInline at h
  split at h
  iterate 3
    · rw [← Except.ok.inj (Option.some.inj h)]
      rfl
  iterate 6
    · obtain ⟨m, -, rfl⟩ := orMalformed_ok (Option.some.inj h)
      rfl
  · simp at h

end Peek

namespace Server

variable {σ : Type} {c : Routing}

/-- What a step does: it queues a request that routing sends to the worker, or it decides one, the
    frame on the io thread or the request at the head of a worker's queue, or it does nothing. -/
inductive Moves (c : Routing) (s : Server σ) : Server σ → Prop where
  | idle : Moves c s s
  | queued (w : Nat) (r : WorkerRequest)
      (hroute : routeOf r.opcode (c.workerForRequest r.payload) = some w) :
      Moves c s { s with queues := s.queues ++ [(w, r)] }
  | inline (r : WorkerRequest) (handler : Command → σ → σ) (decoded : Except Status Command)
      (hinline : handleInline r.opcode r.payload = some decoded) :
      Moves c s (s.settle .io r handler decoded)
  | rejected (r : WorkerRequest) (handler : Command → σ → σ) (status : Status)
      (hstatus : status.code = .protocolError ∨ status = queueFull) :
      Moves c s (s.settle .io r handler (.error status))
  | executed (w : Nat) (r : WorkerRequest) (handler : Command → σ → σ)
      (rest : List (Nat × WorkerRequest)) (hpop : pop w s.queues = some (r, rest)) :
      Moves c s (settle { s with queues := rest } (.worker w) r handler
        (execute r.opcode r.payload))

theorem step_moves (s : Server σ) (e : ServerEvent σ) : Moves c s (s.step c e) := by
  cases e with
  | frame r handler =>
    unfold step onFrame
    dsimp only
    split
    · rename_i decoded hinline
      exact .inline r handler decoded hinline
    · split
      · exact .rejected r handler _ (.inl rfl)
      · rename_i w hroute
        split
        · exact .queued w r hroute
        · exact .rejected r handler _ (.inr rfl)
  | work w handler =>
    unfold step
    dsimp only
    split
    · exact .idle
    · rename_i r rest hpop
      exact .executed w r handler rest hpop

/-- Queued requests are with the worker that routing names, and executed ones were. -/
structure OneWorker (c : Routing) (s : Server σ) : Prop where
  queued : ∀ x ∈ s.queues, routeOf x.2.opcode (c.workerForRequest x.2.payload) = some x.1
  done : ∀ h ∈ s.done, ∀ cmd tp, h.outcome = .processed cmd → cmd.partition = some tp →
    h.thread = .worker (c.workerFor tp)

/-- A decided request, if it was for a partition, was decided by its worker. -/
theorem OneWorker.settle {s : Server σ} {thread : Thread} {r : WorkerRequest}
    {handler : Command → σ → σ} {decoded : Except Status Command} (hs : OneWorker c s)
    (h : ∀ cmd tp, decoded = .ok cmd → cmd.partition = some tp →
      thread = .worker (c.workerFor tp)) : OneWorker c (s.settle thread r handler decoded) := by
  cases decoded with
  | ok cmd =>
    refine ⟨hs.queued, fun x hx cmd' tp hout htp => ?_⟩
    rcases List.mem_append.mp hx with hx | hx
    · exact hs.done x hx cmd' tp hout htp
    · rw [List.mem_singleton.mp hx] at hout ⊢
      exact h cmd tp rfl (by rw [Outcome.processed.inj hout]; exact htp)
  | error e =>
    refine ⟨hs.queued, fun x hx cmd' tp hout htp => ?_⟩
    rcases List.mem_append.mp hx with hx | hx
    · exact hs.done x hx cmd' tp hout htp
    · rw [List.mem_singleton.mp hx] at hout
      simp at hout

theorem OneWorker.step {s : Server σ} (e : ServerEvent σ) (hs : OneWorker c s) :
    OneWorker c (s.step c e) := by
  have hmoves := s.step_moves (c := c) e
  generalize s.step c e = s' at hmoves ⊢
  cases hmoves with
  | idle => exact hs
  | queued w r hroute =>
    refine ⟨fun x hx => ?_, hs.done⟩
    rcases List.mem_append.mp hx with hx | hx
    · exact hs.queued x hx
    · rw [List.mem_singleton.mp hx]
      exact hroute
  | inline r handler decoded hinline =>
    refine hs.settle fun cmd tp hok htp => ?_
    rw [hok] at hinline
    rw [partition_of_handleInline hinline] at htp
    simp at htp
  | rejected r handler status _ => exact hs.settle fun cmd tp hok _ => by simp at hok
  | executed w r handler rest hpop =>
    have hmem : ∀ x, x ∈ s.queues ↔ x = (w, r) ∨ x ∈ rest := fun x => by
      rw [(pop_perm hpop).mem_iff, List.mem_cons]
    have hrest : OneWorker c { s with queues := rest } :=
      ⟨fun x hx => hs.queued x ((hmem x).mpr (.inr hx)), hs.done⟩
    refine hrest.settle fun cmd tp hok htp => ?_
    have hroute := hs.queued (w, r) ((hmem _).mpr (.inl rfl))
    simp only [routeOf_of_execute hok htp, Routing.workerForRequest, peek_of_execute hok htp,
      Option.map_some, Option.some.injEq] at hroute
    rw [hroute]

end Server

/-- **A partition has one worker**: the peek agrees with the decoders behind it, and in every run
    each request of a partition is executed by the worker that `WorkerFor` names; so all the appends
    to its log come from one thread. -/
theorem partition_has_one_worker (c : Routing) :
    (∀ opcode payload cmd tp, execute opcode payload = .ok cmd → cmd.partition = some tp →
      peekTopicPartition payload = some tp) ∧
    ∀ {σ : Type} (broker : σ) (es : List (ServerEvent σ)) (tp : Protocol.TopicPartition),
      ∀ h ∈ (es.foldl (Server.step c) (.start broker)).done, ∀ cmd, h.outcome = .processed cmd →
        cmd.partition = some tp → h.thread = .worker (c.workerFor tp) := by
  refine ⟨fun opcode payload cmd tp => peek_of_execute, ?_⟩
  intro σ broker es tp
  have hrun : Server.OneWorker c (es.foldl (Server.step c) (.start broker)) := by
    have hstart : Server.OneWorker c (Server.start broker) :=
      ⟨by simp [Server.start], by simp [Server.start]⟩
    generalize Server.start broker = s at hstart
    induction es generalizing s with
    | nil => exact hstart
    | cons e es ih => exact ih _ (hstart.step e)
  exact fun h hh cmd hout htp => hrun.done h hh cmd tp hout htp

/-- The requests in the order in which the io threads get their frames. -/
def frames {σ : Type} (es : List (ServerEvent σ)) : List WorkerRequest :=
  es.filterMap fun
    | .frame r _ => some r
    | .work _ _ => none

/-- A request of the partition that its handler went on with. -/
def Handled.isFor (tp : Protocol.TopicPartition) (h : Handled) : Bool :=
  match h.outcome with
  | .processed cmd => cmd.partition = some tp
  | .refused _ => false

namespace Server

open List

variable {σ : Type} {c : Routing} {s : Server σ} {arrived : List WorkerRequest}

/-- What a worker has decided and has yet to decide came in in this order. -/
def InOrder (arrived : List WorkerRequest) (s : Server σ) : Prop :=
  ∀ w, (s.done.filter (·.thread = .worker w)).map Handled.request ++ queueOf w s.queues <+ arrived

theorem InOrder.settle (h : InOrder arrived s) (r : WorkerRequest) (handler : Command → σ → σ)
    (decoded : Except Status Command) :
    InOrder (arrived ++ [r]) (s.settle .io r handler decoded) := by
  intro w
  have hw := (h w).trans (sublist_append_left arrived [r])
  cases decoded <;> simpa [Server.settle] using hw

theorem InOrder.step (h : InOrder arrived s) (e : ServerEvent σ) :
    InOrder (arrived ++ frames [e]) (s.step c e) := by
  cases e with
  | frame r handler =>
    show InOrder (arrived ++ [r]) (s.onFrame c r handler)
    unfold onFrame
    split
    · exact h.settle r handler _
    split
    · exact h.settle r handler _
    split
    · rename_i w _ _
      intro u
      rw [queueOf_append, ← append_assoc]
      refine (h u).append ?_
      by_cases hu : w = u <;> simp [queueOf, hu]
    · exact h.settle r handler _
  | work w handler =>
    show InOrder (arrived ++ []) _
    rw [append_nil, Server.step]
    split
    · exact h
    rename_i r rest hpop
    intro u
    have hu := h u
    by_cases hwu : w = u
    · rw [← hwu, queueOf_pop hpop] at hu
      cases execute r.opcode r.payload <;> simpa [Server.settle, hwu] using hu
    · rw [← queueOf_pop_of_ne hpop (Ne.symm hwu)] at hu
      cases execute r.opcode r.payload <;> simpa [Server.settle, hwu] using hu

theorem inOrder_run (broker : σ) (es : List (ServerEvent σ)) :
    let s := es.foldl (step c) (start broker)
    OneWorker c s ∧ InOrder (frames es) s := by
  induction es using reverseRecOn with
  | nil => exact ⟨⟨by simp [start], by simp [start]⟩, fun _ => nil_sublist _⟩
  | append_singleton es e ih =>
    rw [foldl_append, frames, filterMap_append]
    exact ⟨ih.1.step e, ih.2.step e⟩

/-- **The requests of a partition are executed in the order of their frames**, in every run: those
    that the handlers of the partition went on with came in one after the other in this order. -/
theorem partition_in_order (c : Routing) (broker : σ) (es : List (ServerEvent σ))
    (tp : Protocol.TopicPartition) :
    ((es.foldl (step c) (start broker)).done.filter (·.isFor tp)).map Handled.request <+
      frames es := by
  obtain ⟨hw, h⟩ := inOrder_run (c := c) broker es
  generalize es.foldl (step c) (start broker) = s at hw h
  -- all of them were executed by the worker of the partition
  have hfor : ∀ x ∈ s.done.filter (·.isFor tp), x.thread = .worker (c.workerFor tp) := by
    intro x hx
    obtain ⟨hx, hfor⟩ := mem_filter.mp hx
    unfold Handled.isFor at hfor
    split at hfor
    · exact hw.done x hx _ tp ‹_› (of_decide_eq_true hfor)
    · cases hfor
  have hsub := (filter_sublist (p := (·.isFor tp)) (l := s.done)).filter
    (·.thread = .worker (c.workerFor tp))
  rw [filter_eq_self.mpr fun x hx => decide_eq_true (hfor x hx)] at hsub
  exact (hsub.map _).trans ((sublist_append_left _ _).trans (h _))

end Server

/-! ## 4. Payloads that go on behind their fields -/

/-- The handlers that ask for `Complete()`. -/
def asksComplete : OpCode → Bool
  | .produce | .replicate | .health | .listTopics | .describeCluster => false
  | _ => true

/-- **What keeps trailing bytes out**: the handler asks for the end of the payload, or the declared
    fields with values that the decoder takes are the whole payload. -/
def EndChecked (opcode : OpCode) (payload : Bytes) : Prop :=
  asksComplete opcode = true ∨ ∀ t, (valuesTaken opcode).run payload = some (true, t) → t = []

/-- What the protocol asks of the decoding of a request: it is refused with PROTOCOL_ERROR, and goes
    on only if the declared fields are the whole payload. -/
structure Strict (opcode : OpCode) (payload : Bytes) (decoded : Except Status Command) : Prop where
  ok : ∀ cmd, decoded = .ok cmd → fieldsRest opcode payload = some []
  error : ∀ status, decoded = .error status → status.code = .protocolError

section Strict

variable {α : Type} {payload t : Bytes} {opcode : OpCode} {message : String} {f : α → Command}

/-- A handler that goes on only where nothing is behind the fields. -/
theorem strict_orMalformed {o : Option α}
    (h : ∀ m, o = some m → fieldsRest opcode payload = some []) :
    Strict opcode payload (orMalformed message (o.map f)) := by
  constructor
  · intro cmd hok
    obtain ⟨m, hm, -⟩ := orMalformed_ok hok
    exact h m hm
  · intro status herror
    cases o with
    | none => rw [← Except.error.inj herror]
    | some m => simp [orMalformed] at herror

/-- A handler that asks for the end of the payload. -/
theorem strict_complete {decode : PayloadReader α} (hstops : StopsBehind decode opcode) :
    Strict opcode payload (orMalformed message ((decodeComplete decode payload).map f)) := by
  refine strict_orMalformed fun m hm => ?_
  unfold decodeComplete at hm
  split at hm
  · rename_i a ha
    exact hstops.fieldsRest_eq ha
  · simp at hm

/-- A handler that does not ask, where the fields are the whole payload. -/
theorem strict_unasked {decode : PayloadReader α}
    (hend : ∀ t, (valuesTaken opcode).run payload = some (true, t) → t = [])
    (hstops : StopsBehind (valuesTaken opcode) opcode)
    (hdecode : (∃ m r, decode.run payload = some (m, r)) ↔
      ∃ t, (valuesTaken opcode).run payload = some (true, t)) :
    Strict opcode payload (orMalformed message ((decodePrefix decode payload).map f)) := by
  refine strict_orMalformed fun m hm => ?_
  obtain ⟨⟨m, r⟩, hm, -⟩ := Option.map_eq_some_iff.mp hm
  obtain ⟨t, ht⟩ := hdecode.mp ⟨m, r, hm⟩
  rw [← hend t ht]
  exact hstops.fieldsRest_eq ht

theorem strict_handleInline {decoded : Except Status Command} (hend : EndChecked opcode payload)
    (h : handleInline opcode payload = some decoded) : Strict opcode payload decoded := by
  cases opcode with
  | metadata => exact Option.some.inj h ▸ strict_complete stops_metadata
  | joinGroup => exact Option.some.inj h ▸ strict_complete stops_joinGroup
  | heartbeat => exact Option.some.inj h ▸ strict_complete stops_heartbeat
  | leaveGroup => exact Option.some.inj h ▸ strict_complete stops_leaveGroup
  | commitOffset => exact Option.some.inj h ▸ strict_complete stops_commitOffset
  | fetchOffset => exact Option.some.inj h ▸ strict_complete stops_fetchOffset
  | health | listTopics | describeCluster =>
    obtain rfl : payload = [] := hend.elim (fun hasks => nomatch hasks) (fun hall => hall _ rfl)
    exact Option.some.inj h ▸ ⟨fun _ _ => rfl, fun _ herror => nomatch herror⟩
  | _ => simp [handleInline] at h

theorem strict_execute (hend : EndChecked opcode payload) :
    Strict opcode payload (execute opcode payload) := by
  cases opcode with
  | fetch => exact strict_complete stops_fetch
  | listOffsets => exact strict_complete stops_listOffsets
  | replicaFetch => exact strict_complete stops_replicaFetch
  | replicaAck => exact strict_complete stops_replicaAck
  | createTopic => exact strict_complete stops_createTopic
  | deleteTopic => exact strict_complete stops_deleteTopic
  | produce =>
    exact strict_unasked (hend.resolve_left (by decide)) stops_produceValues decode_produce_iff
  | replicate =>
    exact strict_unasked (hend.resolve_left (by decide)) stops_replicateValues decode_replicate_iff
  | _ => exact ⟨fun cmd h => by simp [execute] at h, fun status h => by rw [← Except.error.inj h]⟩

end Strict

namespace Server

variable {σ : Type}

/-- What the protocol asks of a request that a step has decided: it is processed only if the
    declared fields are the whole payload, and if a byte stands behind them it is refused without
    effect. -/
def Refuses (s s' : Server σ) (h : Handled) : Prop :=
  (∀ cmd, h.outcome = .processed cmd →
    fieldsRest h.request.opcode h.request.payload = some []) ∧
  ∀ t, fieldsRest h.request.opcode h.request.payload = some t → t ≠ [] →
    ∃ status, h.outcome = .refused status ∧
      (status.code = .protocolError ∨ status = queueFull) ∧ s'.broker = s.broker

theorem settle_error_refuses {s : Server σ} {thread : Thread} {r : WorkerRequest}
    {handler : Command → σ → σ} {status : Status}
    (hstatus : status.code = .protocolError ∨ status = queueFull) :
    s.Refuses (s.settle thread r handler (.error status)) ⟨thread, r, .refused status⟩ :=
  ⟨fun cmd h => by simp at h, fun _ _ _ => ⟨status, rfl, hstatus, rfl⟩⟩

theorem settle_decides {s : Server σ} {thread : Thread} {r : WorkerRequest}
    {handler : Command → σ → σ} {decoded : Except Status Command}
    (hstrict : EndChecked r.opcode r.payload → Strict r.opcode r.payload decoded) :
    ∃ h, (s.settle thread r handler decoded).done = s.done ++ [h] ∧
      (EndChecked h.request.opcode h.request.payload →
        s.Refuses (s.settle thread r handler decoded) h) := by
  cases decoded with
  | ok cmd =>
    refine ⟨⟨thread, r, .processed cmd⟩, rfl, fun hend => ?_⟩
    have hall := (hstrict hend).ok cmd rfl
    refine ⟨fun _ _ => hall, fun t ht hne => absurd ?_ hne⟩
    rw [ht] at hall
    exact Option.some.inj hall
  | error status =>
    exact ⟨⟨thread, r, .refused status⟩, rfl, fun hend =>
      settle_error_refuses (.inl ((hstrict hend).error status rfl))⟩

/-- A step that decides no request leaves the broker as it is; one that decides a request refuses
    trailing bytes where the end is checked. -/
theorem step_decides (c : Routing) (s : Server σ) (e : ServerEvent σ) :
    ((s.step c e).done = s.done ∧ (s.step c e).broker = s.broker) ∨
      ∃ h, (s.step c e).done = s.done ++ [h] ∧
        (EndChecked h.request.opcode h.request.payload → s.Refuses (s.step c e) h) := by
  have hmoves := s.step_moves (c := c) e
  generalize s.step c e = s' at hmoves ⊢
  cases hmoves with
  | idle => exact .inl ⟨rfl, rfl⟩
  | queued w r hroute => exact .inl ⟨rfl, rfl⟩
  | inline r handler decoded hinline =>
    exact .inr (settle_decides fun hend => strict_handleInline hend hinline)
  | rejected r handler status hstatus =>
    exact .inr ⟨⟨.io, r, .refused status⟩, rfl, fun _ => settle_error_refuses hstatus⟩
  | executed w r handler rest hpop => exact .inr (settle_decides strict_execute)

end Server

/-- Whatever server decides a request with this opcode and payload, and in whatever state, refuses
    trailing bytes. -/
def RefusesTrailing (opcode : OpCode) (payload : Bytes) : Prop :=
  ∀ {σ : Type} (c : Routing) (s : Server σ) (e : ServerEvent σ) (h : Handled),
    (s.step c e).done = s.done ++ [h] → h.request = ⟨opcode, payload⟩ → s.Refuses (s.step c e) h

/-- A server can process the request. -/
def Processable (request : WorkerRequest) : Prop :=
  ∃ (c : Routing) (s : Server Unit) (e : ServerEvent Unit) (thread : Thread) (cmd : Command),
    (s.step c e).done = s.done ++ [⟨thread, request, .processed cmd⟩]

theorem processable_inline {r : WorkerRequest} {cmd : Command}
    (h : handleInline r.opcode r.payload = some (.ok cmd)) : Processable r := by
  refine ⟨⟨1, 1, fun _ => 0⟩, .start (), .frame r fun _ u => u, .io, cmd, ?_⟩
  show (Server.onFrame _ _ r _).done = _
  unfold Server.onFrame
  rw [h]
  rfl

theorem processable_execute {r : WorkerRequest} {c : Command}
    (h : execute r.opcode r.payload = .ok c) : Processable r := by
  refine ⟨⟨1, 1, fun _ => 0⟩, ⟨[(0, r)], (), []⟩, .work 0 fun _ u => u, .worker 0, c, ?_⟩
  show (Server.settle _ (.worker 0) r _ (execute r.opcode r.payload)).done = _
  rw [h]
  rfl

/-- Fields with values that the decoder takes are enough where the handler does not ask for more. -/
theorem processable_of_taken {opcode : OpCode} {payload t : Bytes}
    (hasks : asksComplete opcode = false) (ht : (valuesTaken opcode).run payload = some (true, t)) :
    fieldsRest opcode payload = some t ∧ Processable ⟨opcode, payload⟩ := by
  cases opcode with
  | produce =>
    obtain ⟨m, r, hm⟩ := decode_produce_iff.mpr ⟨t, ht⟩
    refine ⟨stops_produceValues.fieldsRest_eq ht, processable_execute (c := .produce m) ?_⟩
    simp [execute, decodePrefix, hm, orMalformed]
  | replicate =>
    obtain ⟨m, r, hm⟩ := decode_replicate_iff.mpr ⟨t, ht⟩
    refine ⟨stops_replicateValues.fieldsRest_eq ht, processable_execute (c := .replicate m) ?_⟩
    simp [execute, decodePrefix, hm, orMalformed]
  | health | listTopics | describeCluster =>
    obtain ⟨-, rfl⟩ := Prod.mk.inj (Option.some.inj ht)
    exact ⟨rfl, processable_inline rfl⟩
  | _ => cases hasks

/-- **Where trailing bytes are refused**: if and only if the handler asks for the end of the
    payload, or no byte stands behind fields whose values the decoder takes. -/
theorem trailing_bytes_refused (opcode : OpCode) (payload : Bytes) :
    RefusesTrailing opcode payload ↔ EndChecked opcode payload := by
  constructor
  · intro hrefuses
    cases hasks : asksComplete opcode with
    | true => exact .inl hasks
    | false =>
      refine .inr fun t ht => ?_
      obtain ⟨hrest, c, s, e, thread, cmd, hdone⟩ := processable_of_taken hasks ht
      have hall := (hrefuses c s e _ hdone rfl).1 cmd rfl
      rw [hrest] at hall
      exact Option.some.inj hall
  · intro hend σ c s e h hdone hrequest
    rcases s.step_decides c e with ⟨hsame, -⟩ | ⟨h', hdone', hrefuses⟩
    · rw [hsame] at hdone
      simp at hdone
    · obtain rfl : h' = h := by simpa using hdone'.symm.trans hdone
      exact hrefuses (by rw [hrequest]; exact hend)

/-- A produce request for partition 0 of topic "t" with no records, and one more byte. -/
def longProduce : Bytes :=
  (⟨[116], 0, .leader, 0, 0, []⟩ : ProduceRequest).encode ++ [255]

/-- A replicate request with no records, and one more byte. -/
def longReplicate : Bytes :=
  (⟨[116], 0, 1, 0, 0, -1, 0, 0, 0, []⟩ : Protocol.ReplicateRequest).encode ++ [255]

/-- One worker, and handlers that count. -/
def longRun (opcode : OpCode) (payload : Bytes) : Server Nat :=
  [.frame ⟨opcode, payload⟩ fun _ n => n + 1, .work 0 fun _ n => n + 1].foldl
    (Server.step ⟨1, 16, fun _ => 0⟩) (.start 0)

/-- **Five handlers do not ask**: a byte behind the fields of a PRODUCE, REPLICATE, HEALTH,
    LIST_TOPICS or DESCRIBE_CLUSTER request is ignored, and the request is processed. -/
theorem trailing_byte_processed :
    fieldsRest .produce longProduce = some [255] ∧ (longRun .produce longProduce).broker = 1 ∧
    fieldsRest .replicate longReplicate = some [255] ∧
      (longRun .replicate longReplicate).broker = 1 ∧
    fieldsRest .health [255] = some [255] ∧ (longRun .health [255]).broker = 1 ∧
    fieldsRest .listTopics [255] = some [255] ∧ (longRun .listTopics [255]).broker = 1 ∧
    fieldsRest .describeCluster [255] = some [255] ∧
      (longRun .describeCluster [255]).broker = 1 := by
  decide +kernel

end Broker

end PulseLog
