/-
  Subject:   Decoding an encoded message gives the message back.

  A message is well formed when its strings and arrays keep their limits and its partition indexes
  are not negative where the decoder asks for that. Such a message is read back wherever it stands
  (`X.reads`); the four that carry record bytes take all that is left of the payload, so they are
  read back at the end of a payload (`X.run_decode`), with as many record bytes as their 32-bit
  length field counts.

  * `decode_encode` -- the round trip, for every message;
    `oversized_records_lost` -- with 2^32 record bytes the length field is 0 and they are lost.
-/
import PulseLog.Protocol.Messages

namespace PulseLog

open List

namespace Protocol

open PulseLog.Parser

/-- A string its length field can hold. -/
def Short (s : Bytes) : Prop := s.length ≤ maxStringLength

/-- An array the decoders take. -/
def Few {α : Type} (xs : List α) : Prop := xs.length ≤ maxArrayElements

/-! ## 1. Parts of messages -/

def ResponseHeader.WellFormed (m : ResponseHeader) : Prop := Short m.errorMessage

theorem ResponseHeader.reads {m : ResponseHeader} (h : m.WellFormed) : Reads decode m.encode m := by
  refine (Reads.u16 _).bind ((Reads.string h).bind ?_)
  rw [ErrorCode.ofU16_toU16]
  exact Reads.done _

/-- The header in front of anything: the code is read back, and what is left begins with what the
    length field did not count. -/
theorem ResponseHeader.run_decode (m : ResponseHeader) (t : Bytes) : decode.run (m.encode ++ t) =
    some (⟨m.error, m.errorMessage.take (m.errorMessage.length % 2 ^ 16)⟩,
      m.errorMessage.drop (m.errorMessage.length % 2 ^ 16) ++ t) := by
  unfold decode encode
  simp only [flatten_cons, append_assoc]
  rw [(Reads.u16 _).run_bind, StateT.run_bind, run_getString, ErrorCode.ofU16_toU16]
  rfl

theorem reads_brokerIds {ids : List Int32} (h : Few ids) :
    Reads decodeBrokerIds (encodeBrokerIds ids) ids :=
  Reads.array (fun id _ => Reads.i32 id) (fun id _ => (length_putI32 id).ge) (by decide) h

theorem reads_strings {names : List Bytes} (h : Few names) (hs : ∀ s ∈ names, Short s) :
    Reads (getArray 2 getString) (putArray putString names) names :=
  Reads.array (fun s hmem => Reads.string (hs s hmem)) (fun s _ => by simp) (by decide) h

def BrokerEndpoint.WellFormed (b : BrokerEndpoint) : Prop := Short b.host

theorem BrokerEndpoint.reads {b : BrokerEndpoint} (h : b.WellFormed) : Reads decode b.encode b :=
  .bind (.i32 _) <| .bind (.string h) <| .bind (.u16 _) <| .done _

theorem BrokerEndpoint.length_encode (b : BrokerEndpoint) : 8 ≤ b.encode.length := by
  simp only [encode, flatten_cons, length_append, length_putString, length_putI32, length_putU16]
  omega

theorem reads_brokers {brokers : List BrokerEndpoint} (h : Few brokers)
    (hb : ∀ b ∈ brokers, b.WellFormed) :
    Reads (getArray 8 BrokerEndpoint.decode) (putArray BrokerEndpoint.encode brokers) brokers :=
  Reads.array (fun b hmem => BrokerEndpoint.reads (hb b hmem)) (fun b _ => b.length_encode)
    (by decide) h

def PartitionMetadata.WellFormed (p : PartitionMetadata) : Prop :=
  Few p.replicas ∧ Few p.inSyncReplicas

theorem PartitionMetadata.reads {p : PartitionMetadata} (h : p.WellFormed) :
    Reads decode p.encode p :=
  .bind (.i32 _) <| .bind (.i32 _) <| .bind (.i64 _) <|
    .bind (reads_brokerIds h.1) <| .bind (reads_brokerIds h.2) <| .done _

theorem PartitionMetadata.length_encode (p : PartitionMetadata) : 24 ≤ p.encode.length := by
  simp only [encode, encodeBrokerIds, flatten_cons, length_append,
    length_putI32, length_putI64, length_putArray]
  omega

def TopicMetadata.WellFormed (t : TopicMetadata) : Prop :=
  Short t.name ∧ Few t.partitions ∧ ∀ p ∈ t.partitions, p.WellFormed

theorem TopicMetadata.reads {t : TopicMetadata} (h : t.WellFormed) : Reads decode t.encode t :=
  .bind (.string h.1) <|
    .bind (.array (fun p hp => PartitionMetadata.reads (h.2.2 p hp)) (fun p _ => p.length_encode)
      (by decide) h.2.1) <| .done _

theorem TopicMetadata.length_encode (t : TopicMetadata) : 6 ≤ t.encode.length := by
  simp only [encode, flatten_cons, length_append, length_putString, length_putArray]
  omega

def TopicSummary.WellFormed (t : TopicSummary) : Prop := Short t.name

theorem TopicSummary.reads {t : TopicSummary} (h : t.WellFormed) : Reads decode t.encode t :=
  .bind (.string h) <| .bind (.i32 _) <| .bind (.i64 _) <| .bind (.i64 _) <| .done _

theorem TopicSummary.length_encode (t : TopicSummary) : 22 ≤ t.encode.length := by
  simp only [encode, flatten_cons, length_append, length_putString, length_putI32, length_putI64]
  omega

def TopicPartition.WellFormed (tp : TopicPartition) : Prop := Short tp.topic ∧ 0 ≤ tp.partition

theorem TopicPartition.reads {tp : TopicPartition} (h : tp.WellFormed) :
    Reads decode tp.encode tp :=
  .bind (.string h.1) <| .bind (.i32 _) <| .ensured h.2 <| .done _

theorem TopicPartition.length_encode (tp : TopicPartition) : 6 ≤ tp.encode.length := by
  simp only [encode, flatten_cons, length_append, length_putString, length_putI32]
  omega

/-! ## 2. Messages without record bytes -/

def ProduceResponse.WellFormed (m : ProduceResponse) : Prop := m.header.WellFormed

theorem ProduceResponse.reads {m : ProduceResponse} (h : m.WellFormed) : Reads decode m.encode m :=
  .bind (ResponseHeader.reads h) <| .bind (.i64 _) <| .bind (.i64 _) <|
    .bind (.i64 _) <| .bind (.i64 _) <| .done _

def FetchRequest.WellFormed (m : FetchRequest) : Prop := Short m.topic ∧ 0 ≤ m.partition

theorem FetchRequest.reads {m : FetchRequest} (h : m.WellFormed) : Reads decode m.encode m :=
  .bind (.string h.1) <| .bind (.i32 _) <| .bind (.i64 _) <|
    .bind (.u32 _) <| .bind (.u32 _) <| .bind (.i32 _) <|
    .bind (.u8 _) <| .ensured h.2 <|
    .lifted (by cases m.isolation <;> rfl) <| .done _

def ListOffsetsRequest.WellFormed (m : ListOffsetsRequest) : Prop := Short m.topic ∧ 0 ≤ m.partition

theorem ListOffsetsRequest.reads {m : ListOffsetsRequest} (h : m.WellFormed) :
    Reads decode m.encode m :=
  .bind (.string h.1) <| .bind (.i32 _) <| .ensured h.2 <| .bind (.i64 _) <| .done _

def ListOffsetsResponse.WellFormed (m : ListOffsetsResponse) : Prop := m.header.WellFormed

theorem ListOffsetsResponse.reads {m : ListOffsetsResponse} (h : m.WellFormed) :
    Reads decode m.encode m :=
  .bind (ResponseHeader.reads h) <| .bind (.i64 _) <| .bind (.i64 _) <| .done _

def CreateTopicRequest.WellFormed (m : CreateTopicRequest) : Prop := Short m.topic

theorem CreateTopicRequest.reads {m : CreateTopicRequest} (h : m.WellFormed) :
    Reads decode m.encode m :=
  .bind (.string h) <| .bind (.i32 _) <| .bind (.i16 _) <|
    .bind (.i64 _) <| .bind (.i64 _) <| .bind (.u8 _) <|
    .lifted (by cases m.compression <;> rfl) <| .bind (.bool _) <| .done _

def CreateTopicResponse.WellFormed (m : CreateTopicResponse) : Prop := m.header.WellFormed

theorem CreateTopicResponse.reads {m : CreateTopicResponse} (h : m.WellFormed) :
    Reads decode m.encode m :=
  .bind (ResponseHeader.reads h) <| .bind (.i32 _) <| .done _

def DeleteTopicRequest.WellFormed (m : DeleteTopicRequest) : Prop := Short m.topic

theorem DeleteTopicRequest.reads {m : DeleteTopicRequest} (h : m.WellFormed) :
    Reads decode m.encode m :=
  .bind (.string h) <| .done _

def HeaderOnlyResponse.WellFormed (m : HeaderOnlyResponse) : Prop := m.header.WellFormed

theorem HeaderOnlyResponse.reads {m : HeaderOnlyResponse} (h : m.WellFormed) :
    Reads decode m.encode m :=
  .bind (ResponseHeader.reads h) <| .done _

def MetadataRequest.WellFormed (m : MetadataRequest) : Prop :=
  Few m.topics ∧ ∀ s ∈ m.topics, Short s

theorem MetadataRequest.reads {m : MetadataRequest} (h : m.WellFormed) : Reads decode m.encode m :=
  .bind (reads_strings h.1 h.2) <| .done _

def MetadataResponse.WellFormed (m : MetadataResponse) : Prop :=
  m.header.WellFormed ∧ Few m.brokers ∧ (∀ b ∈ m.brokers, b.WellFormed) ∧ Few m.topics ∧
    ∀ t ∈ m.topics, t.WellFormed

theorem MetadataResponse.reads {m : MetadataResponse} (h : m.WellFormed) :
    Reads decode m.encode m := by
  obtain ⟨hheader, hbrokers, hbroker, htopics, htopic⟩ := h
  exact .bind (ResponseHeader.reads hheader) <| .bind (.i32 _) <| .bind
    (reads_brokers hbrokers hbroker) <|
    .bind (.array (fun t ht => TopicMetadata.reads (htopic t ht)) (fun t _ => t.length_encode)
      (by decide) htopics) <| .done _

def EmptyRequest.WellFormed (_ : EmptyRequest) : Prop := True

theorem EmptyRequest.reads (m : EmptyRequest) : Reads decode m.encode m := Reads.done m

def ListTopicsResponse.WellFormed (m : ListTopicsResponse) : Prop :=
  m.header.WellFormed ∧ Few m.topics ∧ ∀ t ∈ m.topics, t.WellFormed

theorem ListTopicsResponse.reads {m : ListTopicsResponse} (h : m.WellFormed) :
    Reads decode m.encode m :=
  .bind (ResponseHeader.reads h.1) <|
    .bind (.array (fun t ht => TopicSummary.reads (h.2.2 t ht)) (fun t _ => t.length_encode)
      (by decide) h.2.1) <| .done _

def HealthResponse.WellFormed (m : HealthResponse) : Prop := m.header.WellFormed ∧ Short m.version

theorem HealthResponse.reads {m : HealthResponse} (h : m.WellFormed) : Reads decode m.encode m :=
  .bind (ResponseHeader.reads h.1) <| .bind (.i32 _) <| .bind (.i64 _) <|
    .bind (.i32 _) <| .bind (.i32 _) <| .bind (.bool _) <|
    .bind (.string h.2) <| .done _

def DescribeClusterResponse.WellFormed (m : DescribeClusterResponse) : Prop :=
  m.header.WellFormed ∧ Few m.brokers ∧ (∀ b ∈ m.brokers, b.WellFormed) ∧ Few m.liveBrokers

theorem DescribeClusterResponse.reads {m : DescribeClusterResponse} (h : m.WellFormed) :
    Reads decode m.encode m := by
  obtain ⟨hheader, hbrokers, hbroker, hlive⟩ := h
  exact .bind (ResponseHeader.reads hheader) <| .bind (.i32 _) <| .bind
    (reads_brokers hbrokers hbroker) <| .bind (reads_brokerIds hlive) <| .done _

def JoinGroupRequest.WellFormed (m : JoinGroupRequest) : Prop :=
  Short m.groupId ∧ Short m.memberId ∧ Few m.topics ∧ ∀ s ∈ m.topics, Short s

theorem JoinGroupRequest.reads {m : JoinGroupRequest} (h : m.WellFormed) :
    Reads decode m.encode m := by
  obtain ⟨hgroup, hmember, htopics, htopic⟩ := h
  exact .bind (.string hgroup) <| .bind (.string hmember) <|
    .bind (reads_strings htopics htopic) <| .bind (.i32 _) <| .bind (.u8 _) <|
    .lifted (by cases m.strategy <;> rfl) <| .done _

def JoinGroupResponse.WellFormed (m : JoinGroupResponse) : Prop :=
  m.header.WellFormed ∧ Short m.memberId ∧ Short m.leaderId ∧ Few m.assignment ∧
    ∀ tp ∈ m.assignment, tp.WellFormed

theorem JoinGroupResponse.reads {m : JoinGroupResponse} (h : m.WellFormed) :
    Reads decode m.encode m := by
  obtain ⟨hheader, hmember, hleader, hfew, htp⟩ := h
  exact .bind (ResponseHeader.reads hheader) <| .bind (.i32 _) <| .bind (.string hmember) <|
    .bind (.string hleader) <|
    .bind (.array (fun tp hmem => TopicPartition.reads (htp tp hmem)) (fun tp _ => tp.length_encode)
      (by decide) hfew) <| .done _

def HeartbeatRequest.WellFormed (m : HeartbeatRequest) : Prop := Short m.groupId ∧ Short m.memberId

theorem HeartbeatRequest.reads {m : HeartbeatRequest} (h : m.WellFormed) :
    Reads decode m.encode m :=
  .bind (.string h.1) <| .bind (.string h.2) <| .bind (.i32 _) <| .done _

def HeartbeatResponse.WellFormed (m : HeartbeatResponse) : Prop := m.header.WellFormed

theorem HeartbeatResponse.reads {m : HeartbeatResponse} (h : m.WellFormed) :
    Reads decode m.encode m :=
  .bind (ResponseHeader.reads h) <| .bind (.i32 _) <| .bind (.bool _) <| .done _

def LeaveGroupRequest.WellFormed (m : LeaveGroupRequest) : Prop :=
  Short m.groupId ∧ Short m.memberId

theorem LeaveGroupRequest.reads {m : LeaveGroupRequest} (h : m.WellFormed) :
    Reads decode m.encode m :=
  .bind (.string h.1) <| .bind (.string h.2) <| .done _

def CommitOffsetRequest.WellFormed (m : CommitOffsetRequest) : Prop :=
  Short m.groupId ∧ Short m.memberId ∧ Short m.topic ∧ 0 ≤ m.partition ∧ Short m.metadata

theorem CommitOffsetRequest.reads {m : CommitOffsetRequest} (h : m.WellFormed) :
    Reads decode m.encode m := by
  obtain ⟨hgroup, hmember, htopic, hpartition, hmetadata⟩ := h
  exact .bind (.string hgroup) <| .bind (.string hmember) <| .bind (.i32 _) <|
    .bind (.string htopic) <| .bind (.i32 _) <| .ensured hpartition <|
    .bind (.i64 _) <| .bind (.string hmetadata) <| .done _

def FetchOffsetRequest.WellFormed (m : FetchOffsetRequest) : Prop :=
  Short m.groupId ∧ Short m.topic ∧ 0 ≤ m.partition

theorem FetchOffsetRequest.reads {m : FetchOffsetRequest} (h : m.WellFormed) :
    Reads decode m.encode m :=
  .bind (.string h.1) <| .bind (.string h.2.1) <| .bind (.i32 _) <| .ensured h.2.2 <| .done _

def FetchOffsetResponse.WellFormed (m : FetchOffsetResponse) : Prop :=
  m.header.WellFormed ∧ Short m.metadata

theorem FetchOffsetResponse.reads {m : FetchOffsetResponse} (h : m.WellFormed) :
    Reads decode m.encode m :=
  .bind (ResponseHeader.reads h.1) <| .bind (.i64 _) <| .bind (.string h.2) <| Reads.done _

def ReplicateResponse.WellFormed (m : ReplicateResponse) : Prop := m.header.WellFormed

theorem ReplicateResponse.reads {m : ReplicateResponse} (h : m.WellFormed) :
    Reads decode m.encode m :=
  .bind (ResponseHeader.reads h) <| .bind (.i32 _) <| .bind (.i64 _) <|
    .bind (.i64 _) <| .bind (.i64 _) <| .done _

def ReplicaFetchRequest.WellFormed (m : ReplicaFetchRequest) : Prop :=
  Short m.topic ∧ 0 ≤ m.partition

theorem ReplicaFetchRequest.reads {m : ReplicaFetchRequest} (h : m.WellFormed) :
    Reads decode m.encode m :=
  .bind (.string h.1) <| .bind (.i32 _) <| .bind (.i32 _) <|
    .ensured h.2 <| .bind (.i64 _) <| .bind (.i64 _) <|
    .bind (.u32 _) <| .done _

def ReplicaAckRequest.WellFormed (m : ReplicaAckRequest) : Prop := Short m.topic ∧ 0 ≤ m.partition

theorem ReplicaAckRequest.reads {m : ReplicaAckRequest} (h : m.WellFormed) :
    Reads decode m.encode m :=
  .bind (.string h.1) <| .bind (.i32 _) <| .bind (.i32 _) <|
    .ensured h.2 <| .bind (.i64 _) <| .bind (.i64 _) <|
    .bind (.i64 _) <| .done _

def ReplicaAckResponse.WellFormed (m : ReplicaAckResponse) : Prop := m.header.WellFormed

theorem ReplicaAckResponse.reads {m : ReplicaAckResponse} (h : m.WellFormed) :
    Reads decode m.encode m :=
  .bind (ResponseHeader.reads h) <| .bind (.i64 _) <| .done _

/-! ## 3. Messages with record bytes -/

/-- The record bytes that survive the 32-bit length field. -/
def carried (records : Bytes) : Bytes := records.take (records.length % 2 ^ 32)

theorem carried_of_lt {records : Bytes} (h : records.length < 2 ^ 32) :
    carried records = records := by
  unfold carried
  rw [Nat.mod_eq_of_lt h, take_length]

/-- A chain whose last reader may look at all that is left. -/
theorem run_then {α β : Type} {p : PayloadReader α} {f : α → PayloadReader β} {s t : Bytes} {a : α}
    {r : Option (β × Bytes)} (hp : Reads p s a) (hf : (f a).run t = r) :
    (p >>= f).run (s ++ t) = r :=
  (hp.run_bind t).trans hf

/-- The record bytes come last; what is read behind them reads nothing. -/
theorem run_records {α : Type} {records : Bytes} {f : Bytes → PayloadReader α} {a : α}
    (h : Reads (f (carried records)) [] a) :
    (getRecords >>= f).run [putRecords records].flatten = some (a, []) := by
  refine run_bind_some.mpr ⟨carried records, [], ?_, h []⟩
  rw [flatten_singleton]
  exact run_getRecords records

def ProduceRequest.WellFormed (m : ProduceRequest) : Prop := Short m.topic ∧ 0 ≤ m.partition

theorem ProduceRequest.run_decode {m : ProduceRequest} (h : m.WellFormed) :
    decode.run m.encode = some ({ m with records := carried m.records }, []) :=
  run_then (.string h.1) <| run_then (.i32 _) <| run_then (.u8 _) <| run_then (.i32 _) <|
    run_then (.u32 _) <| run_records <|
    .lifted (by cases m.acks <;> rfl) <| .ensured h.2 <| .done _

def FetchResponse.WellFormed (m : FetchResponse) : Prop := m.header.WellFormed

theorem FetchResponse.run_decode {m : FetchResponse} (h : m.WellFormed) :
    decode.run m.encode = some ({ m with records := carried m.records }, []) :=
  run_then (ResponseHeader.reads h) <| run_then (.i64 _) <| run_then (.i64 _) <|
    run_then (.i64 _) <| run_then (.u32 _) <| run_records (.done _)

def ReplicateRequest.WellFormed (m : ReplicateRequest) : Prop := Short m.topic ∧ 0 ≤ m.partition

theorem ReplicateRequest.run_decode {m : ReplicateRequest} (h : m.WellFormed) :
    decode.run m.encode = some ({ m with records := carried m.records }, []) := by
  refine run_then (.string h.1) <| run_then (.i32 _) <| run_then (.i32 _) ?_
  refine ((reads_ensure h.2).run_bind _).trans ?_
  refine run_then (.i64 _) <| run_then (.i64 _) <| run_then (.i64 _) ?_
  refine run_then (.i64 _) <| run_then (.i64 _) ?_
  exact run_then (.u32 _) <| run_records (.done _)

def ReplicaFetchResponse.WellFormed (m : ReplicaFetchResponse) : Prop := m.header.WellFormed

theorem ReplicaFetchResponse.run_decode {m : ReplicaFetchResponse} (h : m.WellFormed) :
    decode.run m.encode = some ({ m with records := carried m.records }, []) :=
  run_then (ResponseHeader.reads h) <| run_then (.i64 _) <| run_then (.i64 _) <|
    run_then (.i64 _) <| run_then (.i64 _) <| run_then (.u32 _) <| run_records (.done _)

/-! ## 4. All messages -/

/-- The conditions on a value of a message type. -/
def PayloadType.WellFormed : (t : PayloadType) → t.Value → Prop
  | .produceRequest, m => ProduceRequest.WellFormed m
  | .produceResponse, m => ProduceResponse.WellFormed m
  | .fetchRequest, m => FetchRequest.WellFormed m
  | .fetchResponse, m => FetchResponse.WellFormed m
  | .listOffsetsRequest, m => ListOffsetsRequest.WellFormed m
  | .listOffsetsResponse, m => ListOffsetsResponse.WellFormed m
  | .createTopicRequest, m => CreateTopicRequest.WellFormed m
  | .createTopicResponse, m => CreateTopicResponse.WellFormed m
  | .deleteTopicRequest, m => DeleteTopicRequest.WellFormed m
  | .deleteTopicResponse, m => HeaderOnlyResponse.WellFormed m
  | .metadataRequest, m => MetadataRequest.WellFormed m
  | .metadataResponse, m => MetadataResponse.WellFormed m
  | .listTopicsRequest, m => EmptyRequest.WellFormed m
  | .listTopicsResponse, m => ListTopicsResponse.WellFormed m
  | .healthRequest, m => EmptyRequest.WellFormed m
  | .healthResponse, m => HealthResponse.WellFormed m
  | .describeClusterRequest, m => EmptyRequest.WellFormed m
  | .describeClusterResponse, m => DescribeClusterResponse.WellFormed m
  | .joinGroupRequest, m => JoinGroupRequest.WellFormed m
  | .joinGroupResponse, m => JoinGroupResponse.WellFormed m
  | .heartbeatRequest, m => HeartbeatRequest.WellFormed m
  | .heartbeatResponse, m => HeartbeatResponse.WellFormed m
  | .leaveGroupRequest, m => LeaveGroupRequest.WellFormed m
  | .leaveGroupResponse, m => HeaderOnlyResponse.WellFormed m
  | .commitOffsetRequest, m => CommitOffsetRequest.WellFormed m
  | .commitOffsetResponse, m => HeaderOnlyResponse.WellFormed m
  | .fetchOffsetRequest, m => FetchOffsetRequest.WellFormed m
  | .fetchOffsetResponse, m => FetchOffsetResponse.WellFormed m
  | .replicateRequest, m => ReplicateRequest.WellFormed m
  | .replicateResponse, m => ReplicateResponse.WellFormed m
  | .replicaFetchRequest, m => ReplicaFetchRequest.WellFormed m
  | .replicaFetchResponse, m => ReplicaFetchResponse.WellFormed m
  | .replicaAckRequest, m => ReplicaAckRequest.WellFormed m
  | .replicaAckResponse, m => ReplicaAckResponse.WellFormed m

/-- The number of record bytes fits in its length field. -/
def PayloadType.RecordsFit : (t : PayloadType) → t.Value → Prop
  | .produceRequest, m => (ProduceRequest.records m).length < 2 ^ 32
  | .fetchResponse, m => (FetchResponse.records m).length < 2 ^ 32
  | .replicateRequest, m => (ReplicateRequest.records m).length < 2 ^ 32
  | .replicaFetchResponse, m => (ReplicaFetchResponse.records m).length < 2 ^ 32
  | _, _ => True

/-- **Decoding undoes encoding**, and consumes every byte. -/
theorem decode_encode (t : PayloadType) (m : t.Value) (hm : t.WellFormed m) (hr : t.RecordsFit m) :
    t.decode.run (t.encode m) = some (m, []) := by
  cases t with
  | produceRequest => exact (ProduceRequest.run_decode hm).trans (by rw [carried_of_lt hr])
  | produceResponse => exact (ProduceResponse.reads hm).complete
  | fetchRequest => exact (FetchRequest.reads hm).complete
  | fetchResponse => exact (FetchResponse.run_decode hm).trans (by rw [carried_of_lt hr])
  | listOffsetsRequest => exact (ListOffsetsRequest.reads hm).complete
  | listOffsetsResponse => exact (ListOffsetsResponse.reads hm).complete
  | createTopicRequest => exact (CreateTopicRequest.reads hm).complete
  | createTopicResponse => exact (CreateTopicResponse.reads hm).complete
  | deleteTopicRequest => exact (DeleteTopicRequest.reads hm).complete
  | deleteTopicResponse => exact (HeaderOnlyResponse.reads hm).complete
  | metadataRequest => exact (MetadataRequest.reads hm).complete
  | metadataResponse => exact (MetadataResponse.reads hm).complete
  | listTopicsRequest => exact (EmptyRequest.reads m).complete
  | listTopicsResponse => exact (ListTopicsResponse.reads hm).complete
  | healthRequest => exact (EmptyRequest.reads m).complete
  | healthResponse => exact (HealthResponse.reads hm).complete
  | describeClusterRequest => exact (EmptyRequest.reads m).complete
  | describeClusterResponse => exact (DescribeClusterResponse.reads hm).complete
  | joinGroupRequest => exact (JoinGroupRequest.reads hm).complete
  | joinGroupResponse => exact (JoinGroupResponse.reads hm).complete
  | heartbeatRequest => exact (HeartbeatRequest.reads hm).complete
  | heartbeatResponse => exact (HeartbeatResponse.reads hm).complete
  | leaveGroupRequest => exact (LeaveGroupRequest.reads hm).complete
  | leaveGroupResponse => exact (HeaderOnlyResponse.reads hm).complete
  | commitOffsetRequest => exact (CommitOffsetRequest.reads hm).complete
  | commitOffsetResponse => exact (HeaderOnlyResponse.reads hm).complete
  | fetchOffsetRequest => exact (FetchOffsetRequest.reads hm).complete
  | fetchOffsetResponse => exact (FetchOffsetResponse.reads hm).complete
  | replicateRequest => exact (ReplicateRequest.run_decode hm).trans (by rw [carried_of_lt hr])
  | replicateResponse => exact (ReplicateResponse.reads hm).complete
  | replicaFetchRequest => exact (ReplicaFetchRequest.reads hm).complete
  | replicaFetchResponse =>
    exact (ReplicaFetchResponse.run_decode hm).trans (by rw [carried_of_lt hr])
  | replicaAckRequest => exact (ReplicaAckRequest.reads hm).complete
  | replicaAckResponse => exact (ReplicaAckResponse.reads hm).complete

/-- A metadata response with nested arrays. -/
def sampleMetadata : MetadataResponse :=
  ⟨⟨none, []⟩, 1, [⟨1, [104], 9092⟩], [⟨[116], [⟨0, 1, 0, [1, 2], [1]⟩, ⟨1, 2, 0, [], []⟩]⟩]⟩

theorem sampleMetadata_decoded :
    PayloadType.metadataResponse.encode sampleMetadata ≠ [] ∧
      PayloadType.metadataResponse.decode.run (PayloadType.metadataResponse.encode sampleMetadata) =
        some (sampleMetadata, []) := by
  have hshort : ∀ s : Bytes, s.length ≤ 1 → Short s := fun s h => le_trans h (by decide)
  have hfew : ∀ {α} (xs : List α), xs.length ≤ 2 → Few xs := fun xs h => le_trans h (by decide)
  refine ⟨by decide, decode_encode .metadataResponse sampleMetadata ?_ trivial⟩
  refine ⟨hshort _ (by decide), hfew _ (by decide), ?_, hfew _ (by decide), ?_⟩
  · simp [sampleMetadata, BrokerEndpoint.WellFormed, hshort]
  · simp [sampleMetadata, TopicMetadata.WellFormed, PartitionMetadata.WellFormed, hshort, hfew]

theorem length_carried_lt (records : Bytes) : (carried records).length < 2 ^ 32 := by
  unfold carried
  rw [length_take]
  exact lt_of_le_of_lt (Nat.min_le_left _ _) (Nat.mod_lt _ (by decide))

/-- A request with more record bytes than the length field counts is never read back. -/
theorem ProduceRequest.records_lost {m : ProduceRequest} (h : m.WellFormed)
    (hlen : 2 ^ 32 ≤ m.records.length) : decode.run m.encode ≠ some (m, []) := by
  intro hrun
  rw [ProduceRequest.run_decode h] at hrun
  have hrecords : carried m.records = m.records :=
    congrArg ProduceRequest.records (Prod.mk.inj (Option.some.inj hrun)).1
  have hlt := length_carried_lt m.records
  rw [hrecords] at hlt
  omega

/-- A produce request with 2^32 record bytes. -/
def oversizedProduce : ProduceRequest := ⟨[116], 0, .leader, 5000, 1, zeros (2 ^ 32)⟩

/-- **2^32 record bytes are lost**: every string, array, index and enumerator keeps its limits, and
    the message is not read back. -/
theorem oversized_records_lost :
    PayloadType.produceRequest.WellFormed oversizedProduce ∧
      PayloadType.produceRequest.decode.run (PayloadType.produceRequest.encode oversizedProduce) ≠
        some (oversizedProduce, []) := by
  have hwell : oversizedProduce.WellFormed :=
    ⟨by simp [oversizedProduce, Short, maxStringLength], by decide⟩
  have hlen : 2 ^ 32 ≤ oversizedProduce.records.length := (length_zeros (2 ^ 32)).ge
  exact ⟨hwell, ProduceRequest.records_lost hwell hlen⟩

end Protocol

end PulseLog
