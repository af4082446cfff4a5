/-
  Subject:   Request and response payloads (include/pulselog/protocol/messages.h,
             src/protocol/messages_data.cc, messages_control.cc, messages_group.cc).

  One structure per message, with its fields in the order they are written. Strings are byte
  strings, the integers have the widths of the source, and an enumeration holds its enumerators
  only. An encoding is the list of the writes, a decoder reads field after field.

  * data plane: produce, fetch, list-offsets; control plane: topics, metadata, health, groups;
    replication;
  * `PayloadType` -- the messages, each with its `encode` and `decode`.
-/
import PulseLog.Base.Status
import PulseLog.Base.Types
import PulseLog.Protocol.Codec

namespace PulseLog

/-! ## 1. Enumerations on the wire -/

/-- The number of an `ErrorCode`; `none` is `kOk`. -/
def ErrorCode.toU16 : Option ErrorCode → UInt16
  | none => 0
  | some .unknown => 1
  | some .invalidArgument => 2
  | some .notFound => 3
  | some .alreadyExists => 4
  | some .outOfRange => 5
  | some .corruption => 6
  | some .ioError => 7
  | some .unavailable => 8
  | some .timeout => 9
  | some .backpressure => 10
  | some .notLeader => 11
  | some .notEnoughReplicas => 12
  | some .protocolError => 13
  | some .unsupportedVersion => 14
  | some .permissionDenied => 15
  | some .resourceExhausted => 16
  | some .rebalanceInProgress => 17
  | some .unknownMember => 18
  | some .illegalGeneration => 19
  | some .closed => 20
  | some .wouldBlock => 21
  | some .internal => 22

/-- A code above `kInternal` degrades to `kUnknown`. -/
def ErrorCode.ofU16 (raw : UInt16) : Option ErrorCode :=
  match raw.toNat with
  | 0 => none
  | 1 => some .unknown
  | 2 => some .invalidArgument
  | 3 => some .notFound
  | 4 => some .alreadyExists
  | 5 => some .outOfRange
  | 6 => some .corruption
  | 7 => some .ioError
  | 8 => some .unavailable
  | 9 => some .timeout
  | 10 => some .backpressure
  | 11 => some .notLeader
  | 12 => some .notEnoughReplicas
  | 13 => some .protocolError
  | 14 => some .unsupportedVersion
  | 15 => some .permissionDenied
  | 16 => some .resourceExhausted
  | 17 => some .rebalanceInProgress
  | 18 => some .unknownMember
  | 19 => some .illegalGeneration
  | 20 => some .closed
  | 21 => some .wouldBlock
  | 22 => some .internal
  | _ => some .unknown

theorem ErrorCode.ofU16_toU16 (e : Option ErrorCode) : ofU16 (toU16 e) = e := by
  cases e with
  | none => rfl
  | some e => cases e <;> rfl

def AckMode.toU8 : AckMode → UInt8
  | .none => 0
  | .leader => 1
  | .quorum => 2

def AckMode.ofU8 (raw : UInt8) : Option AckMode :=
  match raw.toNat with
  | 0 => some .none
  | 1 => some .leader
  | 2 => some .quorum
  | _ => Option.none

def Compression.toU8 : Compression → UInt8
  | .none => 0
  | .lz4Like => 1

def Compression.ofU8 (raw : UInt8) : Option Compression :=
  match raw.toNat with
  | 0 => some .none
  | 1 => some .lz4Like
  | _ => Option.none

def IsolationLevel.toU8 : IsolationLevel → UInt8
  | .readUncommitted => 0
  | .readReplicated => 1

def IsolationLevel.ofU8 (raw : UInt8) : Option IsolationLevel :=
  match raw.toNat with
  | 0 => some .readUncommitted
  | 1 => some .readReplicated
  | _ => none

def AssignmentStrategy.toU8 : AssignmentStrategy → UInt8
  | .range => 0
  | .roundRobin => 1

def AssignmentStrategy.ofU8 (raw : UInt8) : Option AssignmentStrategy :=
  match raw.toNat with
  | 0 => some .range
  | 1 => some .roundRobin
  | _ => none

namespace Protocol

open PulseLog.Parser

/-- `ResponseHeader`. -/
structure ResponseHeader where
  error : Option ErrorCode
  errorMessage : Bytes
  deriving Repr, DecidableEq

def ResponseHeader.encode (m : ResponseHeader) : Bytes :=
  [putU16 (ErrorCode.toU16 m.error), putString m.errorMessage].flatten

def ResponseHeader.decode : PayloadReader ResponseHeader := do
  let raw ← getU16
  let errorMessage ← getString
  pure { error := ErrorCode.ofU16 raw, errorMessage }

/-! ## 2. Data plane -/

structure ProduceRequest where
  topic : Bytes
  partition : Int32
  acks : AckMode
  timeoutMs : Int32
  recordCount : UInt32
  records : Bytes
  deriving Repr, DecidableEq

def ProduceRequest.encode (m : ProduceRequest) : Bytes :=
  [putString m.topic, putI32 m.partition, putU8 m.acks.toU8, putI32 m.timeoutMs,
    putU32 m.recordCount, putRecords m.records].flatten

def ProduceRequest.decode : PayloadReader ProduceRequest := do
  let topic ← getString
  let partition ← getI32
  let acksRaw ← getU8
  let timeoutMs ← getI32
  let recordCount ← getU32
  let records ← getRecords
  let acks ← lift (AckMode.ofU8 acksRaw)
  ensure (0 ≤ partition)
  pure { topic, partition, acks, timeoutMs, recordCount, records }

structure ProduceResponse where
  header : ResponseHeader
  baseOffset : Int64
  lastOffset : Int64
  appendTime : Int64
  highWaterMark : Int64
  deriving Repr, DecidableEq

def ProduceResponse.encode (m : ProduceResponse) : Bytes :=
  [m.header.encode, putI64 m.baseOffset, putI64 m.lastOffset, putI64 m.appendTime,
    putI64 m.highWaterMark].flatten

def ProduceResponse.decode : PayloadReader ProduceResponse := do
  let header ← ResponseHeader.decode
  let baseOffset ← getI64
  let lastOffset ← getI64
  let appendTime ← getI64
  let highWaterMark ← getI64
  pure { header, baseOffset, lastOffset, appendTime, highWaterMark }

structure FetchRequest where
  topic : Bytes
  partition : Int32
  fetchOffset : Int64
  maxBytes : UInt32
  minBytes : UInt32
  maxWaitMs : Int32
  isolation : IsolationLevel
  deriving Repr, DecidableEq

def FetchRequest.encode (m : FetchRequest) : Bytes :=
  [putString m.topic, putI32 m.partition, putI64 m.fetchOffset, putU32 m.maxBytes,
    putU32 m.minBytes, putI32 m.maxWaitMs, putU8 m.isolation.toU8].flatten

def FetchRequest.decode : PayloadReader FetchRequest := do
  let topic ← getString
  let partition ← getI32
  let fetchOffset ← getI64
  let maxBytes ← getU32
  let minBytes ← getU32
  let maxWaitMs ← getI32
  let isolationRaw ← getU8
  ensure (0 ≤ partition)
  let isolation ← lift (IsolationLevel.ofU8 isolationRaw)
  pure { topic, partition, fetchOffset, maxBytes, minBytes, maxWaitMs, isolation }

structure FetchResponse where
  header : ResponseHeader
  highWaterMark : Int64
  logStartOffset : Int64
  baseOffset : Int64
  recordCount : UInt32
  records : Bytes
  deriving Repr, DecidableEq

def FetchResponse.encode (m : FetchResponse) : Bytes :=
  [m.header.encode, putI64 m.highWaterMark, putI64 m.logStartOffset, putI64 m.baseOffset,
    putU32 m.recordCount, putRecords m.records].flatten

def FetchResponse.decode : PayloadReader FetchResponse := do
  let header ← ResponseHeader.decode
  let highWaterMark ← getI64
  let logStartOffset ← getI64
  let baseOffset ← getI64
  let recordCount ← getU32
  let records ← getRecords
  pure { header, highWaterMark, logStartOffset, baseOffset, recordCount, records }

structure ListOffsetsRequest where
  topic : Bytes
  partition : Int32
  timestamp : Int64
  deriving Repr, DecidableEq

def ListOffsetsRequest.encode (m : ListOffsetsRequest) : Bytes :=
  [putString m.topic, putI32 m.partition, putI64 m.timestamp].flatten

def ListOffsetsRequest.decode : PayloadReader ListOffsetsRequest := do
  let topic ← getString
  let partition ← getI32
  ensure (0 ≤ partition)
  let timestamp ← getI64
  pure { topic, partition, timestamp }

structure ListOffsetsResponse where
  header : ResponseHeader
  offset : Int64
  timestamp : Int64
  deriving Repr, DecidableEq

def ListOffsetsResponse.encode (m : ListOffsetsResponse) : Bytes :=
  [m.header.encode, putI64 m.offset, putI64 m.timestamp].flatten

def ListOffsetsResponse.decode : PayloadReader ListOffsetsResponse := do
  let header ← ResponseHeader.decode
  let offset ← getI64
  let timestamp ← getI64
  pure { header, offset, timestamp }

/-! ## 3. Topics and metadata -/

structure CreateTopicRequest where
  topic : Bytes
  partitions : Int32
  replicationFactor : Int16
  retentionMs : Int64
  segmentBytes : Int64
  compression : Compression
  fromController : Bool
  deriving Repr, DecidableEq

def CreateTopicRequest.encode (m : CreateTopicRequest) : Bytes :=
  [putString m.topic, putI32 m.partitions, putI16 m.replicationFactor, putI64 m.retentionMs,
    putI64 m.segmentBytes, putU8 m.compression.toU8, putBool m.fromController].flatten

def CreateTopicRequest.decode : PayloadReader CreateTopicRequest := do
  let topic ← getString
  let partitions ← getI32
  let replicationFactor ← getI16
  let retentionMs ← getI64
  let segmentBytes ← getI64
  let compressionRaw ← getU8
  let compression ← lift (Compression.ofU8 compressionRaw)
  let fromController ← getBool
  pure ⟨topic, partitions, replicationFactor, retentionMs, segmentBytes, compression,
    fromController⟩

structure CreateTopicResponse where
  header : ResponseHeader
  partitions : Int32
  deriving Repr, DecidableEq

def CreateTopicResponse.encode (m : CreateTopicResponse) : Bytes :=
  [m.header.encode, putI32 m.partitions].flatten

def CreateTopicResponse.decode : PayloadReader CreateTopicResponse := do
  let header ← ResponseHeader.decode
  let partitions ← getI32
  pure { header, partitions }

structure DeleteTopicRequest where
  topic : Bytes
  deriving Repr, DecidableEq

def DeleteTopicRequest.encode (m : DeleteTopicRequest) : Bytes := [putString m.topic].flatten

def DeleteTopicRequest.decode : PayloadReader DeleteTopicRequest := do
  let topic ← getString
  pure { topic }

/-- A response that is its header: `DeleteTopicResponse`, `LeaveGroupResponse` and
    `CommitOffsetResponse`. -/
structure HeaderOnlyResponse where
  header : ResponseHeader
  deriving Repr, DecidableEq

def HeaderOnlyResponse.encode (m : HeaderOnlyResponse) : Bytes := [m.header.encode].flatten

def HeaderOnlyResponse.decode : PayloadReader HeaderOnlyResponse := do
  let header ← ResponseHeader.decode
  pure { header }

structure BrokerEndpoint where
  id : Int32
  host : Bytes
  port : UInt16
  deriving Repr, DecidableEq

def BrokerEndpoint.encode (b : BrokerEndpoint) : Bytes :=
  [putI32 b.id, putString b.host, putU16 b.port].flatten

def BrokerEndpoint.decode : PayloadReader BrokerEndpoint := do
  let id ← getI32
  let host ← getString
  let port ← getU16
  pure { id, host, port }

structure PartitionMetadata where
  index : Int32
  leader : Int32
  leaderEpoch : Int64
  replicas : List Int32
  inSyncReplicas : List Int32
  deriving Repr, DecidableEq

/-- `EncodeBrokerIds`. -/
def encodeBrokerIds (ids : List Int32) : Bytes := putArray putI32 ids

/-- `DecodeBrokerIds`. -/
def decodeBrokerIds : PayloadReader (List Int32) := getArray 4 getI32

def PartitionMetadata.encode (p : PartitionMetadata) : Bytes :=
  [putI32 p.index, putI32 p.leader, putI64 p.leaderEpoch, encodeBrokerIds p.replicas,
    encodeBrokerIds p.inSyncReplicas].flatten

def PartitionMetadata.decode : PayloadReader PartitionMetadata := do
  let index ← getI32
  let leader ← getI32
  let leaderEpoch ← getI64
  let replicas ← decodeBrokerIds
  let inSyncReplicas ← decodeBrokerIds
  pure { index, leader, leaderEpoch, replicas, inSyncReplicas }

structure TopicMetadata where
  name : Bytes
  partitions : List PartitionMetadata
  deriving Repr, DecidableEq

def TopicMetadata.encode (t : TopicMetadata) : Bytes :=
  [putString t.name, putArray PartitionMetadata.encode t.partitions].flatten

def TopicMetadata.decode : PayloadReader TopicMetadata := do
  let name ← getString
  let partitions ← getArray 24 PartitionMetadata.decode
  pure { name, partitions }

structure MetadataRequest where
  topics : List Bytes
  deriving Repr, DecidableEq

def MetadataRequest.encode (m : MetadataRequest) : Bytes := [putArray putString m.topics].flatten

def MetadataRequest.decode : PayloadReader MetadataRequest := do
  let topics ← getArray 2 getString
  pure { topics }

structure MetadataResponse where
  header : ResponseHeader
  controllerId : Int32
  brokers : List BrokerEndpoint
  topics : List TopicMetadata
  deriving Repr, DecidableEq

def MetadataResponse.encode (m : MetadataResponse) : Bytes :=
  [m.header.encode, putI32 m.controllerId, putArray BrokerEndpoint.encode m.brokers,
    putArray TopicMetadata.encode m.topics].flatten

def MetadataResponse.decode : PayloadReader MetadataResponse := do
  let header ← ResponseHeader.decode
  let controllerId ← getI32
  let brokers ← getArray 8 BrokerEndpoint.decode
  let topics ← getArray 6 TopicMetadata.decode
  pure { header, controllerId, brokers, topics }

/-- A request without fields: `ListTopicsRequest`, `HealthRequest` and `DescribeClusterRequest`. -/
structure EmptyRequest where
  deriving Repr, DecidableEq

def EmptyRequest.encode (_ : EmptyRequest) : Bytes := []

def EmptyRequest.decode : PayloadReader EmptyRequest := pure {}

structure TopicSummary where
  name : Bytes
  partitions : Int32
  totalBytes : Int64
  totalRecords : Int64
  deriving Repr, DecidableEq

def TopicSummary.encode (t : TopicSummary) : Bytes :=
  [putString t.name, putI32 t.partitions, putI64 t.totalBytes, putI64 t.totalRecords].flatten

def TopicSummary.decode : PayloadReader TopicSummary := do
  let name ← getString
  let partitions ← getI32
  let totalBytes ← getI64
  let totalRecords ← getI64
  pure { name, partitions, totalBytes, totalRecords }

structure ListTopicsResponse where
  header : ResponseHeader
  topics : List TopicSummary
  deriving Repr, DecidableEq

def ListTopicsResponse.encode (m : ListTopicsResponse) : Bytes :=
  [m.header.encode, putArray TopicSummary.encode m.topics].flatten

def ListTopicsResponse.decode : PayloadReader ListTopicsResponse := do
  let header ← ResponseHeader.decode
  let topics ← getArray 22 TopicSummary.decode
  pure { header, topics }

structure HealthResponse where
  header : ResponseHeader
  brokerId : Int32
  uptimeMs : Int64
  hostedPartitions : Int32
  leaderPartitions : Int32
  ready : Bool
  version : Bytes
  deriving Repr, DecidableEq

def HealthResponse.encode (m : HealthResponse) : Bytes :=
  [m.header.encode, putI32 m.brokerId, putI64 m.uptimeMs, putI32 m.hostedPartitions,
    putI32 m.leaderPartitions, putBool m.ready, putString m.version].flatten

def HealthResponse.decode : PayloadReader HealthResponse := do
  let header ← ResponseHeader.decode
  let brokerId ← getI32
  let uptimeMs ← getI64
  let hostedPartitions ← getI32
  let leaderPartitions ← getI32
  let ready ← getBool
  let version ← getString
  pure { header, brokerId, uptimeMs, hostedPartitions, leaderPartitions, ready, version }

structure DescribeClusterResponse where
  header : ResponseHeader
  controllerId : Int32
  brokers : List BrokerEndpoint
  liveBrokers : List Int32
  deriving Repr, DecidableEq

def DescribeClusterResponse.encode (m : DescribeClusterResponse) : Bytes :=
  [m.header.encode, putI32 m.controllerId, putArray BrokerEndpoint.encode m.brokers,
    encodeBrokerIds m.liveBrokers].flatten

def DescribeClusterResponse.decode : PayloadReader DescribeClusterResponse := do
  let header ← ResponseHeader.decode
  let controllerId ← getI32
  let brokers ← getArray 8 BrokerEndpoint.decode
  let liveBrokers ← decodeBrokerIds
  pure { header, controllerId, brokers, liveBrokers }

/-! ## 4. Consumer groups -/

structure JoinGroupRequest where
  groupId : Bytes
  memberId : Bytes
  topics : List Bytes
  sessionTimeoutMs : Int32
  strategy : AssignmentStrategy
  deriving Repr, DecidableEq

def JoinGroupRequest.encode (m : JoinGroupRequest) : Bytes :=
  [putString m.groupId, putString m.memberId, putArray putString m.topics,
    putI32 m.sessionTimeoutMs, putU8 m.strategy.toU8].flatten

def JoinGroupRequest.decode : PayloadReader JoinGroupRequest := do
  let groupId ← getString
  let memberId ← getString
  let topics ← getArray 2 getString
  let sessionTimeoutMs ← getI32
  let strategyRaw ← getU8
  let strategy ← lift (AssignmentStrategy.ofU8 strategyRaw)
  pure { groupId, memberId, topics, sessionTimeoutMs, strategy }

/-- `TopicPartition` on the wire. -/
structure TopicPartition where
  topic : Bytes
  partition : Int32
  deriving Repr, DecidableEq

def TopicPartition.encode (tp : TopicPartition) : Bytes :=
  [putString tp.topic, putI32 tp.partition].flatten

def TopicPartition.decode : PayloadReader TopicPartition := do
  let topic ← getString
  let partition ← getI32
  ensure (0 ≤ partition)
  pure { topic, partition }

structure JoinGroupResponse where
  header : ResponseHeader
  generation : Int32
  memberId : Bytes
  leaderId : Bytes
  assignment : List TopicPartition
  deriving Repr, DecidableEq

def JoinGroupResponse.encode (m : JoinGroupResponse) : Bytes :=
  [m.header.encode, putI32 m.generation, putString m.memberId, putString m.leaderId,
    putArray TopicPartition.encode m.assignment].flatten

def JoinGroupResponse.decode : PayloadReader JoinGroupResponse := do
  let header ← ResponseHeader.decode
  let generation ← getI32
  let memberId ← getString
  let leaderId ← getString
  let assignment ← getArray 6 TopicPartition.decode
  pure { header, generation, memberId, leaderId, assignment }

structure HeartbeatRequest where
  groupId : Bytes
  memberId : Bytes
  generation : Int32
  deriving Repr, DecidableEq

def HeartbeatRequest.encode (m : HeartbeatRequest) : Bytes :=
  [putString m.groupId, putString m.memberId, putI32 m.generation].flatten

def HeartbeatRequest.decode : PayloadReader HeartbeatRequest := do
  let groupId ← getString
  let memberId ← getString
  let generation ← getI32
  pure { groupId, memberId, generation }

structure HeartbeatResponse where
  header : ResponseHeader
  generation : Int32
  rejoinRequired : Bool
  deriving Repr, DecidableEq

def HeartbeatResponse.encode (m : HeartbeatResponse) : Bytes :=
  [m.header.encode, putI32 m.generation, putBool m.rejoinRequired].flatten

def HeartbeatResponse.decode : PayloadReader HeartbeatResponse := do
  let header ← ResponseHeader.decode
  let generation ← getI32
  let rejoinRequired ← getBool
  pure { header, generation, rejoinRequired }

structure LeaveGroupRequest where
  groupId : Bytes
  memberId : Bytes
  deriving Repr, DecidableEq

def LeaveGroupRequest.encode (m : LeaveGroupRequest) : Bytes :=
  [putString m.groupId, putString m.memberId].flatten

def LeaveGroupRequest.decode : PayloadReader LeaveGroupRequest := do
  let groupId ← getString
  let memberId ← getString
  pure { groupId, memberId }

structure CommitOffsetRequest where
  groupId : Bytes
  memberId : Bytes
  generation : Int32
  topic : Bytes
  partition : Int32
  offset : Int64
  metadata : Bytes
  deriving Repr, DecidableEq

def CommitOffsetRequest.encode (m : CommitOffsetRequest) : Bytes :=
  [putString m.groupId, putString m.memberId, putI32 m.generation, putString m.topic,
    putI32 m.partition, putI64 m.offset, putString m.metadata].flatten

def CommitOffsetRequest.decode : PayloadReader CommitOffsetRequest := do
  let groupId ← getString
  let memberId ← getString
  let generation ← getI32
  let topic ← getString
  let partition ← getI32
  ensure (0 ≤ partition)
  let offset ← getI64
  let metadata ← getString
  pure { groupId, memberId, generation, topic, partition, offset, metadata }

structure FetchOffsetRequest where
  groupId : Bytes
  topic : Bytes
  partition : Int32
  deriving Repr, DecidableEq

def FetchOffsetRequest.encode (m : FetchOffsetRequest) : Bytes :=
  [putString m.groupId, putString m.topic, putI32 m.partition].flatten

def FetchOffsetRequest.decode : PayloadReader FetchOffsetRequest := do
  let groupId ← getString
  let topic ← getString
  let partition ← getI32
  ensure (0 ≤ partition)
  pure { groupId, topic, partition }

structure FetchOffsetResponse where
  header : ResponseHeader
  offset : Int64
  metadata : Bytes
  deriving Repr, DecidableEq

def FetchOffsetResponse.encode (m : FetchOffsetResponse) : Bytes :=
  [m.header.encode, putI64 m.offset, putString m.metadata].flatten

def FetchOffsetResponse.decode : PayloadReader FetchOffsetResponse := do
  let header ← ResponseHeader.decode
  let offset ← getI64
  let metadata ← getString
  pure { header, offset, metadata }

/-! ## 5. Replication -/

structure ReplicateRequest where
  topic : Bytes
  partition : Int32
  leaderId : Int32
  leaderEpoch : Int64
  baseOffset : Int64
  prevOffset : Int64
  leaderHighWaterMark : Int64
  leaderLogStartOffset : Int64
  recordCount : UInt32
  records : Bytes
  deriving Repr, DecidableEq

def ReplicateRequest.encode (m : ReplicateRequest) : Bytes :=
  [putString m.topic, putI32 m.partition, putI32 m.leaderId, putI64 m.leaderEpoch,
    putI64 m.baseOffset, putI64 m.prevOffset, putI64 m.leaderHighWaterMark,
    putI64 m.leaderLogStartOffset, putU32 m.recordCount, putRecords m.records].flatten

def ReplicateRequest.decode : PayloadReader ReplicateRequest := do
  let topic ← getString
  let partition ← getI32
  let leaderId ← getI32
  ensure (0 ≤ partition)
  let leaderEpoch ← getI64
  let baseOffset ← getI64
  let prevOffset ← getI64
  let leaderHighWaterMark ← getI64
  let leaderLogStartOffset ← getI64
  let recordCount ← getU32
  let records ← getRecords
  pure ⟨topic, partition, leaderId, leaderEpoch, baseOffset, prevOffset, leaderHighWaterMark,
    leaderLogStartOffset, recordCount, records⟩

structure ReplicateResponse where
  header : ResponseHeader
  followerId : Int32
  logEndOffset : Int64
  flushedOffset : Int64
  leaderEpoch : Int64
  deriving Repr, DecidableEq

def ReplicateResponse.encode (m : ReplicateResponse) : Bytes :=
  [m.header.encode, putI32 m.followerId, putI64 m.logEndOffset, putI64 m.flushedOffset,
    putI64 m.leaderEpoch].flatten

def ReplicateResponse.decode : PayloadReader ReplicateResponse := do
  let header ← ResponseHeader.decode
  let followerId ← getI32
  let logEndOffset ← getI64
  let flushedOffset ← getI64
  let leaderEpoch ← getI64
  pure { header, followerId, logEndOffset, flushedOffset, leaderEpoch }

structure ReplicaFetchRequest where
  topic : Bytes
  partition : Int32
  followerId : Int32
  leaderEpoch : Int64
  fetchOffset : Int64
  maxBytes : UInt32
  deriving Repr, DecidableEq

def ReplicaFetchRequest.encode (m : ReplicaFetchRequest) : Bytes :=
  [putString m.topic, putI32 m.partition, putI32 m.followerId, putI64 m.leaderEpoch,
    putI64 m.fetchOffset, putU32 m.maxBytes].flatten

def ReplicaFetchRequest.decode : PayloadReader ReplicaFetchRequest := do
  let topic ← getString
  let partition ← getI32
  let followerId ← getI32
  ensure (0 ≤ partition)
  let leaderEpoch ← getI64
  let fetchOffset ← getI64
  let maxBytes ← getU32
  pure { topic, partition, followerId, leaderEpoch, fetchOffset, maxBytes }

structure ReplicaFetchResponse where
  header : ResponseHeader
  leaderEpoch : Int64
  highWaterMark : Int64
  logStartOffset : Int64
  baseOffset : Int64
  recordCount : UInt32
  records : Bytes
  deriving Repr, DecidableEq

def ReplicaFetchResponse.encode (m : ReplicaFetchResponse) : Bytes :=
  [m.header.encode, putI64 m.leaderEpoch, putI64 m.highWaterMark, putI64 m.logStartOffset,
    putI64 m.baseOffset, putU32 m.recordCount, putRecords m.records].flatten

def ReplicaFetchResponse.decode : PayloadReader ReplicaFetchResponse := do
  let header ← ResponseHeader.decode
  let leaderEpoch ← getI64
  let highWaterMark ← getI64
  let logStartOffset ← getI64
  let baseOffset ← getI64
  let recordCount ← getU32
  let records ← getRecords
  pure { header, leaderEpoch, highWaterMark, logStartOffset, baseOffset, recordCount, records }

structure ReplicaAckRequest where
  topic : Bytes
  partition : Int32
  followerId : Int32
  leaderEpoch : Int64
  logEndOffset : Int64
  flushedOffset : Int64
  deriving Repr, DecidableEq

def ReplicaAckRequest.encode (m : ReplicaAckRequest) : Bytes :=
  [putString m.topic, putI32 m.partition, putI32 m.followerId, putI64 m.leaderEpoch,
    putI64 m.logEndOffset, putI64 m.flushedOffset].flatten

def ReplicaAckRequest.decode : PayloadReader ReplicaAckRequest := do
  let topic ← getString
  let partition ← getI32
  let followerId ← getI32
  ensure (0 ≤ partition)
  let leaderEpoch ← getI64
  let logEndOffset ← getI64
  let flushedOffset ← getI64
  pure { topic, partition, followerId, leaderEpoch, logEndOffset, flushedOffset }

structure ReplicaAckResponse where
  header : ResponseHeader
  highWaterMark : Int64
  deriving Repr, DecidableEq

def ReplicaAckResponse.encode (m : ReplicaAckResponse) : Bytes :=
  [m.header.encode, putI64 m.highWaterMark].flatten

def ReplicaAckResponse.decode : PayloadReader ReplicaAckResponse := do
  let header ← ResponseHeader.decode
  let highWaterMark ← getI64
  pure { header, highWaterMark }

/-! ## 6. All messages -/

/-- The request and response messages. -/
inductive PayloadType where
  | produceRequest | produceResponse | fetchRequest | fetchResponse | listOffsetsRequest
  | listOffsetsResponse | createTopicRequest | createTopicResponse | deleteTopicRequest
  | deleteTopicResponse | metadataRequest | metadataResponse | listTopicsRequest
  | listTopicsResponse | healthRequest | healthResponse | describeClusterRequest
  | describeClusterResponse | joinGroupRequest | joinGroupResponse | heartbeatRequest
  | heartbeatResponse | leaveGroupRequest | leaveGroupResponse | commitOffsetRequest
  | commitOffsetResponse | fetchOffsetRequest | fetchOffsetResponse | replicateRequest
  | replicateResponse | replicaFetchRequest | replicaFetchResponse | replicaAckRequest
  | replicaAckResponse
  deriving Repr, DecidableEq

/-- The values of a message type. -/
abbrev PayloadType.Value : PayloadType → Type
  | .produceRequest => ProduceRequest
  | .produceResponse => ProduceResponse
  | .fetchRequest => FetchRequest
  | .fetchResponse => FetchResponse
  | .listOffsetsRequest => ListOffsetsRequest
  | .listOffsetsResponse => ListOffsetsResponse
  | .createTopicRequest => CreateTopicRequest
  | .createTopicResponse => CreateTopicResponse
  | .deleteTopicRequest => DeleteTopicRequest
  | .deleteTopicResponse => HeaderOnlyResponse
  | .metadataRequest => MetadataRequest
  | .metadataResponse => MetadataResponse
  | .listTopicsRequest => EmptyRequest
  | .listTopicsResponse => ListTopicsResponse
  | .healthRequest => EmptyRequest
  | .healthResponse => HealthResponse
  | .describeClusterRequest => EmptyRequest
  | .describeClusterResponse => DescribeClusterResponse
  | .joinGroupRequest => JoinGroupRequest
  | .joinGroupResponse => JoinGroupResponse
  | .heartbeatRequest => HeartbeatRequest
  | .heartbeatResponse => HeartbeatResponse
  | .leaveGroupRequest => LeaveGroupRequest
  | .leaveGroupResponse => HeaderOnlyResponse
  | .commitOffsetRequest => CommitOffsetRequest
  | .commitOffsetResponse => HeaderOnlyResponse
  | .fetchOffsetRequest => FetchOffsetRequest
  | .fetchOffsetResponse => FetchOffsetResponse
  | .replicateRequest => ReplicateRequest
  | .replicateResponse => ReplicateResponse
  | .replicaFetchRequest => ReplicaFetchRequest
  | .replicaFetchResponse => ReplicaFetchResponse
  | .replicaAckRequest => ReplicaAckRequest
  | .replicaAckResponse => ReplicaAckResponse

def PayloadType.encode : (t : PayloadType) → t.Value → Bytes
  | .produceRequest, m => ProduceRequest.encode m
  | .produceResponse, m => ProduceResponse.encode m
  | .fetchRequest, m => FetchRequest.encode m
  | .fetchResponse, m => FetchResponse.encode m
  | .listOffsetsRequest, m => ListOffsetsRequest.encode m
  | .listOffsetsResponse, m => ListOffsetsResponse.encode m
  | .createTopicRequest, m => CreateTopicRequest.encode m
  | .createTopicResponse, m => CreateTopicResponse.encode m
  | .deleteTopicRequest, m => DeleteTopicRequest.encode m
  | .deleteTopicResponse, m => HeaderOnlyResponse.encode m
  | .metadataRequest, m => MetadataRequest.encode m
  | .metadataResponse, m => MetadataResponse.encode m
  | .listTopicsRequest, m => EmptyRequest.encode m
  | .listTopicsResponse, m => ListTopicsResponse.encode m
  | .healthRequest, m => EmptyRequest.encode m
  | .healthResponse, m => HealthResponse.encode m
  | .describeClusterRequest, m => EmptyRequest.encode m
  | .describeClusterResponse, m => DescribeClusterResponse.encode m
  | .joinGroupRequest, m => JoinGroupRequest.encode m
  | .joinGroupResponse, m => JoinGroupResponse.encode m
  | .heartbeatRequest, m => HeartbeatRequest.encode m
  | .heartbeatResponse, m => HeartbeatResponse.encode m
  | .leaveGroupRequest, m => LeaveGroupRequest.encode m
  | .leaveGroupResponse, m => HeaderOnlyResponse.encode m
  | .commitOffsetRequest, m => CommitOffsetRequest.encode m
  | .commitOffsetResponse, m => HeaderOnlyResponse.encode m
  | .fetchOffsetRequest, m => FetchOffsetRequest.encode m
  | .fetchOffsetResponse, m => FetchOffsetResponse.encode m
  | .replicateRequest, m => ReplicateRequest.encode m
  | .replicateResponse, m => ReplicateResponse.encode m
  | .replicaFetchRequest, m => ReplicaFetchRequest.encode m
  | .replicaFetchResponse, m => ReplicaFetchResponse.encode m
  | .replicaAckRequest, m => ReplicaAckRequest.encode m
  | .replicaAckResponse, m => ReplicaAckResponse.encode m

def PayloadType.decode : (t : PayloadType) → PayloadReader t.Value
  | .produceRequest => ProduceRequest.decode
  | .produceResponse => ProduceResponse.decode
  | .fetchRequest => FetchRequest.decode
  | .fetchResponse => FetchResponse.decode
  | .listOffsetsRequest => ListOffsetsRequest.decode
  | .listOffsetsResponse => ListOffsetsResponse.decode
  | .createTopicRequest => CreateTopicRequest.decode
  | .createTopicResponse => CreateTopicResponse.decode
  | .deleteTopicRequest => DeleteTopicRequest.decode
  | .deleteTopicResponse => HeaderOnlyResponse.decode
  | .metadataRequest => MetadataRequest.decode
  | .metadataResponse => MetadataResponse.decode
  | .listTopicsRequest => EmptyRequest.decode
  | .listTopicsResponse => ListTopicsResponse.decode
  | .healthRequest => EmptyRequest.decode
  | .healthResponse => HealthResponse.decode
  | .describeClusterRequest => EmptyRequest.decode
  | .describeClusterResponse => DescribeClusterResponse.decode
  | .joinGroupRequest => JoinGroupRequest.decode
  | .joinGroupResponse => JoinGroupResponse.decode
  | .heartbeatRequest => HeartbeatRequest.decode
  | .heartbeatResponse => HeartbeatResponse.decode
  | .leaveGroupRequest => LeaveGroupRequest.decode
  | .leaveGroupResponse => HeaderOnlyResponse.decode
  | .commitOffsetRequest => CommitOffsetRequest.decode
  | .commitOffsetResponse => HeaderOnlyResponse.decode
  | .fetchOffsetRequest => FetchOffsetRequest.decode
  | .fetchOffsetResponse => FetchOffsetResponse.decode
  | .replicateRequest => ReplicateRequest.decode
  | .replicateResponse => ReplicateResponse.decode
  | .replicaFetchRequest => ReplicaFetchRequest.decode
  | .replicaFetchResponse => ReplicaFetchResponse.decode
  | .replicaAckRequest => ReplicaAckRequest.decode
  | .replicaAckResponse => ReplicaAckResponse.decode

end Protocol

end PulseLog
