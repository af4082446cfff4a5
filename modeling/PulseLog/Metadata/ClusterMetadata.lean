/-
  Subject:   The topics a broker knows and where their partitions are placed
             (src/metadata/cluster_metadata.cc, src/base/types.cc).

  Every method runs under the metadata's mutex, so it is one step. The addresses of the brokers and
  the metadata file are left out.

  * `computeAssignments` -- the placement depends on the name, the counts and the broker list only;
  * `Placed` -- a descriptor that `createTopic` made; `createTopic_ok` says what the method does.
-/
import PulseLog.Broker.PartitionReplica
import PulseLog.General.Keyed
import Mathlib.Data.Int.DivMod
import Mathlib.Data.String.Basic

namespace PulseLog

/-! ## 1. Topics -/

/-- `kMaxTopicNameLength`. -/
def maxTopicNameLength : Nat := 200

/-- `IsValidTopicName`. -/
def isValidTopicName (name : String) : Bool :=
  !name.isEmpty && name.utf8ByteSize ≤ maxTopicNameLength && name != "." && name != ".." &&
    name.toList.all fun c =>
      ('a' ≤ c && c ≤ 'z') || ('A' ≤ c && c ≤ 'Z') || ('0' ≤ c && c ≤ '9') || c == '.' ||
        c == '_' || c == '-'

/-- The part of `TopicConfig` that is only stored; -1 leaves a limit to the broker. -/
structure TopicSettings where
  retentionMs : Int := -1
  segmentBytes : Int := -1
  compression : Compression := .none
  deriving Repr, DecidableEq

/-- `TopicConfig`. -/
structure TopicConfig where
  name : String
  partitionCount : Int
  replicationFactor : Int
  settings : TopicSettings
  deriving Repr, DecidableEq

/-- The metadata's `PartitionAssignment`: with its index and the published in-sync list. -/
structure PartitionPlacement extends PartitionAssignment where
  index : Nat
  inSyncReplicas : List Nat
  deriving Repr, DecidableEq

/-- `TopicDescriptor`. -/
structure TopicDescriptor where
  config : TopicConfig
  partitions : List PartitionPlacement
  deriving Repr, DecidableEq

def TopicDescriptor.name (d : TopicDescriptor) : String := d.config.name

/-- What two brokers have to agree on: the partition count, and each partition's replicas and
    leader. -/
def TopicDescriptor.layout (d : TopicDescriptor) : Int × List (List Nat × Nat) :=
  (d.config.partitionCount, d.partitions.map fun p => (p.replicas, p.leader))

/-- `TopicMetadata` of a metadata response. -/
structure TopicMetadata where
  name : String
  partitions : List PartitionPlacement
  deriving Repr, DecidableEq

/-- `ClusterMetadata`: the broker ids in order, and the topics under their names. -/
structure ClusterMetadata where
  brokers : List Nat
  topics : List TopicDescriptor
  deriving Repr, DecidableEq

namespace ClusterMetadata

variable {m m' : ClusterMetadata} {config : TopicConfig} {d : TopicDescriptor} {created : Bool}

/-- `ControllerId`: the first broker. -/
def controllerId (m : ClusterMetadata) : Option Nat := m.brokers.head?

def findTopic (m : ClusterMetadata) (name : String) : Option TopicDescriptor :=
  findKey TopicDescriptor.name m.topics name

/-- `HasTopic`. -/
def hasTopic (m : ClusterMetadata) (name : String) : Bool := (m.findTopic name).isSome

/-- `GetTopic`. -/
def getTopic (m : ClusterMetadata) (name : String) : Except Status TopicDescriptor :=
  match m.findTopic name with
  | none => .error ⟨.notFound, "unknown topic '" ++ name ++ "'"⟩
  | some d => .ok d

/-- One partition of `ComputeAssignments`. -/
def placement (brokers : List Nat) (replication topicOffset p : Nat) : PartitionPlacement :=
  let replicas := (List.range replication).map fun r =>
    brokers.getD ((p + r + topicOffset) % brokers.length) 0
  { leader := replicas.headD 0, leaderEpoch := 0, replicas, index := p, inSyncReplicas := replicas }

/-- `ComputeAssignments`. -/
def computeAssignments (brokers : List Nat) (config : TopicConfig) : List PartitionPlacement :=
  if brokers.length = 0 then []
  else
    let replication := min config.replicationFactor.toNat brokers.length
    let topicOffset := (crc32c config.name.toUTF8.toList).toNat % brokers.length
    (List.range config.partitionCount.toNat).map (placement brokers replication topicOffset)

/-- `CreateTopic`: the descriptor, whether it is new, and the metadata after it. A refused request
    changes nothing. -/
def createTopic (m : ClusterMetadata) (config : TopicConfig) :
    Except Status (TopicDescriptor × Bool × ClusterMetadata) :=
  if !isValidTopicName config.name then
    .error (.invalidArgument
      ("invalid topic name '" ++ config.name ++ "' (allowed: letters, digits, . _ -)"))
  else if config.partitionCount ≤ 0 then
    .error (.invalidArgument s!"partition count must be positive, got {config.partitionCount}")
  else if config.replicationFactor ≤ 0 then
    .error (.invalidArgument "replication factor must be positive")
  else if m.brokers = [] then
    .error ⟨.unavailable, "cluster membership is not configured"⟩
  -- the broker count is cast to int16
  else if config.replicationFactor > Int.bmod m.brokers.length (2 ^ 16) then
    .error (.invalidArgument (s!"replication factor {config.replicationFactor}" ++
      s!" exceeds the broker count {m.brokers.length}"))
  else
    match m.findTopic config.name with
    | some d =>
      if d.config.partitionCount ≠ config.partitionCount ∨
          d.config.replicationFactor ≠ config.replicationFactor then
        .error ⟨.alreadyExists, "topic '" ++ config.name ++
          s!"' exists with {d.config.partitionCount} partitions and replication factor " ++
          s!"{d.config.replicationFactor}"⟩
      else .ok (d, false, m)
    | none =>
      let d := ⟨config, computeAssignments m.brokers config⟩
      .ok (d, true, { m with topics := putKey TopicDescriptor.name m.topics d })

/-- `UpsertTopic`. -/
def upsertTopic (m : ClusterMetadata) (d : TopicDescriptor) : Except Status ClusterMetadata :=
  if !isValidTopicName d.config.name then
    .error (.invalidArgument ("invalid topic name '" ++ d.config.name ++ "'"))
  else .ok { m with topics := putKey TopicDescriptor.name m.topics d }

/-- `DeleteTopic`. -/
def deleteTopic (m : ClusterMetadata) (name : String) : Except Status ClusterMetadata :=
  if m.hasTopic name then
    .ok { m with topics := m.topics.filter (fun d => d.name != name) }
  else .error ⟨.notFound, "topic '" ++ name ++ "' does not exist"⟩

/-- The entry of a topic in a metadata response. -/
def describe (d : TopicDescriptor) : TopicMetadata := ⟨d.config.name, d.partitions⟩

/-- `BuildMetadataResponse`; an empty list of names asks for every topic. -/
def buildMetadataResponse (m : ClusterMetadata) (requested : List String) : List TopicMetadata :=
  if requested = [] then m.topics.map describe
  else requested.filterMap fun name => (m.findTopic name).map describe

/-! ## 2. What the methods do -/

/-- A descriptor as `createTopic` makes it for these brokers, when it is asked for no settings. -/
structure Placed (brokers : List Nat) (d : TopicDescriptor) : Prop where
  name : isValidTopicName d.config.name = true
  count : 0 < d.config.partitionCount
  factor : 0 < d.config.replicationFactor
  nonempty : brokers ≠ []
  fits : d.config.replicationFactor ≤ Int.bmod brokers.length (2 ^ 16)
  partitions : d.partitions = computeAssignments brokers d.config
  settings : d.config.settings = {}

/-- **A created topic** is the one already there, or a freshly placed one under a new name. -/
theorem createTopic_ok (hs : config.settings = {})
    (h : m.createTopic config = .ok (d, created, m')) :
    (created = false ∧ m' = m ∧ m.findTopic config.name = some d) ∨
      (created = true ∧ d.config = config ∧ Placed m.brokers d ∧ m.findTopic config.name = none ∧
        m' = { m with topics := putKey TopicDescriptor.name m.topics d }) := by
  unfold createTopic at h
  split at h
  · simp at h
  rename_i hname
  split at h
  · simp at h
  rename_i hcount
  split at h
  · simp at h
  rename_i hfactor
  split at h
  · simp at h
  rename_i hbrokers
  split at h
  · simp at h
  rename_i hfits
  split at h
  · rename_i hfind
    split at h
    · simp at h
    · cases h
      exact .inl ⟨rfl, rfl, hfind⟩
  · rename_i hfind
    cases h
    exact .inr ⟨rfl, rfl, ⟨by simpa using hname, not_le.mp hcount, not_le.mp hfactor, hbrokers,
      not_lt.mp hfits, rfl, hs⟩, hfind, rfl⟩

/-- A placed topic can be created again, with the same placement, wherever the name is free. -/
theorem createTopic_placed (hp : Placed m.brokers d) (hfree : m.findTopic d.name = none) :
    m.createTopic d.config =
      .ok (d, true, { m with topics := putKey TopicDescriptor.name m.topics d }) := by
  have hd : ⟨d.config, computeAssignments m.brokers d.config⟩ = d := by
    rw [← hp.partitions]
  unfold createTopic
  rw [if_neg (by simp [hp.name]), if_neg (by have := hp.count; omega),
    if_neg (by have := hp.factor; omega), if_neg hp.nonempty, if_neg (by have := hp.fits; omega)]
  rw [show m.findTopic d.config.name = none from hfree]
  simp only [hd]

/-- The number of partitions of a placed topic is the count it was created with. -/
theorem Placed.length {brokers : List Nat} (hp : Placed brokers d) :
    (d.partitions.length : Int) = d.config.partitionCount := by
  have hne : brokers.length ≠ 0 := fun h => hp.nonempty (List.length_eq_zero_iff.mp h)
  have hcount := hp.count
  rw [hp.partitions, computeAssignments, if_neg hne, List.length_map, List.length_range]
  omega

end ClusterMetadata

end PulseLog
