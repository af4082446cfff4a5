/-
  Subject:   How topics spread over a cluster: creation through the controller, its broadcasts, the
             reconciliation of the other brokers, and deletion (src/broker/broker.cc,
             src/broker/request_handler.cc).

  A request between two brokers is a message in flight until it is handled or lost; a local request
  that takes several steps is one too.

  * `Completes`, `Agree` -- the end of a reconciliation, and what it should establish.
-/
import PulseLog.Metadata.ClusterMetadata
import PulseLog.General.Run
import Mathlib.Logic.Function.Basic

namespace PulseLog

open ClusterMetadata

/-! ## 1. The requests -/

/-- The settings of `BrokerConfig` that topic creation reads. -/
structure TopicDefaults where
  defaultPartitions : Int
  defaultReplicationFactor : Int
  autoCreateTopics : Bool
  deriving Repr, DecidableEq

/-- `CreateTopicRequest`. -/
structure CreateTopicRequest where
  topic : String
  partitions : Int
  replicationFactor : Int
  settings : TopicSettings
  fromController : Bool
  deriving Repr, DecidableEq

/-- What `EnsureTopic` comes to before any network call. -/
inductive Ensured where
  /-- answered here: the metadata after it, and the topic to broadcast -/
  | answered (result : Except Status TopicDescriptor) (after : ClusterMetadata)
      (broadcast : Option TopicDescriptor)
  | forwarded (request : CreateTopicRequest)

/-- `EnsureTopic` on the broker `self`. Opening the partitions of a new topic may fail: the topic
    stays in the metadata, and is not broadcast. -/
def ensureTopic (self : Nat) (m : ClusterMetadata) (topic : String)
    (partitions replicationFactor : Int) (applyLocally : Bool) (opened : Option Status) : Ensured :=
  match m.getTopic topic with
  | .ok d => .answered (.ok d) m none
  | .error _ =>
    if m.controllerId = some self ∨ applyLocally = true then
      match m.createTopic ⟨topic, partitions, replicationFactor, {}⟩ with
      | .error e => .answered (.error e) m none
      | .ok (d, created, m') =>
        match opened with
        | some e => .answered (.error e) m' none
        | none => .answered (.ok d) m'
            (if created ∧ applyLocally = false ∧ m'.brokers.length > 1 then some d else none)
    else
      match m.controllerId with
      | none => .answered (.error ⟨.unavailable, "controller -1 is not configured"⟩) m none
      | some _ => .forwarded ⟨topic, partitions, replicationFactor, {}, false⟩

/-- The request of `BroadcastTopic`. -/
def broadcastRequest (d : TopicDescriptor) : CreateTopicRequest :=
  ⟨d.config.name, d.config.partitionCount, d.config.replicationFactor, d.config.settings, true⟩

/-- The descriptor `ReconcileMetadataFromController` builds from a response. -/
def adoptedDescriptor (t : TopicMetadata) : TopicDescriptor :=
  ⟨⟨t.name, t.partitions.length,
    match t.partitions with
    | [] => 1
    | p :: _ => p.replicas.length, {}⟩, t.partitions⟩

/-- One topic of the loop of `ReconcileMetadataFromController`. -/
def adoptTopic (m : ClusterMetadata) (t : TopicMetadata) : Except Status ClusterMetadata :=
  if m.hasTopic t.name then .ok m else m.upsertTopic (adoptedDescriptor t)

/-! ## 2. The cluster -/

/-- What is under way. -/
inductive Message where
  /-- a creation the broker `src` forwarded to the controller -/
  | forward (src : Nat) (req : CreateTopicRequest)
  /-- a topic the controller broadcasts to `dst` -/
  | push (dst : Nat) (req : CreateTopicRequest)
  /-- the metadata request of `src` to the controller -/
  | pull (src : Nat)
  /-- the topics of the response that `dst` has not yet looked at -/
  | answer (dst : Nat) (topics : List TopicMetadata)
  /-- a deletion that has found the topic and not yet erased it -/
  | deleting (broker : Nat) (topic : String)
  deriving Repr, DecidableEq

/-- The brokers (the first is the controller), the topics each of them knows, and what is in
    flight. -/
structure Directory where
  brokers : List Nat
  topics : Nat → List TopicDescriptor
  inFlight : List Message

inductive TopicEvent where
  /-- CREATE_TOPIC from a client -/
  | create (broker : Nat) (topic : String) (partitions replicationFactor : Int)
      (opened : Option Status)
  /-- PRODUCE to a partition the broker does not have -/
  | produce (broker : Nat) (topic : String) (partition : Int) (opened : Option Status)
  /-- DELETE_TOPIC from a client, up to the lookup -/
  | delete (broker : Nat) (topic : String)
  /-- the maintenance loop starts a reconciliation -/
  | reconcile (broker : Nat)
  /-- what stands in place `i` in flight takes its next step -/
  | deliver (i : Nat) (opened : Option Status)
  | lose (i : Nat)
  deriving Repr, DecidableEq

namespace Directory

/-- A new cluster. -/
def start (brokers : List Nat) : Directory := ⟨brokers, fun _ => [], []⟩

def metadata (s : Directory) (b : Nat) : ClusterMetadata := ⟨s.brokers, s.topics b⟩

def send (s : Directory) (ms : List Message) : Directory := { s with inFlight := s.inFlight ++ ms }

def setTopics (s : Directory) (b : Nat) (topics : List TopicDescriptor) : Directory :=
  { s with topics := Function.update s.topics b topics }

/-- `BroadcastTopic`: one request for every peer. -/
def broadcast (s : Directory) (self : Nat) : Option TopicDescriptor → List Message
  | none => []
  | some d => (s.brokers.filter (fun b => b != self)).map fun b => .push b (broadcastRequest d)

/-- `EnsureTopic` on broker `b`, and whether it is answered with success. -/
def ensure (s : Directory) (b : Nat) (topic : String) (partitions replicationFactor : Int)
    (applyLocally : Bool) (opened : Option Status) : Directory × Bool :=
  match ensureTopic b (s.metadata b) topic partitions replicationFactor applyLocally opened with
  | .answered result after d =>
    ((s.setTopics b after.topics).send (s.broadcast b d), result.isOk)
  | .forwarded req => (s.send [.forward b req], false)

variable (config : Nat → TopicDefaults)

/-- `ExecuteCreateTopic`. -/
def executeCreateTopic (s : Directory) (b : Nat) (req : CreateTopicRequest)
    (opened : Option Status) : Directory × Bool :=
  s.ensure b req.topic
    (if req.partitions > 0 then req.partitions else (config b).defaultPartitions)
    (if req.replicationFactor > 0 then req.replicationFactor
      else (config b).defaultReplicationFactor)
    req.fromController opened

/-- The auto-creation of `ResolvePartition`. -/
def resolvePartition (s : Directory) (b : Nat) (topic : String) (partition : Int)
    (opened : Option Status) : Directory :=
  if (s.metadata b).hasTopic topic || !(config b).autoCreateTopics || !isValidTopicName topic then s
  else
    (s.ensure b topic (max (config b).defaultPartitions (Int.bmod (partition + 1) (2 ^ 32)))
      (config b).defaultReplicationFactor false opened).1

/-- A message is handled; it is no longer in flight. -/
def handle (s : Directory) (opened : Option Status) : Message → Directory
  | .forward src req =>
    match s.brokers.head? with
    | none => s
    | some c =>
      let (s', ok) := s.executeCreateTopic config c req opened
      -- the broker that forwarded the request goes on with a reconciliation
      if ok then s'.send [.pull src] else s'
  | .push dst req => (s.executeCreateTopic config dst req opened).1
  | .pull src =>
    match s.brokers.head? with
    | none => s
    | some c => s.send [.answer src ((s.metadata c).buildMetadataResponse [])]
  | .answer _ [] => s
  | .answer dst (t :: rest) =>
    match adoptTopic (s.metadata dst) t with
    | .error _ => s
    | .ok m => (s.setTopics dst m.topics).send [.answer dst rest]
  | .deleting b topic =>
    match (s.metadata b).deleteTopic topic with
    | .error _ => s
    | .ok m => s.setTopics b m.topics

/-- The state without the message in place `i`. -/
def take (s : Directory) (i : Nat) : Directory := { s with inFlight := s.inFlight.eraseIdx i }

/-- A deletion runs on its own broker: it is not lost. -/
def losable : Message → Bool
  | .deleting _ _ => false
  | _ => true

def step (s : Directory) : TopicEvent → Directory
  | .create b topic partitions replicationFactor opened =>
    -- the settings of a request are never read
    (s.executeCreateTopic config b ⟨topic, partitions, replicationFactor, {}, false⟩ opened).1
  | .produce b topic partition opened => s.resolvePartition config b topic partition opened
  | .delete b topic =>
    if (s.metadata b).hasTopic topic then s.send [.deleting b topic] else s
  | .reconcile b =>
    -- the controller has nothing to pull
    if (s.metadata b).controllerId = some b ∨ (s.metadata b).controllerId = none then s
    else s.send [.pull b]
  | .deliver i opened =>
    match s.inFlight[i]? with
    | none => s
    | some m => (s.take i).handle config opened m
  | .lose i =>
    match s.inFlight[i]? with
    | none => s
    | some m => if losable m then s.take i else s

def run (s : Directory) (es : List TopicEvent) : Directory := es.foldl (step config) s

/-- The event ends a reconciliation of `b`. -/
def Completes (b : Nat) (s : Directory) (e : TopicEvent) : Prop :=
  match e with
  | .deliver i _ => s.inFlight[i]? = some (.answer b [])
  | _ => False

instance (b : Nat) (s : Directory) (e : TopicEvent) : Decidable (Completes b s e) := by
  cases e <;> unfold Completes <;> infer_instance

/-- Two brokers know the same topics, with the same layout. -/
def Agree (s : Directory) (a b : Nat) : Prop :=
  ∀ name, ((s.metadata a).findTopic name).map TopicDescriptor.layout =
    ((s.metadata b).findTopic name).map TopicDescriptor.layout

end Directory

end PulseLog
